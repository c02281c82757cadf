import Syndeo.Cache.Alone

/-!
# A store in order

What operations that run one at a time keep up: the counts are exact, every blob
that has a record has its file, every file is of a blob that has a record, and
what the entries say fits. Between two transactions files may be *loose*, written
and without a record as yet; `Syndeo.Tidy` says which ones may be.

Each transaction that writes keeps a store tidy (`Syndeo.Tidy.putEntry`,
`Syndeo.Tidy.refresh`, `Syndeo.Tidy.takeOut`, `Syndeo.Tidy.sweep`), and what it
does to the loose files is part of the statement.
-/

namespace Syndeo

open Concurrent Tables Intervals
open Prog (Yields)

/-- The segments of a partial entry come in ascending order, and none is empty. -/
def StoredBody.Ordered : StoredBody → Prop
  | .Complete _ _ => True
  | .Partial _ segments =>
    Proper (segments.map Segment.run) ∧ Ascending (segments.map Segment.run)

/-- Whether a run is held is read off the coverage. -/
theorem StoredBody.Ordered.covers_iff {b : StoredBody} (h : b.Ordered) {first stop : ℕ} :
    b.coverage.covers first stop = true ↔ Set.Ico first stop ⊆ b.points := by
  rw [← points_coverage]
  refine Coverage.covers_iff ?_
  cases b with
  | Complete content len => exact List.pairwise_singleton _ _
  | Partial completeLen segments => exact (Coverage.apart_fromSorted h.1).2

/-- **The store is in order**, with these files loose. What the files hold is in
`B`. -/
structure Tidy (P : Platform) (B : Set Bytes) (loose : Set ContentId) (s : Store) : Prop where
  counted : s.index.RefcountsExact
  backed : ∀ c, s.index.Recorded c → (s.files.lookup c).isSome = true
  recorded : ∀ c, (s.files.lookup c).isSome = true → s.index.Recorded c ∨ c ∈ loose
  sound : ∀ id raw, s.files.lookup id = some raw →
    ∃ bytes ∈ B, decodeFile P raw = .ok (some bytes) ∧ P.blake3 bytes = id
  keyed : ∀ k r, s.index.entries.lookup k = some r → r.key = k
  ordered : ∀ k r, s.index.entries.lookup k = some r → r.body.Ordered

namespace Tidy

variable {P : Platform} {B : Set Bytes} {loose loose' : Set ContentId} {s u : Store}
  {record old : EntryRecord}

/-- It is a matter of the entries, the records and the files. -/
theorem congr (h : Tidy P B loose s) (hentries : u.index.entries = s.index.entries)
    (hblobs : u.index.blobs = s.index.blobs) (hfiles : u.files = s.files) : Tidy P B loose u := by
  obtain ⟨hcounted, hbacked, hrecorded, hsound, hkeyed, hordered⟩ := h
  refine ⟨?_, ?_, ?_, ?_, ?_, ?_⟩
  · rwa [Index.RefcountsExact, show u.index.refcount = s.index.refcount from
      funext fun c => by rw [Index.refcount, hblobs]; rfl,
      show u.index.references = s.index.references from
        funext fun c => by rw [Index.references, hentries]; rfl]
  · intro c hc
    rw [Index.Recorded, hblobs] at hc
    rw [hfiles]
    exact hbacked c hc
  · intro c hc
    rw [hfiles] at hc
    rw [Index.Recorded, hblobs]
    exact hrecorded c hc
  · rwa [hfiles]
  · rwa [hentries]
  · rwa [hentries]

theorem alike (h : Tidy P B loose s) (hu : s.Alike u) : Tidy P B loose u :=
  h.congr hu.entries hu.blobs hu.files

/-- A loose file that has a record need not be called loose. -/
theorem mono (h : Tidy P B loose s) (hsub : ∀ c ∈ loose, s.index.Recorded c ∨ c ∈ loose') :
    Tidy P B loose' s :=
  ⟨h.counted, h.backed, fun c hc => (h.recorded c hc).elim Or.inl (hsub c), h.sound, h.keyed,
    h.ordered⟩

theorem whole (h : Tidy P B loose s) (c : ContentId) : s.files.lookup c ≠ some [] := by
  intro hc
  obtain ⟨bytes, -, hdecoded, -⟩ := h.sound c [] hc
  exact absurd hdecoded (by simp [decodeFile])

/-- What an entry names has its file. -/
theorem filed (h : Tidy P B loose s) {k : String} {c : ContentId}
    (hr : s.index.entries.lookup k = some record) (hc : c ∈ record.contents) :
    (s.files.lookup c).isSome = true :=
  h.backed c (Index.recorded_of_named h.counted hr hc)

/-! ### Files -/

/-- **A file that is there is read back.** -/
theorem yields_get (h : Tidy P B loose s) {i : ℕ} {ok : ∀ {β : Type}, CacheAct β → Store → Prop}
    {id : ContentId} (hfile : (s.files.lookup id).isSome = true) :
    Yields (aloneDiscipline i ok) (get P id) s fun bytes u => u = s ∧
      (bytes ∈ B ∧ P.blake3 bytes = id ∧
        ∀ raw, s.files.lookup id = some raw → decodeFile P raw = .ok (some bytes)) := by
  obtain ⟨raw, hraw⟩ := Option.isSome_iff_exists.mp hfile
  obtain ⟨bytes, hB, hdecoded, hid⟩ := h.sound id raw hraw
  refine (Syndeo.yields_get hraw hdecoded hid).mono fun b u hb => ?_
  obtain ⟨rfl, rfl⟩ := hb
  refine ⟨rfl, hB, hid, fun raw' hraw' => ?_⟩
  rwa [← Option.some.inj (hraw.symm.trans hraw')]

/-- **A body is written.** -/
theorem putFile (h : Tidy P B loose s) (hP : P.Lossless) {bytes : Bytes} (hB : bytes ∈ B) :
    Tidy P B (insert (P.blake3 bytes) loose) { s with files := putFile P bytes s.files } where
  counted := h.counted
  backed c hc := isSome_lookup_putFile.mpr (Or.inl (h.backed c hc))
  recorded c hc := by
    rcases isSome_lookup_putFile.mp hc with hold | rfl
    · exact (h.recorded c hold).imp_right fun hloose => Set.mem_insert_of_mem _ hloose
    · exact Or.inr (Set.mem_insert _ _)
  sound id raw hraw := by
    rcases lookup_putFile hraw with hold | ⟨rfl, rfl⟩
    · exact h.sound id raw hold
    · exact ⟨bytes, hB, decodeFile_blobFile P hP bytes, rfl⟩
  keyed := h.keyed
  ordered := h.ordered

/-- Several are written. -/
theorem putFiles (h : Tidy P B loose s) (hP : P.Lossless) {bodies : List Bytes}
    (hB : ∀ bytes ∈ bodies, bytes ∈ B) :
    Tidy P B (loose ∪ {c | c ∈ bodies.map P.blake3})
      { s with files := putFiles P bodies s.files } := by
  induction bodies generalizing s loose with
  | nil => exact h.mono fun c hc => Or.inr (Or.inl hc)
  | cons bytes rest ih =>
    have hput := ih (h.putFile hP (hB bytes List.mem_cons_self))
      fun b hb => hB b (List.mem_cons_of_mem _ hb)
    refine Tidy.mono hput fun c hc => Or.inr ?_
    rcases hc with (rfl | hc) | hc
    · exact Or.inr List.mem_cons_self
    · exact Or.inl hc
    · exact Or.inr (List.mem_cons_of_mem _ hc)

/-! ### Transactions -/

/-- **An entry is written**: what it names is not loose any more. -/
theorem putEntry (h : Tidy P B loose s) {newBlobs : List (ContentId × BlobRecord)}
    {orphaned : List ContentId} {ix : Index}
    (hfiled : ∀ c ∈ record.contents, (s.files.lookup c).isSome = true)
    (hordered : record.body.Ordered)
    (hroom : ∀ c ∈ record.contents, c ∉ s.index.heldAt record.key →
      s.index.refcount c < Index.maxRefcount)
    (hput : s.index.putEntry record newBlobs = .ok (orphaned, ix)) :
    Tidy P B (loose \ {c | c ∈ record.contents}) { s with index := ix } where
  counted := Index.putEntry_exact h.counted hroom hput
  backed c hc := by
    rcases (Index.recorded_putEntry_iff h.counted hput).mp hc with hold | hnamed
    · exact h.backed c hold
    · exact hfiled c hnamed
  recorded c hc := by
    by_cases hnamed : c ∈ record.contents
    · exact Or.inl ((Index.recorded_putEntry_iff h.counted hput).mpr (Or.inr hnamed))
    · refine (h.recorded c hc).imp (fun hold => ?_) fun hloose => ⟨hloose, hnamed⟩
      exact (Index.recorded_putEntry_iff h.counted hput).mpr (Or.inl hold)
  sound := h.sound
  keyed k r hr := by
    simp only at hr
    rw [(Index.putEntry_eq hput).2] at hr
    rcases eq_or_ne k record.key with rfl | hne
    · rw [AList.lookup_insert] at hr
      rw [Option.some.inj hr]
    · rw [AList.lookup_insert_ne hne] at hr
      exact h.keyed k r hr
  ordered k r hr := by
    simp only at hr
    rw [(Index.putEntry_eq hput).2] at hr
    rcases eq_or_ne k record.key with rfl | hne
    · rw [AList.lookup_insert] at hr
      rwa [← Option.some.inj hr]
    · rw [AList.lookup_insert_ne hne] at hr
      exact h.ordered k r hr

/-- **An entry is refreshed**, and names what it named. -/
theorem refresh (h : Tidy P B loose s) (hold : s.index.entries.lookup record.key = some old)
    (hbody : record.body = old.body) :
    Tidy P B loose { s with index := s.index.refreshEntry record } where
  counted := by
    refine (Index.refreshEntry_exact_iff h.counted).mpr fun c => ?_
    have hcontents : record.contents = old.contents := congrArg StoredBody.contents hbody
    rw [Index.heldAt, hold, hcontents]
  backed := h.backed
  recorded := h.recorded
  sound := h.sound
  keyed k r hr := by
    have hr' : (s.index.entries.insert record.key record).lookup k = some r := hr
    rcases eq_or_ne k record.key with rfl | hne
    · rw [AList.lookup_insert] at hr'
      rw [Option.some.inj hr']
    · rw [AList.lookup_insert_ne hne] at hr'
      exact h.keyed k r hr'
  ordered k r hr := by
    have hr' : (s.index.entries.insert record.key record).lookup k = some r := hr
    rcases eq_or_ne k record.key with rfl | hne
    · rw [AList.lookup_insert] at hr'
      rw [← Option.some.inj hr', hbody]
      exact h.ordered _ old hold
    · rw [AList.lookup_insert_ne hne] at hr'
      exact h.ordered k r hr'

/-- **Entries are taken out.** -/
theorem takeOut {β : Type} {a : IndexAct β} {r : β} {ix : Index} (h : Tidy P B loose s)
    (ha : a.TakesOut) (hkeep : ∀ c, s.index.Recorded c → ix.Recorded c)
    (hrun : a.run s.index = .ok (r, ix)) : Tidy P B loose { s with index := ix } where
  counted := IndexAct.run_exact h.counted (by cases a <;> trivial) hrun
  backed c hc := by
    rcases IndexAct.run_recorded hrun hc with hold | hnew
    · exact h.backed c hold
    · cases a with
      | putEntry record newBlobs => exact ha.elim
      | _ => exact absurd hnew List.not_mem_nil
  recorded c hc := (h.recorded c hc).imp_left (hkeep c)
  sound := h.sound
  keyed k r' hr' := h.keyed k r' (IndexAct.lookup_of_takesOut ha hrun hr')
  ordered k r' hr' := h.ordered k r' (IndexAct.lookup_of_takesOut ha hrun hr')

/-! ### Deleting -/

theorem drop (h : Tidy P B loose s) (id : ContentId) : Tidy P B loose (s.drop id) := by
  rcases hforget : (s.index.forgetBlobIfUnreferenced id).1 with _ | _
  · -- something refers to it
    have hsame : (s.index.forgetBlobIfUnreferenced id).2 = s.index := by
      rw [Index.forgetBlobIfUnreferenced] at hforget ⊢
      split at hforget
      · split at hforget
        · exact absurd hforget (by simp)
        · rename_i hb hne
          simp [hne]
      · exact absurd hforget (by simp)
    rw [Store.drop, hforget, hsame]
    exact h
  · have hgone : ¬(s.index.forgetBlobIfUnreferenced id).2.Recorded id :=
      Index.not_recorded_of_forgotten hforget
    rw [Store.drop, hforget]
    refine ⟨Index.forget_exact h.counted, fun c hc => ?_, fun c hc => ?_, fun c raw hraw => ?_, ?_, ?_⟩
    · have hne : c ≠ id := by
        rintro rfl
        exact hgone hc
      exact (AList.lookup_erase_ne hne).symm ▸ h.backed c (Index.recorded_forget hc)
    · have hne : c ≠ id := by
        rintro rfl
        rw [if_pos rfl, AList.lookup_erase] at hc
        exact absurd hc (by simp)
      rw [if_pos rfl, AList.lookup_erase_ne hne] at hc
      exact (h.recorded c hc).imp_left fun hold => Index.recorded_forget_of_ne hne hold
    · have hne : c ≠ id := by
        rintro rfl
        rw [if_pos rfl, AList.lookup_erase] at hraw
        exact absurd hraw (by simp)
      rw [if_pos rfl, AList.lookup_erase_ne hne] at hraw
      exact h.sound c raw hraw
    · simp only [Index.entries_forget]
      exact h.keyed
    · simp only [Index.entries_forget]
      exact h.ordered

/-- **Blobs are deleted.** -/
theorem sweep (h : Tidy P B loose s) (ids : List ContentId) : Tidy P B loose (s.sweep ids) := by
  induction ids generalizing s with
  | nil => exact h
  | cons id rest ih => exact ih (h.drop id)

end Tidy

/-- What is there after blobs were deleted was there before. -/
theorem Store.entries_sweep {s : Store} {ids : List ContentId} :
    (s.sweep ids).index.entries = s.index.entries := by
  induction ids generalizing s with
  | nil => rfl
  | cons id rest ih => exact ih.trans Index.entries_forget

theorem Store.recorded_of_sweep {s : Store} {ids : List ContentId} {c : ContentId}
    (h : (s.sweep ids).index.Recorded c) : s.index.Recorded c := by
  induction ids generalizing s with
  | nil => exact h
  | cons id rest ih => exact Index.recorded_forget (ih h)

/-- **Of the blobs that are to be deleted, those that nothing refers to go.** -/
theorem Tidy.not_recorded_sweep {P : Platform} {B : Set Bytes} {loose : Set ContentId} {s : Store}
    {ids : List ContentId} {c : ContentId} (h : Tidy P B loose s) (hc : c ∈ ids)
    (hzero : s.index.references c = 0) : ¬(s.sweep ids).index.Recorded c := by
  induction ids generalizing s with
  | nil => exact absurd hc List.not_mem_nil
  | cons id rest ih =>
    rcases List.mem_cons.mp hc with rfl | hc
    · intro hrecorded
      have hleft : (s.drop c).index.Recorded c := Store.recorded_of_sweep hrecorded
      refine Index.not_recorded_of_forgotten ?_ hleft
      rw [Index.forgetBlobIfUnreferenced]
      split
      · rename_i b hb
        have hcount : b.refcount = 0 := by
          rw [← h.counted c, Index.refcount, Index.countIn, hb] at hzero
          exact hzero
        rw [if_pos hcount]
      · rfl
    · refine ih (h.drop id) hc ?_
      rw [Index.references]
      exact (congrArg _ Index.entries_forget).trans hzero

end Syndeo
