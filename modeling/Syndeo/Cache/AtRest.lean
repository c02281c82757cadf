import Syndeo.Cache.Folding
import Syndeo.Cache.Tidy

/-!
# The disk and the index at rest

Between two operations no file is loose, and nobody holds the gate: each
operation, run by itself on a disk that does not fail, leaves the store as tidy
as it found it (`Syndeo.AtRest`). After a collection the files are then exactly
the blobs that some entry names.

One operation does not: a range that completes its entry. Its missing parts are
written as blobs of their own, and then the whole body is written and the entry
names that; the parts never had a record, so nothing will ever delete them
(`Syndeo.part_left_behind`). They do no harm where they have a record from before,
or where the part is the whole body. `Syndeo.Storing.leavesNothing` says so of the
range and of what is stored, and `Syndeo.files_named_at_rest` that this is all.
-/

namespace Syndeo

open Concurrent Tables Intervals
open Text (eqIgnoreAsciiCase)
open Prog (Yields Ends)

variable {P : Platform}

/-- **Nobody is at work, and no file is loose.** -/
structure AtRest (P : Platform) (s : Store) : Prop where
  tidy : Tidy P Set.univ ∅ s
  free : s.gate = .free

theorem AtRest.alike {s u : Store} (h : AtRest P s) (hu : s.Alike u) : AtRest P u :=
  ⟨h.tidy.alike hu, hu.gate.trans h.free⟩

theorem atRest_empty : AtRest P .empty where
  tidy :=
    { counted := Index.empty_exact
      backed := fun _ hc => absurd hc Bool.false_ne_true
      recorded := fun _ hc => absurd hc (by simp [Store.empty])
      sound := fun _ _ hraw => absurd hraw (by simp [Store.empty])
      keyed := fun _ _ hr => absurd hr (by simp [Store.empty, Index.empty])
      ordered := fun _ _ hr => absurd hr (by simp [Store.empty, Index.empty]) }
  free := rfl

/-- Steps that find room for their references are looked into, and no others. -/
abbrev roomyDiscipline (i : ℕ) : Discipline CacheAct Store :=
  aloneDiscipline i fun {_} a s => a.HasRoom s

/-- **The parts that are written go with the entry**, read off the store: where the
runs meet and the entry comes to name the whole body, each has a record, or is the
whole body. -/
def partsNamed (P : Platform) (s : Store) (body : Bytes) (existing : Option EntryRecord)
    (cr : ContentRange) : Bool :=
  match cr.completeLen.or (existing.bind fun r => r.body.completeLen) with
  | none => true
  | some total =>
    !(Coverage.fromSorted ((segmentsOf existing).map Segment.run ++ gapsOf existing cr)).covers 0
      total || (gapsOf existing cr).all fun gap =>
        gap = (0, total) || (s.index.blobs.lookup (P.blake3 (partFrom body cr.halfOpen.1 gap))).isSome

theorem partsNamed_iff {s : Store} {body : Bytes} {existing : Option EntryRecord}
    {cr : ContentRange} : partsNamed P s body existing cr = true ↔
      ∀ total, cr.completeLen.or (existing.bind fun r => r.body.completeLen) = some total →
        (Coverage.fromSorted ((segmentsOf existing).map Segment.run ++ gapsOf existing cr)).covers 0
          total = true →
        ∀ gap ∈ gapsOf existing cr,
          gap = (0, total) ∨ s.index.Recorded (P.blake3 (partFrom body cr.halfOpen.1 gap)) := by
  rw [partsNamed]
  split
  · rename_i hnone
    simp [hnone]
  · rename_i total htotal
    simp only [htotal, Option.some.injEq, forall_eq', Bool.or_eq_true, Bool.not_eq_true',
      List.all_eq_true, decide_eq_true_eq, Index.Recorded]
    rw [← Bool.not_eq_true, ← imp_iff_not_or]

section Operations

variable {opts : CacheOptions} {i : ℕ} {s : Store} {α β : Type}

/-! ### Taking entries out -/

theorem atRest_takeOut {a : IndexAct β} {r : β} {ix : Index} (h : AtRest P s) (ha : a.TakesOut)
    (hkeep : ∀ c, s.index.Recorded c → ix.Recorded c) (hrun : a.run s.index = .ok (r, ix)) :
    Yields (roomyDiscipline i) (ask a) s fun r' u => r' = r ∧ AtRest P u := by
  refine (yields_ask hrun).mono fun r' u hu => ?_
  obtain ⟨-, rfl, rfl⟩ := hu
  exact ⟨rfl, h.tidy.takeOut ha hkeep hrun, h.free⟩

theorem atRest_removeEntry {key : String} (h : AtRest P s) :
    Yields (roomyDiscipline i) (ask (.removeEntry key)) s fun _ u => AtRest P u :=
  (atRest_takeOut (a := .removeEntry key) h trivial (fun _ => Index.recorded_removeEntry.mpr)
    rfl).mono fun _ _ hu => hu.2

theorem atRest_invalidate {partition : Option String} {method url : String} (h : AtRest P s) :
    Yields (roomyDiscipline i) (ask (.invalidate partition method url)) s fun _ u => AtRest P u :=
  (atRest_takeOut (a := .invalidate partition method url) h trivial
    (fun _ => Index.recorded_invalidate.mpr) rfl).mono fun _ _ hu => hu.2

theorem atRest_deleteOrphans {ids : List ContentId} (h : AtRest P s) :
    Yields (roomyDiscipline i) (deleteOrphans ids) s fun _ u => AtRest P u := by
  refine (yields_deleteOrphans h.free).mono fun _ u hu => ?_
  rw [hu]
  exact ⟨h.tidy.sweep ids, Store.gate_sweep.trans h.free⟩

/-! ### Evicting -/

theorem atRest_releaseFrom {ids : List ContentId} {onDisk : ℕ} (h : AtRest P s) :
    Yields (roomyDiscipline i) (releaseFrom ids onDisk) s fun _ u => AtRest P u := by
  induction ids generalizing s onDisk with
  | nil => exact h
  | cons id rest ih =>
    refine Prog.Yields.bind (yields_quiet trivial) fun blob u hu => ?_
    rcases blob with _ | blob
    · exact ih (h.alike hu)
    · exact ih (h.alike hu)

theorem atRest_evictFrom {target onDisk evicted : ℕ} {candidates : List (String × EntryRecord)}
    (h : AtRest P s) :
    Yields (roomyDiscipline i) (evictFrom target candidates onDisk evicted) s
      fun _ u => AtRest P u := by
  induction candidates generalizing s onDisk evicted with
  | nil => exact h
  | cons candidate rest ih =>
    rw [evictFrom]
    split
    · exact h
    · exact (atRest_removeEntry h).bind fun orphaned u hu => (atRest_releaseFrom hu).bind
        fun onDisk v hv => (atRest_deleteOrphans hv).bind fun _ t ht => ih ht

theorem atRest_enforceBudget (h : AtRest P s) :
    Yields (roomyDiscipline i) (enforceBudget P opts) s fun _ u => AtRest P u := by
  rw [enforceBudget]
  split
  · exact h
  · refine Prog.Yields.bind (yields_quiet trivial) fun totals u hu => ?_
    obtain ⟨-, -, onDisk, -⟩ := totals
    have h := h.alike hu
    simp only
    split
    · exact h
    · refine Prog.Yields.bind (yields_quiet trivial) fun candidates v hv => ?_
      refine Prog.Yields.bind (atRest_evictFrom (h.alike hv)) fun evicted t ht => ?_
      split
      · exact Prog.Yields.bind yields_bump fun _ t' ht' => ht.alike ht'
      · exact ht

/-! ### What a `HEAD` confirms or proves out of date -/

theorem yields_selectAmong {ok : ∀ {β : Type}, CacheAct β → Store → Prop}
    {partition : Option String} {method url : String} {requestHeaders : HeaderMap}
    {candidates : List String} :
    Yields (aloneDiscipline i ok) (selectAmong P partition method url requestHeaders candidates) s
      fun r u => u = s ∧ ∀ key record, r = some (key, record) →
        s.index.entries.lookup key = some record := by
  induction candidates with
  | nil => exact ⟨rfl, fun _ _ h => absurd h (by simp)⟩
  | cons candidate rest ih =>
    refine Prog.Yields.bind (yields_ask rfl) fun found u hu => ?_
    obtain ⟨-, rfl, rfl⟩ := hu
    split
    · rename_i record hfound
      split
      · refine ⟨rfl, fun key r hr => ?_⟩
        obtain ⟨rfl, rfl⟩ := Prod.mk.inj (Option.some.inj hr)
        exact hfound
      · exact ih
    · exact ih

theorem yields_selectVariant {ok : ∀ {β : Type}, CacheAct β → Store → Prop}
    {partition : Option String} {method url : String} {requestHeaders : HeaderMap} :
    Yields (aloneDiscipline i ok) (selectVariant P partition method url requestHeaders) s
      fun r u => u = s ∧ ∀ key record, r = some (key, record) →
        s.index.entries.lookup key = some record := by
  refine Prog.Yields.bind (yields_ask rfl) fun candidates u hu => ?_
  obtain ⟨-, rfl, rfl⟩ := hu
  exact yields_selectAmong

theorem atRest_reconcileHead {partition : Option String} {url : String}
    {requestHeaders headHeaders : HeaderMap} (h : AtRest P s) :
    Yields (roomyDiscipline i) (reconcileHead P partition url requestHeaders headHeaders) s
      fun _ u => AtRest P u := by
  refine Prog.Yields.bind yields_selectVariant fun selected u hu => ?_
  obtain ⟨rfl, hselected⟩ := hu
  rcases selected with _ | ⟨key, record⟩
  · exact h
  · have hentry := hselected key record rfl
    simp only [reconcileWith]
    split
    · refine (yields_ask rfl).mono fun _ u hu => ?_
      obtain ⟨-, -, rfl⟩ := hu
      rw [← h.tidy.keyed key record hentry] at hentry
      exact ⟨h.tidy.refresh hentry rfl, h.free⟩
    · exact (atRest_removeEntry h).bind fun _ u hu => (atRest_deleteOrphans hu).bind fun _ _ hv => hv

/-! ### Storing a whole body -/

theorem atRest_rejected {reason : String} (h : AtRest P s) :
    Yields (roomyDiscipline i) (rejected reason) s fun _ u => AtRest P u :=
  Prog.Yields.bind yields_bump fun _ _ hu => h.alike hu

theorem atRest_afterStore {w : Storing} {receipt : WriteReceipt} {orphaned : List ContentId}
    {digests : List (Bytes × ContentId)} (h : AtRest P s) :
    Yields (roomyDiscipline i) (afterStore P opts w receipt orphaned digests) s
      fun _ u => AtRest P u := by
  refine (atRest_deleteOrphans h).bind fun _ u hu => Prog.Yields.bind yields_indexSri fun _ v hv =>
    Prog.Yields.bind yields_bump fun _ t ht => ?_
  have h := (hu.alike hv).alike ht
  split
  · exact (atRest_reconcileHead h).bind fun _ u hu => (atRest_enforceBudget hu).bind fun _ _ hv => hv
  · exact (atRest_enforceBudget h).bind fun _ _ hv => hv

theorem atRest_storeWhole (hP : P.Lossless) {w : Storing} {bytes : Bytes} (h : AtRest P s) :
    Yields (roomyDiscipline i) (storeWhole P w (put P bytes)) s fun _ u => AtRest P u := by
  refine (yields_storeWhole h.free (h.tidy.whole _)).mono fun r u hu => ?_
  obtain ⟨receipt, orphaned⟩ := r
  obtain ⟨⟨hid, -⟩, v, now, hv, hroom, ix, hput, rfl⟩ := hu
  have hwritten := (h.tidy.putFile hP (Set.mem_univ bytes)).alike hv
  have hcontents : (w.record P receipt now).contents = [P.blake3 bytes] := by
    rw [← hid]
    rfl
  have hnamed : ∀ c ∈ (w.record P receipt now).contents, (v.files.lookup c).isSome = true := by
    intro c hc
    rw [hcontents] at hc
    rw [hv.files]
    exact isSome_lookup_putFile.mpr (Or.inr (List.mem_singleton.mp hc))
  have htidy := hwritten.putEntry hnamed trivial hroom hput
  refine ⟨htidy.mono fun c hc => ?_, hv.gate.trans h.free⟩
  -- the one file that was loose is named now
  obtain ⟨hloose, hnot⟩ := hc
  rw [Set.mem_ofPred_eq, hcontents, List.mem_singleton] at hnot
  exact absurd (hloose.resolve_right (Set.notMem_empty c)) hnot

/-! ### Storing a range -/

/-- **The whole body is read out of the runs that have met**; where one run is all of
it, as it was written. -/
theorem yields_readWhole {B : Set Bytes} {loose : Set ContentId}
    {ok : ∀ {β : Type}, CacheAct β → Store → Prop} (h : Tidy P B loose s) (hP : P.Lossless)
    {record : EntryRecord} {completeLen : Option ℕ} {segments : List Segment} {n : ℕ}
    (hbody : record.body = .Partial completeLen segments) (hordered : record.body.Ordered)
    (hfiled : ∀ seg ∈ segments, (s.files.lookup seg.content).isSome = true)
    (hmet : Set.Ico 0 n ⊆ Intervals.points (segments.map Segment.run)) :
    Yields (aloneDiscipline i ok) (readSpan P record 0 n) s fun whole u =>
      (∀ seg ∈ segments, seg.start = 0 → seg.stop = n → ∀ b, b.length ≤ n →
        s.files.lookup seg.content = some (blobFile P b) → whole = b) ∧ u = s := by
  rw [hbody] at hordered
  obtain ⟨hproper, hasc⟩ := hordered
  rw [readSpan, hbody]
  have hread : (readSegments P n segments 0 []).run.Obeys (aloneDiscipline i ok)
      (Ends (· = s) (fun _ => False) fun r =>
        (∀ seg ∈ segments, seg.start = 0 → seg.stop = n → ∀ b, b.length ≤ n →
          s.files.lookup seg.content = some (blobFile P b) →
            (r.2 = 0 ∧ r.1 = []) ∨ (r.2 = n ∧ r.1 = b)) ∧ r.2 ≤ n ∧
        (Ascending (segments.map Segment.run) →
          Set.Ico 0 n ⊆ Intervals.points (segments.map Segment.run) → r.2 = n)) s := by
    refine obeys_readSegments (T := (· = s))
      (G := fun seg bytes => ∀ b, s.files.lookup seg.content = some (blobFile P b) → bytes = b)
      (I := fun cursor out => ∀ seg ∈ segments, seg.start = 0 → seg.stop = n → ∀ b, b.length ≤ n →
        s.files.lookup seg.content = some (blobFile P b) →
          (cursor = 0 ∧ out = []) ∨ (cursor = n ∧ out = b))
      hproper ?_ ?_ (Nat.zero_le n) (fun _ _ _ _ _ _ _ => Or.inl ⟨rfl, rfl⟩) rfl
    · rintro seg hseg _ rfl
      refine Prog.Yields.ends ((h.yields_get (hfiled seg hseg)).mono fun bytes u hu => ?_)
      obtain ⟨rfl, -, -, hdecoded⟩ := hu
      refine ⟨rfl, fun b hb => ?_⟩
      have hsame := (hdecoded _ hb).symm.trans (decodeFile_blobFile P hP b)
      exact Option.some.inj (Except.ok.inj hsame)
    · intro seg hseg cursor out bytes hstart hcursor hle hwithin hbytes hI seg₀ hseg₀ h0 hn b hlen hb
      -- only the run that is all of the body shares a point with it
      have hsame : ∀ x, seg.start ≤ x → x < seg.stop → x < n → seg = seg₀ := fun x h₁ h₂ h₃ =>
        hasc.eq_of_mem hseg hseg₀ ⟨h₁, h₂⟩ ⟨by rw [Segment.run, h0]; exact Nat.zero_le x,
          by rw [Segment.run, hn]; exact h₃⟩
      rcases hI seg₀ hseg₀ h0 hn b hlen hb with ⟨rfl, rfl⟩ | ⟨rfl, rfl⟩
      · obtain rfl := hsame 0 hstart hcursor (by omega)
        obtain rfl := hbytes b hb
        refine Or.inr ⟨by omega, ?_⟩
        simp only [segmentPart, h0, hn, Nat.sub_zero, min_self, List.nil_append]
        rw [min_eq_right hlen, List.take_length, Nat.zero_min, List.drop_zero]
      · have hpoint := hsame seg.start le_rfl (hproper seg.run (List.mem_map_of_mem hseg)) hwithin
        rw [hpoint] at hcursor
        omega
  refine Prog.Yields.bind (Prog.yields_of_ends hread) fun r u hr => ?_
  obtain ⟨out, reached⟩ := r
  obtain ⟨rfl, hI, hle, hall⟩ := hr
  obtain rfl : reached = n := hall hasc hmet
  simp only [lt_irrefl, if_false]
  refine ⟨fun seg hseg h0 hn b hlen hb => ?_, rfl⟩
  rcases hI seg hseg h0 hn b hlen hb with ⟨rfl, rfl⟩ | ⟨-, hout⟩
  · exact (List.eq_nil_of_length_eq_zero (Nat.le_zero.mp hlen)).symm
  · exact hout

/-- The entry that is found is one of the store's. -/
def Found (s : Store) (existing : Option EntryRecord) : Prop :=
  ∀ r, existing = some r → ∃ k, s.index.entries.lookup k = some r

section Folded

variable {w : Storing} {body : Bytes} {cr : ContentRange} {existing : Option EntryRecord} {now : ℕ}

theorem Found.ordered (hfound : Found s existing) (h : AtRest P s) :
    Proper ((segmentsOf existing).map Segment.run) ∧
      Ascending ((segmentsOf existing).map Segment.run) := by
  rcases existing with _ | r
  · exact ⟨fun _ hp => absurd hp List.not_mem_nil, List.Pairwise.nil⟩
  · obtain ⟨k, hk⟩ := hfound r rfl
    have hordered := h.tidy.ordered k r hk
    rcases hbody : r.body with ⟨content, len⟩ | ⟨completeLen, segments⟩
    · rw [segmentsOf, hbody]
      exact ⟨fun _ hp => absurd hp List.not_mem_nil, List.Pairwise.nil⟩
    · rw [hbody] at hordered
      rw [segmentsOf, hbody]
      exact hordered

theorem Found.recorded (hfound : Found s existing) (h : AtRest P s) :
    ∀ seg ∈ segmentsOf existing, s.index.Recorded seg.content := by
  intro seg hseg
  rcases existing with _ | r
  · exact absurd hseg List.not_mem_nil
  · obtain ⟨k, hk⟩ := hfound r rfl
    rcases hbody : r.body with ⟨content, len⟩ | ⟨completeLen, segments⟩
    · rw [segmentsOf, hbody] at hseg
      exact absurd hseg List.not_mem_nil
    · rw [segmentsOf, hbody] at hseg
      refine Index.recorded_of_named h.tidy.counted hk ?_
      rw [EntryRecord.contents, StoredBody.mem_contents, hbody]
      exact List.mem_map_of_mem hseg

/-- The runs of the entry that is folded, as points. -/
theorem points_folded :
    (w.folded P body cr existing now).body.points =
      Intervals.points (Coverage.fromSorted ((segmentsOf existing).map Segment.run ++
        gapsOf existing cr)).intervals := by
  have hruns : (segmentsFrom P body cr.halfOpen.1 (gapsOf existing cr)).map Segment.run =
      gapsOf existing cr := run_segmentsFrom
  rw [Coverage.points_fromSorted, ← hruns, ← points_perm run_sorted_perm]
  rfl

theorem ordered_folded (hkept : Proper ((segmentsOf existing).map Segment.run) ∧
    Ascending ((segmentsOf existing).map Segment.run)) :
    (w.folded P body cr existing now).body.Ordered :=
  ⟨proper_sorted hkept.1 run_segmentsFrom, ascending_sorted hkept.1 hkept.2 run_segmentsFrom⟩

/-- That its runs have met is read off what was held and what was missing. -/
theorem hasMet_folded_iff (hkept : Proper ((segmentsOf existing).map Segment.run) ∧
    Ascending ((segmentsOf existing).map Segment.run)) :
    (w.folded P body cr existing now).body.hasMet = true ↔
      ∃ total, cr.completeLen.or (existing.bind fun r => r.body.completeLen) = some total ∧
        (Coverage.fromSorted ((segmentsOf existing).map Segment.run ++ gapsOf existing cr)).covers 0
          total = true := by
  have hproper : Proper ((segmentsOf existing).map Segment.run ++ gapsOf existing cr) := by
    intro p hp
    rcases List.mem_append.mp hp with hp | hp
    · exact hkept.1 p hp
    · exact (Coverage.bounds_missing p hp).2.1
  have hcovers : ∀ total, (w.folded P body cr existing now).body.coverage.covers 0 total = true ↔
      (Coverage.fromSorted ((segmentsOf existing).map Segment.run ++ gapsOf existing cr)).covers 0
        total = true := by
    intro total
    rw [(ordered_folded hkept).covers_iff, points_folded,
      Coverage.covers_iff (Coverage.apart_fromSorted hproper).2]
  rw [StoredBody.hasMet, Option.any_eq_true]
  exact exists_congr fun total => and_congr_right fun _ => hcovers total

/-- A part that begins at the first byte is the first that is written. -/
theorem lookup_putFiles_first {n : ℕ} (hkept : Proper ((segmentsOf existing).map Segment.run))
    (hgap : (0, n) ∈ gapsOf existing cr)
    (hnew : ¬(s.files.lookup (P.blake3 (partFrom body cr.halfOpen.1 (0, n)))).isSome = true) :
    (putFiles P (partsOf body cr existing) s.files).lookup
        (P.blake3 (partFrom body cr.halfOpen.1 (0, n))) =
      some (blobFile P (partFrom body cr.halfOpen.1 (0, n))) := by
  have hasc : Ascending (gapsOf existing cr) :=
    Coverage.ascending_missing (Coverage.apart_fromSorted hkept).1 _ _
  have hproper : ∀ p ∈ gapsOf existing cr, p.1 < p.2 := fun p hp => (Coverage.bounds_missing p hp).2.1
  rw [partsOf]
  rcases hl : gapsOf existing cr with _ | ⟨gap, rest⟩
  · rw [hl] at hgap
    exact absurd hgap List.not_mem_nil
  · rw [hl] at hgap hasc hproper
    obtain rfl : (0, n) = gap := by
      refine (List.mem_cons.mp hgap).resolve_right fun hmem => ?_
      have hbefore : gap.2 ≤ 0 := (List.pairwise_cons.mp hasc).1 _ hmem
      have := hproper gap List.mem_cons_self
      omega
    have hput : putFile P (partFrom body cr.halfOpen.1 (0, n)) s.files =
        s.files.insert (P.blake3 (partFrom body cr.halfOpen.1 (0, n)))
          (blobFile P (partFrom body cr.halfOpen.1 (0, n))) := if_neg hnew
    have hfirst : (putFile P (partFrom body cr.halfOpen.1 (0, n)) s.files).lookup
        (P.blake3 (partFrom body cr.halfOpen.1 (0, n))) =
          some (blobFile P (partFrom body cr.halfOpen.1 (0, n))) := by
      rw [hput, AList.lookup_insert]
    rw [List.map_cons, putFiles_cons]
    exact lookup_putFiles_of_some hfirst

/-- **A range is stored**, and its parts go with the entry. -/
theorem atRest_writePartial (hP : P.Lossless) (h : AtRest P s) (hfound : Found s existing)
    (hnamed : partsNamed P s body existing cr = true) :
    Yields (roomyDiscipline i) (writePartial P w body cr existing) s fun _ u => AtRest P u := by
  have hkept := hfound.ordered h
  have hrecorded := hfound.recorded h
  have hinto : ∀ bytes ∈ partsOf body cr existing, bytes ∈ (Set.univ : Set Bytes) :=
    fun bytes _ => Set.mem_univ bytes
  -- the whole body is one of the parts, where that part is all of it and was not there before
  refine (yields_writePartial (W := fun whole => ∀ total,
      cr.completeLen.or (existing.bind fun r => r.body.completeLen) = some total →
      ∀ gap ∈ gapsOf existing cr, gap = (0, total) →
        ¬s.index.Recorded (P.blake3 (partFrom body cr.halfOpen.1 gap)) →
          whole = partFrom body cr.halfOpen.1 gap)
    h.free h.tidy.whole hrecorded ?_).mono fun r u hu => ?_
  · intro now n u hn hmet hu
    have htidy : Tidy P Set.univ _ u := (h.tidy.putFiles hP hinto).congr hu.entries hu.blobs hu.files
    have hfiled : ∀ c ∈ (w.folded P body cr existing now).contents,
        (u.files.lookup c).isSome = true := by
      intro c hc
      rw [hu.files, isSome_lookup_putFiles]
      refine (mem_contents_folded.mp hc).imp_left ?_
      rintro ⟨seg, hseg, rfl⟩
      exact h.tidy.backed _ (hrecorded seg hseg)
    have hpoints : Set.Ico 0 n ⊆ (w.folded P body cr existing now).body.points := by
      refine (ordered_folded hkept).covers_iff.mp ?_
      rw [StoredBody.hasMet, hn] at hmet
      exact hmet
    refine (yields_readWhole htidy hP rfl (ordered_folded hkept) (fun seg hseg => hfiled _ ?_)
      hpoints).mono fun whole v hv => ⟨fun total htotal gap hgap hall hnew => ?_, hv.2⟩
    · rw [EntryRecord.contents, StoredBody.mem_contents]
      exact List.mem_map_of_mem hseg
    · obtain rfl : n = total := Option.some.inj (hn.symm.trans htotal)
      subst hall
      refine hv.1 ⟨0, n, _⟩ ((List.perm_insertionSort _ _).mem_iff.mpr
        (List.mem_append_right _ (List.mem_map_of_mem hgap))) rfl rfl _ ?_ ?_
      · rw [partFrom, List.length_drop]
        exact (Nat.sub_le _ _).trans ((List.length_take_le _ _).trans (Nat.sub_le _ _))
      · rw [hu.files]
        exact lookup_putFiles_first hkept.1 hgap fun hthere =>
          (h.tidy.recorded _ hthere).elim hnew (Set.notMem_empty _)
  · obtain ⟨now, v, newBlobs, made, hmade, hW, hr, -, hnew, hv, hroom, ix, hput, rfl⟩ := hu
    obtain ⟨record, completed, orphaned⟩ := r
    obtain rfl : record = (w.folded P body cr existing now).madeWhole P made := hr
    have hwritten : Tidy P Set.univ _ v :=
      (h.tidy.putFiles hP fun bytes _ => Set.mem_univ bytes).alike hv
    have hthere : ∀ c, s.index.Recorded c ∨
        c ∈ (partsOf body cr existing ++ made.toList).map P.blake3 →
        (v.files.lookup c).isSome = true := by
      intro c hc
      rw [hv.files, isSome_lookup_putFiles]
      exact hc.imp_left (h.tidy.backed c)
    rcases made with _ | whole
    · -- the entry stays partial, and names every part
      have hcontents : ∀ c ∈ (w.folded P body cr existing now).contents,
          (v.files.lookup c).isSome = true := by
        intro c hc
        refine hthere c ((mem_contents_folded.mp hc).imp ?_ fun hmem => ?_)
        · rintro ⟨seg, hseg, rfl⟩
          exact hrecorded seg hseg
        · rwa [Option.toList_none, List.append_nil]
      have htidy := hwritten.putEntry hcontents (ordered_folded hkept) hroom hput
      refine ⟨htidy.mono fun c hc => ?_, hv.gate.trans h.free⟩
      obtain ⟨hloose, hnot⟩ := hc
      have hpart := hloose.resolve_left (Set.notMem_empty c)
      rw [Set.mem_ofPred_eq, Option.toList_none, List.append_nil] at hpart
      exact absurd (mem_contents_folded.mpr (Or.inr hpart)) hnot
    · -- the entry names the whole body
      have hcontents : ((w.folded P body cr existing now).madeWhole P (some whole)).contents =
          [P.blake3 whole] := rfl
      have hfiled : ∀ c ∈ ((w.folded P body cr existing now).madeWhole P (some whole)).contents,
          (v.files.lookup c).isSome = true := by
        intro c hc
        rw [hcontents, List.mem_singleton] at hc
        refine hthere c (Or.inr ?_)
        rw [hc]
        exact List.mem_map_of_mem (List.mem_append_right _ (by simp))
      have htidy := hwritten.putEntry hfiled trivial hroom hput
      refine ⟨htidy.mono fun c hc => ?_, hv.gate.trans h.free⟩
      obtain ⟨hloose, hnot⟩ := hc
      rw [Set.mem_ofPred_eq, hcontents, List.mem_singleton] at hnot
      obtain ⟨bytes, hbytes, rfl⟩ := List.mem_map.mp (hloose.resolve_left (Set.notMem_empty c))
      rcases List.mem_append.mp hbytes with hpart | hwhole
      · obtain ⟨gap, hgap, rfl⟩ := List.mem_map.mp hpart
        obtain ⟨total, htotal, hcovers⟩ := (hasMet_folded_iff hkept).mp hmade.symm
        by_cases hold : s.index.Recorded (P.blake3 (partFrom body cr.halfOpen.1 gap))
        · refine Or.inl ((Index.recorded_putEntry_iff hwritten.counted hput).mpr (Or.inl ?_))
          rw [Index.Recorded, hv.blobs]
          exact hold
        · have hall := (partsNamed_iff.mp hnamed total htotal hcovers gap hgap).resolve_right hold
          exact absurd (congrArg P.blake3 (hW whole rfl total htotal gap hgap hall hold).symm) hnot
      · obtain rfl : bytes = whole := by simpa using hwhole
        exact absurd rfl hnot

theorem atRest_afterRange (record : EntryRecord) (completed : Option ContentId)
    (h : AtRest P s) :
    Yields (roomyDiscipline i)
      (do
        let _ ← enforceBudget P opts
        match completed with
        | some content => pure (StoreOutcome.stored content false)
        | none => pure (StoreOutcome.storedPartial record.body.heldLen record.body.completeLen))
      s fun _ u => AtRest P u := by
  refine Prog.Yields.bind (atRest_enforceBudget h) fun _ u hu => ?_
  cases completed <;> exact hu

theorem atRest_extendRange (hP : P.Lossless) (h : AtRest P s) (hfound : Found s existing)
    (hnamed : (existing.any fun r => r.body.isComplete) = false → partsNamed P s body existing cr = true) :
    Yields (roomyDiscipline i) (extendRange P opts w body cr existing) s fun _ u => AtRest P u := by
  rw [extendRange]
  split
  · exact h
  · rename_i hpart
    refine Prog.Yields.bind (atRest_writePartial hP h hfound (hnamed (by simpa using hpart)))
      fun r u hu => ?_
    obtain ⟨record, completed, orphaned⟩ := r
    refine Prog.Yields.bind (atRest_deleteOrphans hu) fun _ v hv =>
      Prog.Yields.bind yields_bump fun _ t ht => ?_
    have h := hv.alike ht
    rcases completed with _ | content
    · exact Prog.Yields.bind yields_bump fun _ t' ht' => atRest_afterRange record none (h.alike ht')
    · exact atRest_afterRange record (some content) h

/-- With nothing held, a range that is the whole body is one part. -/
theorem partsNamed_none (hcr : w.contentRange = some cr) : partsNamed P s body none cr = true := by
  refine partsNamed_iff.mpr fun total htotal hcovers gap hgap => ?_
  obtain ⟨value, -, hvalue⟩ := Option.bind_eq_some_iff.mp hcr
  obtain ⟨horder, -, hbound⟩ := parseContentRange_bounds hvalue
  have hcomplete : cr.completeLen = some total := by simpa using htotal
  have hlast := hbound total hcomplete
  have hgaps : gapsOf none cr =
      if cr.halfOpen.1 < cr.halfOpen.2 then [cr.halfOpen] else [] := rfl
  split at hgaps
  · rename_i hproper
    rw [hgaps] at hgap hcovers
    obtain rfl := List.mem_singleton.mp hgap
    have hone : Proper [cr.halfOpen] := by
      intro p hp
      rwa [List.mem_singleton.mp hp]
    have hsub := (Coverage.covers_iff (Coverage.apart_fromSorted hone).2).mp hcovers
    rw [Coverage.points_fromSorted, points_cons, points_nil, Set.union_empty] at hsub
    -- the range reaches from the first byte to the last
    have hfirst := (hsub ⟨le_rfl, by omega⟩ : (0 : ℕ) ∈ Set.Ico cr.halfOpen.1 cr.halfOpen.2).1
    have hend := (hsub ⟨Nat.zero_le _, Nat.sub_lt (by omega) Nat.one_pos⟩ :
      total - 1 ∈ Set.Ico cr.halfOpen.1 cr.halfOpen.2).2
    have hwrap : cr.halfOpen.2 ≤ cr.last + 1 := Nat.mod_le _ _
    refine Or.inl (Prod.ext (Nat.le_zero.mp hfirst) ?_)
    omega
  · rw [hgaps] at hgap
    exact absurd hgap List.not_mem_nil

end Folded

end Operations

/-- The key a range is stored under. -/
def Storing.storedKey (P : Platform) (w : Storing) : String :=
  entryKey w.partition "GET" (normalizeUrl P w.url) (w.vkey P)

/-- The range that a store of this body folds in, if it gets that far. -/
def Storing.foldsIn (P : Platform) (opts : CacheOptions) (w : Storing) (body : Bytes) :
    Option ContentRange :=
  if storability P w.method w.requestHeaders w.metadata body.length opts = .store ∧
      w.status = 206 ∧ eqIgnoreAsciiCase w.method "GET" = true ∧
      isMultipart w.responseHeaders = false then
    w.contentRange.filter fun cr => cr.len = body.length
  else none

/-- **The operation leaves no file behind**: if it stores a range, then one whose parts
go with the entry. -/
def Op.leavesNothing (P : Platform) (opts : CacheOptions) (s : Store) : Op → Bool
  | .store w body =>
    match w.foldsIn P opts body with
    | none => true
    | some cr =>
      let existing := w.kept P (s.index.entries.lookup (w.storedKey P))
      existing.any (fun r => r.body.isComplete) || partsNamed P s body existing cr
  | _ => true

/-! ### The operations -/

section Operations

variable {opts : CacheOptions} {i : ℕ} {s : Store} {w : Storing} {body : Bytes}

theorem atRest_storePartial (hP : P.Lossless) (h : AtRest P s)
    (hnamed : ∀ cr, w.contentRange = some cr → cr.len = body.length →
      eqIgnoreAsciiCase w.method "GET" = true → isMultipart w.responseHeaders = false →
      ((w.kept P (s.index.entries.lookup (w.storedKey P))).any fun r => r.body.isComplete) = false →
        partsNamed P s body (w.kept P (s.index.entries.lookup (w.storedKey P))) cr = true) :
    Yields (roomyDiscipline i) (storePartial P opts w body) s fun _ u => AtRest P u := by
  rw [storePartial]
  split
  · exact atRest_rejected h
  · rename_i hget
    split
    · exact atRest_rejected h
    · rename_i hmultipart
      split
      · exact atRest_rejected h
      · rename_i cr hcr
        split
        · exact atRest_rejected h
        · rename_i hlen
          have hparts := hnamed cr hcr (not_not.mp hlen) (by simpa using hget)
            (by simpa using hmultipart)
          refine Prog.Yields.bind (yields_ask rfl) fun found u hu => ?_
          obtain ⟨-, rfl, rfl⟩ := hu
          change Yields _ (foldRange P opts w body cr (w.storedKey P)
            (s.index.entries.lookup (w.storedKey P))) s _
          rcases hfound : s.index.entries.lookup (w.storedKey P) with _ | r
          · refine atRest_extendRange hP h (fun r hr => absurd hr (by simp)) fun hpart => ?_
            exact partsNamed_none hcr
          · rw [foldRange]
            split
            · rename_i hsame
              have hkept : w.kept P (some r) = some r := by
                rw [Storing.kept, Option.filter_some, if_pos hsame]
              rw [hfound, hkept] at hparts
              refine atRest_extendRange hP h (fun r' hr' => ?_) hparts
              exact ⟨_, Option.some.inj hr' ▸ hfound⟩
            · refine (atRest_removeEntry h).bind fun _ u hu => (atRest_deleteOrphans hu).bind
                fun _ v hv => ?_
              exact atRest_extendRange hP hv (fun r hr => absurd hr (by simp))
                fun _ => partsNamed_none hcr

theorem atRest_storeWithProvenance (hP : P.Lossless) (h : AtRest P s)
    (hleaves : (Op.store w body).leavesNothing P opts s = true) :
    Yields (roomyDiscipline i) (storeWithProvenance P opts w body) s fun _ u => AtRest P u := by
  refine Prog.Yields.bind yields_bump fun _ u hu => ?_
  have hrest := h.alike hu
  split
  · exact atRest_rejected hrest
  · rename_i hstore
    split
    · rename_i hstatus
      refine atRest_storePartial hP hrest fun cr hcr hlen hget hmultipart => ?_
      have hfolds : w.foldsIn P opts body = some cr := by
        rw [Storing.foldsIn, if_pos ⟨hstore, hstatus, hget, hmultipart⟩, hcr, Option.filter_some,
          if_pos (by simpa using hlen)]
      rw [Op.leavesNothing, hfolds] at hleaves
      rw [hu.entries]
      intro hpart
      rw [partsNamed, hu.blobs]
      exact (Bool.or_eq_true_iff.mp hleaves).resolve_left (by simp [hpart])
    · refine Prog.Yields.bind (atRest_storeWhole hP hrest) fun r v hv => ?_
      obtain ⟨receipt, orphaned⟩ := r
      exact atRest_afterStore hv

theorem atRest_finishStreamed (hP : P.Lossless) {writer : BlobWriter} (h : AtRest P s) :
    Yields (roomyDiscipline i) (finishStreamed P opts w writer) s fun _ u => AtRest P u := by
  refine Prog.Yields.bind yields_bump fun _ u hu => ?_
  have hrest := h.alike hu
  split
  · exact atRest_rejected hrest
  · split
    · exact atRest_rejected hrest
    · refine Prog.Yields.bind (atRest_storeWhole hP hrest) fun r v hv => ?_
      obtain ⟨receipt, orphaned⟩ := r
      exact atRest_afterStore hv

theorem atRest_discardRepresentation {key : String} {content : ContentId} (h : AtRest P s) :
    Yields (roomyDiscipline i) (discardRepresentation key content) s fun _ u => AtRest P u := by
  refine Prog.Yields.bind (yields_ask rfl) fun found u hu => ?_
  obtain ⟨-, rfl, rfl⟩ := hu
  split
  · exact h
  · rename_i record hfound
    split
    · have hdrop : Yields (roomyDiscipline i) (ask (.dropEntryHolding key record)) s
          fun _ u => AtRest P u :=
        (atRest_takeOut (a := .dropEntryHolding key record) h trivial
          (fun _ => Index.recorded_dropEntryIfUnchanged.mpr) rfl).mono fun _ _ hu => hu.2
      refine hdrop.bind fun orphaned u hu => ?_
      rcases orphaned with _ | orphaned
      · exact hu
      · exact (atRest_deleteOrphans hu).bind fun _ _ hv => hv
    · exact h

theorem atRest_invalidateUrl {partition : Option String} {method url : String} (h : AtRest P s) :
    Yields (roomyDiscipline i) (invalidateUrl P partition method url) s fun _ u => AtRest P u := by
  rw [invalidateUrl]
  split
  · exact h
  · exact (atRest_invalidate h).bind fun _ _ hu => (atRest_deleteOrphans hu).bind fun _ _ hv =>
      (atRest_invalidate hv).bind fun _ _ ht => (atRest_deleteOrphans ht).bind fun _ _ hx => hx

theorem atRest_purge {partition : Option String} {method url : String} (h : AtRest P s) :
    Yields (roomyDiscipline i) (purge P partition method url) s fun _ u => AtRest P u :=
  (atRest_invalidate h).bind fun _ _ hu => (atRest_deleteOrphans hu).bind fun _ _ hv => hv

/-- The loop that removes every file it was told of. -/
theorem yields_removeEach {ok : ∀ {β : Type}, CacheAct β → Store → Prop} {ids : List ContentId}
    (hnodup : ids.Nodup) (hthere : ∀ id ∈ ids, (s.files.lookup id).isSome = true) :
    Yields (aloneDiscipline i ok) (removeEach ids) s fun _ u =>
      u.index = s.index ∧ u.gate = s.gate ∧
        ∀ c, (u.files.lookup c).isSome = true → (s.files.lookup c).isSome = true ∧ c ∉ ids := by
  induction ids generalizing s with
  | nil => exact ⟨rfl, rfl, fun _ hc => ⟨hc, List.not_mem_nil⟩⟩
  | cons id rest ih =>
    obtain ⟨hid, hrest⟩ := List.nodup_cons.mp hnodup
    have hremove : Yields (aloneDiscipline i ok) (onFile (.remove id)) s fun there u =>
        there = true ∧ u = { s with files := s.files.erase id } :=
      yields_file.mono fun there u hu => ⟨hu.1.trans (hthere id List.mem_cons_self), hu.2⟩
    refine hremove.bind fun there u hu => ?_
    obtain ⟨rfl, rfl⟩ := hu
    have hleft : ∀ c, c ≠ id → (s.files.erase id).lookup c = s.files.lookup c :=
      fun c hne => AList.lookup_erase_ne hne
    refine Prog.Yields.bind (ih hrest fun c hc => ?_) fun _ v hv => ?_
    · have hne : c ≠ id := fun h => hid (h ▸ hc)
      exact (congrArg Option.isSome (hleft c hne)).trans (hthere c (List.mem_cons_of_mem _ hc))
    · obtain ⟨hindex, hgate, hfiles⟩ := hv
      refine ⟨hindex, hgate, fun c hc => ?_⟩
      obtain ⟨herased, hnot⟩ := hfiles c hc
      have hne : c ≠ id := by
        rintro rfl
        rw [AList.lookup_erase] at herased
        exact absurd herased (by simp)
      exact ⟨(congrArg Option.isSome (hleft c hne)).symm.trans herased,
        fun hmem => (List.mem_cons.mp hmem).elim hne hnot⟩

theorem atRest_clear (h : AtRest P s) :
    Yields (roomyDiscipline i) clear s fun _ u => AtRest P u := by
  refine yields_holdingExclusive h.free ?_
  refine Prog.Yields.bind (yields_ask rfl) fun entries u hu => ?_
  obtain ⟨-, -, rfl⟩ := hu
  have hlist : Yields (roomyDiscipline i) (onFile .list)
      { s with index := s.index.clear.2, gate := ⟨[], some i⟩ } fun ids u =>
        ids = (rows s.files).map Prod.fst ∧
          u = { s with index := s.index.clear.2, gate := ⟨[], some i⟩ } := yields_file
  refine Prog.Yields.bind (Prog.Yields.bind hlist fun ids u hu => ?_) fun _ u hu => hu
  obtain ⟨rfl, rfl⟩ := hu
  have hkeys : (rows s.files).map Prod.fst = s.files.keys := by
    rw [rows, List.map_map]
    rfl
  have hmem : ∀ c, c ∈ (rows s.files).map Prod.fst ↔ (s.files.lookup c).isSome = true := by
    intro c
    rw [hkeys, AList.lookup_isSome]
    exact AList.mem_keys.symm
  have hnodup : ((rows s.files).map Prod.fst).Nodup := by
    rw [hkeys]
    exact s.files.keys_nodup
  refine Prog.Yields.mono (yields_removeEach hnodup fun c hc => (hmem c).mp hc) fun _ u hu => ?_
  obtain ⟨hindex, hgate, hfiles⟩ := hu
  -- every file was in the list, so none is left
  have hnone : ∀ c, (u.files.lookup c).isSome ≠ true := fun c hc =>
    (hfiles c hc).2 ((hmem c).mpr (hfiles c hc).1)
  refine ⟨hgate, ⟨?_, ?_, ?_, ?_, ?_, ?_⟩, rfl⟩
  · rw [hindex]
    exact Index.clear_exact
  · intro c hc
    rw [hindex] at hc
    exact absurd hc Bool.false_ne_true
  · exact fun c hc => absurd hc (hnone c)
  · exact fun id raw hraw => absurd (by rw [hraw]; rfl) (hnone id)
  · intro k r hr
    rw [hindex] at hr
    exact absurd hr (by simp [Index.clear])
  · intro k r hr
    rw [hindex] at hr
    exact absurd hr (by simp [Index.clear])

theorem mem_orphanedBlobs {ix : Index} {c : ContentId} :
    c ∈ ix.orphanedBlobs ↔ ∃ b, ix.blobs.lookup c = some b ∧ b.refcount = 0 := by
  rw [Index.orphanedBlobs, (List.perm_insertionSort _ _).mem_iff, List.mem_map]
  constructor
  · rintro ⟨⟨c, b⟩, hrow, rfl⟩
    obtain ⟨hmem, hzero⟩ := List.mem_filter.mp hrow
    exact ⟨b, mem_rows_iff.mp hmem, of_decide_eq_true hzero⟩
  · rintro ⟨b, hb, hzero⟩
    exact ⟨(c, b), List.mem_filter.mpr ⟨mem_rows_iff.mpr hb, decide_eq_true hzero⟩, rfl⟩

theorem yields_pruneSri {ok : ∀ {β : Type}, CacheAct β → Store → Prop} :
    Yields (aloneDiscipline i ok) pruneSri s fun _ u => s.Alike u := by
  refine Prog.Yields.bind (yields_quiet trivial) fun stale u hu => ?_
  split
  · exact hu
  · exact Prog.Yields.bind (yields_quiet trivial) fun _ v hv => hu.trans hv

/-- **A collection** leaves no record that nothing refers to. -/
theorem atRest_collectGarbage (h : AtRest P s) :
    Yields (roomyDiscipline i) collectGarbage s fun _ u => AtRest P u ∧
      ∀ c, u.index.Recorded c → u.index.references c ≠ 0 := by
  have horphans : Yields (roomyDiscipline i) (ask .orphanedBlobs) s fun ids u =>
      ids = s.index.orphanedBlobs ∧ u = s :=
    (yields_ask rfl).mono fun ids u hu => hu.2
  refine horphans.bind fun ids u hu => ?_
  obtain ⟨rfl, rfl⟩ := hu
  refine Prog.Yields.bind (yields_deleteOrphans h.free) fun deleted v hv => ?_
  subst hv
  refine Prog.Yields.bind yields_pruneSri fun _ t ht => ?_
  have hswept : AtRest P (u.sweep u.index.orphanedBlobs) :=
    ⟨h.tidy.sweep _, Store.gate_sweep.trans h.free⟩
  refine ⟨hswept.alike ht, fun c hc hzero => ?_⟩
  rw [Index.Recorded, ht.blobs] at hc
  have hnone : u.index.references c = 0 := by
    rw [Index.references, ht.entries, Store.entries_sweep] at hzero
    exact hzero
  refine h.tidy.not_recorded_sweep (mem_orphanedBlobs.mpr ?_) hnone hc
  obtain ⟨b, hb⟩ := Option.isSome_iff_exists.mp (Store.recorded_of_sweep hc)
  refine ⟨b, hb, ?_⟩
  rw [← h.tidy.counted c, Index.refcount, Index.countIn, hb] at hnone
  exact hnone

end Operations

/-! ### One operation after another -/

/-- A step with nobody else at work, no failure of the disk, and room for the
references it takes. -/
def RoomyStep {β : Type} (a : CacheAct β) (s : Store) (b : β) (s' : Store) : Prop :=
  a.HasRoom s ∧ CalmStep 0 a s b s'

/-- **Operations that run one at a time**, each of them allowed where it begins. -/
inductive InTurn (P : Platform) (opts : CacheOptions) (ok : Store → Op → Prop) :
    List Op → Store → Store → Prop
  | nil {s : Store} : InTurn P opts ok [] s s
  | cons {op : Op} {ops : List Op} {s u v : Store} {r : Outcome} (hok : ok s op)
      (hreturns : (op.program P opts).Returns RoomyStep s r u) (hrest : InTurn P opts ok ops u v) :
      InTurn P opts ok (op :: ops) s v

theorem InTurn.mono {P : Platform} {opts : CacheOptions} {ok ok' : Store → Op → Prop}
    (hok : ∀ s op, ok s op → ok' s op) {ops : List Op} {s u : Store} (h : InTurn P opts ok ops s u) :
    InTurn P opts ok' ops s u := by
  induction h with
  | nil => exact .nil
  | cons hop hreturns _ ih => exact .cons (hok _ _ hop) hreturns ih

/-- The operations that change what is stored, the confirmation of a stored response
apart. -/
def Op.changes : Op → Bool
  | .store _ _ => true
  | .finishStreamed _ _ => true
  | .discardRepresentation _ _ => true
  | .invalidate _ _ _ => true
  | .purge _ _ _ => true
  | .enforceBudget => true
  | .collectGarbage => true
  | .clear => true
  | _ => false

section InTurn

variable {opts : CacheOptions} {s u v : Store}

/-- What an operation leaves that gets through by itself. -/
theorem of_roomy {α : Type} {x : CacheM α} {G : α → Store → Prop}
    (h : Yields (roomyDiscipline 0) x s G) {r : Except CacheError α}
    (hreturns : x.run.Returns RoomyStep s r u) : ∃ a, r = .ok a ∧ G a u := by
  have hstep : ∀ {β : Type} (a : CacheAct β) s b s', RoomyStep a s b s' →
      (roomyDiscipline 0).sees s a b ∧ s' = (roomyDiscipline 0).next s a b := by
    rintro β a s b s' ⟨hroom, hcalm⟩
    exact ⟨⟨hroom, hcalm.after ▸ hcalm⟩, hcalm.after⟩
  have hend : Prog.yielding G r u := Prog.Obeys.of_returns hstep h hreturns
  rcases r with e | a
  · exact hend.elim
  · exact ⟨a, rfl, hend⟩

/-- **One operation.** -/
theorem AtRest.returns (h : AtRest P s) (hP : P.Lossless) {op : Op} (hop : op.changes = true)
    (hleaves : op.leavesNothing P opts s = true) {r : Outcome}
    (hreturns : (op.program P opts).Returns RoomyStep s r u) : AtRest P u := by
  have hyields : Yields (roomyDiscipline 0) (op.run P opts) s fun _ u => AtRest P u := by
    cases op with
    | store w body => exact (atRest_storeWithProvenance hP h hleaves).bind fun _ _ hu => hu
    | finishStreamed w writer => exact (atRest_finishStreamed hP h).bind fun _ _ hu => hu
    | discardRepresentation key content =>
      exact (atRest_discardRepresentation h).bind fun _ _ hu => hu
    | invalidate partition method url => exact (atRest_invalidateUrl h).bind fun _ _ hu => hu
    | purge partition method url => exact (atRest_purge h).bind fun _ _ hu => hu
    | enforceBudget => exact (atRest_enforceBudget h).bind fun _ _ hu => hu
    | collectGarbage => exact (atRest_collectGarbage h).bind fun _ _ hu => hu.1
    | clear => exact (atRest_clear h).bind fun _ _ hu => hu
    | _ => exact absurd hop (by simp [Op.changes])
  obtain ⟨-, -, hu⟩ := of_roomy hyields hreturns
  exact hu

/-- **Any number of them.** -/
theorem AtRest.inTurn (h : AtRest P s) (hP : P.Lossless) {ops : List Op}
    (hops : ∀ op ∈ ops, op.changes = true)
    (hturns : InTurn P opts (fun s op => op.leavesNothing P opts s = true) ops s u) :
    AtRest P u := by
  induction hturns with
  | nil => exact h
  | cons hok hreturns _ ih =>
    exact ih (h.returns hP (hops _ List.mem_cons_self) hok hreturns)
      fun op hop => hops op (List.mem_cons_of_mem _ hop)

end InTurn

/-- **The disk and the index agree at rest**: after any operations that run one at a
time and leave nothing behind, and a collection, the files are the blobs that some
entry names. -/
theorem files_named_at_rest (P : Platform) (hP : P.Lossless) (opts : CacheOptions) (ops : List Op)
    (hops : ∀ op ∈ ops, op.changes = true) (s u v : Store) (hs : AtRest P s)
    (hturns : InTurn P opts (fun s op => op.leavesNothing P opts s = true) ops s u) (r : Outcome)
    (hcollect : (Op.collectGarbage.program P opts).Returns RoomyStep u r v) (c : ContentId) :
    (v.files.lookup c).isSome = true ↔
      ∃ key record, v.index.entries.lookup key = some record ∧ c ∈ record.contents := by
  have hu : AtRest P u := hs.inTurn hP hops hturns
  have hyields : Yields (roomyDiscipline 0) (Op.collectGarbage.run P opts) u fun _ v =>
      AtRest P v ∧ ∀ c, v.index.Recorded c → v.index.references c ≠ 0 :=
    (atRest_collectGarbage hu).bind fun _ _ hv => hv
  obtain ⟨-, -, hv, hreferred⟩ := of_roomy hyields hcollect
  constructor
  · intro hc
    have hrecorded := (hv.tidy.recorded c hc).resolve_right (Set.notMem_empty c)
    obtain ⟨key, record, hr, hnames⟩ :=
      count_pos_iff.mp (Nat.pos_of_ne_zero (hreferred c hrecorded))
    exact ⟨key, record, hr, of_decide_eq_true hnames⟩
  · rintro ⟨key, record, hr, hc⟩
    exact hv.tidy.filed hr hc

/-! ### Turns that are computed -/

/-- A step of a turn, at a time. -/
def roomyPerform (now : ℕ) {β : Type} (a : CacheAct β) (s : Store) : Option (β × Store) :=
  if a.HasRoom s then Store.perform ⟨now, none⟩ 0 a s else none

/-- Let operations run one after another. -/
def takeTurns (P : Platform) (opts : CacheOptions) (ok : Store → Op → Bool) (now : ℕ) :
    List Op → Store → Option Store
  | [], s => some s
  | op :: ops, s =>
    if ok s op then
      ((op.program P opts).exec (roomyPerform now) s).bind fun r => takeTurns P opts ok now ops r.2
    else none

section Computed

variable {opts : CacheOptions} {s u : Store} {now : ℕ}

theorem returns_of_roomyPerform {op : Op} {r : Outcome}
    (h : (op.program P opts).exec (roomyPerform now) s = some (r, u)) :
    (op.program P opts).Returns RoomyStep s r u := by
  refine Prog.returns_of_exec (fun a s b s' hperform => ?_) h
  rw [roomyPerform] at hperform
  split at hperform
  · exact ⟨‹_›, now, hperform⟩
  · exact absurd hperform (by simp)

theorem inTurn_of_takeTurns {ok : Store → Op → Bool} {ops : List Op}
    (h : takeTurns P opts ok now ops s = some u) :
    InTurn P opts (fun s op => ok s op = true) ops s u := by
  induction ops generalizing s with
  | nil =>
    obtain rfl : s = u := Option.some.inj h
    exact InTurn.nil
  | cons op ops ih =>
    rw [takeTurns] at h
    split at h
    · obtain ⟨⟨r, t⟩, hr, hrest⟩ := Option.bind_eq_some_iff.mp h
      exact InTurn.cons ‹_› (returns_of_roomyPerform hr) (ih hrest)
    · exact absurd h (by simp)

/-- Turns, and a collection, that end as they should. -/
theorem exists_inTurn {ok : Store → Op → Bool} {ops : List Op} {p : Store → Bool}
    (h : ((takeTurns P opts ok now ops s).bind fun u =>
      (Op.collectGarbage.program P opts).exec (roomyPerform now) u).any (fun r => p r.2) = true) :
    ∃ u r v, InTurn P opts (fun s op => ok s op = true) ops s u ∧
      (Op.collectGarbage.program P opts).Returns RoomyStep u r v ∧ p v = true := by
  obtain ⟨⟨r, v⟩, hrv, hp⟩ := (Option.any_eq_true _ _).mp h
  obtain ⟨u, hu, hcollect⟩ := Option.bind_eq_some_iff.mp hrv
  exact ⟨u, r, v, inTurn_of_takeTurns hu, returns_of_roomyPerform hcollect, hp⟩

end Computed

/-- A second page, whose body is the second byte, and then the two bytes of the first
page as ranges: the second range has a record when it is written. -/
def sharedOps : List Op :=
  .store { pageStore with url := "y" } [98] :: rangeOps

/-- The ranges meet, and both bodies are all there is. -/
theorem files_named_at_rest_shared :
    ∃ u r v, InTurn Platform.sample .default
        (fun s op => op.leavesNothing Platform.sample .default s = true) sharedOps .empty u ∧
      (Op.collectGarbage.program Platform.sample .default).Returns RoomyStep u r v ∧
      v.index.entries.keys.length = 2 ∧
      ∀ c, (v.files.lookup c).isSome = true ↔
        ∃ key record, v.index.entries.lookup key = some record ∧ c ∈ record.contents := by
  let two : Store → Bool := fun v => v.index.entries.keys.length = 2
  have hexec : ((takeTurns Platform.sample .default
      (fun s op => op.leavesNothing Platform.sample .default s) 10 sharedOps .empty).bind fun u =>
        (Op.collectGarbage.program Platform.sample .default).exec (roomyPerform 10) u).any
          (fun r => two r.2) = true := by decide +kernel
  obtain ⟨u, r, v, hturns, hcollect, hlen⟩ := exists_inTurn hexec
  exact ⟨u, r, v, hturns, hcollect, of_decide_eq_true hlen, fun c =>
    files_named_at_rest _ lossless_sample _ _ (by decide) _ _ _ atRest_empty hturns r hcollect c⟩

/-- **A part is left behind**: the second of two ranges is written as a blob of its own
before the whole body is, and no entry comes to name it. -/
theorem part_left_behind :
    AtRest Platform.sample .empty ∧
      ∃ u r v, InTurn Platform.sample .default (fun _ _ => True) rangeOps .empty u ∧
        (Op.collectGarbage.program Platform.sample .default).Returns RoomyStep u r v ∧
        ¬∀ c, (v.files.lookup c).isSome = true ↔
          ∃ key record, v.index.entries.lookup key = some record ∧ c ∈ record.contents := by
  refine ⟨atRest_empty, ?_⟩
  let left : Store → Bool := fun v => (v.files.lookup (Platform.sampleBlake3 [98])).isSome &&
    (rows v.index.entries).all fun row => Platform.sampleBlake3 [98] ∉ row.2.contents
  have hexec : ((takeTurns Platform.sample .default (fun _ _ => true) 10 rangeOps .empty).bind
      fun u => (Op.collectGarbage.program Platform.sample .default).exec (roomyPerform 10) u).any
        (fun r => left r.2) = true := by decide +kernel
  obtain ⟨u, r, v, hturns, hcollect, hleft⟩ := exists_inTurn hexec
  refine ⟨u, r, v, hturns.mono fun _ _ _ => trivial, hcollect, fun hall => ?_⟩
  obtain ⟨hthere, hnames⟩ := Bool.and_eq_true_iff.mp hleft
  obtain ⟨key, record, hr, hc⟩ := (hall _).mp hthere
  exact of_decide_eq_true (List.all_eq_true.mp hnames _ (mem_rows_iff.mpr hr)) hc

end Syndeo
