import Syndeo.Cache.Assembly
import Syndeo.Cache.Footprint
import Syndeo.Cache.Gate

/-!
# A cache that nobody else is at work on

Operations run one at a time, on a disk that does not fail. The store is then
known at every step, and what a piece of an operation does to it can be said
exactly: `Syndeo.aloneDiscipline` is the discipline whose knowledge is the store
itself, so that a piece of an operation yields a result under it exactly when it
runs through and ends so.

The effects are told as functions of the store (`Syndeo.putFile`,
`Syndeo.Store.sweep`), and as far as the counters, the integrity rows and the
peers' rows go they are not told at all: two stores that differ only there are
`Syndeo.Store.Alike`.
-/

namespace Syndeo

open Concurrent Tables
open Prog (Yields Ends yields_pure yields_bind)

/-! ### Running alone -/

/-- One step of an operation that has the cache to itself, where the disk does not
fail. -/
def CalmStep (i : ℕ) {β : Type} (a : CacheAct β) (s : Store) (b : β) (s' : Store) : Prop :=
  ∃ now, Store.perform ⟨now, none⟩ i a s = some (b, s')

/-- What a step leaves then. The time does not matter to it. -/
def Store.after (i : ℕ) {β : Type} (a : CacheAct β) (s : Store) : Store :=
  ((Store.perform ⟨0, none⟩ i a s).map Prod.snd).getD s

theorem CalmStep.after {i : ℕ} {β : Type} {a : CacheAct β} {s s' : Store} {b : β}
    (h : CalmStep i a s b s') : s' = s.after i a := by
  obtain ⟨now, hperform⟩ := h
  cases a with
  | now =>
    obtain ⟨-, rfl⟩ := Store.perform_now.mp hperform
    rfl
  | gate a =>
    obtain ⟨gate, hrun, rfl⟩ := Store.perform_gate.mp hperform
    simp [Store.after, Store.perform, hrun]
  | file a =>
    rcases Store.perform_file.mp hperform with ⟨_, hfault, -⟩ | ⟨-, rfl, rfl⟩
    · exact absurd hfault (by simp)
    · rfl
  | index a =>
    rcases Store.perform_index.mp hperform with
      ⟨_, hfault, -⟩ | ⟨-, r, ix, hrun, rfl, rfl⟩ | ⟨-, e, hrun, rfl, rfl⟩
    · exact absurd hfault (by simp)
    · simp [Store.after, Store.perform, hrun]
    · simp [Store.after, Store.perform, hrun]

/-- **The discipline of running alone**, as thread `i`: the store is what is known.
Steps that do not meet `ok` are not looked into. -/
def aloneDiscipline (i : ℕ) (ok : ∀ {β : Type}, CacheAct β → Store → Prop) :
    Discipline CacheAct Store where
  may := fun {_} s a => (Store.perform ⟨0, none⟩ i a s).isSome = true
  sees := fun {_} s a b => ok a s ∧ CalmStep i a s b (s.after i a)
  next := fun {_} s a _ => s.after i a
  born := fun {_} s _ => s

/-- **What obeys, runs**: a piece of an operation that gets through under the
discipline gets through. -/
theorem exists_returns_of_yields {i : ℕ} {s : Store} {α : Type} {x : CacheM α}
    {G : α → Store → Prop} (h : Yields (aloneDiscipline i fun {_} _ _ => True) x s G) :
    ∃ r s', x.run.Returns (CalmStep i) s r s' ∧ Prog.yielding G r s' := by
  refine Prog.Obeys.exists_returns (fun {β} a s hmay => ?_) h
  obtain ⟨⟨b, s'⟩, hperform⟩ := Option.isSome_iff_exists.mp hmay
  have hcalm : CalmStep i a s b s' := ⟨0, hperform⟩
  obtain rfl := hcalm.after
  exact ⟨b, ⟨trivial, hcalm⟩, hcalm⟩

/-- The gate, when nobody holds it. -/
def Gate.free : Gate := ⟨[], none⟩

section Steps

variable {i : ℕ} {ok : ∀ {β : Type}, CacheAct β → Store → Prop} {s : Store} {α β : Type}
  {G : α → Store → Prop} {x : CacheM α}

/-- A transaction that is committed. -/
theorem yields_ask {a : IndexAct α} {r : α} {ix : Index} (hrun : a.run s.index = .ok (r, ix)) :
    Yields (aloneDiscipline i ok) (ask a) s fun r' u =>
      ok (.index a) s ∧ r' = r ∧ u = { s with index := ix } := by
  have hafter : s.after i (.index a) = { s with index := ix } := by
    simp [Store.after, Store.perform, hrun]
  refine ⟨by simp [aloneDiscipline, Store.perform, hrun], fun b hb => ?_⟩
  obtain ⟨hok, now, hperform⟩ := hb
  change Prog.yielding _ b (s.after i (.index a))
  rcases Store.perform_index.mp hperform with
    ⟨_, hfault, -⟩ | ⟨-, r', ix', hrun', rfl, -⟩ | ⟨-, e, hrun', -⟩
  · exact absurd hfault (by simp)
  · obtain ⟨rfl, rfl⟩ := Prod.mk.inj (Except.ok.inj (hrun.symm.trans hrun'))
    exact ⟨hok, rfl, hafter⟩
  · exact absurd (hrun.symm.trans hrun') (by simp)

/-- A call to the file system. -/
theorem yields_file {a : FileAct α} : Yields (aloneDiscipline i ok) (onFile a) s fun r u =>
    r = (a.run s.files).1 ∧ u = { s with files := (a.run s.files).2 } := by
  refine ⟨rfl, fun b hb => ?_⟩
  obtain ⟨-, now, hperform⟩ := hb
  rcases Store.perform_file.mp hperform with ⟨_, hfault, -⟩ | ⟨-, rfl, -⟩
  · exact absurd hfault (by simp)
  · exact ⟨rfl, rfl⟩

/-- A reading of the clock. -/
theorem yields_clock : Yields (aloneDiscipline i ok) clock s fun _ u => u = s :=
  ⟨rfl, fun _ _ => rfl⟩

/-- A move of the gate. -/
theorem yields_move {a : GateAct} (gate : Gate) (hrun : a.run i s.gate = some gate) :
    Yields (aloneDiscipline i ok) (move a) s fun _ u => u = { s with gate := gate } := by
  have hafter : s.after i (.gate a) = { s with gate := gate } := by
    simp [Store.after, Store.perform, hrun]
  exact ⟨by simp [aloneDiscipline, Store.perform, hrun], fun b _ => hafter⟩

/-- What is done while the gate is held shared. -/
theorem yields_holdingShared (hfree : s.gate = .free)
    (hx : Yields (aloneDiscipline i ok) x { s with gate := ⟨[i], none⟩ }
      fun a u => u.gate = ⟨[i], none⟩ ∧ G a { u with gate := .free }) :
    Yields (aloneDiscipline i ok) (holdingShared x) s G := by
  refine (yields_move ⟨[i], none⟩ (by rw [hfree]; rfl)).bind fun _ u hu => ?_
  rw [hu]
  refine hx.lift_run.bind fun r v hv => ?_
  obtain ⟨a, rfl, hgate, hG⟩ := hv
  refine (yields_move .free (by simp [GateAct.run, hgate, Gate.free])).bind fun _ w hw => ?_
  rw [hw]
  exact hG

/-- What is done while it is held exclusively. -/
theorem yields_holdingExclusive (hfree : s.gate = .free)
    (hx : Yields (aloneDiscipline i ok) x { s with gate := ⟨[], some i⟩ }
      fun a u => u.gate = ⟨[], some i⟩ ∧ G a { u with gate := .free }) :
    Yields (aloneDiscipline i ok) (holdingExclusive x) s G := by
  refine (yields_move ⟨[], some i⟩ (by rw [hfree]; rfl)).bind fun _ u hu => ?_
  rw [hu]
  refine hx.lift_run.bind fun r v hv => ?_
  obtain ⟨a, rfl, hgate, hG⟩ := hv
  refine (yields_move .free (by rw [hgate]; rfl)).bind fun _ w hw => ?_
  rw [hw]
  exact hG

end Steps

/-! ### Stores that are alike -/

/-- The second store has the entries, the records, the files and the gate of the
first. -/
structure Store.Alike (s u : Store) : Prop where
  entries : u.index.entries = s.index.entries
  blobs : u.index.blobs = s.index.blobs
  variants : u.index.variants = s.index.variants
  files : u.files = s.files
  gate : u.gate = s.gate

theorem Store.Alike.refl (s : Store) : s.Alike s := ⟨rfl, rfl, rfl, rfl, rfl⟩

theorem Store.Alike.trans {s u v : Store} (h : s.Alike u) (h' : u.Alike v) : s.Alike v :=
  ⟨h'.entries.trans h.entries, h'.blobs.trans h.blobs, h'.variants.trans h.variants,
    h'.files.trans h.files, h'.gate.trans h.gate⟩

/-- The transaction reads, or writes what is not told of a store. -/
def IndexAct.Quiet : ∀ {β : Type}, IndexAct β → Prop
  | _, .putEntry _ _ => False
  | _, .refreshEntry _ => False
  | _, .invalidate _ _ _ => False
  | _, .removeEntry _ => False
  | _, .dropBrokenEntry _ _ => False
  | _, .dropEntryHolding _ _ => False
  | _, .recordAccess _ _ _ => False
  | _, .clear => False
  | _, .forgetBlobIfUnreferenced _ => False
  | _, .grantEligibility _ _ => False
  | _, _ => True

section Quiet

variable {i : ℕ} {ok : ∀ {β : Type}, CacheAct β → Store → Prop} {s : Store} {α β : Type}

/-- **A quiet transaction** leaves a store that is alike. -/
theorem yields_quiet {a : IndexAct β} (ha : a.Quiet) :
    Yields (aloneDiscipline i ok) (ask a) s fun _ u => s.Alike u := by
  cases a with
  | putEntry record newBlobs => exact ha.elim
  | refreshEntry record => exact ha.elim
  | invalidate partition method url => exact ha.elim
  | removeEntry key => exact ha.elim
  | dropBrokenEntry key expected => exact ha.elim
  | dropEntryHolding key expected => exact ha.elim
  | recordAccess key now tally => exact ha.elim
  | clear => exact ha.elim
  | forgetBlobIfUnreferenced id => exact ha.elim
  | grantEligibility id verified => exact ha.elim
  | _ =>
    refine (yields_ask rfl).mono fun r u hu => ?_
    obtain ⟨-, -, rfl⟩ := hu
    exact ⟨rfl, rfl, rfl, rfl, rfl⟩

theorem yields_bump {name : String} {n : ℕ} :
    Yields (aloneDiscipline i ok) (ask (.bump name n)) s fun _ u => s.Alike u := yields_quiet trivial

theorem yields_indexSri {digests : List (Bytes × ContentId)} :
    Yields (aloneDiscipline i ok) (ask (.indexSri digests)) s fun _ u => s.Alike u :=
  yields_quiet trivial

theorem yields_countDeduped {receipt : WriteReceipt} :
    Yields (aloneDiscipline i ok) (countDeduped receipt) s fun _ u => s.Alike u := by
  rw [countDeduped]
  split
  · exact Store.Alike.refl s
  · exact yields_quiet trivial

end Quiet

/-! ### Files -/

section Files

variable {P : Platform} {i : ℕ} {ok : ∀ {β : Type}, CacheAct β → Store → Prop} {s : Store}

/-- The files, with the file of this body among them. -/
def putFile (P : Platform) (bytes : Bytes) (files : Table ContentId Bytes) :
    Table ContentId Bytes :=
  if (files.lookup (P.blake3 bytes)).isSome then files
  else files.insert (P.blake3 bytes) (blobFile P bytes)

/-- The files that are there when a body has been written: those from before, and
its own. -/
theorem isSome_lookup_putFile {bytes : Bytes} {files : Table ContentId Bytes} {c : ContentId} :
    ((putFile P bytes files).lookup c).isSome = true ↔
      (files.lookup c).isSome = true ∨ c = P.blake3 bytes := by
  rw [putFile]
  split
  · rename_i hthere
    refine ⟨Or.inl, ?_⟩
    rintro (hold | rfl)
    · exact hold
    · exact hthere
  · rcases eq_or_ne c (P.blake3 bytes) with rfl | hne
    · simp
    · rw [AList.lookup_insert_ne hne]
      simp [hne]

/-- A file that was not there before is the body's. -/
theorem lookup_putFile {bytes raw : Bytes} {files : Table ContentId Bytes} {c : ContentId}
    (h : (putFile P bytes files).lookup c = some raw) :
    files.lookup c = some raw ∨ c = P.blake3 bytes ∧ raw = blobFile P bytes := by
  rw [putFile] at h
  split at h
  · exact Or.inl h
  · rcases eq_or_ne c (P.blake3 bytes) with rfl | hne
    · rw [AList.lookup_insert] at h
      exact Or.inr ⟨rfl, (Option.some.inj h).symm⟩
    · rw [AList.lookup_insert_ne hne] at h
      exact Or.inl h

/-- **Writing a body**, where the file that may be there already is not empty. -/
theorem yields_put {bytes : Bytes} (hwhole : s.files.lookup (P.blake3 bytes) ≠ some []) :
    Yields (aloneDiscipline i ok) (put P bytes) s fun receipt u =>
      (receipt.id = P.blake3 bytes ∧ receipt.len = bytes.length) ∧
        u = { s with files := putFile P bytes s.files } := by
  have hexists : Yields (aloneDiscipline i ok) (onFile (.exists (P.blake3 bytes))) s fun r u =>
      r = (s.files.lookup (P.blake3 bytes)).isSome ∧ u = s := yields_file
  refine hexists.lift_run.bind fun r u hr => ?_
  obtain ⟨there, rfl, rfl, hu⟩ := hr
  rw [hu]
  rcases hfile : s.files.lookup (P.blake3 bytes) with _ | raw
  · have hput : putFile P bytes s.files = s.files.insert (P.blake3 bytes) (blobFile P bytes) := by
      rw [putFile, hfile]
      rfl
    rw [hput]
    exact yields_file.bind fun _ v hv => ⟨⟨rfl, rfl⟩, hv.2⟩
  · have hput : putFile P bytes s.files = s.files := by rw [putFile, hfile]; rfl
    have hread : Yields (aloneDiscipline i ok) (onFile (.read (P.blake3 bytes))) s
        fun r v => r = some raw ∧ v = s := yields_file.mono fun r v hr => ⟨hr.1.trans hfile, hr.2⟩
    rw [hput]
    refine hread.bind fun r v hr => ?_
    obtain ⟨rfl, rfl⟩ := hr
    refine hread.bind fun r w hr => ?_
    obtain ⟨rfl, rfl⟩ := hr
    rcases raw with _ | ⟨tag, payload⟩
    · exact absurd hfile hwhole
    · exact ⟨⟨rfl, rfl⟩, rfl⟩

/-- **Reading a body back.** -/
theorem yields_get {id : ContentId} {raw bytes : Bytes} (hfile : s.files.lookup id = some raw)
    (hdecoded : decodeFile P raw = .ok (some bytes)) (hid : P.blake3 bytes = id) :
    Yields (aloneDiscipline i ok) (get P id) s fun b u => u = s ∧ b = bytes := by
  have hread : Yields (aloneDiscipline i ok) (onFile (.read id)) s
      fun r u => r = some raw ∧ u = s := yields_file.mono fun r u hr => ⟨hr.1.trans hfile, hr.2⟩
  have hpure : Yields (aloneDiscipline i ok) (ExceptT.mk (pure (decodeFile P raw))) s
      fun d u => d = some bytes ∧ u = s := by
    rw [hdecoded]
    exact ⟨rfl, rfl⟩
  refine hread.bind fun r u hr => ?_
  obtain ⟨rfl, rfl⟩ := hr
  refine hpure.bind fun d v hd => ?_
  obtain ⟨rfl, rfl⟩ := hd
  simp only [hid, if_true]
  exact ⟨rfl, rfl⟩

end Files

/-! ### Deleting -/

section Deleting

variable {i : ℕ} {ok : ∀ {β : Type}, CacheAct β → Store → Prop} {s : Store}

/-- The store, after a blob was deleted unless something refers to it. -/
def Store.drop (s : Store) (id : ContentId) : Store where
  index := (s.index.forgetBlobIfUnreferenced id).2
  files := if (s.index.forgetBlobIfUnreferenced id).1 then s.files.erase id else s.files
  gate := s.gate

/-- The store, after all of these were. -/
def Store.sweep (s : Store) : List ContentId → Store
  | [] => s
  | id :: rest => (s.drop id).sweep rest

theorem Store.sweep_gate {ids : List ContentId} {gate : Gate} :
    { s with gate := gate }.sweep ids = { s.sweep ids with gate := gate } := by
  induction ids generalizing s with
  | nil => rfl
  | cons id rest ih => exact ih (s := s.drop id)

@[simp] theorem Store.gate_sweep {ids : List ContentId} : (s.sweep ids).gate = s.gate := by
  induction ids generalizing s with
  | nil => rfl
  | cons id rest ih => exact ih

/-- **The loop of a deletion.** -/
theorem yields_deleteEach {ids : List ContentId} :
    Yields (aloneDiscipline i ok) (deleteEach ids) s fun _ u => u = s.sweep ids := by
  induction ids generalizing s with
  | nil => exact rfl
  | cons id rest ih =>
    have hforget : Yields (aloneDiscipline i ok) (ask (.forgetBlobIfUnreferenced id)) s
        fun r u => r = (s.index.forgetBlobIfUnreferenced id).1 ∧
          u = { s with index := (s.index.forgetBlobIfUnreferenced id).2 } :=
      (yields_ask rfl).mono fun r u hr => hr.2
    refine hforget.bind fun r u hr => ?_
    obtain ⟨hr, rfl⟩ := hr
    rw [Store.sweep, Store.drop, ← hr]
    rcases r with _ | _
    · exact ih
    · have hremove : Yields (aloneDiscipline i ok) (remove id)
          { s with index := (s.index.forgetBlobIfUnreferenced id).2 } fun _ u => u =
            { s with index := (s.index.forgetBlobIfUnreferenced id).2, files := s.files.erase id } :=
        yields_file.bind fun _ v hv => hv.2
      refine hremove.bind fun _ v hv => ?_
      rw [hv]
      exact ih.bind fun _ w hw => hw

/-- **A deletion.** -/
theorem yields_deleteOrphans {ids : List ContentId} (hfree : s.gate = .free) :
    Yields (aloneDiscipline i ok) (deleteOrphans ids) s fun _ u => u = s.sweep ids := by
  rw [deleteOrphans]
  split
  · rename_i hnil
    rw [hnil]
    exact rfl
  · refine yields_holdingExclusive hfree (yields_deleteEach.mono fun _ u hu => ?_)
    rw [hu, Store.sweep_gate]
    refine ⟨rfl, ?_⟩
    rw [← hfree, ← @Store.gate_sweep s ids]

end Deleting

/-! ### Storing a whole body -/

/-- An entry is written. -/
theorem yields_putEntry {i : ℕ} {ok : ∀ {β : Type}, CacheAct β → Store → Prop} {s : Store}
    {record : EntryRecord} {newBlobs : List (ContentId × BlobRecord)} {orphaned : List ContentId}
    {ix : Index} (hput : s.index.putEntry record newBlobs = .ok (orphaned, ix)) :
    Yields (aloneDiscipline i ok) (ask (.putEntry record newBlobs)) s fun r u =>
      ok (.index (.putEntry record newBlobs)) s ∧ r = orphaned ∧ u = { s with index := ix } :=
  yields_ask hput

/-- **A whole body is stored**: its file is there, and its entry is written. -/
theorem yields_storeWhole {P : Platform} {i : ℕ}
    {ok : ∀ {β : Type}, CacheAct β → Store → Prop} {s : Store} {w : Storing} {bytes : Bytes}
    (hfree : s.gate = .free) (hwhole : s.files.lookup (P.blake3 bytes) ≠ some []) :
    Yields (aloneDiscipline i ok) (storeWhole P w (put P bytes)) s fun r u =>
      (r.1.id = P.blake3 bytes ∧ r.1.len = bytes.length) ∧
      ∃ v now, { s with files := putFile P bytes s.files }.Alike v ∧
        ok (.index (.putEntry (w.record P r.1 now) [(r.1.id, r.1.record now)]))
          { v with gate := ⟨[i], none⟩ } ∧
        ∃ ix, v.index.putEntry (w.record P r.1 now) [(r.1.id, r.1.record now)] = .ok (r.2, ix) ∧
          u = { v with index := ix } := by
  refine yields_holdingShared hfree ?_
  refine Prog.Yields.bind (yields_put hwhole) fun receipt u hu => ?_
  obtain ⟨⟨hid, hlen⟩, rfl⟩ := hu
  refine yields_countDeduped.bind fun _ v hv => yields_clock.bind fun now v' hv' => ?_
  rw [hv']
  have hnew : ∀ c ∈ (w.record P receipt now).contents,
      v.index.Recorded c ∨ c ∈ [(receipt.id, receipt.record now)].map Prod.fst :=
    fun c hc => Or.inr (by simpa [Storing.record, EntryRecord.contents] using hc)
  obtain ⟨ix, hput, -, -⟩ := Index.exists_putEntry hnew
  refine (yields_putEntry hput).bind fun orphaned t ht => ?_
  obtain ⟨hok, rfl, rfl⟩ := ht
  have hgate : v.gate = ⟨[i], none⟩ := hv.gate
  refine ⟨hgate, ⟨hid, hlen⟩, { v with gate := .free }, now, ?_, ?_, ix, hput, rfl⟩
  · exact ⟨hv.entries, hv.blobs, hv.variants, hv.files, hfree.symm⟩
  · rw [← hgate]
    exact hok

/-! ### Storing a range -/

/-- The files, with those of these bodies among them. -/
def putFiles (P : Platform) (bodies : List Bytes) (files : Table ContentId Bytes) :
    Table ContentId Bytes :=
  bodies.foldl (fun files bytes => putFile P bytes files) files

section Ranges

variable {P : Platform} {i : ℕ} {ok : ∀ {β : Type}, CacheAct β → Store → Prop} {s : Store}

/-- A file that is there stays as it is. -/
theorem lookup_putFile_of_some {bytes raw : Bytes} {files : Table ContentId Bytes} {c : ContentId}
    (h : files.lookup c = some raw) : (putFile P bytes files).lookup c = some raw := by
  rw [putFile]
  split
  · exact h
  · rename_i hnot
    rcases eq_or_ne c (P.blake3 bytes) with rfl | hne
    · exact absurd (by rw [h]; rfl) hnot
    · rw [AList.lookup_insert_ne hne, h]

/-- No file is empty, and none that is written is. -/
theorem whole_putFile {bytes : Bytes} {files : Table ContentId Bytes}
    (h : ∀ c, files.lookup c ≠ some []) (c : ContentId) :
    (putFile P bytes files).lookup c ≠ some [] := by
  intro hc
  rcases lookup_putFile hc with hold | ⟨-, hnew⟩
  · exact h c hold
  · exact absurd hnew (by simp [blobFile])

theorem whole_putFiles {bodies : List Bytes} {files : Table ContentId Bytes}
    (h : ∀ c, files.lookup c ≠ some []) : ∀ c, (putFiles P bodies files).lookup c ≠ some [] := by
  induction bodies generalizing files with
  | nil => exact h
  | cons bytes rest ih => exact ih (whole_putFile h)

theorem putFiles_cons {bytes : Bytes} {bodies : List Bytes} {files : Table ContentId Bytes} :
    putFiles P (bytes :: bodies) files = putFiles P bodies (putFile P bytes files) := rfl

theorem putFiles_append {bodies more : List Bytes} {files : Table ContentId Bytes} :
    putFiles P (bodies ++ more) files = putFiles P more (putFiles P bodies files) :=
  List.foldl_append

theorem isSome_lookup_putFiles {bodies : List Bytes} {files : Table ContentId Bytes}
    {c : ContentId} : ((putFiles P bodies files).lookup c).isSome = true ↔
      (files.lookup c).isSome = true ∨ c ∈ bodies.map P.blake3 := by
  induction bodies generalizing files with
  | nil => simp [putFiles]
  | cons bytes rest ih =>
    rw [List.map_cons, List.mem_cons, ← or_assoc, ← isSome_lookup_putFile]
    exact ih

theorem lookup_putFiles_of_some {bodies : List Bytes} {raw : Bytes} {files : Table ContentId Bytes}
    {c : ContentId} (h : files.lookup c = some raw) :
    (putFiles P bodies files).lookup c = some raw := by
  induction bodies generalizing files with
  | nil => exact h
  | cons bytes rest ih => exact ih (lookup_putFile_of_some h)

/-- **The parts of a range are written**, each as a blob of its own. -/
theorem yields_putSlices {body : Bytes} {start now : ℕ} {gaps : List (ℕ × ℕ)}
    (hwhole : ∀ c, s.files.lookup c ≠ some []) :
    Yields (aloneDiscipline i ok) (putSlices P body start now gaps) s fun r u =>
      r.1 = segmentsFrom P body start gaps ∧
        r.2.map Prod.fst = (gaps.map (partFrom body start)).map P.blake3 ∧
        { s with files := putFiles P (gaps.map (partFrom body start)) s.files }.Alike u := by
  induction gaps generalizing s with
  | nil => exact ⟨rfl, rfl, Store.Alike.refl s⟩
  | cons gap rest ih =>
    obtain ⟨first, last⟩ := gap
    refine Prog.Yields.bind (yields_put (hwhole _)) fun receipt u hu => ?_
    obtain ⟨⟨hid, -⟩, rfl⟩ := hu
    refine Prog.Yields.bind yields_countDeduped fun _ v hv => ?_
    have hwhole' : ∀ c, v.files.lookup c ≠ some [] := by
      rw [hv.files]
      exact whole_putFile hwhole
    refine Prog.Yields.bind (ih hwhole') fun r t ht => ?_
    obtain ⟨hsegments, hnew, halike⟩ := ht
    refine ⟨?_, ?_, ?_⟩
    · simp only [segmentsFrom, List.map_cons, hsegments, hid, partFrom]
    · simp only [List.map_cons, hnew, hid, partFrom]
    · obtain ⟨hentries, hblobs, hvariants, hfiles, hgate⟩ := halike
      refine ⟨hentries.trans hv.entries, hblobs.trans hv.blobs, hvariants.trans hv.variants, ?_,
        hgate.trans hv.gate⟩
      rw [hfiles, hv.files]
      rfl

/-- **Where the runs have met**, the whole body is read, and written. -/
theorem yields_completeRecord {record : EntryRecord} {newBlobs : List (ContentId × BlobRecord)}
    {now : ℕ} {W : Bytes → Prop} (hwhole : ∀ c, s.files.lookup c ≠ some [])
    (hread : ∀ n, record.body.completeLen = some n → record.body.hasMet = true →
      Yields (aloneDiscipline i ok) (readSpan P record 0 n) s fun whole u => W whole ∧ u = s) :
    Yields (aloneDiscipline i ok) (completeRecord P record newBlobs now) s fun r u =>
      ∃ made : Option Bytes, made.isSome = record.body.hasMet ∧ (∀ whole ∈ made, W whole) ∧
        r.1 = record.madeWhole P made ∧
        r.2.1.map Prod.fst = newBlobs.map Prod.fst ++ made.toList.map P.blake3 ∧
        r.2.2 = made.map P.blake3 ∧ { s with files := putFiles P made.toList s.files }.Alike u := by
  rw [completeRecord]
  split
  · rename_i hnone
    refine ⟨none, ?_, by simp, rfl, by simp, rfl, Store.Alike.refl s⟩
    rw [StoredBody.hasMet, hnone]
    rfl
  · rename_i total htotal
    have hmet : record.body.hasMet = record.body.coverage.covers 0 total := by
      rw [StoredBody.hasMet, htotal]
      rfl
    split
    · rename_i hcovers
      refine Prog.Yields.bind (hread total htotal (hmet.trans hcovers)) fun whole u hu => ?_
      obtain ⟨hW, rfl⟩ := hu
      refine Prog.Yields.bind (yields_put (hwhole _)) fun receipt v hv => ?_
      obtain ⟨⟨hid, hlen⟩, rfl⟩ := hv
      refine Prog.Yields.bind yields_indexSri fun _ t ht => ?_
      refine ⟨some whole, ?_, ?_, ?_, ?_, ?_, ht⟩
      · rw [hmet, hcovers]
        rfl
      · intro b hb
        obtain rfl := Option.mem_some_iff.mp hb
        exact hW
      · rw [EntryRecord.madeWhole, hid, hlen]
      · simp [hid]
      · simp [hid]
    · rename_i hnot
      refine ⟨none, ?_, by simp, rfl, by simp, rfl, Store.Alike.refl s⟩
      rw [hmet]
      simpa using hnot

/-- **A range is stored**: its missing parts are there, the whole body too if the runs
have met, and the entry is written. -/
theorem yields_writePartial {w : Storing} {body : Bytes} {cr : ContentRange}
    {existing : Option EntryRecord} {W : Bytes → Prop} (hfree : s.gate = .free)
    (hwhole : ∀ c, s.files.lookup c ≠ some [])
    (hkept : ∀ seg ∈ segmentsOf existing, s.index.Recorded seg.content)
    (hread : ∀ now n u, (w.folded P body cr existing now).body.completeLen = some n →
      (w.folded P body cr existing now).body.hasMet = true →
      { s with files := putFiles P (partsOf body cr existing) s.files, gate := ⟨[i], none⟩ }.Alike u →
      Yields (aloneDiscipline i ok) (readSpan P (w.folded P body cr existing now) 0 n) u
        fun whole v => W whole ∧ v = u) :
    Yields (aloneDiscipline i ok) (writePartial P w body cr existing) s fun r u =>
      ∃ now v newBlobs, ∃ made : Option Bytes,
        made.isSome = (w.folded P body cr existing now).body.hasMet ∧ (∀ whole ∈ made, W whole) ∧
        r.1 = (w.folded P body cr existing now).madeWhole P made ∧ r.2.1 = made.map P.blake3 ∧
        newBlobs.map Prod.fst = (partsOf body cr existing ++ made.toList).map P.blake3 ∧
        { s with files := putFiles P (partsOf body cr existing ++ made.toList) s.files }.Alike v ∧
        ok (.index (.putEntry r.1 newBlobs)) { v with gate := ⟨[i], none⟩ } ∧
        ∃ ix, v.index.putEntry r.1 newBlobs = .ok (r.2.2, ix) ∧ u = { v with index := ix } := by
  refine yields_holdingShared hfree (yields_clock.bind fun now u hu => ?_)
  rw [hu]
  refine Prog.Yields.bind (yields_putSlices hwhole) fun r u hu => ?_
  obtain ⟨added, newBlobs⟩ := r
  obtain ⟨rfl, hnew, hu⟩ := hu
  have hwhole' : ∀ c, u.files.lookup c ≠ some [] := by
    rw [hu.files]
    exact whole_putFiles hwhole
  refine Prog.Yields.bind (yields_completeRecord (W := W) hwhole' fun n hn hmet =>
    hread now n u hn hmet hu) fun r v hv => ?_
  obtain ⟨record, newBlobs', completed⟩ := r
  obtain ⟨made, hmade, hW, rfl, hnew', rfl, hv⟩ := hv
  simp only at hnew' hmade hW ⊢
  rw [hnew, ← List.map_append] at hnew'
  -- every blob that is named has a record, or is given one
  have hrecorded : ∀ c ∈ ((w.folded P body cr existing now).madeWhole P made).contents,
      v.index.Recorded c ∨ c ∈ newBlobs'.map Prod.fst := by
    intro c hc
    rw [hnew']
    rcases made with _ | whole
    · rw [List.map_append]
      refine (mem_contents_folded.mp hc).imp ?_ (List.mem_append_left _)
      rintro ⟨seg, hseg, rfl⟩
      rw [Index.Recorded, hv.blobs, hu.blobs]
      exact hkept seg hseg
    · obtain rfl : c = P.blake3 whole := by
        simpa [EntryRecord.contents, EntryRecord.madeWhole] using hc
      exact Or.inr (List.mem_map.mpr ⟨whole, by simp, rfl⟩)
  obtain ⟨ix, hput, -, -⟩ := Index.exists_putEntry hrecorded
  refine Prog.Yields.bind (yields_putEntry hput) fun orphaned t ht => ?_
  obtain ⟨hok, rfl, rfl⟩ := ht
  have hgate : v.gate = ⟨[i], none⟩ := hv.gate.trans hu.gate
  refine ⟨hgate, now, { v with gate := .free }, newBlobs', made, hmade, hW, rfl, rfl, hnew', ?_, ?_,
    ix, hput, rfl⟩
  · refine ⟨hv.entries.trans hu.entries, hv.blobs.trans hu.blobs, hv.variants.trans hu.variants, ?_,
      hfree.symm⟩
    rw [putFiles_append]
    exact hv.files.trans (congrArg (putFiles P made.toList) hu.files)
  · rw [← hgate]
    exact hok

end Ranges

end Syndeo
