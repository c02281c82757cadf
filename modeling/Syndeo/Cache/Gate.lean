import Syndeo.Cache.Records

/-!
# The gate

Deleting a file takes three steps – the release of its last reference, the
forgetting of its record, the removal – and a store that finds the file there
already takes a reference to it without writing it again. What keeps the two
apart is the gate: a store holds it shared from its first look at the disk until
its references are written, a deletion holds it exclusively from the forgetting
to the removal.

`Syndeo.Hold` is what a thread knows by holding it: a shared holder, which files
it has seen or put in place and will therefore still find there; an exclusive
one, which blobs have no record any more, so that nothing names them and nothing
can come to name them. `Syndeo.gateDiscipline` says what each may do, and
`Syndeo.Guarded` what the store and the holders have to do with each other. That
every entry's files are there is then a matter of the reference counts: an entry
that names a blob counts for it, so the blob has a record, and a blob that has a
record has its file.
-/

namespace Syndeo

open Concurrent Tables
open Prog (Stays stays_pure stays_throw stays_return obeys_run_bind obeys_bind)

/-! ### What a holder knows -/

variable {P : Platform}

/-- The file holds a body of this address. -/
def SoundFile (P : Platform) (id : ContentId) (raw : Bytes) : Prop :=
  ∃ bytes, decodeFile P raw = .ok (some bytes) ∧ P.blake3 bytes = id

theorem soundFile_blobFile (hP : P.Lossless) (bytes : Bytes) :
    SoundFile P (P.blake3 bytes) (blobFile P bytes) :=
  ⟨bytes, decodeFile_blobFile P hP bytes, rfl⟩

/-- **What a thread knows by what it holds**: of the files it found or wrote since
it holds the gate shared, that they are there; of the blobs it had forgotten
since it holds it exclusively, that they have no record. -/
inductive Hold
  | nothing
  | shared (present : Set ContentId)
  | exclusive (gone : Set ContentId)

namespace Hold

/-- What a thread may do: write entries and files while it holds the gate shared,
forget and delete while it holds it exclusively. -/
def may (P : Platform) (t : Hold) : ∀ {β : Type}, CacheAct β → Prop
  | _, .index (.putEntry _ newBlobs) =>
    ∃ present, t = .shared present ∧ ∀ c ∈ newBlobs.map Prod.fst, c ∈ present
  | _, .index .clear => ∃ gone, t = .exclusive gone
  | _, .index (.forgetBlobIfUnreferenced _) => ∃ gone, t = .exclusive gone
  | _, .file (.write id raw) => (∃ present, t = .shared present) ∧ SoundFile P id raw
  | _, .file (.remove id) => ∃ gone, t = .exclusive gone ∧ id ∈ gone
  | _, .gate .lockShared => t = .nothing
  | _, .gate .lockExclusive => t = .nothing
  | _, .gate .unlockShared => ∃ present, t = .shared present
  | _, .gate .unlockExclusive => ∃ gone, t = .exclusive gone
  | _, _ => True

/-- What a thread then knows. -/
def next (t : Hold) : ∀ {β : Type}, CacheAct β → β → Hold
  | _, .index (.forgetBlobIfUnreferenced id) => fun r =>
    match t, r with
    | .exclusive gone, .ok true => .exclusive (insert id gone)
    | t, _ => t
  | _, .index .clear => fun r =>
    match t, r with
    | .exclusive _, .ok _ => .exclusive Set.univ
    | t, _ => t
  | _, .file (.exists id) => fun r =>
    match t, r with
    | .shared present, .ok true => .shared (insert id present)
    | t, _ => t
  | _, .file (.write id _) => fun r =>
    match t, r with
    | .shared present, .ok _ => .shared (insert id present)
    | t, _ => t
  | _, .gate .lockShared => fun _ => .shared ∅
  | _, .gate .lockExclusive => fun _ => .exclusive ∅
  | _, .gate .unlockShared => fun _ => .nothing
  | _, .gate .unlockExclusive => fun _ => .nothing
  | _, _ => fun _ => t

theorem next_index_error {t : Hold} {β : Type} {a : IndexAct β} {e : CacheError} :
    t.next (.index a) (.error e) = t := by
  cases a <;> cases t <;> rfl

theorem next_file_error {t : Hold} {β : Type} {a : FileAct β} {e : CacheError} :
    t.next (.file a) (.error e) = t := by
  cases a <;> cases t <;> rfl

/-- A file that is read holds the body it is named by. -/
def sees (P : Platform) : ∀ {β : Type}, CacheAct β → β → Prop
  | _, .file (.read id) => fun r => ∀ raw, r = .ok (some raw) → SoundFile P id raw
  | _, _ => fun _ => True

theorem sees_file_error {β : Type} {a : FileAct β} {e : CacheError} :
    sees P (.file a) (.error e) := by
  cases a with
  | read id => exact fun raw hraw => absurd hraw (by simp)
  | _ => trivial

end Hold

/-- **The discipline of the gate.** -/
def gateDiscipline (P : Platform) : Discipline CacheAct Hold where
  may := fun {_} t a => t.may P a
  sees := fun {_} _ a b => Hold.sees P a b
  next := fun {_} t a b => t.next a b
  born := fun {_} _ _ => .nothing

/-! ### What the store and the holders have to do with each other -/

/-- **The invariant of the gate.** -/
structure Guarded (P : Platform) (s : Store) (t : ℕ → Hold) : Prop where
  counted : s.index.RefcountsExact
  backed : ∀ c, s.index.Recorded c → (s.files.lookup c).isSome = true
  sound : ∀ id raw, s.files.lookup id = some raw → SoundFile P id raw
  nodup : s.gate.readers.Nodup
  readers : ∀ i, i ∈ s.gate.readers ↔ ∃ present, t i = .shared present
  writer : ∀ i, s.gate.writer = some i ↔ ∃ gone, t i = .exclusive gone
  apart : s.gate.writer.isSome = true → s.gate.readers = []
  present : ∀ i present, t i = .shared present → ∀ c ∈ present, (s.files.lookup c).isSome = true
  gone : ∀ i gone, t i = .exclusive gone → ∀ c ∈ gone, ¬s.index.Recorded c

namespace Guarded

variable {s : Store} {t : ℕ → Hold} {i j : ℕ} {present present' gone gone' : Set ContentId}

/-- The gate is not held both ways. -/
theorem not_shared (h : Guarded P s t) (hi : t i = .exclusive gone) : t j ≠ .shared present := by
  intro hj
  have hreader := (h.readers j).mpr ⟨_, hj⟩
  rw [h.apart (by rw [(h.writer i).mpr ⟨_, hi⟩]; rfl)] at hreader
  exact absurd hreader List.not_mem_nil

/-- One thread holds it exclusively. -/
theorem exclusive_unique (h : Guarded P s t) (hi : t i = .exclusive gone)
    (hj : t j = .exclusive gone') : i = j := by
  have hwi := (h.writer i).mpr ⟨_, hi⟩
  have hwj := (h.writer j).mpr ⟨_, hj⟩
  exact Option.some.inj (hwi.symm.trans hwj)

/-- **A transaction**: it makes records only for files that a shared holder
answers for. -/
theorem index {ix : Index} {cs : List ContentId} (h : Guarded P s t) (hex : ix.RefcountsExact)
    (hrec : ∀ c, ix.Recorded c → s.index.Recorded c ∨ c ∈ cs)
    (hcs : cs = [] ∨ ∃ i present, t i = .shared present ∧ ∀ c ∈ cs, c ∈ present) :
    Guarded P { s with index := ix } t where
  counted := hex
  backed c hc := by
    rcases hrec c hc with hold | hnew
    · exact h.backed c hold
    · rcases hcs with rfl | ⟨i, present, hi, hpresent⟩
      · exact absurd hnew List.not_mem_nil
      · exact h.present i present hi c (hpresent c hnew)
  sound := h.sound
  nodup := h.nodup
  readers := h.readers
  writer := h.writer
  apart := h.apart
  present := h.present
  gone j gone hj c hc hrecorded := by
    rcases hrec c hrecorded with hold | hnew
    · exact h.gone j gone hj c hc hold
    · rcases hcs with rfl | ⟨i, present, hi, -⟩
      · exact absurd hnew List.not_mem_nil
      · exact h.not_shared hj hi

/-- Nothing is learned. -/
theorem same {u : Hold} (h : Guarded P s t) (hi : t i = u) :
    Guarded P s (Function.update t i u) := by
  rwa [← hi, Function.update_eq_self]

/-- A shared holder has seen more files. -/
theorem learn_present (h : Guarded P s t) (hi : t i = .shared present)
    (hpresent : ∀ c ∈ present', (s.files.lookup c).isSome = true) :
    Guarded P s (Function.update t i (.shared present')) where
  counted := h.counted
  backed := h.backed
  sound := h.sound
  nodup := h.nodup
  readers j := by
    rcases eq_or_ne j i with rfl | hne
    · simp [h.readers j, hi]
    · rw [Function.update_of_ne hne]
      exact h.readers j
  writer j := by
    rcases eq_or_ne j i with rfl | hne
    · simp [h.writer j, hi]
    · rw [Function.update_of_ne hne]
      exact h.writer j
  apart := h.apart
  present j p hj := by
    rcases eq_or_ne j i with rfl | hne
    · rw [Function.update_self] at hj
      obtain rfl := Hold.shared.inj hj
      exact hpresent
    · rw [Function.update_of_ne hne] at hj
      exact h.present j p hj
  gone j g hj := by
    rcases eq_or_ne j i with rfl | hne
    · simp at hj
    · rw [Function.update_of_ne hne] at hj
      exact h.gone j g hj

/-- An exclusive holder has had more blobs forgotten. -/
theorem learn_gone (h : Guarded P s t) (hi : t i = .exclusive gone)
    (hgone : ∀ c ∈ gone', ¬s.index.Recorded c) :
    Guarded P s (Function.update t i (.exclusive gone')) where
  counted := h.counted
  backed := h.backed
  sound := h.sound
  nodup := h.nodup
  readers j := by
    rcases eq_or_ne j i with rfl | hne
    · simp [h.readers j, hi]
    · rw [Function.update_of_ne hne]
      exact h.readers j
  writer j := by
    rcases eq_or_ne j i with rfl | hne
    · simp [h.writer j, hi]
    · rw [Function.update_of_ne hne]
      exact h.writer j
  apart := h.apart
  present j p hj := by
    rcases eq_or_ne j i with rfl | hne
    · simp at hj
    · rw [Function.update_of_ne hne] at hj
      exact h.present j p hj
  gone j g hj := by
    rcases eq_or_ne j i with rfl | hne
    · rw [Function.update_self] at hj
      obtain rfl := Hold.exclusive.inj hj
      exact hgone
    · rw [Function.update_of_ne hne] at hj
      exact h.gone j g hj

/-- **A file is put in place.** -/
theorem write {id : ContentId} {raw : Bytes} (h : Guarded P s t) (hraw : SoundFile P id raw) :
    Guarded P { s with files := s.files.insert id raw } t := by
  have hkeep : ∀ c, (s.files.lookup c).isSome = true →
      ((s.files.insert id raw).lookup c).isSome = true := by
    intro c hc
    rcases eq_or_ne c id with rfl | hne
    · rw [AList.lookup_insert]
      rfl
    · rwa [AList.lookup_insert_ne hne]
  refine ⟨h.counted, fun c hc => hkeep c (h.backed c hc), fun c raw' hc => ?_, h.nodup, h.readers,
    h.writer, h.apart, fun j p hj c hc => hkeep c (h.present j p hj c hc), h.gone⟩
  rcases eq_or_ne c id with rfl | hne
  · rw [AList.lookup_insert] at hc
    obtain rfl := Option.some.inj hc
    exact hraw
  · rw [AList.lookup_insert_ne hne] at hc
    exact h.sound c raw' hc

/-- **A file is removed**, by the exclusive holder, who knows that nothing names
it. -/
theorem remove {id : ContentId} (h : Guarded P s t) (hi : t i = .exclusive gone)
    (hid : id ∈ gone) : Guarded P { s with files := s.files.erase id } t := by
  refine ⟨h.counted, fun c hc => ?_, fun c raw hc => ?_, h.nodup, h.readers, h.writer, h.apart,
    fun j p hj => absurd hj (h.not_shared hi), h.gone⟩
  · have hne : c ≠ id := by
      rintro rfl
      exact h.gone i gone hi c hid hc
    rw [AList.lookup_erase_ne hne]
    exact h.backed c hc
  · rcases eq_or_ne c id with rfl | hne
    · rw [AList.lookup_erase] at hc
      exact absurd hc (by simp)
    · rw [AList.lookup_erase_ne hne] at hc
      exact h.sound c raw hc

/-- **The gate moves**, and its mover begins to know something or forgets what it
knew. -/
theorem move {gate : Gate} {u : Hold} (h : Guarded P s t) (hnodup : gate.readers.Nodup)
    (hreaders : ∀ j, j ∈ gate.readers ↔ ∃ present, Function.update t i u j = .shared present)
    (hwriter : ∀ j, gate.writer = some j ↔ ∃ gone, Function.update t i u j = .exclusive gone)
    (hapart : gate.writer.isSome = true → gate.readers = [])
    (hu : u = .nothing ∨ u = .shared ∅ ∨ u = .exclusive ∅) :
    Guarded P { s with gate := gate } (Function.update t i u) := by
  refine ⟨h.counted, h.backed, h.sound, hnodup, hreaders, hwriter, hapart, fun j p hj => ?_,
    fun j g hj => ?_⟩
  · rcases eq_or_ne j i with rfl | hne
    · rw [Function.update_self] at hj
      subst hj
      obtain rfl : p = ∅ := by simpa using hu
      exact fun c hc => absurd hc (Set.notMem_empty c)
    · rw [Function.update_of_ne hne] at hj
      exact h.present j p hj
  · rcases eq_or_ne j i with rfl | hne
    · rw [Function.update_self] at hj
      subst hj
      obtain rfl : g = ∅ := by simpa using hu
      exact fun c hc => absurd hc (Set.notMem_empty c)
    · rw [Function.update_of_ne hne] at hj
      exact h.gone j g hj

theorem lockShared {gate : Gate} (h : Guarded P s t) (hi : t i = .nothing)
    (hrun : GateAct.run i s.gate .lockShared = some gate) :
    Guarded P { s with gate := gate } (Function.update t i (.shared ∅)) := by
  rw [GateAct.run] at hrun
  split at hrun
  · rename_i hfree
    obtain rfl := Option.some.inj hrun
    refine h.move ?_ (fun j => ?_) (fun j => ?_) (by simp [hfree]) (by simp)
    · refine List.nodup_cons.mpr ⟨fun hmem => ?_, h.nodup⟩
      obtain ⟨p, hp⟩ := (h.readers i).mp hmem
      rw [hi] at hp
      exact absurd hp (by simp)
    · rcases eq_or_ne j i with rfl | hne
      · simp
      · simp [hne, h.readers j]
    · rcases eq_or_ne j i with rfl | hne
      · simp [hfree]
      · rw [Function.update_of_ne hne]
        exact h.writer j
  · exact absurd hrun (by simp)

theorem unlockShared {gate : Gate} (h : Guarded P s t) (hi : t i = .shared present)
    (hrun : GateAct.run i s.gate .unlockShared = some gate) :
    Guarded P { s with gate := gate } (Function.update t i .nothing) := by
  obtain rfl := Option.some.inj hrun
  refine h.move (h.nodup.erase i) (fun j => ?_) (fun j => ?_) (fun hw => ?_) (by simp)
  · rcases eq_or_ne j i with rfl | hne
    · simp [h.nodup.not_mem_erase]
    · simp [hne, List.mem_erase_of_ne hne, h.readers j]
  · rcases eq_or_ne j i with rfl | hne
    · simp [h.writer j, hi]
    · rw [Function.update_of_ne hne]
      exact h.writer j
  · rw [h.apart hw, List.erase_nil]

theorem lockExclusive {gate : Gate} (h : Guarded P s t) (hi : t i = .nothing)
    (hrun : GateAct.run i s.gate .lockExclusive = some gate) :
    Guarded P { s with gate := gate } (Function.update t i (.exclusive ∅)) := by
  rw [GateAct.run] at hrun
  split at hrun
  · rename_i hfree
    obtain rfl := Option.some.inj hrun
    refine h.move h.nodup (fun j => ?_) (fun j => ?_) (fun _ => hfree.2) (by simp)
    · rcases eq_or_ne j i with rfl | hne
      · simp [hfree.2]
      · rw [Function.update_of_ne hne]
        exact h.readers j
    · rcases eq_or_ne j i with rfl | hne
      · simp
      · have hnone := h.writer j
        rw [hfree.1] at hnone
        simpa [hne, hne.symm] using hnone
  · exact absurd hrun (by simp)

theorem unlockExclusive {gate : Gate} (h : Guarded P s t) (hi : t i = .exclusive gone)
    (hrun : GateAct.run i s.gate .unlockExclusive = some gate) :
    Guarded P { s with gate := gate } (Function.update t i .nothing) := by
  obtain rfl := Option.some.inj hrun
  refine h.move h.nodup (fun j => ?_) (fun j => ?_) (by simp) (by simp)
  · rcases eq_or_ne j i with rfl | hne
    · simp [h.readers j, hi]
    · rw [Function.update_of_ne hne]
      exact h.readers j
  · rcases eq_or_ne j i with rfl | hne
    · simp
    · have hother : ¬∃ gone, t j = .exclusive gone := fun ⟨g, hj⟩ => hne (h.exclusive_unique hj hi)
      simp [hne, hother]

/-- **A call to the file system** that the mover may make. -/
theorem file {β : Type} {a : FileAct β} (h : Guarded P s t) (hmay : (t i).may P (.file a)) :
    Hold.sees P (.file a) (.ok (a.run s.files).1) ∧
      Guarded P { s with files := (a.run s.files).2 }
        (Function.update t i ((t i).next (.file a) (.ok (a.run s.files).1))) := by
  cases a with
  | «exists» id =>
    refine ⟨trivial, ?_⟩
    rcases hi : t i with _ | present | gone
    · exact h.same hi
    · rcases hfile : (s.files.lookup id).isSome with _ | _
      · simp only [FileAct.run, hfile]
        exact h.same hi
      · simp only [FileAct.run, hfile]
        refine h.learn_present hi fun c hc => ?_
        rcases Set.mem_insert_iff.mp hc with rfl | hc
        · exact hfile
        · exact h.present i present hi c hc
    · exact h.same hi
  | read id => exact ⟨fun raw hraw => h.sound id raw (Except.ok.inj hraw), h.same rfl⟩
  | write id raw =>
    obtain ⟨⟨present, hi⟩, hraw⟩ := hmay
    refine ⟨trivial, ?_⟩
    have hw : Guarded P { s with files := s.files.insert id raw } t := h.write hraw
    rw [hi]
    refine hw.learn_present hi fun c hc => ?_
    rcases Set.mem_insert_iff.mp hc with rfl | hc
    · exact congrArg Option.isSome (AList.lookup_insert _)
    · exact hw.present i present hi c hc
  | remove id =>
    obtain ⟨gone, hi, hid⟩ := hmay
    exact ⟨trivial, (h.remove hi hid).same rfl⟩
  | list => exact ⟨trivial, h.same rfl⟩

/-- **A transaction** that the mover may make. -/
theorem transact {β : Type} {a : IndexAct β} {r : β} {ix : Index} (h : Guarded P s t)
    (hcount : a.KeepsCount s.index) (hmay : (t i).may P (.index a))
    (hrun : a.run s.index = .ok (r, ix)) :
    Guarded P { s with index := ix } (Function.update t i ((t i).next (.index a) (.ok r))) := by
  have hex := IndexAct.run_exact h.counted hcount hrun
  have hrec := fun c => IndexAct.run_recorded (c := c) hrun
  cases a with
  | putEntry record newBlobs =>
    obtain ⟨present, hi, hpresent⟩ := hmay
    exact (h.index hex hrec (Or.inr ⟨i, present, hi, hpresent⟩)).same rfl
  | clear =>
    obtain ⟨gone, hi⟩ := hmay
    obtain rfl := (Prod.mk.inj (Except.ok.inj hrun)).2
    rw [hi]
    exact (h.index hex hrec (Or.inl rfl)).learn_gone hi fun c _ => Bool.false_ne_true
  | forgetBlobIfUnreferenced id =>
    obtain ⟨gone, hi⟩ := hmay
    obtain ⟨hr, rfl⟩ := Prod.mk.inj (Except.ok.inj hrun)
    have hforgot := h.index hex hrec (Or.inl rfl)
    rw [hi]
    rcases r with _ | _
    · exact hforgot.same hi
    · refine hforgot.learn_gone hi fun c hc => ?_
      rcases Set.mem_insert_iff.mp hc with rfl | hc
      · exact Index.not_recorded_of_forgotten hr
      · exact hforgot.gone i gone hi c hc
  | _ => exact (h.index hex hrec (Or.inl rfl)).same rfl

end Guarded

/-! ### One step -/

/-- The runs of cache operations in which nothing is refreshed, and no store takes
a reference on a blob whose count is full. -/
abbrev roomyRuns : System CacheAct Store Outcome :=
  cacheRuns.when fun _ {_} a s => ¬a.Refreshes ∧ a.HasRoom s

/-- **The discipline governs the runs.** -/
theorem governs_guarded {Q : ℕ → Outcome → Hold → Prop} :
    Governs roomyRuns (gateDiscipline P) (Guarded P) Q where
  child := fun _ _ _ _ _ _ hchild => absurd hchild (by simp [roomyRuns, System.when, cacheSystem,
    System.ofPerform])
  step := by
    rintro i n β a s b s' t - h hmay ⟨hroom, w, -, hperform⟩
    have hchild : (roomyRuns.child a).isSome = false := rfl
    rw [hchild, Discipline.advance_false]
    cases a with
    | now =>
      obtain ⟨-, rfl⟩ := Store.perform_now.mp hperform
      exact ⟨trivial, h.same rfl⟩
    | gate a =>
      obtain ⟨gate, hrun, rfl⟩ := Store.perform_gate.mp hperform
      refine ⟨trivial, ?_⟩
      cases a with
      | lockShared => exact h.lockShared hmay hrun
      | unlockShared =>
        obtain ⟨present, hi⟩ := hmay
        exact h.unlockShared hi hrun
      | lockExclusive => exact h.lockExclusive hmay hrun
      | unlockExclusive =>
        obtain ⟨gone, hi⟩ := hmay
        exact h.unlockExclusive hi hrun
    | file a =>
      rcases Store.perform_file.mp hperform with ⟨message, -, rfl, rfl⟩ | ⟨-, rfl, rfl⟩
      · refine ⟨Hold.sees_file_error, ?_⟩
        change Guarded P s' (Function.update t i ((t i).next _ _))
        rw [Hold.next_file_error]
        exact h.same rfl
      · exact h.file hmay
    | index a =>
      refine ⟨trivial, ?_⟩
      change Guarded P s' (Function.update t i ((t i).next _ _))
      rcases Store.perform_index.mp hperform with
        ⟨message, -, rfl, rfl⟩ | ⟨-, r, ix, hrun, rfl, rfl⟩ | ⟨-, e, -, rfl, rfl⟩
      · rw [Hold.next_index_error]
        exact h.same rfl
      · exact h.transact (hroom.2.keepsCount hroom.1) hmay hrun
      · rw [Hold.next_index_error]
        exact h.same rfl

/-! ### Every operation keeps to the discipline -/

section Keeping

variable {T : Hold → Prop} {α β : Type}

/-- The thread holds nothing. -/
abbrev Idle (t : Hold) : Prop := t = .nothing

/-- The transaction is one that any thread may make, and that teaches it nothing. -/
def IndexAct.Passive : ∀ {β : Type}, IndexAct β → Prop
  | _, .putEntry _ _ => False
  | _, .clear => False
  | _, .forgetBlobIfUnreferenced _ => False
  | _, _ => True

theorem stays_ask {a : IndexAct β} (ha : a.Passive) : Stays (gateDiscipline P) T (ask a) := by
  intro t ht
  cases a with
  | putEntry record newBlobs => exact ha.elim
  | clear => exact ha.elim
  | forgetBlobIfUnreferenced id => exact ha.elim
  | _ => exact ⟨trivial, fun _ _ => ht⟩

theorem stays_clock : Stays (gateDiscipline P) T clock := fun _ ht => ⟨trivial, fun _ _ => ht⟩

theorem stays_read {id : ContentId} : Stays (gateDiscipline P) T (onFile (.read id)) :=
  fun _ ht => ⟨trivial, fun _ _ => ht⟩

theorem stays_attempt {x : CacheM α} (hx : Stays (gateDiscipline P) T x) :
    Stays (gateDiscipline P) T (attempt x) := hx.lift_run

/-- **A body that is read is never removed**: its file holds it. -/
theorem stays_get {id : ContentId} : Stays (gateDiscipline P) T (get P id) := by
  intro t ht
  rw [get]
  refine obeys_run_bind.mpr ⟨trivial, fun r hr => ?_⟩
  rcases r with e | (_ | raw)
  · exact ht
  · exact ht
  · obtain ⟨bytes, hdecode, hname⟩ := hr raw rfl
    refine obeys_run_bind.mpr ?_
    rw [hdecode]
    change (if P.blake3 bytes = id then _ else _ : CacheM Bytes).run.Obeys _ _ _
    rw [if_pos hname]
    exact ht

/-- The thread holds the gate shared, and has seen these files. -/
def Seen (known : Set ContentId) (t : Hold) : Prop := ∃ present, t = .shared present ∧ known ⊆ present

theorem Seen.mono {known known' : Set ContentId} {t : Hold} (h : Seen known t)
    (hsub : known' ⊆ known) : Seen known' t := by
  obtain ⟨present, rfl, hpresent⟩ := h
  exact ⟨present, rfl, hsub.trans hpresent⟩

theorem seen_nothing : Seen ∅ (.shared ∅) := ⟨∅, rfl, le_rfl⟩

/-- What is done while the gate is held shared. -/
theorem stays_holdingShared {x : CacheM α}
    (hx : x.run.Obeys (gateDiscipline P) (fun _ u => Seen ∅ u) (.shared ∅)) :
    Stays (gateDiscipline P) Idle (holdingShared x) := by
  rintro t rfl
  rw [holdingShared]
  refine obeys_run_bind.mpr ⟨rfl, fun _ _ => obeys_run_bind.mpr ?_⟩
  rw [attempt, ExceptT.run_lift, map_eq_pure_bind, obeys_bind]
  refine hx.mono fun r u hu => obeys_run_bind.mpr ?_
  obtain ⟨present, rfl, -⟩ := hu
  exact ⟨⟨present, rfl⟩, fun _ _ => rfl⟩

/-- What is done while it is held exclusively. -/
theorem stays_holdingExclusive {x : CacheM α}
    (hx : x.run.Obeys (gateDiscipline P) (fun _ u => ∃ gone, u = .exclusive gone)
      (.exclusive ∅)) : Stays (gateDiscipline P) Idle (holdingExclusive x) := by
  rintro t rfl
  rw [holdingExclusive]
  refine obeys_run_bind.mpr ⟨rfl, fun _ _ => obeys_run_bind.mpr ?_⟩
  rw [attempt, ExceptT.run_lift, map_eq_pure_bind, obeys_bind]
  exact hx.mono fun r u hu => obeys_run_bind.mpr ⟨hu, fun _ _ => rfl⟩

/-! #### Reading -/

theorem stays_selectAmong {partition : Option String} {method url : String} {h : HeaderMap}
    {keys : List String} : Stays (gateDiscipline P) T (selectAmong P partition method url h keys) := by
  induction keys with
  | nil => exact stays_pure
  | cons k keys ih =>
    rw [selectAmong]
    refine Stays.bind (stays_ask trivial) fun found => ?_
    rcases found with _ | record
    · exact ih
    · simp only
      split
      · exact stays_pure
      · exact ih

theorem stays_selectVariant {partition : Option String} {method url : String} {h : HeaderMap} :
    Stays (gateDiscipline P) T (selectVariant P partition method url h) :=
  Stays.bind (stays_ask trivial) fun _ => stays_selectAmong

theorem stays_readSegments {stop cursor : ℕ} {segments : List Segment} {out : Bytes} :
    Stays (gateDiscipline P) T (readSegments P stop segments cursor out) := by
  induction segments generalizing cursor out with
  | nil => exact stays_pure
  | cons segment rest ih =>
    rw [readSegments]
    split
    · exact ih
    · split
      · exact stays_pure
      · refine stays_get.bind fun bytes => ?_
        simp only
        split
        · exact stays_pure
        · exact ih

theorem stays_readSpan {record : EntryRecord} {start stop : ℕ} :
    Stays (gateDiscipline P) T (readSpan P record start stop) := by
  rw [readSpan]
  split
  · exact stays_get.bind fun _ => stays_pure
  · refine stays_readSegments.bind fun r => ?_
    simp only
    split
    · exact stays_throw
    · exact stays_pure

theorem stays_materialize {key : String} {record : EntryRecord} {metadata : StoredMeta} {age : ℕ}
    {want : Want} : Stays (gateDiscipline P) T (materialize P key record metadata age want) := by
  rw [materialize]
  split
  · exact stays_pure
  · exact stays_readSpan.bind fun _ => stays_pure
  · exact stays_readSpan.bind fun _ => stays_pure

theorem stays_missed {tally : List (String × ℕ)} {reason : String} :
    Stays (gateDiscipline P) T (missed tally reason) :=
  Stays.bind (stays_ask trivial) fun _ => stays_pure

/-! #### Deleting -/

theorem obeys_deleteEach {ids : List ContentId} {gone : Set ContentId} :
    (deleteEach ids).run.Obeys (gateDiscipline P) (fun _ u => ∃ gone, u = .exclusive gone)
      (.exclusive gone) := by
  induction ids generalizing gone with
  | nil => exact ⟨_, rfl⟩
  | cons id rest ih =>
    rw [deleteEach]
    refine obeys_run_bind.mpr ⟨⟨gone, rfl⟩, fun r _ => ?_⟩
    rcases r with e | (_ | _)
    · exact ⟨_, rfl⟩
    · exact ih
    · -- the record is forgotten, so the file may go
      refine obeys_run_bind.mpr (obeys_run_bind.mpr ?_)
      refine ⟨⟨_, rfl, Set.mem_insert _ _⟩, fun r _ => ?_⟩
      rcases r with e | _
      · exact ⟨_, rfl⟩
      · exact obeys_run_bind.mpr (ih.mono fun r u hu => by
          rcases r with e | n
          · exact hu
          · exact hu)

theorem stays_deleteOrphans {ids : List ContentId} :
    Stays (gateDiscipline P) Idle (deleteOrphans ids) := by
  rw [deleteOrphans]
  split
  · exact stays_pure
  · exact stays_holdingExclusive obeys_deleteEach

theorem stays_dropBroken {key : String} {record : EntryRecord} :
    Stays (gateDiscipline P) Idle (dropBroken key record) := by
  rw [dropBroken]
  refine Stays.bind (stays_ask trivial) fun orphaned => ?_
  rcases orphaned with _ | orphaned
  · exact stays_pure
  · exact Stays.bind (stays_ask trivial) fun _ => stays_deleteOrphans.bind fun _ => stays_pure

theorem stays_discardBroken {key : String} {record : EntryRecord} {tally : List (String × ℕ)} :
    Stays (gateDiscipline P) Idle (discardBroken key record tally) :=
  stays_dropBroken.bind fun _ => Stays.bind (stays_ask trivial) fun _ => stays_pure

theorem obeys_removeEach {ids : List ContentId} :
    (removeEach ids).run.Obeys (gateDiscipline P) (fun _ u => ∃ gone, u = .exclusive gone)
      (.exclusive Set.univ) := by
  induction ids with
  | nil => exact ⟨_, rfl⟩
  | cons id rest ih =>
    rw [removeEach]
    refine obeys_run_bind.mpr ⟨⟨_, rfl, trivial⟩, fun r _ => ?_⟩
    rcases r with e | (_ | _)
    · exact ⟨_, rfl⟩
    · exact ⟨_, rfl⟩
    · exact obeys_run_bind.mpr (ih.mono fun r u hu => by
        rcases r with e | n
        · exact hu
        · exact hu)

theorem stays_clear : Stays (gateDiscipline P) Idle clear := by
  refine stays_holdingExclusive (obeys_run_bind.mpr ⟨⟨_, rfl⟩, fun r _ => ?_⟩)
  rcases r with e | entries
  · exact ⟨_, rfl⟩
  · -- nothing has a record any more, so every file may go
    refine obeys_run_bind.mpr (obeys_run_bind.mpr ⟨trivial, fun r _ => ?_⟩)
    rcases r with e | ids
    · exact ⟨_, rfl⟩
    · refine obeys_removeEach.mono fun r u hu => ?_
      rcases r with e | n
      · exact hu
      · exact hu

/-! #### Writing -/

/-- **A stored body's file is there**, found or written. -/
theorem obeys_put (hP : P.Lossless) {bytes : Bytes} {known : Set ContentId} {t : Hold}
    (ht : Seen known t) :
    (put P bytes).run.Obeys (gateDiscipline P)
      (fun r u => Seen known u ∧ ∀ receipt, r = .ok receipt → Seen (insert receipt.id known) u)
      t := by
  obtain ⟨present, rfl, hpresent⟩ := ht
  have hinsert : Seen (insert (P.blake3 bytes) known) (.shared (insert (P.blake3 bytes) present)) :=
    ⟨_, rfl, Set.insert_subset_insert hpresent⟩
  have hknown := hinsert.mono (Set.subset_insert _ _)
  rw [put]
  refine obeys_run_bind.mpr ⟨trivial, fun there _ => ?_⟩
  -- not found, or not to be found out: the body is written
  have hwrite : ∀ rest : CacheM WriteReceipt, rest = (do
      onFile (.write (P.blake3 bytes)
        (compressionTag (encodeBody P bytes).2 :: (encodeBody P bytes).1))
      pure ⟨P.blake3 bytes, bytes.length, (encodeBody P bytes).1.length + 1,
        (encodeBody P bytes).2, true⟩) →
      rest.run.Obeys (gateDiscipline P)
        (fun r u => Seen known u ∧ ∀ receipt, r = .ok receipt → Seen (insert receipt.id known) u)
        (.shared present) := by
    rintro rest rfl
    refine obeys_run_bind.mpr ⟨⟨⟨_, rfl⟩, soundFile_blobFile hP bytes⟩, fun r _ => ?_⟩
    rcases r with e | _
    · exact ⟨⟨_, rfl, hpresent⟩, fun receipt h => absurd h (by simp)⟩
    · exact ⟨hknown, fun receipt h => by obtain rfl := Except.ok.inj h; exact hinsert⟩
  rcases there with e | (_ | _)
  · exact hwrite _ rfl
  · exact hwrite _ rfl
  · -- found
    refine obeys_run_bind.mpr ⟨trivial, fun file _ => ?_⟩
    rcases file with e | (_ | raw)
    · exact ⟨hknown, fun receipt h => absurd h (by simp)⟩
    · exact ⟨hknown, fun receipt h => absurd h (by simp)⟩
    · refine obeys_run_bind.mpr ⟨trivial, fun file _ => ?_⟩
      rcases file with e | file
      · exact ⟨hknown, fun receipt h => absurd h (by simp)⟩
      · refine obeys_run_bind.mpr ?_
        rcases readCompression file with e | compression
        · exact ⟨hknown, fun receipt h => absurd h (by simp)⟩
        · exact ⟨hknown, fun receipt h => by obtain rfl := Except.ok.inj h; exact hinsert⟩

theorem stays_countDeduped {receipt : WriteReceipt} :
    Stays (gateDiscipline P) T (countDeduped receipt) := by
  rw [countDeduped]
  split
  · exact stays_pure
  · exact stays_ask trivial

/-- An entry is written whose new blobs have been seen. -/
theorem obeys_putEntry {record : EntryRecord} {newBlobs : List (ContentId × BlobRecord)} {t : Hold}
    (ht : Seen {c | c ∈ newBlobs.map Prod.fst} t) :
    (ask (.putEntry record newBlobs)).run.Obeys (gateDiscipline P) (fun _ u => u = t) t := by
  obtain ⟨present, rfl, hpresent⟩ := ht
  exact ⟨⟨present, rfl, fun c hc => hpresent hc⟩, fun _ _ => rfl⟩

theorem stays_storeWhole {w : Storing} {write : CacheM WriteReceipt}
    (hwrite : ∀ t, Seen ∅ t → write.run.Obeys (gateDiscipline P)
      (fun r u => Seen ∅ u ∧ ∀ receipt, r = .ok receipt → Seen (insert receipt.id ∅) u) t) :
    Stays (gateDiscipline P) Idle (storeWhole P w write) := by
  refine stays_holdingShared (obeys_run_bind.mpr ((hwrite _ seen_nothing).mono fun r u hu => ?_))
  rcases r with e | receipt
  · exact hu.1
  · have hseen := hu.2 receipt rfl
    refine obeys_run_bind.mpr ((stays_countDeduped u hseen).mono fun r u hu => ?_)
    rcases r with e | _
    · exact hu.mono (Set.empty_subset _)
    · refine obeys_run_bind.mpr ⟨trivial, fun now _ => obeys_run_bind.mpr ?_⟩
      refine (obeys_putEntry (hu.mono (by simp))).mono fun r v hv => ?_
      have hv' : Seen ∅ v := hv ▸ hu.mono (Set.empty_subset _)
      rcases r with e | orphaned
      · exact hv'
      · exact hv'

theorem stays_releaseFrom {ids : List ContentId} {onDisk : ℕ} :
    Stays (gateDiscipline P) T (releaseFrom ids onDisk) := by
  induction ids generalizing onDisk with
  | nil => exact stays_pure
  | cons id rest ih =>
    rw [releaseFrom]
    refine Stays.bind (stays_ask trivial) fun blob => ?_
    rcases blob with _ | blob
    · exact ih
    · exact ih

theorem stays_evictFrom {target onDisk evicted : ℕ} {candidates : List (String × EntryRecord)} :
    Stays (gateDiscipline P) Idle (evictFrom target candidates onDisk evicted) := by
  induction candidates generalizing onDisk evicted with
  | nil => exact stays_pure
  | cons candidate rest ih =>
    obtain ⟨key, record⟩ := candidate
    rw [evictFrom]
    split
    · exact stays_pure
    · exact Stays.bind (stays_ask trivial) fun _ => stays_releaseFrom.bind fun _ =>
        stays_deleteOrphans.bind fun _ => ih

theorem stays_enforceBudget {opts : CacheOptions} :
    Stays (gateDiscipline P) Idle (enforceBudget P opts) := by
  rw [enforceBudget]
  split
  · exact stays_pure
  · refine Stays.bind (stays_ask trivial) fun totals => ?_
    obtain ⟨-, -, onDisk, -⟩ := totals
    simp only
    split
    · exact stays_pure
    · refine Stays.bind (stays_ask trivial) fun candidates => stays_evictFrom.bind fun evicted => ?_
      split
      · exact Stays.bind (stays_ask trivial) fun _ => stays_pure
      · exact stays_pure

theorem stays_reconcileHead {partition : Option String} {url : String} {request fresh : HeaderMap} :
    Stays (gateDiscipline P) Idle (reconcileHead P partition url request fresh) := by
  refine stays_selectVariant.bind fun selected => ?_
  rcases selected with _ | ⟨key, record⟩
  · exact stays_pure
  · simp only [reconcileWith]
    split
    · exact stays_ask trivial
    · exact Stays.bind (stays_ask trivial) fun _ => stays_deleteOrphans.bind fun _ => stays_pure

theorem stays_rejected {reason : String} : Stays (gateDiscipline P) T (rejected reason) :=
  Stays.bind (stays_ask trivial) fun _ => stays_pure

theorem stays_afterStore {opts : CacheOptions} {w : Storing} {receipt : WriteReceipt}
    {orphaned : List ContentId} {digests : List (Bytes × ContentId)} :
    Stays (gateDiscipline P) Idle (afterStore P opts w receipt orphaned digests) := by
  rw [afterStore]
  refine stays_deleteOrphans.bind fun _ => Stays.bind (stays_ask trivial) fun _ =>
    Stays.bind (stays_ask trivial) fun _ => ?_
  split
  · exact stays_reconcileHead.bind fun _ => stays_enforceBudget.bind fun _ => stays_pure
  · exact stays_enforceBudget.bind fun _ => stays_pure

/-! #### Ranges -/

/-- **The slices of a range are there**, each found or written. -/
theorem obeys_putSlices (hP : P.Lossless) {body : Bytes} {start now : ℕ} {gaps : List (ℕ × ℕ)}
    {known : Set ContentId} {t : Hold} (ht : Seen known t) :
    (putSlices P body start now gaps).run.Obeys (gateDiscipline P)
      (fun r u => Seen known u ∧
        ∀ added, r = .ok added → Seen (known ∪ {c | c ∈ added.2.map Prod.fst}) u) t := by
  induction gaps generalizing known t with
  | nil => exact ⟨ht, fun added h => by obtain rfl := Except.ok.inj h; simpa using ht⟩
  | cons gap rest ih =>
    obtain ⟨first, last⟩ := gap
    rw [putSlices]
    refine obeys_run_bind.mpr ((obeys_put hP ht).mono fun r u hu => ?_)
    rcases r with e | receipt
    · exact ⟨hu.1, fun added h => absurd h (by simp)⟩
    · have hseen := hu.2 receipt rfl
      refine obeys_run_bind.mpr ((stays_countDeduped u hseen).mono fun r u hu => ?_)
      rcases r with e | _
      · exact ⟨hu.mono (Set.subset_insert _ _), fun added h => absurd h (by simp)⟩
      · refine obeys_run_bind.mpr ((ih hu).mono fun r u hu => ?_)
        rcases r with e | added
        · exact ⟨hu.1.mono (Set.subset_insert _ _), fun added h => absurd h (by simp)⟩
        · refine ⟨hu.1.mono (Set.subset_insert _ _), fun all h => ?_⟩
          obtain rfl := Except.ok.inj h
          refine (hu.2 added rfl).mono fun c hc => ?_
          simpa [or_assoc, or_left_comm] using hc

/-- A body that is completed is there, as what it was made of is. -/
theorem obeys_completeRecord (hP : P.Lossless) {record : EntryRecord}
    {newBlobs : List (ContentId × BlobRecord)} {now : ℕ} {t : Hold}
    (ht : Seen {c | c ∈ newBlobs.map Prod.fst} t) :
    (completeRecord P record newBlobs now).run.Obeys (gateDiscipline P)
      (fun r u => Seen ∅ u ∧
        ∀ done, r = .ok done → Seen {c | c ∈ done.2.1.map Prod.fst} u) t := by
  have hleft : Seen ∅ t ∧ ∀ done, (Except.ok (record, newBlobs, none) :
      Except CacheError (EntryRecord × List (ContentId × BlobRecord) × Option ContentId)) =
      .ok done → Seen {c | c ∈ done.2.1.map Prod.fst} t :=
    ⟨ht.mono (Set.empty_subset _), fun done h => by obtain rfl := Except.ok.inj h; exact ht⟩
  rw [completeRecord]
  split
  · exact hleft
  · split
    · refine obeys_run_bind.mpr ((stays_readSpan t ht).mono fun r u hu => ?_)
      rcases r with e | whole
      · exact ⟨hu.mono (Set.empty_subset _), fun done h => absurd h (by simp)⟩
      · refine obeys_run_bind.mpr ((obeys_put hP hu).mono fun r u hu => ?_)
        rcases r with e | receipt
        · exact ⟨hu.1.mono (Set.empty_subset _), fun done h => absurd h (by simp)⟩
        · have hseen := hu.2 receipt rfl
          refine obeys_run_bind.mpr ⟨trivial, fun r _ => ?_⟩
          rcases r with e | _
          · exact ⟨hseen.mono (Set.empty_subset _), fun done h => absurd h (by simp)⟩
          · refine ⟨hseen.mono (Set.empty_subset _), fun done h => ?_⟩
            obtain rfl := Except.ok.inj h
            refine hseen.mono fun c hc => ?_
            simpa [or_comm] using hc
    · exact hleft

theorem stays_writePartial (hP : P.Lossless) {w : Storing} {body : Bytes}
    {contentRange : ContentRange} {existing : Option EntryRecord} :
    Stays (gateDiscipline P) Idle (writePartial P w body contentRange existing) := by
  refine stays_holdingShared (obeys_run_bind.mpr ⟨trivial, fun now _ => obeys_run_bind.mpr ?_⟩)
  refine (obeys_putSlices hP seen_nothing).mono fun r u hu => ?_
  rcases r with e | added
  · exact hu.1
  · have hseen := (hu.2 added rfl).mono Set.subset_union_right
    refine obeys_run_bind.mpr ((obeys_completeRecord hP hseen).mono fun r u hu => ?_)
    rcases r with e | ⟨record, newBlobs, completed⟩
    · exact hu.1
    · refine obeys_run_bind.mpr ((obeys_putEntry (hu.2 _ rfl)).mono fun r v hv => ?_)
      rcases r with e | orphaned
      · exact hv ▸ hu.1
      · exact hv ▸ hu.1

theorem stays_extendRange (hP : P.Lossless) {opts : CacheOptions} {w : Storing} {body : Bytes}
    {contentRange : ContentRange} {existing : Option EntryRecord} :
    Stays (gateDiscipline P) Idle (extendRange P opts w body contentRange existing) := by
  rw [extendRange]
  split
  · exact stays_pure
  · refine (stays_writePartial hP).bind fun written => ?_
    obtain ⟨record, completed, orphaned⟩ := written
    refine stays_deleteOrphans.bind fun _ => Stays.bind (stays_ask trivial) fun _ => ?_
    rcases completed with _ | content
    · exact Stays.bind (stays_ask trivial) fun _ => stays_enforceBudget.bind fun _ => stays_pure
    · exact stays_enforceBudget.bind fun _ => stays_pure

theorem stays_storePartial (hP : P.Lossless) {opts : CacheOptions} {w : Storing} {body : Bytes} :
    Stays (gateDiscipline P) Idle (storePartial P opts w body) := by
  rw [storePartial]
  split
  · exact stays_rejected
  · split
    · exact stays_rejected
    · split
      · exact stays_rejected
      · split
        · exact stays_rejected
        · refine Stays.bind (stays_ask trivial) fun found => ?_
          rcases found with _ | r
          · exact stays_extendRange hP
          · rw [foldRange]
            split
            · exact stays_extendRange hP
            · exact Stays.bind (stays_ask trivial) fun _ => stays_deleteOrphans.bind fun _ =>
                stays_extendRange hP

/-! #### The operations -/

theorem stays_storeWithProvenance (hP : P.Lossless) {opts : CacheOptions} {w : Storing}
    {body : Bytes} : Stays (gateDiscipline P) Idle (storeWithProvenance P opts w body) := by
  refine Stays.bind (stays_ask trivial) fun _ => ?_
  split
  · exact stays_rejected
  · split
    · exact stays_storePartial hP
    · exact (stays_storeWhole fun t ht => obeys_put hP ht).bind fun _ => stays_afterStore

theorem stays_finishStreamed (hP : P.Lossless) {opts : CacheOptions} {w : Storing}
    {writer : BlobWriter} : Stays (gateDiscipline P) Idle (finishStreamed P opts w writer) := by
  refine Stays.bind (stays_ask trivial) fun _ => ?_
  split
  · exact stays_rejected
  · split
    · exact stays_rejected
    · exact (stays_storeWhole fun t ht => obeys_put hP ht).bind fun _ => stays_afterStore

theorem stays_materializeOr {key : String} {record : EntryRecord} {metadata : StoredMeta}
    {age : ℕ} {want : Want} {tally : List (String × ℕ)} {serve : StoredResponse → CacheM Lookup}
    (hserve : ∀ response, Stays (gateDiscipline P) Idle (serve response)) :
    Stays (gateDiscipline P) Idle (materializeOr P key record metadata age want tally serve) := by
  refine (stays_attempt stays_materialize).bind fun r => ?_
  rcases r with e | response
  · simp only
    split
    · exact stays_discardBroken
    · exact stays_throw
  · exact hserve response

theorem stays_lookupEntry {opts : CacheOptions} {request : HeaderMap} {head : Bool} {key : String}
    {record : EntryRecord} {tally : List (String × ℕ)} :
    Stays (gateDiscipline P) Idle (lookupEntry P opts request head key record tally) := by
  have hgo : ∀ metadata now want, Stays (gateDiscipline P) Idle
      (lookupEntry.go P opts request key record tally metadata now want) := by
    intro metadata now want
    rw [lookupEntry.go]
    split
    · exact stays_materializeOr fun _ => Stays.bind (stays_ask trivial) fun _ => stays_pure
    · exact stays_materializeOr fun _ => Stays.bind (stays_ask trivial) fun _ => stays_pure
    · split
      · exact stays_missed
      · split
        · exact stays_missed
        · exact stays_materializeOr fun _ => Stays.bind (stays_ask trivial) fun _ => stays_pure
    · exact stays_missed
  refine stays_clock.bind fun now => ?_
  split
  · exact stays_missed
  · exact hgo _ _ _
  · exact hgo _ _ _

theorem stays_selected {opts : CacheOptions} {request : HeaderMap} {head : Bool}
    {tally : List (String × ℕ)} (selected : Option (String × EntryRecord)) :
    Stays (gateDiscipline P) Idle (match selected with
      | none => missed tally "no stored variant"
      | some (key, record) => lookupEntry P opts request head key record tally) := by
  rcases selected with _ | ⟨key, record⟩
  · exact stays_missed
  · exact stays_lookupEntry

theorem stays_lookup {opts : CacheOptions} {partition : Option String} {method url : String}
    {request : HeaderMap} :
    Stays (gateDiscipline P) Idle (lookup P opts partition method url request) := by
  rw [lookup]
  simp only
  split
  · exact stays_missed
  · refine stays_selectVariant.bind fun own => ?_
    split
    · exact stays_selectVariant.bind stays_selected
    · exact stays_selected own

theorem stays_recordNotModified {key : String} {fresh : HeaderMap} {requestTime responseTime : ℕ} :
    Stays (gateDiscipline P) Idle (recordNotModified P key fresh requestTime responseTime) := by
  refine Stays.bind (stays_ask trivial) fun found => ?_
  rcases found with _ | old
  · exact stays_pure
  · refine Stays.bind (stays_ask trivial) fun _ => Stays.bind (stays_ask trivial) fun _ =>
      stays_clock.bind fun now => (stays_attempt stays_materialize).bind fun r => ?_
    rcases r with e | response
    · simp only
      split
      · exact stays_dropBroken.bind fun _ => stays_throw
      · exact stays_throw
    · exact Stays.bind (stays_ask trivial) fun _ => Stays.bind (stays_ask trivial) fun _ => stays_pure

theorem stays_discardRepresentation {key : String} {content : ContentId} :
    Stays (gateDiscipline P) Idle (discardRepresentation key content) := by
  refine Stays.bind (stays_ask trivial) fun found => ?_
  rcases found with _ | record
  · exact stays_pure
  · simp only
    split
    · refine Stays.bind (stays_ask trivial) fun orphaned => ?_
      rcases orphaned with _ | orphaned
      · exact stays_pure
      · exact stays_deleteOrphans.bind fun _ => stays_pure
    · exact stays_pure

theorem stays_invalidateUrl {partition : Option String} {method url : String} :
    Stays (gateDiscipline P) Idle (invalidateUrl P partition method url) := by
  rw [invalidateUrl]
  split
  · exact stays_pure
  · exact Stays.bind (stays_ask trivial) fun _ => stays_deleteOrphans.bind fun _ =>
      Stays.bind (stays_ask trivial) fun _ => stays_deleteOrphans.bind fun _ => stays_pure

theorem stays_collectGarbage : Stays (gateDiscipline P) Idle collectGarbage := by
  refine Stays.bind (stays_ask trivial) fun orphans => stays_deleteOrphans.bind fun deleted => ?_
  refine Stays.bind (Stays.bind (stays_ask trivial) fun stale => ?_) fun _ => stays_pure
  split
  · exact stays_pure
  · exact Stays.bind (stays_ask trivial) fun _ => stays_pure

theorem stays_grantPeerEligibility {content : ContentId} {declared : Integrity} :
    Stays (gateDiscipline P) Idle (grantPeerEligibility P content declared) := by
  rw [grantPeerEligibility]
  split
  · exact stays_pure
  · refine stays_holdingShared ?_
    refine Stays.bind (stays_attempt stays_get) (fun r => ?_) _ seen_nothing
    rcases r with e | bytes
    · simp only
      split
      · exact stays_pure
      · exact stays_throw
    · exact Stays.bind (stays_ask trivial) fun _ => stays_pure

theorem stays_bodyNamed {content : ContentId} {named : Option Hash} :
    Stays (gateDiscipline P) T (bodyNamed P content named) := by
  refine Stays.bind (stays_ask trivial) fun eligible => ?_
  split
  · exact stays_pure
  · refine (stays_attempt stays_get).bind fun r => ?_
    rcases r with e | bytes
    · simp only
      split
      · exact stays_pure
      · exact stays_throw
    · simp only
      split
      · exact stays_pure
      · exact stays_pure

theorem stays_bodyForPeer {asked : PeerAsk} : Stays (gateDiscipline P) T (bodyForPeer P asked) := by
  rcases asked with id | hash
  · exact stays_bodyNamed
  · refine Stays.bind (stays_ask trivial) fun found => ?_
    rcases found with _ | id
    · exact stays_pure
    · exact stays_bodyNamed

theorem stays_acceptPeerBody {integrity : Integrity} {body : Bytes} :
    Stays (gateDiscipline P) T (acceptPeerBody P integrity body) := by
  rw [acceptPeerBody]
  split
  · exact stays_ask trivial
  · exact Stays.bind (stays_ask trivial) fun _ => stays_throw

/-- **Every operation keeps to the discipline.** -/
theorem stays_run (hP : P.Lossless) {opts : CacheOptions} {op : Op} :
    Stays (gateDiscipline P) Idle (op.run P opts) := by
  cases op with
  | lookup partition method url h => exact stays_lookup.bind fun _ => stays_pure
  | store w body => exact (stays_storeWithProvenance hP).bind fun _ => stays_pure
  | finishStreamed w writer => exact (stays_finishStreamed hP).bind fun _ => stays_pure
  | recordNotModified key h requestTime responseTime =>
    exact stays_recordNotModified.bind fun _ => stays_pure
  | discardRepresentation key content => exact stays_discardRepresentation.bind fun _ => stays_pure
  | invalidate partition method url => exact stays_invalidateUrl.bind fun _ => stays_pure
  | purge partition method url =>
    exact Stays.bind (Stays.bind (stays_ask trivial) fun _ => stays_deleteOrphans.bind fun _ =>
      stays_pure) fun _ => stays_pure
  | enforceBudget => exact stays_enforceBudget.bind fun _ => stays_pure
  | collectGarbage => exact stays_collectGarbage.bind fun _ => stays_pure
  | clear => exact stays_clear.bind fun _ => stays_pure
  | grantPeerEligibility content declared =>
    exact stays_grantPeerEligibility.bind fun _ => stays_pure
  | bodyForPeer asked => exact stays_bodyForPeer.bind fun _ => stays_pure
  | acceptPeerBody integrity body => exact stays_acceptPeerBody.bind fun _ => stays_pure

end Keeping

/-! ### Every run -/

/-- **No file goes that an entry names**: in every run of any number of
operations, in any interleaving, every blob that an entry names has its file,
after every step. -/
theorem named_files_present_of_runs (P : Platform) (hP : P.Lossless) (opts : CacheOptions)
    (ops : List Op) (s : Store) (hs : Guarded P s fun _ => .nothing)
    (c : Config CacheAct Store Outcome) (hrun : roomyRuns.Runs (running P opts s ops) c)
    (key : String) (record : EntryRecord) (hr : c.shared.index.entries.lookup key = some record)
    (content : ContentId) (hcontent : content ∈ record.contents) :
    (c.shared.files.lookup content).isSome = true := by
  have hkept : Kept (gateDiscipline P) (Guarded P) (fun _ _ u => Idle u) (running P opts s ops) := by
    refine ⟨fun _ => .nothing, hs, fun i p hp => ?_⟩
    obtain ⟨op, -, rfl⟩ := List.mem_map.mp (List.mem_of_getElem? hp)
    exact stays_run hP _ rfl
  obtain ⟨t, hguarded, -⟩ := hkept.runs governs_guarded hrun
  exact hguarded.backed content (Index.recorded_of_named hguarded.counted hr hcontent)

theorem guarded_empty : Guarded P .empty fun _ => .nothing where
  counted := Index.empty_exact
  backed _ hc := absurd hc Bool.false_ne_true
  sound _ _ hraw := absurd hraw (by simp [Store.empty])
  nodup := List.nodup_nil
  readers _ := ⟨fun h => absurd h List.not_mem_nil, fun ⟨_, h⟩ => absurd h (by simp)⟩
  writer _ := ⟨fun h => absurd h (by simp [Store.empty]), fun ⟨_, h⟩ => absurd h (by simp)⟩
  apart _ := rfl
  present _ _ h := absurd h (by simp)
  gone _ _ h := absurd h (by simp)

/-- The page, once it is stored. -/
theorem named_files_present_of_runs_page :
    ∃ c, roomyRuns.Runs (running Platform.sample .default .empty pageOps) c ∧
      ∃ key record content, c.shared.index.entries.lookup key = some record ∧
        content ∈ record.contents ∧ (c.shared.files.lookup content).isSome = true := by
  let key := entryKey none "GET" "http://a.test/x" ""
  let stored : Config CacheAct Store Outcome → Bool := fun c =>
    (c.shared.index.entries.lookup key).any fun r => Platform.sampleBlake3 [97] ∈ r.contents
  have hfollow : ((running Platform.sample .default .empty pageOps).follow
      (allowing (fun _ {_} a s => ¬a.Refreshes ∧ a.HasRoom s) Store.perform)
      (fun {_} _ => none) (pageSchedule.take 10)).any stored = true := by decide +kernel
  obtain ⟨c, hc, hstored⟩ := exists_cacheRuns_when _ hfollow
  obtain ⟨r, hr, hcontent⟩ := (Option.any_eq_true _ _).mp hstored
  refine ⟨c, hc, key, r, _, hr, of_decide_eq_true hcontent, ?_⟩
  exact named_files_present_of_runs _ lossless_sample _ _ _ guarded_empty c hc key r hr _
    (of_decide_eq_true hcontent)

end Syndeo
