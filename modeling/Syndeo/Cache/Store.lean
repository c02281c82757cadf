import Syndeo.Concurrent.Pool
import Syndeo.Cache.Index
import Syndeo.Cache.Sri

/-!
# The store, and the actions on it

What the operations of a cache share: the index, the directory of blob files, and
the gate that orders the deletion of a file against the taking of a reference to
it. A `Syndeo.CacheAct` is what an operation does in one step that no other can
cut into: one transaction of the index, one call to the file system, one move of
the gate, one reading of the clock. What each does to the `Syndeo.Store` is
`Syndeo.Store.perform`, given what the world contributes: the time, and whether
the call fails.

The temporary files a body is written through are no part of the model. Their
names are their writers' own, and nothing reads them but the rename that makes
them a blob.
-/

namespace Syndeo

open Concurrent Tables

/-! ### The state -/

/-- The gate: the threads that hold it shared, and the one that holds it
exclusively. -/
structure Gate where
  readers : List ℕ
  writer : Option ℕ
  deriving DecidableEq

/-- What the operations of a cache share. -/
structure Store where
  index : Index
  files : Table ContentId Bytes
  gate : Gate

/-- A store nothing was put into. -/
def Store.empty : Store := ⟨.empty, ∅, ⟨[], none⟩⟩

/-! ### The actions -/

/-- The calls to the file system, on the file of a content address. -/
inductive FileAct : Type → Type
  /-- `Path::exists`. -/
  | «exists» (id : ContentId) : FileAct Bool
  /-- Reading a file, or its length or its first byte; nothing if there is none. -/
  | read (id : ContentId) : FileAct (Option Bytes)
  /-- The rename that puts a whole file in place. -/
  | write (id : ContentId) (raw : Bytes) : FileAct Unit
  /-- `fs::remove_file`, and whether there was a file. -/
  | remove (id : ContentId) : FileAct Bool
  /-- The blob files there are. -/
  | list : FileAct (List ContentId)

/-- What a call to the file system answers, and what it leaves. -/
def FileAct.run (files : Table ContentId Bytes) :
    ∀ {β : Type}, FileAct β → β × Table ContentId Bytes
  | _, .exists id => ((files.lookup id).isSome, files)
  | _, .read id => (files.lookup id, files)
  | _, .write id raw => ((), files.insert id raw)
  | _, .remove id => ((files.lookup id).isSome, files.erase id)
  | _, .list => ((rows files).map Prod.fst, files)

/-- The moves of the gate. -/
inductive GateAct
  | lockShared
  | unlockShared
  | lockExclusive
  | unlockExclusive
  deriving DecidableEq

/-- A move of the gate by thread `i`; taking it waits until it can be taken. -/
def GateAct.run (i : ℕ) (gate : Gate) : GateAct → Option Gate
  | .lockShared =>
    if gate.writer = none then some { gate with readers := i :: gate.readers } else none
  | .unlockShared => some { gate with readers := gate.readers.erase i }
  | .lockExclusive =>
    if gate.writer = none ∧ gate.readers = [] then some { gate with writer := some i } else none
  | .unlockExclusive => some { gate with writer := none }

/-- **One step of an operation.** A call that can fail answers with its result or
with an error. -/
inductive CacheAct : Type → Type 1
  | index {β : Type} (a : IndexAct β) : CacheAct (Except CacheError β)
  | file {β : Type} (a : FileAct β) : CacheAct (Except CacheError β)
  | gate (a : GateAct) : CacheAct Unit
  | now : CacheAct ℕ

/-- The step refreshes an entry. -/
def CacheAct.Refreshes : ∀ {β : Type}, CacheAct β → Prop
  | _, .index (.refreshEntry _) => True
  | _, _ => False

instance {β : Type} {a : CacheAct β} : Decidable a.Refreshes :=
  match a with
  | .index (.refreshEntry _) => .isTrue trivial
  | .index (.getEntry _) | .index (.putEntry _ _) | .index (.variantKeys _ _ _)
  | .index (.invalidate _ _ _) | .index (.removeEntry _) | .index (.dropBrokenEntry _ _)
  | .index (.dropEntryHolding _ _) | .index (.recordAccess _ _ _) | .index .allEntries
  | .index (.getBlob _) | .index .blobTotals | .index .clear | .index .orphanedBlobs
  | .index (.forgetBlobIfUnreferenced _) | .index (.grantEligibility _ _)
  | .index (.eligibleHashes _) | .index (.indexSri _) | .index .staleSri | .index (.dropSri _)
  | .index (.contentForSri _) | .index (.bump _ _) | .file _ | .gate _ | .now => .isFalse id

/-- What the world contributes to a step: the time, and a failure of the disk. -/
structure Weather where
  now : ℕ
  fault : Option String

/-- **What a step does**: nothing, where the disk fails; and it waits, where the
gate does. -/
def Store.perform (w : Weather) (i : ℕ) : ∀ {β : Type}, CacheAct β → Store → Option (β × Store)
  | _, .index a, s =>
    match w.fault, a.run s.index with
    | some message, _ => some (.error (.index message), s)
    | none, .ok (b, ix) => some (.ok b, { s with index := ix })
    | none, .error e => some (.error e, s)
  | _, .file a, s =>
    match w.fault with
    | some message => some (.error (.io message), s)
    | none => some (.ok (a.run s.files).1, { s with files := (a.run s.files).2 })
  | _, .gate a, s => (a.run i s.gate).map fun gate => ((), { s with gate := gate })
  | _, .now, s => some (w.now, s)

section Perform

variable {w : Weather} {i : ℕ} {s s' : Store} {β : Type}

/-- **What a transaction can come to**: the disk fails, it is committed, or it
gives up; and only a committed one leaves anything. -/
theorem Store.perform_index {a : IndexAct β} {r : Except CacheError β} :
    Store.perform w i (.index a) s = some (r, s') ↔
      (∃ message, w.fault = some message ∧ r = .error (.index message) ∧ s' = s) ∨
      (w.fault = none ∧ ∃ b ix, a.run s.index = .ok (b, ix) ∧ r = .ok b ∧
        s' = { s with index := ix }) ∨
      (w.fault = none ∧ ∃ e, a.run s.index = .error e ∧ r = .error e ∧ s' = s) := by
  rw [Store.perform]
  rcases w.fault with _ | message
  · rcases a.run s.index with e | ⟨b, ix⟩
    · simp [eq_comm]
    · simp [eq_comm]
  · simp [eq_comm]

theorem Store.perform_file {a : FileAct β} {r : Except CacheError β} :
    Store.perform w i (.file a) s = some (r, s') ↔
      (∃ message, w.fault = some message ∧ r = .error (.io message) ∧ s' = s) ∨
      (w.fault = none ∧ r = .ok (a.run s.files).1 ∧
        s' = { s with files := (a.run s.files).2 }) := by
  rw [Store.perform]
  rcases w.fault with _ | message
  · simp [eq_comm]
  · simp [eq_comm]

theorem Store.perform_gate {a : GateAct} {r : Unit} :
    Store.perform w i (.gate a) s = some (r, s') ↔
      ∃ gate, a.run i s.gate = some gate ∧ s' = { s with gate := gate } := by
  simp [Store.perform, eq_comm]

theorem Store.perform_now {r : ℕ} :
    Store.perform w i .now s = some (r, s') ↔ r = w.now ∧ s' = s := by
  simp [Store.perform, eq_comm]

end Perform

/-- The runs of cache operations side by side, in any weather that `world`
admits. -/
def cacheSystem (ρ : Type) (world : Weather → Prop) : System CacheAct Store ρ :=
  System.ofPerform Store.perform world fun {_} _ => none

/-- Weather in which the disk does not fail. -/
def Weather.calm (w : Weather) : Prop := w.fault = none

/-! ### Programs of such steps -/

/-- An operation: it fails with a `CacheError`, or returns. -/
abbrev CacheM := ExceptT CacheError (Prog CacheAct)

/-- A transaction of the index. -/
def ask {β : Type} (a : IndexAct β) : CacheM β := ExceptT.mk (Prog.call (.index a))

/-- A call to the file system. -/
def onFile {β : Type} (a : FileAct β) : CacheM β := ExceptT.mk (Prog.call (.file a))

/-- `Cache::now`. -/
def clock : CacheM ℕ := ExceptT.lift (Prog.call .now)

/-- A move of the gate. -/
def move (a : GateAct) : CacheM Unit := ExceptT.lift (Prog.call (.gate a))

/-- What a piece of an operation comes to, an error included. -/
def attempt {α : Type} (x : CacheM α) : CacheM (Except CacheError α) := ExceptT.lift x.run

/-- `Cache::storing`: hold the gate shared for a piece of an operation, however it
ends. -/
def holdingShared {α : Type} (x : CacheM α) : CacheM α := do
  move .lockShared
  let r ← attempt x
  move .unlockShared
  ExceptT.mk (pure r)

/-- Hold the gate exclusively for a piece of an operation, however it ends. -/
def holdingExclusive {α : Type} (x : CacheM α) : CacheM α := do
  move .lockExclusive
  let r ← attempt x
  move .unlockExclusive
  ExceptT.mk (pure r)

end Syndeo
