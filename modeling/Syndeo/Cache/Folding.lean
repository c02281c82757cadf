import Syndeo.Cache.Assembly
import Syndeo.Cache.Footprint
import Syndeo.Cache.Refcount

/-!
# Ranges that are stored at the same time

A store of a range reads the entry, folds its range into what it read, and writes
the result: two transactions, with the disk in between. What was written under
the key in between is not read again, so it is kept exactly when the store holds
it too.

`Syndeo.Storing.keepsAll` is that condition, read off the entry that is replaced,
and `Syndeo.ranges_kept_of_runs` says that nothing else is needed: in a run whose
writes all meet it, the entry covers every range that was reported stored, and a
complete entry stays complete. The history of a run is what each thread was last
answered to `get_entry`.
-/

namespace Syndeo

open Concurrent Tables Intervals
open Text (u64Bound)
open Prog (Asks Ends Stays stays_pure stays_of_asks obeys_run_bind obeys_bind obeys_bind_ends)

/-! ### What a store of a range loses -/

namespace Storing

variable (P : Platform) (w : Storing) (found : Option EntryRecord)

/-- **The store loses nothing of an entry it replaces**: each run of it is held,
and a complete one is replaced by a complete one. -/
def keepsAll (stored : StoredBody) : Bool :=
  match w.contentRange with
  | none => true
  | some cr =>
    (stored.coverage.intervals.all fun run => (w.assembled P found cr).covers run.1 run.2) &&
      (!stored.isComplete ||
        (w.knownLen P found cr).any fun n => (w.assembled P found cr).covers 0 n)

end Storing

/-! ### Runs with their history -/

/-- The history: what each thread was last answered to `get_entry`. -/
abbrev Finds := ℕ → Option (Option EntryRecord)

/-- Write down what was found. -/
def noteFound (i : ℕ) : ∀ {β : Type}, CacheAct β → Store → β → Store → Finds → Finds
  | _, .index (.getEntry _) => fun _ r _ finds =>
    match r with
    | .ok found => Function.update finds i (some found)
    | .error _ => finds
  | _, _ => fun _ _ _ finds => finds

theorem noteFound_error {i : ℕ} {β : Type} {a : IndexAct β} {s s' : Store} {e : CacheError}
    {finds : Finds} : noteFound i (.index a) s (.error e) s' finds = finds := by
  cases a <;> rfl

variable (P : Platform) (ops : List Op) (key : String)

/-- What a store was given. -/
def Op.given : Op → Option Storing
  | .store w _ => some w
  | _ => none

/-- **The step disturbs no other store**: what it writes under the key loses
nothing of what is there, and it takes nothing out. -/
def undisturbing (i : ℕ) : ∀ {β : Type}, CacheAct β → Store × Finds → Bool
  | _, .index (.putEntry record _), (s, finds) =>
    match ops[i]?.bind Op.given, finds i, s.index.entries.lookup key with
    | some w, some found, some stored => record.key ≠ key || w.keepsAll P found stored.body
    | _, _, _ => true
  | _, .index (.removeEntry k), (s, _) => k ≠ key || (s.index.entries.lookup key).isNone
  | _, _, _ => true

variable {P ops key} in
theorem absent_of_undisturbing {i : ℕ} {k : String} {s : Store} {finds : Finds}
    (h : undisturbing P ops key i (.index (.removeEntry k)) (s, finds) = true) :
    k = key → s.index.entries.lookup key = none := by
  rintro rfl
  simpa [undisturbing] using h

/-- The runs of range stores, none of which disturbs another. -/
abbrev rangeRuns : System CacheAct (Store × Finds) Outcome :=
  (cacheRuns.recording fun i _ => noteFound i).when fun i {_} a s =>
    undisturbing P ops key i a s = true

/-- **A range of `R`, stored under the key.** -/
def Op.IsRangeOf (R : Bytes) : Op → Prop
  | .store w body =>
    w.status = 206 ∧ entryKey w.partition "GET" (normalizeUrl P w.url) (w.vkey P) = key ∧
      ∀ cr, w.contentRange = some cr → cr.last < R.length ∧ body = slice R cr.first (cr.last + 1) ∧
        ∀ n, cr.completeLen = some n → n = R.length
  | _ => False

/-- The store reported that it stored its range. -/
def StoreOutcome.isStored : StoreOutcome → Bool
  | .stored _ _ => true
  | .storedPartial _ _ => true
  | .notStored _ => false

/-! ### The discipline of a range store -/

/-- What a range store knows: what it was given, what it found, and whether it has
written. A place in the pool that no thread has was given nothing. -/
structure Fold where
  given : Option Storing
  found : Option (Option EntryRecord)
  stored : Bool

namespace Fold

variable (R : Bytes) (B : Set Bytes)

/-- What it may do: read and write under its key, and write there what it
assembled. -/
def may (t : Fold) : ∀ {β : Type}, CacheAct β → Prop
  | _, .index (.getEntry k) => k = key
  | _, .index (.putEntry record _) =>
    record.key = key ∧ record.body.Holds P R ∧
      ∃ w found cr, t.given = some w ∧ t.found = some found ∧ w.contentRange = some cr ∧
        Apart (w.assembled P found cr).intervals ∧
        Intervals.points (w.assembled P found cr).intervals ⊆ record.body.points ∧
        Set.Ico cr.halfOpen.1 cr.halfOpen.2 ⊆ record.body.points ∧
        (((w.knownLen P found cr).any fun n => (w.assembled P found cr).covers 0 n) = true →
          record.body.isComplete = true)
  | _, .index (.refreshEntry _) => False
  | _, .index (.invalidate _ _ _) => False
  | _, .index (.dropBrokenEntry _ _) => False
  | _, .index (.dropEntryHolding _ _) => False
  | _, .index (.recordAccess _ _ _) => False
  | _, .index .clear => False
  | _, .file (.write _ raw) => ∀ bytes, decodeFile P raw = .ok (some bytes) → bytes ∈ B
  | _, _ => True

/-- What it then knows. -/
def next (t : Fold) : ∀ {β : Type}, CacheAct β → β → Fold
  | _, .index (.getEntry _) => fun r =>
    match r with
    | .ok found => { t with found := some found }
    | .error _ => t
  | _, .index (.putEntry _ _) => fun r =>
    match r with
    | .ok _ => { t with stored := true }
    | .error _ => t
  | _, _ => fun _ => t

theorem next_error {t : Fold} {β : Type} {a : IndexAct β} {e : CacheError} :
    t.next (.index a) (.error e) = t := by
  cases a <;> rfl

/-- What it can be answered: entries that hold `R` or part of it, and bodies out
of `B`. -/
def sees : ∀ {β : Type}, CacheAct β → β → Prop
  | _, .index (.getEntry _) => fun r => ∀ record, r = .ok (some record) → record.body.Holds P R
  | _, .file (.read _) => fun r =>
    ∀ raw bytes, r = .ok (some raw) → decodeFile P raw = .ok (some bytes) → bytes ∈ B
  | _, _ => fun _ => True

theorem sees_error {β : Type} {a : IndexAct β} {e : CacheError} :
    sees P R B (.index a) (.error e) := by
  cases a with
  | getEntry k => exact fun record h => absurd h (by simp)
  | _ => trivial

end Fold

/-- **The discipline of a range store.** -/
def foldDiscipline (R : Bytes) (B : Set Bytes) : Discipline CacheAct Fold where
  may := fun {_} t a => t.may P key R B a
  sees := fun {_} _ a b => Fold.sees P R B a b
  next := fun {_} t a b => t.next a b
  born := fun {_} t _ => t

/-! ### What the stores have to do with each other -/

/-- **The invariant of the range stores**: the entry covers what each of them has
written. -/
structure Folded (R : Bytes) (B : Set Bytes) (s : Store × Finds) (t : ℕ → Fold) : Prop where
  holds : ∀ r, s.1.index.entries.lookup key = some r → r.body.Holds P R
  bodies : ∀ id raw bytes, s.1.files.lookup id = some raw →
    decodeFile P raw = .ok (some bytes) → bytes ∈ B
  finds : ∀ i, (t i).found = s.2 i
  given : ∀ i, (t i).given = ops[i]?.bind Op.given
  kept : ∀ i w cr, (t i).stored = true → (t i).given = some w → w.contentRange = some cr →
    ∃ r, s.1.index.entries.lookup key = some r ∧
      Set.Ico cr.halfOpen.1 cr.halfOpen.2 ⊆ r.body.points

variable {P key ops} {R : Bytes} {B : Set Bytes} {s : Store} {finds : Finds} {t : ℕ → Fold} {i : ℕ}

/-- **A store that keeps all of an entry** holds every byte of it. -/
theorem Storing.points_subset_of_keepsAll {w : Storing} {found : Option EntryRecord}
    {cr : ContentRange} {stored : StoredBody} (hcr : w.contentRange = some cr)
    (hapart : Apart (w.assembled P found cr).intervals)
    (h : w.keepsAll P found stored = true) :
    stored.points ⊆ Intervals.points (w.assembled P found cr).intervals ∧
      (stored.isComplete = true →
        ((w.knownLen P found cr).any fun n => (w.assembled P found cr).covers 0 n) = true) := by
  rw [keepsAll, hcr] at h
  simp only [Bool.and_eq_true, List.all_eq_true, Bool.or_eq_true] at h
  refine ⟨fun x hx => ?_, fun hcomplete => ?_⟩
  · rw [← StoredBody.points_coverage] at hx
    obtain ⟨run, hrun, hx⟩ := hx
    exact (Coverage.covers_iff hapart).mp (h.1 run hrun) hx
  · rw [hcomplete] at h
    exact h.2.resolve_left (by simp)

namespace Folded

/-- What leaves the entries alone, and learns nothing. -/
theorem index {ix : Index} (h : Folded P ops key R B (s, finds) t)
    (hix : ix.entries.lookup key = s.index.entries.lookup key) :
    Folded P ops key R B ({ s with index := ix }, finds) t where
  holds r hr := h.holds r (hix.symm.trans hr)
  bodies := h.bodies
  finds := h.finds
  given := h.given
  kept j w cr hj hw hcr := by
    obtain ⟨r, hr, hsub⟩ := h.kept j w cr hj hw hcr
    exact ⟨r, hix.trans hr, hsub⟩

/-- A thread moves on without learning anything. -/
theorem same (h : Folded P ops key R B (s, finds) t) :
    Folded P ops key R B (s, finds) (Function.update t i (t i)) := by
  rwa [Function.update_eq_self]

/-- **The entry is read.** -/
theorem found {found : Option EntryRecord} (h : Folded P ops key R B (s, finds) t) :
    Folded P ops key R B (s, Function.update finds i (some found))
      (Function.update t i { t i with found := some found }) where
  holds := h.holds
  bodies := h.bodies
  finds j := by
    rcases eq_or_ne j i with rfl | hne
    · change _ = Function.update finds j (some found) j
      rw [Function.update_self, Function.update_self]
    · change _ = Function.update finds i (some found) j
      rw [Function.update_of_ne hne, Function.update_of_ne hne]
      exact h.finds j
  given j := by
    rcases eq_or_ne j i with rfl | hne
    · rw [Function.update_self]
      exact h.given j
    · rw [Function.update_of_ne hne]
      exact h.given j
  kept j w cr hj hw hcr := by
    rcases eq_or_ne j i with rfl | hne
    · rw [Function.update_self] at hj hw
      exact h.kept j w cr hj hw hcr
    · rw [Function.update_of_ne hne] at hj hw
      exact h.kept j w cr hj hw hcr

/-- **The entry is written**, by a store that keeps all of what is there. -/
theorem put {record : EntryRecord} {newBlobs : List (ContentId × BlobRecord)} {ix : Index}
    {orphaned : List ContentId} (h : Folded P ops key R B (s, finds) t)
    (hmay : (t i).may P key R B (.index (.putEntry record newBlobs)))
    (hok : undisturbing P ops key i (.index (.putEntry record newBlobs)) (s, finds) = true)
    (hput : s.index.putEntry record newBlobs = .ok (orphaned, ix)) :
    Folded P ops key R B ({ s with index := ix }, finds)
        (Function.update t i { t i with stored := true }) ∧
      ∀ stored, s.index.entries.lookup key = some stored → stored.body.isComplete = true →
        record.body.isComplete = true := by
  obtain ⟨hkey, hholds, w, found, cr, hw, hfound, hcr, hapart, hsub, hown, hcomplete⟩ := hmay
  have hop : ops[i]?.bind Op.given = some w := (h.given i).symm.trans hw
  have hentries := (Index.putEntry_eq hput).2
  have hnew : ix.entries.lookup key = some record := by
    rw [hentries, hkey, AList.lookup_insert]
  -- what was there is kept
  have hkeeps : ∀ stored, s.index.entries.lookup key = some stored →
      stored.body.points ⊆ record.body.points ∧
        (stored.body.isComplete = true → record.body.isComplete = true) := by
    intro stored hstored
    have hfinds : finds i = some found := (h.finds i).symm.trans hfound
    simp only [undisturbing, hop, hfinds, hstored, hkey, ne_eq, not_true, decide_false,
      Bool.false_or] at hok
    obtain ⟨hpoints, hlen⟩ := Storing.points_subset_of_keepsAll hcr hapart hok
    exact ⟨hpoints.trans hsub, fun hc => hcomplete (hlen hc)⟩
  refine ⟨⟨fun r hr => ?_, h.bodies, fun j => ?_, fun j => ?_, fun j w' cr' hj hw' hcr' => ?_⟩,
    fun stored hstored => (hkeeps stored hstored).2⟩
  · rw [hnew] at hr
    obtain rfl := Option.some.inj hr
    exact hholds
  · rcases eq_or_ne j i with rfl | hne
    · rw [Function.update_self]
      exact h.finds j
    · rw [Function.update_of_ne hne]
      exact h.finds j
  · rcases eq_or_ne j i with rfl | hne
    · rw [Function.update_self]
      exact h.given j
    · rw [Function.update_of_ne hne]
      exact h.given j
  · refine ⟨record, hnew, ?_⟩
    rcases eq_or_ne j i with rfl | hne
    · rw [Function.update_self] at hw'
      obtain rfl : w = w' := Option.some.inj (hw.symm.trans hw')
      obtain rfl : cr = cr' := Option.some.inj (hcr.symm.trans hcr')
      exact hown
    · rw [Function.update_of_ne hne] at hj hw'
      obtain ⟨r, hr, hsub'⟩ := h.kept j w' cr' hj hw' hcr'
      exact hsub'.trans (hkeeps r hr).1

/-- **An entry is taken out**, which is not the one under the key. -/
theorem removeEntry {k : String} (h : Folded P ops key R B (s, finds) t)
    (hok : k = key → s.index.entries.lookup key = none) :
    Folded P ops key R B ({ s with index := (s.index.removeEntry k).2 }, finds) t := by
  refine h.index ?_
  rcases eq_or_ne k key with rfl | hne
  · rw [hok rfl, Index.lookup_removeEntry]
  · exact Index.lookup_removeEntry_of_ne hne

/-- **A call to the file system.** -/
theorem file {β : Type} {a : FileAct β} (h : Folded P ops key R B (s, finds) t)
    (hmay : (t i).may P key R B (.file a)) :
    Fold.sees P R B (.file a) (.ok (a.run s.files).1) ∧
      Folded P ops key R B ({ s with files := (a.run s.files).2 }, finds) t := by
  cases a with
  | «exists» id => exact ⟨trivial, h⟩
  | list => exact ⟨trivial, h⟩
  | read id =>
    exact ⟨fun raw bytes hraw => h.bodies id raw bytes (Except.ok.inj hraw), h⟩
  | write id raw =>
    refine ⟨trivial, h.holds, fun id' raw' bytes hraw hdecode => ?_, h.finds, h.given, h.kept⟩
    rcases eq_or_ne id' id with rfl | hne
    · have hlookup : (s.files.insert id' raw).lookup id' = some raw := AList.lookup_insert _
      obtain rfl : raw = raw' := Option.some.inj (hlookup.symm.trans hraw)
      exact hmay bytes hdecode
    · have hlookup : (s.files.insert id raw).lookup id' = s.files.lookup id' :=
        AList.lookup_insert_ne hne
      exact h.bodies id' raw' bytes (hlookup.symm.trans hraw) hdecode
  | remove id =>
    refine ⟨trivial, h.holds, fun id' raw' bytes hraw hdecode => ?_, h.finds, h.given, h.kept⟩
    rcases eq_or_ne id' id with rfl | hne
    · have hlookup := AList.lookup_erase id' s.files
      exact absurd (hlookup.symm.trans hraw) (by simp)
    · exact h.bodies id' raw' bytes ((AList.lookup_erase_ne hne).symm.trans hraw) hdecode

/-- **A transaction.** -/
theorem transact {β : Type} {a : IndexAct β} {r : β} {ix : Index}
    (h : Folded P ops key R B (s, finds) t) (hmay : (t i).may P key R B (.index a))
    (hok : undisturbing P ops key i (.index a) (s, finds) = true) (hrun : a.run s.index = .ok (r, ix)) :
    Fold.sees P R B (.index a) (.ok r) ∧
      Folded P ops key R B
        ({ s with index := ix }, noteFound i (.index a) s (.ok r) { s with index := ix } finds)
        (Function.update t i ((t i).next (.index a) (.ok r))) := by
  cases a with
  | getEntry k =>
    obtain ⟨rfl, rfl⟩ := Prod.mk.inj (Except.ok.inj hrun)
    obtain rfl : k = key := hmay
    exact ⟨fun record hrecord => h.holds record (Except.ok.inj hrecord), h.found⟩
  | putEntry record newBlobs => exact ⟨trivial, (h.put hmay hok hrun).1⟩
  | removeEntry k =>
    obtain rfl := (Prod.mk.inj (Except.ok.inj hrun)).2
    exact ⟨trivial, (h.removeEntry (absent_of_undisturbing hok)).same⟩
  | refreshEntry record => exact hmay.elim
  | invalidate partition method url => exact hmay.elim
  | dropBrokenEntry k expected => exact hmay.elim
  | dropEntryHolding k expected => exact hmay.elim
  | recordAccess k now tally => exact hmay.elim
  | clear => exact hmay.elim
  | _ => exact ⟨trivial, (h.index (congrArg (AList.lookup key) (IndexAct.run_entries id hrun))).same⟩

/-- **A complete entry stays complete.** -/
theorem complete_step {β : Type} {a : CacheAct β} {b : β} {w : Weather} {s' : Store}
    {r : EntryRecord} (h : Folded P ops key R B (s, finds) t) (hmay : (t i).may P key R B a)
    (hok : undisturbing P ops key i a (s, finds) = true) (hperform : Store.perform w i a s = some (b, s'))
    (hr : s.index.entries.lookup key = some r) (hcomplete : r.body.isComplete = true) :
    ∃ r', s'.index.entries.lookup key = some r' ∧ r'.body.isComplete = true := by
  cases a with
  | now =>
    obtain ⟨-, rfl⟩ := Store.perform_now.mp hperform
    exact ⟨r, hr, hcomplete⟩
  | gate a =>
    obtain ⟨gate, -, rfl⟩ := Store.perform_gate.mp hperform
    exact ⟨r, hr, hcomplete⟩
  | file a =>
    rcases Store.perform_file.mp hperform with ⟨message, -, rfl, rfl⟩ | ⟨-, rfl, rfl⟩
    · exact ⟨r, hr, hcomplete⟩
    · exact ⟨r, hr, hcomplete⟩
  | index a =>
    rcases Store.perform_index.mp hperform with
      ⟨message, -, rfl, rfl⟩ | ⟨-, r', ix, hrun, rfl, rfl⟩ | ⟨-, e, -, rfl, rfl⟩
    · exact ⟨r, hr, hcomplete⟩
    · cases a with
      | putEntry record newBlobs =>
        have hkey : record.key = key := hmay.1
        refine ⟨record, ?_, (h.put hmay hok hrun).2 r hr hcomplete⟩
        change ix.entries.lookup key = some record
        rw [(Index.putEntry_eq hrun).2, hkey, AList.lookup_insert]
      | removeEntry k =>
        obtain rfl := (Prod.mk.inj (Except.ok.inj hrun)).2
        refine ⟨r, ?_, hcomplete⟩
        rcases eq_or_ne k key with rfl | hne
        · exact absurd ((absent_of_undisturbing hok rfl).symm.trans hr) (by simp)
        · exact (Index.lookup_removeEntry_of_ne hne).trans hr
      | refreshEntry record => exact hmay.elim
      | invalidate partition method url => exact hmay.elim
      | dropBrokenEntry k expected => exact hmay.elim
      | dropEntryHolding k expected => exact hmay.elim
      | recordAccess k now tally => exact hmay.elim
      | clear => exact hmay.elim
      | _ => exact ⟨r, (congrArg (AList.lookup key) (IndexAct.run_entries id hrun)).trans hr, hcomplete⟩
    · exact ⟨r, hr, hcomplete⟩

end Folded

/-- **The discipline governs the runs.** -/
theorem governs_folded {Q : ℕ → Outcome → Fold → Prop} :
    Governs (rangeRuns P ops key) (foldDiscipline P key R B) (Folded P ops key R B) Q where
  child := fun _ _ _ _ _ _ hchild => absurd hchild (by simp [rangeRuns, System.when,
    System.recording, cacheSystem, System.ofPerform])
  step := by
    rintro i n β a ⟨s, finds⟩ b ⟨s', finds'⟩ t - h hmay ⟨hok, ⟨w, -, hperform⟩, hnote⟩
    obtain rfl : finds' = noteFound i a s b s' finds := hnote
    have hchild : ((rangeRuns P ops key).child a).isSome = false := rfl
    rw [hchild, Discipline.advance_false]
    change Store.perform w i a s = some (b, s') at hperform
    cases a with
    | now =>
      obtain ⟨-, rfl⟩ := Store.perform_now.mp hperform
      exact ⟨trivial, h.same⟩
    | gate a =>
      obtain ⟨gate, -, rfl⟩ := Store.perform_gate.mp hperform
      exact ⟨trivial, Folded.same ⟨h.holds, h.bodies, h.finds, h.given, h.kept⟩⟩
    | file a =>
      rcases Store.perform_file.mp hperform with ⟨message, -, rfl, rfl⟩ | ⟨-, rfl, rfl⟩
      · refine ⟨?_, h.same⟩
        cases a with
        | read id => exact fun raw bytes hraw => absurd hraw (by simp)
        | _ => trivial
      · exact ⟨(h.file hmay).1, (h.file hmay).2.same⟩
    | index a =>
      rcases Store.perform_index.mp hperform with
        ⟨message, -, rfl, rfl⟩ | ⟨-, r, ix, hrun, rfl, rfl⟩ | ⟨-, e, -, rfl, rfl⟩
      · refine ⟨Fold.sees_error P R B, ?_⟩
        rw [noteFound_error]
        change Folded P ops key R B _ (Function.update t i ((t i).next _ _))
        rw [Fold.next_error]
        exact h.same
      · exact h.transact hmay hok hrun
      · refine ⟨Fold.sees_error P R B, ?_⟩
        rw [noteFound_error]
        change Folded P ops key R B _ (Function.update t i ((t i).next _ _))
        rw [Fold.next_error]
        exact h.same

/-! ### A range store keeps to the discipline -/

namespace Fold

variable {T : Fold → Prop} {u : Fold} {w : Storing} {opts : CacheOptions}

/-- No failure is excluded. -/
abbrev AnyError (_ : CacheError) : Prop := True

theorem quiet_of_evicts {β : Type} {a : CacheAct β} (ha : a.Evicts) (hu : T u) :
    (foldDiscipline P key R B).may u a ∧
      ∀ b, (foldDiscipline P key R B).sees u a b → T ((foldDiscipline P key R B).next u a b) := by
  cases a with
  | index a => cases a <;> first | exact ha.elim | exact ⟨trivial, fun _ _ => hu⟩
  | file a => cases a <;> first | exact ha.elim | exact ⟨trivial, fun _ _ => hu⟩
  | gate a => exact ⟨trivial, fun _ _ => hu⟩
  | now => exact ha.elim

theorem stays_deleteOrphans {ids : List ContentId} :
    Stays (foldDiscipline P key R B) T (deleteOrphans ids) :=
  stays_of_asks asks_deleteOrphans fun _ _ ha hu => quiet_of_evicts ha.evicts hu

theorem stays_enforceBudget : Stays (foldDiscipline P key R B) T (enforceBudget P opts) :=
  stays_of_asks asks_enforceBudget fun _ _ ha hu => quiet_of_evicts ha hu

theorem obeys_holdingShared {α : Type} {x : CacheM α} {Q : Except CacheError α → Fold → Prop}
    (hx : x.run.Obeys (foldDiscipline P key R B) Q u) :
    (holdingShared x).run.Obeys (foldDiscipline P key R B) Q u := by
  rw [holdingShared]
  refine obeys_run_bind.mpr ⟨trivial, fun _ _ => obeys_run_bind.mpr ?_⟩
  rw [attempt, ExceptT.run_lift, map_eq_pure_bind, obeys_bind]
  exact hx.mono fun r u hu => obeys_run_bind.mpr ⟨trivial, fun _ _ => hu⟩

theorem stays_bump {name : String} {n : ℕ} :
    Stays (foldDiscipline P key R B) T (ask (.bump name n)) := fun _ hu => ⟨trivial, fun _ _ => hu⟩

theorem stays_indexSri {digests : List (Bytes × ContentId)} :
    Stays (foldDiscipline P key R B) T (ask (.indexSri digests)) :=
  fun _ hu => ⟨trivial, fun _ _ => hu⟩

theorem stays_countDeduped {receipt : WriteReceipt} :
    Stays (foldDiscipline P key R B) T (countDeduped receipt) := by
  rw [countDeduped]
  split
  · exact stays_pure
  · exact stays_bump

theorem stays_rejected {reason : String} :
    Stays (foldDiscipline P key R B) T (rejected reason) := stays_bump.bind fun _ => stays_pure

variable (hB : Set.InjOn P.blake3 B) (hR : ∀ a b, slice R a b ∈ B)
include hB hR

/-- **A run of `R` reads back as itself**: no other body of `B` has its address. -/
theorem obeys_get {a b : ℕ} (hu : T u) :
    (get P (P.blake3 (slice R a b))).run.Obeys (foldDiscipline P key R B)
      (Ends T AnyError (· = slice R a b)) u := by
  rw [get]
  refine obeys_run_bind.mpr ⟨trivial, fun file hfile => ?_⟩
  rcases file with e | (_ | raw)
  · exact ⟨hu, trivial⟩
  · exact ⟨hu, trivial⟩
  · refine obeys_run_bind.mpr ?_
    rcases hdecode : decodeFile P raw with e | (_ | bytes)
    · exact ⟨hu, trivial⟩
    · exact ⟨hu, trivial⟩
    · have hmem : bytes ∈ B := hfile raw bytes rfl hdecode
      change (if P.blake3 bytes = _ then _ else _ : CacheM Bytes).run.Obeys _ _ _
      split
      · rename_i hname
        exact ⟨hu, hB hmem (hR a b) hname⟩
      · exact obeys_run_bind.mpr ⟨trivial, fun _ _ => ⟨hu, trivial⟩⟩

omit hB in
/-- A run of `R` is stored under its own address. -/
theorem obeys_put (hP : P.Lossless) {a b : ℕ} (hu : T u) :
    (put P (slice R a b)).run.Obeys (foldDiscipline P key R B)
      (Ends T AnyError fun receipt =>
        receipt.id = P.blake3 (slice R a b) ∧ receipt.len = (slice R a b).length) u := by
  have hwrite : ∀ rest : CacheM WriteReceipt, rest = (do
      onFile (.write (P.blake3 (slice R a b))
        (compressionTag (encodeBody P (slice R a b)).2 :: (encodeBody P (slice R a b)).1))
      pure ⟨P.blake3 (slice R a b), (slice R a b).length,
        (encodeBody P (slice R a b)).1.length + 1, (encodeBody P (slice R a b)).2, true⟩) →
      rest.run.Obeys (foldDiscipline P key R B)
        (Ends T AnyError fun receipt =>
          receipt.id = P.blake3 (slice R a b) ∧ receipt.len = (slice R a b).length) u := by
    rintro rest rfl
    refine obeys_run_bind.mpr ⟨fun bytes hbytes => ?_, fun r _ => ?_⟩
    · have hdecode := decodeFile_blobFile P hP (slice R a b)
      obtain rfl : slice R a b = bytes :=
        Option.some.inj (Except.ok.inj (hdecode.symm.trans hbytes))
      exact hR a b
    · rcases r with e | _
      · exact ⟨hu, trivial⟩
      · exact ⟨hu, rfl, rfl⟩
  rw [put]
  refine obeys_run_bind.mpr ⟨trivial, fun there _ => ?_⟩
  rcases there with e | (_ | _)
  · exact hwrite _ rfl
  · exact hwrite _ rfl
  · refine obeys_run_bind.mpr ⟨trivial, fun file _ => ?_⟩
    rcases file with e | (_ | raw)
    · exact ⟨hu, trivial⟩
    · exact ⟨hu, trivial⟩
    · refine obeys_run_bind.mpr ⟨trivial, fun file _ => ?_⟩
      rcases file with e | file
      · exact ⟨hu, trivial⟩
      · refine obeys_run_bind.mpr ?_
        rcases readCompression file with e | compression
        · exact ⟨hu, trivial⟩
        · exact ⟨hu, rfl, rfl⟩

omit hB in
/-- The missing parts of a range are stored as segments of `R`. -/
theorem obeys_putSlices (hP : P.Lossless) {start stop now : ℕ} {gaps : List (ℕ × ℕ)}
    (hgaps : ∀ gap ∈ gaps, start ≤ gap.1 ∧ gap.2 ≤ stop) (hu : T u) :
    (putSlices P (slice R start stop) start now gaps).run.Obeys (foldDiscipline P key R B)
      (Ends T AnyError fun added => added.1 = addedSegments P R gaps) u := by
  induction gaps generalizing u with
  | nil => exact ⟨hu, rfl⟩
  | cons gap rest ih =>
    obtain ⟨first, last⟩ := gap
    obtain ⟨hfirst, hlast⟩ := hgaps _ List.mem_cons_self
    have hpart : ((slice R start stop).take (last - start)).drop (first - start) =
        slice R first last := slice_slice hfirst hlast
    rw [putSlices, hpart]
    refine obeys_bind_ends (obeys_put hR hP hu) fun receipt u hreceipt hu => ?_
    refine obeys_bind_ends (G := fun _ => True) ((stays_countDeduped u hu).mono fun r u hu => ?_)
      fun _ u _ hu => ?_
    · rcases r with e | _ <;> exact ⟨hu, trivial⟩
    · refine obeys_bind_ends (ih (fun gap hgap => hgaps gap (List.mem_cons_of_mem _ hgap)) hu)
        fun added u hadded hu => ⟨hu, ?_⟩
      simp only [addedSegments, List.map_cons, hreceipt.1, hadded]

/-- **A record whose runs have met becomes that of the whole body.** -/
theorem obeys_completeRecord (hP : P.Lossless) {record : EntryRecord} {completeLen : Option ℕ}
    {segments : List Segment} {newBlobs : List (ContentId × BlobRecord)} {now : ℕ}
    (hbody : record.body = .Partial completeLen segments) (hholds : record.body.Holds P R)
    (hu : T u) :
    (completeRecord P record newBlobs now).run.Obeys (foldDiscipline P key R B)
      (Ends T AnyError fun done => done.1.key = record.key ∧ done.1.body.Holds P R ∧
        record.body.points ⊆ done.1.body.points ∧
        ((completeLen.any fun n => record.body.coverage.covers 0 n) = true →
          done.1.body.isComplete = true)) u := by
  have hlen : record.body.completeLen = completeLen := by rw [hbody]; rfl
  rw [completeRecord, hlen]
  rcases completeLen with _ | total
  · exact ⟨hu, rfl, hholds, le_rfl, by simp⟩
  · simp only
    split
    · have htotal : total = R.length := by
        rw [hbody] at hholds
        exact hholds.1 total rfl
      subst htotal
      refine obeys_bind_ends (obeys_readSpan hholds.of (fun run _ t ht => obeys_get hB hR ht)
        (Nat.zero_le _) le_rfl hu (Or.inr fun _ => trivial)) fun whole u hwhole hu => ?_
      subst hwhole
      refine obeys_bind_ends (obeys_put hR hP hu) fun receipt u hreceipt hu => ?_
      refine obeys_bind_ends (G := fun _ => True) ((stays_indexSri u hu).mono fun r u hu => ?_)
        fun _ u _ hu => ?_
      · rcases r with e | _ <;> exact ⟨hu, trivial⟩
      · have hcontent : receipt.id = P.blake3 R := by rw [hreceipt.1, slice_all]
        have hlength : receipt.len = R.length := by rw [hreceipt.2, slice_all]
        refine ⟨hu, rfl, ⟨hcontent, hlength⟩, ?_, fun _ => rfl⟩
        change record.body.points ⊆ Set.Ico 0 receipt.len
        rw [hlength]
        exact hholds.points_subset
    · rename_i hcovers
      exact ⟨hu, rfl, hholds, le_rfl, fun h => absurd h hcovers⟩

variable {cr : ContentRange} {found : Option EntryRecord}

omit hB hR in
/-- What is kept of an entry that is not complete. -/
theorem segmentsOf_kept (hfound : ∀ r, found = some r → r.body.Holds P R)
    (hpart : ((w.kept P found).any fun r => r.body.isComplete) = false) :
    SegmentsOf P R (segmentsOf (w.kept P found)) ∧
      ∀ n, ((w.kept P found).bind fun r => r.body.completeLen) = some n → n = R.length := by
  rcases hkept : w.kept P found with _ | r
  · exact ⟨⟨fun seg hseg => absurd hseg List.not_mem_nil, List.Pairwise.nil⟩, by simp⟩
  · have hr := hfound r (Option.filter_eq_some_iff.mp hkept).1
    rw [hkept] at hpart
    rcases hbody : r.body with ⟨content, len⟩ | ⟨completeLen, segments⟩
    · simp [hbody, StoredBody.isComplete] at hpart
    · rw [hbody] at hr
      refine ⟨?_, fun n hn => hr.1 n ?_⟩
      · simp only [segmentsOf, hbody]
        exact hr.2
      · simpa [hbody, StoredBody.completeLen] using hn

/-- **The write of a range store**: what it assembled, under its key. -/
theorem obeys_writePartial (hP : P.Lossless) (hlen : R.length < u64Bound)
    (hkey : entryKey w.partition "GET" (normalizeUrl P w.url) (w.vkey P) = key)
    (hcr : w.contentRange = some cr) (horder : cr.first ≤ cr.last) (hlast : cr.last < R.length)
    (htotal : ∀ n, cr.completeLen = some n → n = R.length)
    (hfound : ∀ r, found = some r → r.body.Holds P R)
    (hpart : ((w.kept P found).any fun r => r.body.isComplete) = false) :
    (writePartial P w (slice R cr.first (cr.last + 1)) cr (w.kept P found)).run.Obeys
      (foldDiscipline P key R B)
      (fun r u => u = ⟨some w, some found, true⟩ ∨
        (u = ⟨some w, some found, false⟩ ∧ ∃ e, r = .error e)) ⟨some w, some found, false⟩ := by
  obtain ⟨hsegments, hknown⟩ := segmentsOf_kept hfound hpart
  have hwrap : wrap (cr.last + 1) = cr.last + 1 := wrap_of_lt (by omega)
  have hhalf : cr.halfOpen = (cr.first, cr.last + 1) := by rw [ContentRange.halfOpen, hwrap]
  have hproper : Proper ((segmentsOf (w.kept P found)).map Segment.run ++ [cr.halfOpen]) := by
    intro p hp
    rcases List.mem_append.mp hp with hp | hp
    · exact hsegments.proper p hp
    · obtain rfl := List.mem_singleton.mp hp
      rw [hhalf]
      exact Nat.lt_succ_of_le horder
  have hassembled : Intervals.points (w.assembled P found cr).intervals =
      Intervals.points ((segmentsOf (w.kept P found)).map Segment.run) ∪
        Set.Ico cr.first (cr.last + 1) := by
    rw [Storing.assembled, Coverage.points_fromSorted, points_append, hhalf, points_cons, points_nil,
      Set.union_empty]
  have hapart := (Coverage.apart_fromSorted hproper).2
  refine obeys_holdingShared (obeys_run_bind.mpr ⟨trivial, fun now _ => obeys_run_bind.mpr ?_⟩)
  rw [hwrap]
  refine Prog.Obeys.mono (obeys_putSlices (T := (· = ⟨some w, some found, false⟩)) hR hP
    (fun gap hgap => ?_) rfl) fun r u hu => ?_
  · obtain ⟨hfirst, -, hstop⟩ := Coverage.bounds_missing gap hgap
    exact ⟨hfirst, hstop⟩
  rcases r with e | ⟨added, newBlobs⟩
  · exact Or.inr ⟨hu.1, e, rfl⟩
  · obtain ⟨rfl, rfl⟩ := hu
    -- the record, before it is known whether it is complete
    have hfolded : SegmentsOf P R
        (foldedSegments P R (segmentsOf (w.kept P found)) cr.first (cr.last + 1)) :=
      foldedSegments_of hsegments hlast
    have hpoints : Intervals.points
        ((foldedSegments P R (segmentsOf (w.kept P found)) cr.first (cr.last + 1)).map
          Segment.run) =
        Intervals.points ((segmentsOf (w.kept P found)).map Segment.run) ∪
          Set.Ico cr.first (cr.last + 1) := points_foldedSegments hsegments
    have hholds : (w.partialRecord P (w.kept P found) (w.knownLen P found cr)
        (foldedSegments P R (segmentsOf (w.kept P found)) cr.first (cr.last + 1)) now).body.Holds
        P R := by
      refine ⟨fun n hn => ?_, hfolded⟩
      rw [Storing.knownLen] at hn
      rcases hown : cr.completeLen with _ | m
      · rw [hown] at hn
        exact hknown n hn
      · rw [hown] at hn
        obtain rfl : m = n := Option.some.inj hn
        exact htotal m hown
    refine obeys_run_bind.mpr
      (Prog.Obeys.mono (obeys_completeRecord (T := (· = ⟨some w, some found, false⟩)) hB hR hP rfl
        hholds rfl) fun r u hu => ?_)
    rcases r with e | ⟨record, newBlobs, completed⟩
    · exact Or.inr ⟨hu.1, e, rfl⟩
    · obtain ⟨rfl, hname, hrecord, hsub, hcomplete⟩ := hu
      refine obeys_run_bind.mpr ⟨⟨hname.trans hkey, hrecord, w, found, cr, rfl, rfl, hcr, hapart, ?_,
        ?_, fun h => hcomplete ?_⟩, fun r _ => ?_⟩
      · rw [hassembled, ← hpoints]
        exact hsub
      · rw [hhalf]
        exact fun x hx => hsub (hpoints.ge (Or.inr hx))
      · obtain ⟨n, hn, hcovers⟩ := (Option.any_eq_true _ _).mp h
        refine (Option.any_eq_true _ _).mpr ⟨n, hn, hfolded.covers_iff.mpr ?_⟩
        rw [hpoints, ← hassembled]
        exact (Coverage.covers_iff hapart).mp hcovers
      · rcases r with e | orphaned
        · exact Or.inr ⟨rfl, e, rfl⟩
        · exact Or.inl rfl

/-- A store that reports its range stored has written. -/
abbrev Reported (r : Except CacheError StoreOutcome) (u : Fold) : Prop :=
  ∀ outcome, r = .ok outcome → outcome.isStored = true → u.stored = true

omit hB hR in
theorem reported_notStored {reason : String} : Reported (.ok (.notStored reason)) u := by
  rintro outcome h
  obtain rfl := Except.ok.inj h
  exact fun hstored => absurd hstored Bool.false_ne_true

omit hB hR in
theorem obeys_rejected {reason : String} :
    (rejected reason).run.Obeys (foldDiscipline P key R B) Reported u := by
  refine obeys_run_bind.mpr ⟨trivial, fun r _ => ?_⟩
  rcases r with e | _
  · exact fun outcome h => absurd h (by simp)
  · exact reported_notStored

theorem obeys_extendRange (hP : P.Lossless) (hlen : R.length < u64Bound)
    (hkey : entryKey w.partition "GET" (normalizeUrl P w.url) (w.vkey P) = key)
    (hcr : w.contentRange = some cr) (horder : cr.first ≤ cr.last) (hlast : cr.last < R.length)
    (htotal : ∀ n, cr.completeLen = some n → n = R.length)
    (hfound : ∀ r, found = some r → r.body.Holds P R) :
    (extendRange P opts w (slice R cr.first (cr.last + 1)) cr (w.kept P found)).run.Obeys
      (foldDiscipline P key R B) Reported ⟨some w, some found, false⟩ := by
  rw [extendRange]
  split
  · exact reported_notStored
  · rename_i hpart
    refine obeys_run_bind.mpr (Prog.Obeys.mono (obeys_writePartial hB hR hP hlen hkey hcr horder
      hlast htotal hfound (by simpa using hpart)) fun r u hu => ?_)
    rcases r with e | ⟨record, completed, orphaned⟩
    · exact fun outcome h => absurd h (by simp)
    · obtain rfl : u = ⟨some w, some found, true⟩ := by simpa using hu
      -- what is left changes nothing of what has been written
      have hrest : ∀ {α : Type} {x : CacheM α}, Stays (foldDiscipline P key R B)
          (· = ⟨some w, some found, true⟩) x → x.run.Obeys (foldDiscipline P key R B)
            (fun _ u => u.stored = true) ⟨some w, some found, true⟩ :=
        fun hx => (hx _ rfl).mono fun _ u hu => hu ▸ rfl
      refine Prog.Obeys.mono (hrest ?_) fun r u hu _ _ _ => hu
      refine stays_deleteOrphans.bind fun _ => stays_bump.bind fun _ => ?_
      rcases completed with _ | content
      · exact stays_bump.bind fun _ => stays_enforceBudget.bind fun _ => stays_pure
      · exact stays_enforceBudget.bind fun _ => stays_pure

omit hB hR in
/-- **The fold of one range**, with what is stored, or in its place. -/
theorem obeys_foldRange {body : Bytes} {k : String}
    (hextend : (extendRange P opts w body cr (w.kept P found)).run.Obeys
      (foldDiscipline P key R B) Reported ⟨some w, some found, false⟩) :
    (foldRange P opts w body cr k found).run.Obeys (foldDiscipline P key R B) Reported
      ⟨some w, some found, false⟩ := by
  rcases found with _ | r
  · exact hextend
  · rw [foldRange]
    rw [Storing.kept, Option.filter_some] at hextend
    split
    · rename_i hsame
      rw [if_pos hsame] at hextend
      exact hextend
    · rename_i hdiffers
      rw [if_neg hdiffers] at hextend
      refine obeys_run_bind.mpr ⟨trivial, fun r' _ => ?_⟩
      rcases r' with e | orphaned
      · exact fun outcome h => absurd h (by simp)
      · refine obeys_run_bind.mpr (Prog.Obeys.mono (stays_deleteOrphans _ rfl) fun r' u hu => ?_)
        rcases r' with e | _
        · exact fun outcome h => absurd h (by simp)
        · exact hu ▸ hextend

theorem obeys_storePartial (hP : P.Lossless) (hlen : R.length < u64Bound) {body : Bytes}
    (hop : (Op.store w body).IsRangeOf P key R) :
    (storePartial P opts w body).run.Obeys (foldDiscipline P key R B) Reported
      ⟨some w, none, false⟩ := by
  obtain ⟨-, hkey, hrange⟩ := hop
  rw [storePartial]
  split
  · exact obeys_rejected
  · split
    · exact obeys_rejected
    · split
      · exact obeys_rejected
      · rename_i cr hcr
        split
        · exact obeys_rejected
        · obtain ⟨hlast, rfl, htotal⟩ := hrange cr hcr
          obtain ⟨value, -, hvalue⟩ := Option.bind_eq_some_iff.mp hcr
          have horder := (parseContentRange_bounds hvalue).1
          refine obeys_run_bind.mpr ⟨hkey, fun found hfound => ?_⟩
          rcases found with e | found
          · exact fun outcome h => absurd h (by simp)
          · exact obeys_foldRange (obeys_extendRange hB hR hP hlen hkey hcr horder hlast htotal
              fun r hr => hfound r (congrArg Except.ok hr))

/-- **A range store keeps to the discipline.** -/
theorem obeys_store (hP : P.Lossless) (hlen : R.length < u64Bound) {body : Bytes}
    (hop : (Op.store w body).IsRangeOf P key R) :
    (storeWithProvenance P opts w body).run.Obeys (foldDiscipline P key R B) Reported
      ⟨some w, none, false⟩ := by
  have hpartial : (storePartial P opts w body).run.Obeys (foldDiscipline P key R B) Reported
      ⟨some w, none, false⟩ := obeys_storePartial hB hR hP hlen hop
  refine obeys_run_bind.mpr ⟨trivial, fun r _ => ?_⟩
  rcases r with e | _
  · exact fun outcome h => absurd h (by simp)
  · rcases storability P w.method w.requestHeaders w.metadata body.length opts with _ | reason
    · change (ite (w.status = 206) (storePartial P opts w body) _ : CacheM _).run.Obeys _ _ _
      rw [if_pos hop.1]
      exact hpartial
    · exact obeys_rejected

end Fold

/-! ### Every run -/

/-- **No range is lost**: in every run of range stores none of which disturbs
another, the entry covers every range that was reported stored, and a complete
entry stays complete. -/
theorem ranges_kept_of_runs (P : Platform) (hP : P.Lossless) (opts : CacheOptions) (R : Bytes)
    (hlen : R.length < u64Bound) (B : Set Bytes) (hB : Set.InjOn P.blake3 B)
    (hR : ∀ a b, slice R a b ∈ B) (key : String) (ops : List Op)
    (hops : ∀ op ∈ ops, op.IsRangeOf P key R) (s : Store)
    (hs : ∀ r, s.index.entries.lookup key = some r → r.body.Holds P R)
    (hfiles : ∀ id raw bytes, s.files.lookup id = some raw →
      decodeFile P raw = .ok (some bytes) → bytes ∈ B)
    (c : Config CacheAct (Store × Finds) Outcome)
    (hrun : (rangeRuns P ops key).Runs ⟨(s, fun _ => none), (running P opts s ops).pool⟩ c) :
    (∀ (i : ℕ) (w : Storing) (body : Bytes) (outcome : StoreOutcome) (cr : ContentRange),
      ops[i]? = some (.store w body) → c.result i = some (.ok (.outcome outcome)) →
      outcome.isStored = true → w.contentRange = some cr →
      ∃ r, c.shared.1.index.entries.lookup key = some r ∧
        Set.Icc cr.first cr.last ⊆ r.body.points) ∧
    ∀ c', (rangeRuns P ops key).Step c c' → ∀ r, c.shared.1.index.entries.lookup key = some r →
      r.body.isComplete = true →
      ∃ r', c'.shared.1.index.entries.lookup key = some r' ∧ r'.body.isComplete = true := by
  have hkept : Kept (foldDiscipline P key R B) (Folded P ops key R B)
      (fun _ r u => ∀ outcome, r = .ok (.outcome outcome) → outcome.isStored = true →
        u.stored = true)
      ⟨(s, fun _ => none), (running P opts s ops).pool⟩ := by
    refine ⟨fun i => ⟨ops[i]?.bind Op.given, none, false⟩, ⟨hs, hfiles, fun _ => rfl, fun _ => rfl,
      fun i w cr h => absurd h Bool.false_ne_true⟩, fun i p hp => ?_⟩
    obtain ⟨op, hop, rfl⟩ : ∃ op, ops[i]? = some op ∧ op.program P opts = p := by
      simpa [running] using hp
    have hrange := hops op (List.mem_of_getElem? hop)
    cases op with
    | store w body =>
      simp only [hop, Option.bind_some, Op.given]
      refine obeys_run_bind.mpr ((Fold.obeys_store hB hR hP hlen hrange).mono fun r u hu => ?_)
      rcases r with e | outcome
      · exact fun _ h => absurd h (by simp)
      · rintro outcome' h
        obtain rfl : outcome = outcome' := by simpa using h
        exact hu outcome rfl
    | _ => exact hrange.elim
  obtain ⟨t, hfolded, hobeys⟩ := hkept.runs governs_folded hrun
  refine ⟨fun i w body outcome cr hop hi hstored hcr => ?_, fun c' hstep r hr hcomplete => ?_⟩
  · have hwritten := hobeys i _ (Config.result_eq_some.mp hi) outcome rfl hstored
    obtain ⟨r, hr, hsub⟩ := hfolded.kept i w cr hwritten (by rw [hfolded.given i, hop]; rfl) hcr
    refine ⟨r, hr, fun x hx => hsub ?_⟩
    have hlast := ((hops _ (List.mem_of_getElem? hop)).2.2 cr hcr).1
    rw [ContentRange.halfOpen, wrap_of_lt (by omega)]
    exact ⟨hx.1, Nat.lt_succ_of_le hx.2⟩
  · obtain @⟨i, β, a, k, b, s', hi, hok, ⟨w, -, hperform⟩, -⟩ := hstep
    exact hfolded.complete_step (hobeys i _ hi).1 hok hperform hr hcomplete

/-- A schedule whose every step is undisturbing. -/
theorem exists_rangeRuns {P : Platform} {ops : List Op} {key : String}
    {c : Config CacheAct (Store × Finds) Outcome} {rest : List (Weather × ℕ)}
    {p : Config CacheAct (Store × Finds) Outcome → Bool}
    (h : (c.follow (allowing (fun i {_} a s => undisturbing P ops key i a s = true)
      (noting noteFound Store.perform)) (fun {_} _ => none) rest).any p = true) :
    ∃ c', (rangeRuns P ops key).Runs c c' ∧ p c' = true := by
  rw [rangeRuns, cacheRuns, cacheSystem, ← System.ofPerform_noting, ← System.ofPerform_allowing]
  exact Config.exists_runs_of_follow (fun _ _ => trivial) h

/-! ### Two ranges at once -/

/-- The first or the second byte of a body of two. -/
def rangeStore (first last : ℕ) : Storing where
  partition := none
  method := "GET"
  url := "http://a.test/x"
  requestHeaders := ∅
  status := 206
  responseHeaders := toHeaderMap [("etag", "\"1\""), ("cache-control", "max-age=60"),
    ("content-range", "bytes " ++ toString first ++ "-" ++ toString last ++ "/2")]
  requestTime := 10
  responseTime := 10
  provenance := .origin

/-- The two bytes, each a range of its own. -/
def rangeOps : List Op := [.store (rangeStore 0 0) [97], .store (rangeStore 1 1) [98]]

/-- The key both are stored under. -/
def rangeKey : String := entryKey none "GET" "http://a.test/x" ""

/-- Both stores have reported, and the entry holds just these runs, or all. -/
def rangesReported (runs : List (ℕ × ℕ)) (complete : Bool) (s : Store) (first second : Option Outcome) :
    Bool :=
  match first, second, s.index.entries.lookup rangeKey with
  | some (.ok (.outcome a)), some (.ok (.outcome b)), some r =>
    a.isStored && b.isStored && r.body.coverage.intervals = runs && r.body.isComplete = complete
  | _, _, _ => false

theorem rangesReported_iff {runs : List (ℕ × ℕ)} {complete : Bool} {s : Store}
    {first second : Option Outcome} : rangesReported runs complete s first second = true ↔
      ∃ a b r, first = some (.ok (.outcome a)) ∧ second = some (.ok (.outcome b)) ∧
        s.index.entries.lookup rangeKey = some r ∧ a.isStored = true ∧ b.isStored = true ∧
        r.body.coverage.intervals = runs ∧ r.body.isComplete = complete := by
  unfold rangesReported
  split
  · rename_i a b r hr
    simp [hr, and_assoc]
  · rename_i h
    refine ⟨fun hfalse => absurd hfalse Bool.false_ne_true, ?_⟩
    rintro ⟨a, b, r, rfl, rfl, hr, -⟩
    exact absurd hr (h a b r rfl rfl)

theorem rangeOps_isRangeOf :
    ∀ op ∈ rangeOps, op.IsRangeOf Platform.sample rangeKey [97, 98] := by
  have hfirst : (rangeStore 0 0).contentRange = some ⟨0, 0, some 2⟩ := by decide +kernel
  have hsecond : (rangeStore 1 1).contentRange = some ⟨1, 1, some 2⟩ := by decide +kernel
  intro op hop
  rcases List.mem_cons.mp hop with rfl | hop
  · refine ⟨rfl, by decide, fun cr hcr => ?_⟩
    obtain rfl := Option.some.inj (hfirst.symm.trans hcr)
    exact ⟨by decide, rfl, fun n hn => (Option.some.inj hn).symm⟩
  · obtain rfl := List.mem_singleton.mp hop
    refine ⟨rfl, by decide, fun cr hcr => ?_⟩
    obtain rfl := Option.some.inj (hsecond.symm.trans hcr)
    exact ⟨by decide, rfl, fun n hn => (Option.some.inj hn).symm⟩

/-- The runs of the two bytes. -/
def rangeBodies : Set Bytes := {[], [97], [98], [97, 98]}

theorem injOn_rangeBodies : Set.InjOn Platform.sample.blake3 rangeBodies := by
  rintro x (rfl | rfl | rfl | rfl) y (rfl | rfl | rfl | rfl) h <;>
    first | rfl | exact absurd h (by decide)

theorem slice_mem_rangeBodies (a b : ℕ) : slice [97, 98] a b ∈ rangeBodies := by
  rcases b with _ | _ | b <;> rcases a with _ | _ | a <;> simp [slice, rangeBodies]

/-- One store after the other: both ranges are there, and the entry is complete. -/
theorem ranges_kept_of_runs_in_turn :
    ∃ c, (rangeRuns Platform.sample rangeOps rangeKey).Runs
        ⟨(.empty, fun _ => none), (running Platform.sample .default .empty rangeOps).pool⟩ c ∧
      ∃ r, c.shared.1.index.entries.lookup rangeKey = some r ∧ r.body.isComplete = true ∧
        Set.Icc 1 1 ⊆ r.body.points := by
  let both : Config CacheAct (Store × Finds) Outcome → Bool := fun c =>
    rangesReported [(0, 2)] true c.shared.1 (c.result 0) (c.result 1)
  let start : Config CacheAct (Store × Finds) Outcome :=
    ⟨(.empty, fun _ => none), (running Platform.sample .default .empty rangeOps).pool⟩
  have hfollow : (start.follow (allowing (fun i {_} a s =>
      undisturbing Platform.sample rangeOps rangeKey i a s = true)
        (noting noteFound Store.perform)) (fun {_} _ => none)
      ((List.replicate 11 0 ++ List.replicate 19 1).map fun i => (⟨10, none⟩, i))).any both =
      true := by decide +kernel
  obtain ⟨c, hc, hboth⟩ := exists_rangeRuns hfollow
  obtain ⟨a, b, r, ha, hb, hr, hastored, hbstored, hruns, hcomplete⟩ := rangesReported_iff.mp hboth
  obtain ⟨hkept, -⟩ := ranges_kept_of_runs Platform.sample lossless_sample .default [97, 98]
    (by decide) rangeBodies injOn_rangeBodies slice_mem_rangeBodies rangeKey rangeOps
    rangeOps_isRangeOf .empty (fun r hr => absurd hr (by simp [Store.empty, Index.empty]))
    (fun id raw bytes hraw => absurd hraw (by simp [Store.empty])) c hc
  obtain ⟨r', hr', hsub⟩ := hkept 1 (rangeStore 1 1) [98] b ⟨1, 1, some 2⟩ rfl hb hbstored
    (by decide)
  obtain rfl := Option.some.inj (hr.symm.trans hr')
  exact ⟨c, hc, r, hr, hcomplete, hsub⟩

/-- **A range that was reported stored is not there**: both stores read before
either writes, and the entry is left with the second byte alone. -/
theorem range_lost_to_another :
    ∃ c, cacheRuns.Runs (running Platform.sample .default .empty rangeOps) c ∧
      ∃ a b r, c.result 0 = some (.ok (.outcome a)) ∧ c.result 1 = some (.ok (.outcome b)) ∧
        c.shared.index.entries.lookup rangeKey = some r ∧ a.isStored = true ∧
        b.isStored = true ∧ ¬Set.Icc 0 0 ⊆ r.body.points := by
  let lost : Config CacheAct Store Outcome → Bool := fun c =>
    rangesReported [(1, 2)] false c.shared (c.result 0) (c.result 1)
  have hfollow : ((running Platform.sample .default .empty rangeOps).follow Store.perform
      (fun {_} _ => none) (([0, 0, 1, 1] ++ List.replicate 9 0 ++ List.replicate 13 1).map
        fun i => (⟨10, none⟩, i))).any lost = true := by decide +kernel
  obtain ⟨c, hc, hlost⟩ := exists_cacheRuns hfollow
  obtain ⟨a, b, r, ha, hb, hr, hastored, hbstored, hruns, -⟩ := rangesReported_iff.mp hlost
  refine ⟨c, hc, a, b, r, ha, hb, hr, hastored, hbstored, fun hsub => ?_⟩
  have hmem := hsub (Set.left_mem_Icc.mpr le_rfl)
  rw [← StoredBody.points_coverage, hruns] at hmem
  simp at hmem

end Syndeo
