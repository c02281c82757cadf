import Syndeo.Cache.Footprint
import Syndeo.Cache.Refcount

/-!
# Counting requests and hits

A lookup counts one request, and at most one hit; a confirmation counts a hit, for
the request that was not counted as one when it was looked up. Nothing else counts
any of these, nor the bytes that are served: what the other operations ask for is
`Syndeo.CacheAct.Uncounted`.

The counters are of 64 bits and stay at the largest value once they have reached it,
so a counter is never more than what was counted (`Syndeo.counter_counted_le`), and
the same where there is room for it (`Syndeo.counter_counted`).
-/

namespace Syndeo

open Concurrent Tables
open Text (eqIgnoreAsciiCase u64Bound)
open Prog (Asks Settles Stays asks_run_bind)

/-! ### What a counter shows -/

/-- `Index::counter`. -/
def Index.counter (ix : Index) (name : String) : ℕ := (ix.counters.lookup name).getD 0

/-- What a tally counts for this counter. -/
def counted (tally : List (String × ℕ)) (name : String) : ℕ :=
  ((tally.filter fun p => p.1 = name).map Prod.snd).sum

/-- The counters after a tally. -/
abbrev countedInto (counters : Table String ℕ) (tally : List (String × ℕ)) : Table String ℕ :=
  tally.foldl (fun t by_ => Index.addCounter t by_.1 by_.2) counters

section Counters

variable {counters : Table String ℕ} {tally : List (String × ℕ)} {name other : String} {n : ℕ}
  {ix ix' : Index}

theorem addCounter_self : (Index.addCounter counters name n).lookup name =
    some (saturatingAdd ((counters.lookup name).getD 0) n) := AList.lookup_insert _

theorem addCounter_of_ne (h : name ≠ other) :
    (Index.addCounter counters other n).lookup name = counters.lookup name :=
  AList.lookup_insert_ne h

theorem counted_cons {p : String × ℕ} : counted (p :: tally) name =
    (if p.1 = name then p.2 else 0) + counted tally name := by
  rw [counted, List.filter_cons]
  by_cases h : p.1 = name
  · simp [h, counted]
  · simp [h, counted]

theorem countedInto_cons {p : String × ℕ} : countedInto counters (p :: tally) =
    countedInto (Index.addCounter counters p.1 p.2) tally := rfl

/-- **A counter never shows more than was counted.** -/
theorem counter_counted_le : ((countedInto counters tally).lookup name).getD 0 ≤
    (counters.lookup name).getD 0 + counted tally name := by
  induction tally generalizing counters with
  | nil => exact Nat.le_add_right _ _
  | cons p tally ih =>
    rw [counted_cons, countedInto_cons]
    refine ih.trans ?_
    by_cases h : p.1 = name
    · rw [h, addCounter_self, if_pos rfl, Option.getD_some, saturatingAdd]
      omega
    · rw [addCounter_of_ne (Ne.symm h), if_neg h]
      omega

/-- **Where there is room**, it shows what was counted. -/
theorem counter_counted (hroom : (counters.lookup name).getD 0 + counted tally name < u64Bound) :
    ((countedInto counters tally).lookup name).getD 0 =
      (counters.lookup name).getD 0 + counted tally name := by
  induction tally generalizing counters with
  | nil => rfl
  | cons p tally ih =>
    rw [counted_cons] at hroom ⊢
    rw [countedInto_cons]
    by_cases h : p.1 = name
    · rw [if_pos h] at hroom ⊢
      have hfirst : ((Index.addCounter counters p.1 p.2).lookup name).getD 0 =
          (counters.lookup name).getD 0 + p.2 := by
        rw [h, addCounter_self, Option.getD_some, saturatingAdd]
        omega
      exact (ih (by rw [hfirst]; omega)).trans (by rw [hfirst]; omega)
    · rw [if_neg h] at hroom ⊢
      have hfirst : (Index.addCounter counters p.1 p.2).lookup name = counters.lookup name :=
        addCounter_of_ne (Ne.symm h)
      exact (ih (by rw [hfirst]; omega)).trans (by rw [hfirst]; omega)

namespace Index

theorem counter_recordAccess_le {key : Option String} {now : ℕ} :
    (ix.recordAccess key now tally).counter name ≤ ix.counter name + counted tally name :=
  counter_counted_le

theorem counter_recordAccess {key : Option String} {now : ℕ}
    (hroom : ix.counter name + counted tally name < u64Bound) :
    (ix.recordAccess key now tally).counter name = ix.counter name + counted tally name :=
  counter_counted hroom

theorem counter_bump_le : (ix.bump name n).counter name ≤ ix.counter name + n := by
  rw [counter, bump, addCounter_self, Option.getD_some, saturatingAdd]
  exact min_le_left _ _

theorem counter_bump_of_ne (h : name ≠ other) : (ix.bump other n).counter name = ix.counter name := by
  rw [counter, bump, addCounter_of_ne h, counter]

end Index

/-- The transaction counts something. -/
def IndexAct.Counting : ∀ {β : Type}, IndexAct β → Prop
  | _, .recordAccess _ _ _ => True
  | _, .bump _ _ => True
  | _, _ => False

theorem Index.counters_removeEntry {key : String} :
    (ix.removeEntry key).2.counters = ix.counters := by
  rw [removeEntry]
  split <;> rfl

theorem Index.counters_removeVariants {pkey : String} {keys : List String} :
    (removeVariants pkey keys ix).2.counters = ix.counters := by
  induction keys generalizing ix with
  | nil => rfl
  | cons v keys ih =>
    rw [removeVariants]
    exact ih

theorem Index.counters_dropEntryIfUnchanged {key : String} {expected : EntryRecord} {revoke : Bool} :
    (ix.dropEntryIfUnchanged key expected revoke).2.counters = ix.counters := by
  rw [dropEntryIfUnchanged]
  split
  · simp only
    split
    · exact counters_removeEntry
    · exact counters_removeEntry
  · rfl

theorem Index.counters_forget {id : ContentId} :
    (ix.forgetBlobIfUnreferenced id).2.counters = ix.counters := by
  rw [forgetBlobIfUnreferenced]
  split
  · split <;> rfl
  · rfl

theorem Index.counters_grant {id : ContentId} {verified : List Bytes} :
    (ix.grantEligibility id verified).2.counters = ix.counters := by
  unfold grantEligibility
  split
  · rfl
  · simp only
    split <;> rfl

/-- The other transactions leave the counters as they are. -/
theorem IndexAct.run_counters {β : Type} {a : IndexAct β} {b : β} (ha : ¬a.Counting)
    (hrun : a.run ix = .ok (b, ix')) : ix'.counters = ix.counters := by
  cases a with
  | recordAccess key now tally => exact absurd trivial ha
  | bump name n => exact absurd trivial ha
  | putEntry record newBlobs =>
    obtain ⟨blobs, -, rfl⟩ := Index.putEntry_ok hrun
    rfl
  | invalidate partition method url =>
    obtain rfl := (Prod.mk.inj (Except.ok.inj hrun)).2
    exact Index.counters_removeVariants
  | removeEntry key =>
    obtain rfl := (Prod.mk.inj (Except.ok.inj hrun)).2
    exact Index.counters_removeEntry
  | dropBrokenEntry key expected =>
    obtain rfl := (Prod.mk.inj (Except.ok.inj hrun)).2
    exact Index.counters_dropEntryIfUnchanged
  | dropEntryHolding key expected =>
    obtain rfl := (Prod.mk.inj (Except.ok.inj hrun)).2
    exact Index.counters_dropEntryIfUnchanged
  | forgetBlobIfUnreferenced id =>
    obtain rfl := (Prod.mk.inj (Except.ok.inj hrun)).2
    exact Index.counters_forget
  | grantEligibility id verified =>
    obtain rfl := (Prod.mk.inj (Except.ok.inj hrun)).2
    exact Index.counters_grant
  | _ =>
    obtain rfl := (Prod.mk.inj (Except.ok.inj hrun)).2
    rfl

/-- The step of an operation counts something. -/
def CacheAct.Counting : ∀ {β : Type}, CacheAct β → Prop
  | _, .index a => a.Counting
  | _, _ => False

/-- The other steps leave the counters as they are, whatever they come to. -/
theorem Store.counters_of_perform {β : Type} {w : Weather} {i : ℕ} {a : CacheAct β} {b : β}
    {s s' : Store} (ha : ¬a.Counting) (hstep : Store.perform w i a s = some (b, s')) :
    s'.index.counters = s.index.counters := by
  cases a with
  | index a =>
    rcases Store.perform_index.mp hstep with
      ⟨_, -, -, rfl⟩ | ⟨-, _, ix, hrun, -, rfl⟩ | ⟨-, _, -, -, rfl⟩
    · rfl
    · exact IndexAct.run_counters ha hrun
    · rfl
  | file a =>
    rcases Store.perform_file.mp hstep with ⟨_, -, -, rfl⟩ | ⟨-, -, rfl⟩
    · rfl
    · rfl
  | gate a =>
    obtain ⟨gate, -, rfl⟩ := Store.perform_gate.mp hstep
    rfl
  | now =>
    obtain ⟨-, rfl⟩ := Store.perform_now.mp hstep
    rfl

end Counters

/-! ### What counts nothing of that -/

/-- **The step counts nothing of what is answered from the store**: no request, no hit
and no bytes. -/
def CacheAct.Uncounted : ∀ {β : Type}, CacheAct β → Prop
  | _, .index (.recordAccess _ _ _) => False
  | _, .index (.bump name _) =>
    name ≠ counters.requests ∧ name ≠ counters.hits ∧ name ≠ counters.staleHits ∧
      name ≠ counters.bytesFromCache
  | _, _ => True

theorem CacheAct.Reads.uncounted {β : Type} {a : CacheAct β} (h : a.Reads) : a.Uncounted := by
  cases a with
  | index a =>
    cases a with
    | recordAccess key now tally => exact h
    | bump name n => exact h.elim
    | _ => trivial
  | _ => trivial

theorem CacheAct.OnFiles.uncounted {β : Type} {a : CacheAct β} (h : a.OnFiles) : a.Uncounted := by
  cases a with
  | index a => exact h.elim
  | _ => trivial

theorem CacheAct.Deletes.uncounted {β : Type} {a : CacheAct β} (h : a.Deletes) : a.Uncounted := by
  cases a with
  | index a =>
    cases a with
    | recordAccess key now tally => exact h
    | bump name n => exact h.elim
    | _ => trivial
  | _ => trivial

section Uncounted

variable {P : Platform} {opts : CacheOptions} {w : Storing} {key : String} {record : EntryRecord}
  {body : Bytes} {α : Type} {partition : Option String} {method url : String}
  {requestHeaders : HeaderMap}

theorem uncounted_ask {a : IndexAct α} (ha : (CacheAct.index a).Uncounted) :
    (ask a).run.Asks CacheAct.Uncounted := ⟨ha, fun _ => trivial⟩

theorem uncounted_bump {name : String} {n : ℕ}
    (h : name ≠ counters.requests ∧ name ≠ counters.hits ∧ name ≠ counters.staleHits ∧
      name ≠ counters.bytesFromCache) :
    (ask (.bump name n)).run.Asks CacheAct.Uncounted := uncounted_ask h

theorem uncounted_clock : clock.run.Asks CacheAct.Uncounted := ⟨trivial, fun _ => trivial⟩

theorem uncounted_move {a : GateAct} : (move a).run.Asks CacheAct.Uncounted :=
  ⟨trivial, fun _ => trivial⟩

theorem uncounted_holdingShared {x : CacheM α} (hx : x.run.Asks CacheAct.Uncounted) :
    (holdingShared x).run.Asks CacheAct.Uncounted :=
  asks_run_bind uncounted_move fun _ => asks_run_bind (asks_attempt hx) fun _ =>
    asks_run_bind uncounted_move fun _ => trivial

theorem uncounted_holdingExclusive {x : CacheM α} (hx : x.run.Asks CacheAct.Uncounted) :
    (holdingExclusive x).run.Asks CacheAct.Uncounted :=
  asks_run_bind uncounted_move fun _ => asks_run_bind (asks_attempt hx) fun _ =>
    asks_run_bind uncounted_move fun _ => trivial

theorem uncounted_deleteOrphans {ids : List ContentId} :
    (deleteOrphans ids).run.Asks CacheAct.Uncounted :=
  asks_deleteOrphans.mono fun _ => CacheAct.Deletes.uncounted

theorem uncounted_get {id : ContentId} : (get P id).run.Asks CacheAct.Uncounted :=
  files_get.mono fun _ => CacheAct.OnFiles.uncounted

theorem uncounted_readSpan {first stop : ℕ} :
    (readSpan P record first stop).run.Asks CacheAct.Uncounted :=
  files_readSpan.mono fun _ => CacheAct.OnFiles.uncounted

theorem uncounted_materialize {metadata : StoredMeta} {age : ℕ} {want : Want} :
    (materialize P key record metadata age want).run.Asks CacheAct.Uncounted :=
  files_materialize.mono fun _ => CacheAct.OnFiles.uncounted

theorem uncounted_selectVariant :
    (selectVariant P partition method url requestHeaders).run.Asks CacheAct.Uncounted :=
  asks_selectVariant.mono fun _ => CacheAct.Reads.uncounted

theorem uncounted_dropBroken : (dropBroken key record).run.Asks CacheAct.Uncounted := by
  refine asks_run_bind (uncounted_ask trivial) fun orphaned => ?_
  rcases orphaned with _ | orphaned
  · trivial
  · exact asks_run_bind (uncounted_bump (by decide)) fun _ =>
      asks_run_bind uncounted_deleteOrphans fun _ => trivial

theorem uncounted_releaseFrom {ids : List ContentId} {onDisk : ℕ} :
    (releaseFrom ids onDisk).run.Asks CacheAct.Uncounted := by
  induction ids generalizing onDisk with
  | nil => trivial
  | cons id rest ih =>
    rw [releaseFrom]
    refine asks_run_bind (uncounted_ask trivial) fun blob => ?_
    rcases blob with _ | blob
    · exact ih
    · exact ih

theorem uncounted_evictFrom {target onDisk evicted : ℕ} {candidates : List (String × EntryRecord)} :
    (evictFrom target candidates onDisk evicted).run.Asks CacheAct.Uncounted := by
  induction candidates generalizing onDisk evicted with
  | nil => trivial
  | cons candidate rest ih =>
    rw [evictFrom]
    split
    · trivial
    · exact asks_run_bind (uncounted_ask trivial) fun _ => asks_run_bind uncounted_releaseFrom
        fun _ => asks_run_bind uncounted_deleteOrphans fun _ => ih

theorem uncounted_enforceBudget : (enforceBudget P opts).run.Asks CacheAct.Uncounted := by
  rw [enforceBudget]
  split
  · trivial
  · refine asks_run_bind (uncounted_ask trivial) fun totals => ?_
    obtain ⟨-, -, onDisk, -⟩ := totals
    simp only
    split
    · trivial
    · refine asks_run_bind (uncounted_ask trivial) fun _ => asks_run_bind uncounted_evictFrom
        fun evicted => ?_
      split
      · exact asks_run_bind (uncounted_bump (by decide)) fun _ => trivial
      · trivial

theorem uncounted_countDeduped {receipt : WriteReceipt} :
    (countDeduped receipt).run.Asks CacheAct.Uncounted := by
  rw [countDeduped]
  split
  · trivial
  · exact uncounted_bump (by decide)

theorem uncounted_put {bytes : Bytes} : (put P bytes).run.Asks CacheAct.Uncounted := by
  have hfile : ∀ {β : Type} (a : FileAct β), (onFile a).run.Asks CacheAct.Uncounted :=
    fun _ => ⟨trivial, fun _ => trivial⟩
  have hwrite : (do
      onFile (.write (P.blake3 bytes) (blobFile P bytes))
      pure ⟨P.blake3 bytes, bytes.length, (encodeBody P bytes).1.length + 1,
        (encodeBody P bytes).2, true⟩ : CacheM WriteReceipt).run.Asks CacheAct.Uncounted :=
    asks_run_bind (hfile _) fun _ => trivial
  refine asks_run_bind (asks_attempt (hfile _)) fun there => ?_
  rcases there with e | _ | _
  · exact hwrite
  · exact hwrite
  · refine asks_run_bind (hfile _) fun file => ?_
    rcases file with _ | raw
    · trivial
    · refine asks_run_bind (hfile _) fun file => ?_
      exact asks_run_bind (x := ExceptT.mk (pure (readCompression file))) trivial fun _ => trivial

theorem uncounted_rejected {reason : String} : (rejected reason).run.Asks CacheAct.Uncounted :=
  asks_run_bind (uncounted_bump (by decide)) fun _ => trivial

theorem uncounted_storeWhole {write : CacheM WriteReceipt}
    (hwrite : write.run.Asks CacheAct.Uncounted) :
    (storeWhole P w write).run.Asks CacheAct.Uncounted :=
  uncounted_holdingShared (asks_run_bind hwrite fun _ => asks_run_bind uncounted_countDeduped
    fun _ => asks_run_bind uncounted_clock fun _ =>
      asks_run_bind (uncounted_ask trivial) fun _ => trivial)

theorem uncounted_reconcileHead {headHeaders : HeaderMap} :
    (reconcileHead P partition url requestHeaders headHeaders).run.Asks CacheAct.Uncounted := by
  refine asks_run_bind uncounted_selectVariant fun selected => ?_
  rcases selected with _ | ⟨key, record⟩
  · trivial
  · simp only [reconcileWith]
    split
    · exact uncounted_ask trivial
    · exact asks_run_bind (uncounted_ask trivial) fun _ =>
        asks_run_bind uncounted_deleteOrphans fun _ => trivial

theorem uncounted_afterStore {receipt : WriteReceipt} {orphaned : List ContentId}
    {digests : List (Bytes × ContentId)} :
    (afterStore P opts w receipt orphaned digests).run.Asks CacheAct.Uncounted := by
  have hlast : (do
      let _ ← enforceBudget P opts
      pure (.stored receipt.id (!receipt.newlyWritten)) : CacheM StoreOutcome).run.Asks
        CacheAct.Uncounted := asks_run_bind uncounted_enforceBudget fun _ => trivial
  refine asks_run_bind uncounted_deleteOrphans fun _ => asks_run_bind (uncounted_ask trivial)
    fun _ => asks_run_bind (uncounted_bump (by decide)) fun _ => ?_
  split
  · exact asks_run_bind uncounted_reconcileHead fun _ => hlast
  · exact hlast

theorem uncounted_putSlices {start now : ℕ} {gaps : List (ℕ × ℕ)} :
    (putSlices P body start now gaps).run.Asks CacheAct.Uncounted := by
  induction gaps with
  | nil => trivial
  | cons gap rest ih =>
    exact asks_run_bind uncounted_put fun _ => asks_run_bind uncounted_countDeduped fun _ =>
      asks_run_bind ih fun _ => trivial

theorem uncounted_completeRecord {newBlobs : List (ContentId × BlobRecord)} {now : ℕ} :
    (completeRecord P record newBlobs now).run.Asks CacheAct.Uncounted := by
  rw [completeRecord]
  split
  · trivial
  · split
    · exact asks_run_bind uncounted_readSpan fun _ => asks_run_bind uncounted_put fun _ =>
        asks_run_bind (uncounted_ask trivial) fun _ => trivial
    · trivial

theorem uncounted_writePartial {cr : ContentRange} {existing : Option EntryRecord} :
    (writePartial P w body cr existing).run.Asks CacheAct.Uncounted := by
  refine uncounted_holdingShared (asks_run_bind uncounted_clock fun _ =>
    asks_run_bind uncounted_putSlices fun added => ?_)
  obtain ⟨segments, newBlobs⟩ := added
  refine asks_run_bind uncounted_completeRecord fun r => ?_
  exact asks_run_bind (uncounted_ask trivial) fun _ => trivial

theorem uncounted_extendRange {cr : ContentRange} {existing : Option EntryRecord} :
    (extendRange P opts w body cr existing).run.Asks CacheAct.Uncounted := by
  rw [extendRange]
  split
  · trivial
  · refine asks_run_bind uncounted_writePartial fun r => asks_run_bind uncounted_deleteOrphans
      fun _ => asks_run_bind (uncounted_bump (by decide)) fun _ => ?_
    obtain ⟨record, completed, orphaned⟩ := r
    rcases completed with _ | content
    · exact asks_run_bind (uncounted_bump (by decide)) fun _ =>
        asks_run_bind uncounted_enforceBudget fun _ => trivial
    · exact asks_run_bind uncounted_enforceBudget fun _ => trivial

theorem uncounted_storePartial : (storePartial P opts w body).run.Asks CacheAct.Uncounted := by
  rw [storePartial]
  split
  · exact uncounted_rejected
  · split
    · exact uncounted_rejected
    · split
      · exact uncounted_rejected
      · split
        · exact uncounted_rejected
        · refine asks_run_bind (uncounted_ask trivial) fun found => ?_
          rcases found with _ | old
          · exact uncounted_extendRange
          · simp only [foldRange]
            split
            · exact uncounted_extendRange
            · exact asks_run_bind (uncounted_ask trivial) fun _ =>
                asks_run_bind uncounted_deleteOrphans fun _ => uncounted_extendRange

/-- **A store** counts no request. -/
theorem uncounted_store : (storeWithProvenance P opts w body).run.Asks CacheAct.Uncounted := by
  refine asks_run_bind (uncounted_bump (by decide)) fun _ => ?_
  split
  · exact uncounted_rejected
  · split
    · exact uncounted_storePartial
    · exact asks_run_bind (uncounted_storeWhole uncounted_put) fun _ => uncounted_afterStore

theorem uncounted_finishStreamed {writer : BlobWriter} :
    (finishStreamed P opts w writer).run.Asks CacheAct.Uncounted := by
  refine asks_run_bind (uncounted_bump (by decide)) fun _ => ?_
  split
  · exact uncounted_rejected
  · split
    · exact uncounted_rejected
    · exact asks_run_bind (uncounted_storeWhole uncounted_put) fun _ => uncounted_afterStore

theorem uncounted_discardRepresentation {content : ContentId} :
    (discardRepresentation key content).run.Asks CacheAct.Uncounted := by
  refine asks_run_bind (uncounted_ask trivial) fun found => ?_
  rcases found with _ | record
  · trivial
  · simp only
    split
    · refine asks_run_bind (uncounted_ask trivial) fun orphaned => ?_
      rcases orphaned with _ | orphaned
      · trivial
      · exact asks_run_bind uncounted_deleteOrphans fun _ => trivial
    · trivial

theorem uncounted_invalidateUrl :
    (invalidateUrl P partition method url).run.Asks CacheAct.Uncounted := by
  rw [invalidateUrl]
  split
  · trivial
  · exact asks_run_bind (uncounted_ask trivial) fun _ => asks_run_bind uncounted_deleteOrphans
      fun _ => asks_run_bind (uncounted_ask trivial) fun _ =>
        asks_run_bind uncounted_deleteOrphans fun _ => trivial

theorem uncounted_collectGarbage : collectGarbage.run.Asks CacheAct.Uncounted := by
  refine asks_run_bind (uncounted_ask trivial) fun _ => asks_run_bind uncounted_deleteOrphans
    fun _ => asks_run_bind ?_ fun _ => trivial
  refine asks_run_bind (uncounted_ask trivial) fun stale => ?_
  split
  · trivial
  · exact asks_run_bind (uncounted_ask trivial) fun _ => trivial

theorem uncounted_clear : clear.run.Asks CacheAct.Uncounted := by
  have hfile : ∀ {β : Type} (a : FileAct β), (onFile a).run.Asks CacheAct.Uncounted :=
    fun _ => ⟨trivial, fun _ => trivial⟩
  have hremove : ∀ ids, (removeEach ids).run.Asks CacheAct.Uncounted := by
    intro ids
    induction ids with
    | nil => trivial
    | cons id rest ih =>
      refine asks_run_bind (hfile _) fun there => ?_
      split
      · exact asks_run_bind ih fun _ => trivial
      · trivial
  exact uncounted_holdingExclusive (asks_run_bind (uncounted_ask trivial) fun _ =>
    asks_run_bind (asks_run_bind (hfile _) hremove) fun _ => trivial)

theorem uncounted_grantPeerEligibility {content : ContentId} {declared : Integrity} :
    (grantPeerEligibility P content declared).run.Asks CacheAct.Uncounted := by
  rw [grantPeerEligibility]
  split
  · trivial
  · refine uncounted_holdingShared (asks_run_bind (asks_attempt uncounted_get) fun r => ?_)
    rcases r with e | bytes
    · simp only
      split
      · trivial
      · trivial
    · exact asks_run_bind (uncounted_ask trivial) fun _ => trivial

theorem uncounted_peerEligibility {content : ContentId} :
    (peerEligibility content).run.Asks CacheAct.Uncounted :=
  asks_run_bind (uncounted_ask trivial) fun _ => trivial

theorem uncounted_bodyForPeer {asked : PeerAsk} :
    (bodyForPeer P asked).run.Asks CacheAct.Uncounted := by
  have hnamed : ∀ content named, (bodyNamed P content named).run.Asks CacheAct.Uncounted := by
    intro content named
    refine asks_run_bind (uncounted_ask trivial) fun keys => ?_
    split
    · trivial
    · refine asks_run_bind (asks_attempt uncounted_get) fun r => ?_
      rcases r with e | bytes
      · simp only
        split
        · trivial
        · trivial
      · simp only
        split
        · trivial
        · trivial
  cases asked with
  | content id => exact hnamed id none
  | integrity hash =>
    refine asks_run_bind (uncounted_ask trivial) fun found => ?_
    rcases found with _ | id
    · trivial
    · exact hnamed id (some hash)

theorem uncounted_acceptPeerBody {integrity : Integrity} :
    (acceptPeerBody P integrity body).run.Asks CacheAct.Uncounted := by
  rw [acceptPeerBody]
  split
  · exact uncounted_bump (by decide)
  · exact asks_run_bind (uncounted_bump (by decide)) fun _ => trivial

end Uncounted

/-! ### What a lookup counts -/

/-- The lookup answers from the store. -/
def Lookup.serves : Lookup → Bool
  | .fresh _ => true
  | .stale _ _ _ => true
  | _ => false

/-- The lookup asks for the entry to be confirmed. -/
def Lookup.asks : Lookup → Bool
  | .revalidate _ _ _ _ => true
  | _ => false

/-- **What a lookup counts** that comes to this. -/
structure Lookup.Counts (found : Lookup) (tally : List (String × ℕ)) : Prop where
  requests : counted tally counters.requests = 1
  served : counted tally counters.hits + counted tally counters.staleHits = found.serves.toNat
  asked : counted tally counters.revalidations = found.asks.toNat

section Lookup

variable {τ : Type} {D : Discipline CacheAct τ} {T : τ → Prop} {G : Lookup → τ → Prop}
  {P : Platform} {opts : CacheOptions} {t : τ}

theorem counts_miss {reason : String} :
    (Lookup.miss reason).Counts ([(counters.requests, 1)] ++ [(counters.misses, 1)]) := by
  refine ⟨by decide, ?_, ?_⟩ <;> simp only [Lookup.serves, Lookup.asks] <;> decide

theorem counts_revalidate {response : StoredResponse} {conditional : List (HeaderName × String)}
    {staleIfError : Option ℕ} {reason : String} :
    (Lookup.revalidate response conditional staleIfError reason).Counts
      ([(counters.requests, 1)] ++ [(counters.revalidations, 1)]) := by
  refine ⟨by decide, ?_, ?_⟩ <;> simp only [Lookup.serves, Lookup.asks] <;> decide

theorem counts_served {found : Lookup} {counter : String} {want : Want} {response : StoredResponse}
    (hserves : found.serves = true) (hasks : found.asks = false)
    (hcounter : counter = counters.hits ∨ counter = counters.staleHits) :
    found.Counts (servedTally [(counters.requests, 1)] counter want response) := by
  refine ⟨?_, ?_, ?_⟩ <;> simp only [hserves, hasks, servedTally] <;>
    rcases hcounter with rfl | rfl <;> cases want.range <;>
      simp [counted, counters.requests, counters.hits, counters.staleHits, counters.rangeHits,
        counters.bytesFromCache, counters.revalidations]

theorem settles_selected {head : Bool} {h : HeaderMap}
    {tally : List (String × ℕ)} {selected : Option (String × EntryRecord)} {t : τ}
    (hmissed : ∀ reason, Settles D T (missed tally reason) t G)
    (hentry : ∀ key record, Settles D T (lookupEntry P opts h head key record tally) t G) :
    Settles D T (match selected with
      | none => missed tally "no stored variant"
      | some (key, record) => lookupEntry P opts h head key record tally) t G := by
  rcases selected with _ | ⟨key, record⟩
  · exact hmissed _
  · exact hentry key record

/-- **A lookup counts once**, with what it comes to, and nothing before it counts. -/
theorem settles_lookup
    (hstay : ∀ {α : Type} {x : CacheM α}, x.run.Asks CacheAct.Uncounted → Stays D T x)
    (hcount : ∀ {key : Option String} {now : ℕ} {tally : List (String × ℕ)} {found : Lookup} {t : τ},
      found.Counts tally → T t →
        Settles D T (do ask (.recordAccess key now tally); pure found) t G)
    {partition : Option String} {method url : String} {h : HeaderMap} (ht : T t) :
    Settles D T (lookup P opts partition method url h) t G := by
  have hmissed : ∀ {reason : String} {t : τ}, T t →
      Settles D T (missed [(counters.requests, 1)] reason) t G := fun ht => hcount counts_miss ht
  have hor : ∀ {key : String} {record : EntryRecord} {metadata : StoredMeta} {age : ℕ} {want : Want}
      {serve : StoredResponse → CacheM Lookup} {t : τ}, T t →
      (∀ response t, T t → Settles D T (serve response) t G) →
      Settles D T (materializeOr P key record metadata age want [(counters.requests, 1)] serve) t
        G := by
    intro key record metadata age want serve t ht hserve
    refine ((hstay (asks_attempt uncounted_materialize)).settles ht).bind fun r u hu => ?_
    rcases r with e | response
    · simp only
      split
      · exact ((hstay uncounted_dropBroken).settles hu).bind fun _ _ hu => hmissed hu
      · exact Prog.settles_throw hu
    · exact hserve response u hu
  have hgo : ∀ {head : Bool} {key : String} {record : EntryRecord} {now : ℕ} {want : Want} {t : τ},
      T t → Settles D T
        (lookupEntry.go P opts h key record [(counters.requests, 1)] record.metadata now want) t
        G := by
    intro head key record now want t ht
    rw [lookupEntry.go]
    split
    · exact hor ht fun response t ht => hcount (counts_served rfl rfl (Or.inl rfl)) ht
    · exact hor ht fun response t ht => hcount (counts_served rfl rfl (Or.inr rfl)) ht
    · split
      · exact hmissed ht
      · split
        · exact hmissed ht
        · exact hor ht fun response t ht => hcount counts_revalidate ht
    · exact hmissed ht
  have hentry : ∀ {head : Bool} {key : String} {record : EntryRecord} {t : τ}, T t →
      Settles D T (lookupEntry P opts h head key record [(counters.requests, 1)]) t G := by
    intro head key record t ht
    refine ((hstay uncounted_clock).settles ht).bind fun now u hu => ?_
    split
    · exact hmissed hu
    · exact @hgo head _ _ _ _ _ hu
    · exact @hgo head _ _ _ _ _ hu
  rw [lookup]
  simp only
  split
  · exact hmissed ht
  · refine ((hstay uncounted_selectVariant).settles ht).bind fun own u hu => ?_
    split
    · exact ((hstay uncounted_selectVariant).settles hu).bind fun _ _ hu =>
        settles_selected (fun _ => hmissed hu) fun _ _ => hentry hu
    · exact settles_selected (fun _ => hmissed hu) fun _ _ => hentry hu

end Lookup

end Syndeo
