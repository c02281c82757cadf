import Syndeo.Cache.Assembly
import Syndeo.Cache.Footprint

/-!
# Walking through an operation

A discipline that has something to say of a few kinds of steps only, and nothing of
the others, is kept by an operation where it is kept at those steps: the rules here
carry it from the steps to the operation. The steps that most disciplines have
nothing to say of are the dry ones (`Syndeo.StaysDry`), which neither write an entry
nor a file; that a file may be written is said of the bodies it may be written for
(`Syndeo.MayWrite`).

What an operation writes is told by what it was given and what it read: a range
leaves an entry as `Syndeo.Storing.LeavesOf` says, and a lookup hands out what it
reconstructed of an entry that it selected (`Syndeo.staysWith_lookup_of`).
-/

namespace Syndeo

open Concurrent
open Text (eqIgnoreAsciiCase)
open Prog (Asks Stays StaysWith stays_pure stays_throw staysWith_pure staysWith_throw)

variable {P : Platform} {opts : CacheOptions} {τ α : Type} {D : Discipline CacheAct τ}
  {T : τ → Prop} {w : Storing} {B : Set Bytes}

/-! ### Pieces that stay -/

/-- **Plain pieces stay.** -/
def StaysPlain (D : Discipline CacheAct τ) (T : τ → Prop) : Prop :=
  ∀ {α : Type} {x : CacheM α}, x.run.Asks CacheAct.Plain → Stays D T x

theorem StaysPlain.of_act (h : ∀ {β : Type} (a : CacheAct β) t, a.Plain → T t →
    D.may t a ∧ ∀ b, D.sees t a b → T (D.next t a b)) : StaysPlain D T :=
  fun hx => Prog.stays_of_asks hx h

/-- **Dry pieces stay.** -/
def StaysDry (D : Discipline CacheAct τ) (T : τ → Prop) : Prop :=
  ∀ ⦃α : Type⦄ ⦃x : CacheM α⦄, x.run.Asks CacheAct.Dry → Stays D T x

theorem StaysDry.of_act (h : ∀ {β : Type} (a : CacheAct β) t, a.Dry → T t →
    D.may t a ∧ ∀ b, D.sees t a b → T (D.next t a b)) : StaysDry D T :=
  fun _ _ hx => Prog.stays_of_asks hx h

theorem StaysPlain.dry (hplain : StaysPlain D T) : StaysDry D T := fun _ _ hx =>
  hplain (asks_plain hx)

theorem StaysDry.asking (hdry : StaysDry D T) {β : Type} {a : IndexAct β}
    (ha : (CacheAct.index a).Dry) : Stays D T (ask a) := hdry ⟨ha, fun _ => trivial⟩

theorem StaysDry.timed (hdry : StaysDry D T) : Stays D T clock := hdry ⟨trivial, fun _ => trivial⟩

theorem StaysDry.holdingShared (hdry : StaysDry D T) {x : CacheM α} (hx : Stays D T x) :
    Stays D T (holdingShared x) :=
  (hdry (x := move .lockShared) ⟨trivial, fun _ => trivial⟩).bind fun _ => hx.lift_run.bind
    fun _ => (hdry (x := move .unlockShared) ⟨trivial, fun _ => trivial⟩).bind fun _ =>
      Prog.stays_return

theorem StaysPlain.holdingShared (hplain : StaysPlain D T) {x : CacheM α} (hx : Stays D T x) :
    Stays D T (holdingShared x) := hplain.dry.holdingShared hx

/-! ### Writing a body -/

/-- **The files of these bodies may be written.** -/
def MayWrite (P : Platform) (D : Discipline CacheAct τ) (T : τ → Prop) (B : Set Bytes) : Prop :=
  ∀ bytes ∈ B, Stays D T (onFile (.write (P.blake3 bytes) (blobFile P bytes)))

theorem StaysPlain.mayWrite (hplain : StaysPlain D T) : MayWrite P D T B := fun _ _ =>
  hplain ⟨trivial, fun _ => trivial⟩

/-- **A body is written** under its address. -/
theorem StaysDry.put (hdry : StaysDry D T) (hwrite : MayWrite P D T B) {bytes : Bytes}
    (hbytes : bytes ∈ B) :
    StaysWith D T (fun receipt => receipt.id = P.blake3 bytes ∧ receipt.len = bytes.length)
      (put P bytes) := by
  have hread : Stays D T (onFile (.read (P.blake3 bytes))) := hdry ⟨trivial, fun _ => trivial⟩
  have hnew : StaysWith D T
      (fun receipt : WriteReceipt => receipt.id = P.blake3 bytes ∧ receipt.len = bytes.length)
      (do
        onFile (.write (P.blake3 bytes) (blobFile P bytes))
        pure ⟨P.blake3 bytes, bytes.length, (encodeBody P bytes).1.length + 1,
          (encodeBody P bytes).2, true⟩) :=
    (hwrite bytes hbytes).with.bind fun _ _ => staysWith_pure ⟨rfl, rfl⟩
  have hthere : Stays D T (attempt (onFile (.exists (P.blake3 bytes)))) :=
    hdry (asks_attempt ⟨trivial, fun _ => trivial⟩)
  refine hthere.with.bind fun there _ => ?_
  rcases there with e | _ | _
  · exact hnew
  · exact hnew
  · refine hread.with.bind fun file _ => ?_
    rcases file with _ | raw
    · exact staysWith_throw
    · refine hread.with.bind fun file _ => ?_
      exact StaysWith.bind (Prog.staysWith_return fun _ _ => trivial) fun _ _ =>
        staysWith_pure ⟨rfl, rfl⟩

/-- The parts of a range that are written become the segments that are added. -/
theorem StaysDry.putSlices (hdry : StaysDry D T) (hwrite : MayWrite P D T B) {body : Bytes}
    {start now : ℕ} {gaps : List (ℕ × ℕ)} (hparts : ∀ gap ∈ gaps, partFrom body start gap ∈ B) :
    StaysWith D T (fun added => added.1 = segmentsFrom P body start gaps)
      (putSlices P body start now gaps) := by
  induction gaps with
  | nil => exact staysWith_pure rfl
  | cons gap rest ih =>
    refine (hdry.put hwrite (hparts gap List.mem_cons_self)).bind fun receipt hreceipt =>
      (hdry dry_countDeduped).with.bind fun _ _ =>
        (ih fun gap hgap => hparts gap (List.mem_cons_of_mem _ hgap)).bind fun added hadded =>
          staysWith_pure ?_
    simp only [segmentsFrom, List.map_cons, hadded, hreceipt.1, partFrom]

/-- **Where the runs of an entry have met**, its body is the whole one that was read. -/
theorem StaysDry.completeRecord (hdry : StaysDry D T) (hwrite : MayWrite P D T B)
    {record : EntryRecord} {newBlobs : List (ContentId × BlobRecord)} {now : ℕ} {W : Bytes → Prop}
    (hread : ∀ n, record.body.completeLen = some n → record.body.hasMet = true →
      StaysWith D T W (readSpan P record 0 n)) (hW : ∀ whole, W whole → whole ∈ B) :
    StaysWith D T (fun r => ∃ made : Option Bytes, (∀ whole ∈ made, W whole) ∧
        r.1 = record.madeWhole P made) (completeRecord P record newBlobs now) := by
  have hnone : ∀ done : EntryRecord × List (ContentId × BlobRecord) × Option ContentId,
      done.1 = record → ∃ made : Option Bytes, (∀ whole ∈ made, W whole) ∧
        done.1 = record.madeWhole P made :=
    fun done hdone => ⟨none, by simp, hdone⟩
  rw [Syndeo.completeRecord]
  split
  · exact staysWith_pure (hnone _ rfl)
  · rename_i n hn
    split
    · rename_i hcovers
      have hmet : record.body.hasMet = true := by
        rw [StoredBody.hasMet, hn]
        exact hcovers
      refine (hread n hn hmet).bind fun whole hwhole =>
        (hdry.put hwrite (hW whole hwhole)).bind fun receipt hreceipt => ?_
      have hnamed : Stays D T (ask (.indexSri (sriDigests P whole receipt.id))) :=
        hdry.asking trivial
      refine hnamed.with.bind fun _ _ => staysWith_pure ⟨some whole, ?_, ?_⟩
      · rintro whole' hmem
        obtain rfl := Option.mem_some_iff.mp hmem
        exact hwhole
      · simp only [EntryRecord.madeWhole, hreceipt.1, hreceipt.2]
    · exact staysWith_pure (hnone _ rfl)

/-! ### Storing a whole body -/

/-- **A whole body is stored.** -/
theorem StaysDry.storeWhole (hdry : StaysDry D T) {W : WriteReceipt → Prop}
    {write : CacheM WriteReceipt} (hwrite : StaysWith D T W write)
    (hput : ∀ receipt now newBlobs, W receipt →
      Stays D T (ask (.putEntry (w.record P receipt now) newBlobs))) :
    Stays D T (storeWhole P w write) := by
  refine hdry.holdingShared ?_
  refine hwrite.then fun receipt hreceipt => (hdry dry_countDeduped).bind fun _ => ?_
  refine Stays.bind hdry.timed fun now => ?_
  exact Stays.bind (hput receipt now _ hreceipt) fun _ => stays_pure

theorem StaysDry.afterStore (hdry : StaysDry D T) {receipt : WriteReceipt}
    {orphaned : List ContentId} {digests : List (Bytes × ContentId)}
    (hhead : eqIgnoreAsciiCase w.method "HEAD" = true → Stays D T
      (Syndeo.reconcileHead P w.partition (normalizeUrl P w.url) w.requestHeaders w.responseHeaders)) :
    Stays D T (afterStore P opts w receipt orphaned digests) := by
  have hlast : Stays D T (do
      let _ ← enforceBudget P opts
      pure (.stored receipt.id (!receipt.newlyWritten)) : CacheM StoreOutcome) :=
    (hdry dry_enforceBudget).bind fun _ => stays_pure
  refine (hdry dry_deleteOrphans).bind fun _ => Stays.bind (hdry.asking trivial) fun _ =>
    Stays.bind (hdry.asking trivial) fun _ => ?_
  split
  · rename_i hmethod
    exact (hhead hmethod).bind fun _ => hlast
  · exact hlast

/-- **A request selects** an entry that was read, under a key it was to read. -/
theorem staysWith_selects {partition : Option String} {method url : String}
    {requestHeaders : HeaderMap} {V : String → Prop} {G : String → EntryRecord → Prop}
    (hlist : StaysWith D T (fun keys => ∀ v ∈ keys, V v)
      (ask (.variantKeys partition method url)))
    (hread : ∀ v, V v → StaysWith D T
      (fun found => ∀ r, found = some r → G (entryKey partition method url v) r)
      (ask (.getEntry (entryKey partition method url v)))) :
    StaysWith D T (fun selected => ∀ key r, selected = some (key, r) →
        (∃ v, V v ∧ key = entryKey partition method url v) ∧ G key r ∧
          selects P r requestHeaders = true)
      (selectVariant P partition method url requestHeaders) := by
  have hamong : ∀ candidates : List String, (∀ v ∈ candidates, V v) →
      StaysWith D T (fun selected => ∀ key r, selected = some (key, r) →
          (∃ v, V v ∧ key = entryKey partition method url v) ∧ G key r ∧
            selects P r requestHeaders = true)
        (selectAmong P partition method url requestHeaders candidates) := by
    intro candidates
    induction candidates with
    | nil => exact fun _ => staysWith_pure fun _ _ h => nomatch h
    | cons candidate rest ih =>
      intro hV
      have hrest := ih fun v hv => hV v (List.mem_cons_of_mem _ hv)
      refine (hread candidate (hV candidate List.mem_cons_self)).bind fun found hfound => ?_
      rcases found with _ | record
      · exact hrest
      · simp only
        split
        · rename_i hselects
          refine staysWith_pure fun key r heq => ?_
          obtain ⟨rfl, rfl⟩ := Prod.mk.inj (Option.some.inj heq)
          exact ⟨⟨candidate, hV candidate List.mem_cons_self, rfl⟩, hfound record rfl, hselects⟩
        · exact hrest
  exact hlist.bind fun candidates hV => hamong candidates hV

/-- **A `HEAD`** is folded into the `GET` that it selects. -/
theorem StaysDry.reconcileHead (hdry : StaysDry D T) {partition : Option String}
    {url : String} {requestHeaders headHeaders : HeaderMap} {G : String → EntryRecord → Prop}
    (hselect : StaysWith D T (fun selected => ∀ key r, selected = some (key, r) → G key r)
      (selectVariant P partition "GET" url requestHeaders))
    (hrefresh : ∀ key r, G key r → Stays D T (ask (.refreshEntry
      { r with headers := .forStorage (apply304 r.headers.toHeaderMap headHeaders) }))) :
    Stays D T (reconcileHead P partition url requestHeaders headHeaders) := by
  refine hselect.then fun selected hselected => ?_
  rcases selected with _ | ⟨key, record⟩
  · exact stays_pure
  · simp only [reconcileWith]
    split
    · exact hrefresh key record (hselected key record rfl)
    · exact Stays.bind (hdry.asking trivial) fun _ =>
        (hdry dry_deleteOrphans).bind fun _ => stays_pure

/-! ### Storing a range -/

/-- **What a range leaves of an entry**: the fields are its own, and the runs those that
were held and the parts, or a whole body that was read. -/
def Storing.LeavesOf (P : Platform) (w : Storing) (body : Bytes) (cr : ContentRange)
    (existing : Option EntryRecord) (W : Bytes → Prop) (record : EntryRecord) : Prop :=
  ∃ now, ∃ made : Option Bytes, (∀ whole ∈ made, W whole) ∧
    record = (w.folded P body cr existing now).madeWhole P made

/-- **A range is stored.** -/
theorem StaysDry.writePartial (hdry : StaysDry D T) (hwrite : MayWrite P D T B) {body : Bytes}
    {cr : ContentRange} {existing : Option EntryRecord} {W : Bytes → Prop}
    (hparts : ∀ part ∈ partsOf body cr existing, part ∈ B)
    (hread : ∀ now n, (w.folded P body cr existing now).body.completeLen = some n →
      (w.folded P body cr existing now).body.hasMet = true →
        StaysWith D T W (readSpan P (w.folded P body cr existing now) 0 n))
    (hW : ∀ whole, W whole → whole ∈ B)
    (hput : ∀ record newBlobs, w.LeavesOf P body cr existing W record →
      Stays D T (ask (.putEntry record newBlobs))) :
    Stays D T (Syndeo.writePartial P w body cr existing) := by
  refine hdry.holdingShared (Stays.bind hdry.timed fun now => ?_)
  refine (hdry.putSlices hwrite fun gap hgap => hparts _ (List.mem_map_of_mem hgap)).then
    fun added hadded => ?_
  obtain ⟨segments, newBlobs⟩ := added
  obtain rfl : segments = _ := hadded
  refine StaysWith.then (hdry.completeRecord hwrite (hread now) hW) fun r hr => ?_
  obtain ⟨made, hmade, hrecord⟩ := hr
  exact Stays.bind (hput _ _ ⟨now, made, hmade, hrecord⟩) fun _ => stays_pure

theorem StaysDry.extendRange (hdry : StaysDry D T) {body : Bytes} {cr : ContentRange}
    {existing : Option EntryRecord}
    (hextends : (existing.any fun r => r.body.isComplete) = false →
      Stays D T (Syndeo.writePartial P w body cr existing)) :
    Stays D T (extendRange P opts w body cr existing) := by
  have hbump : ∀ {name n}, Stays D T (ask (.bump name n)) := hdry.asking trivial
  rw [Syndeo.extendRange]
  split
  · exact stays_pure
  · rename_i hpart
    refine (hextends (Bool.eq_false_iff.mpr hpart)).bind fun r =>
      (hdry dry_deleteOrphans).bind fun _ => Stays.bind hbump fun _ => ?_
    obtain ⟨record, completed, orphaned⟩ := r
    rcases completed with _ | content
    · exact Stays.bind hbump fun _ => (hdry dry_enforceBudget).bind fun _ => stays_pure
    · exact (hdry dry_enforceBudget).bind fun _ => stays_pure

theorem StaysDry.storePartial (hdry : StaysDry D T) {body : Bytes} {K : EntryRecord → Prop}
    (hget : ∀ key, StaysWith D T (fun found => ∀ r, found = some r → K r) (ask (.getEntry key)))
    (hextends : eqIgnoreAsciiCase w.method "GET" = true → ∀ cr existing,
      w.contentRange = some cr → cr.len = body.length → (∀ r, existing = some r → K r) →
        (existing.any fun r => r.body.isComplete) = false →
          Stays D T (Syndeo.writePartial P w body cr existing)) :
    Stays D T (storePartial P opts w body) := by
  rw [Syndeo.storePartial]
  split
  · exact hdry dry_rejected
  · rename_i hmethod
    have hextends := hextends (by simpa using hmethod)
    have hnone : ∀ r, (none : Option EntryRecord) = some r → K r := fun _ h => nomatch h
    split
    · exact hdry dry_rejected
    · split
      · exact hdry dry_rejected
      · rename_i cr hcr
        split
        · exact hdry dry_rejected
        · rename_i hlen
          have hextends := fun existing => hextends cr existing hcr (not_not.mp hlen)
          refine (hget _).then fun found hfound => ?_
          rcases found with _ | old
          · exact hdry.extendRange (hextends none hnone)
          · simp only [foldRange]
            split
            · exact hdry.extendRange (hextends (some old) hfound)
            · exact Stays.bind (hdry.asking trivial) fun _ => (hdry dry_deleteOrphans).bind fun _ =>
                hdry.extendRange (hextends none hnone)

/-! ### Storing -/

/-- **A store.** -/
theorem StaysDry.store (hdry : StaysDry D T) (hwrite : MayWrite P D T B) {body : Bytes}
    {K : EntryRecord → Prop} (hbody : w.status ≠ 206 → body ∈ B)
    (hget : ∀ key, StaysWith D T (fun found => ∀ r, found = some r → K r) (ask (.getEntry key)))
    (hput : storability P w.method w.requestHeaders w.metadata body.length opts = .store →
      w.status ≠ 206 → ∀ receipt now newBlobs,
        receipt.id = P.blake3 body ∧ receipt.len = body.length →
          Stays D T (ask (.putEntry (w.record P receipt now) newBlobs)))
    (hhead : storability P w.method w.requestHeaders w.metadata body.length opts = .store →
      eqIgnoreAsciiCase w.method "HEAD" = true → Stays D T
        (Syndeo.reconcileHead P w.partition (normalizeUrl P w.url) w.requestHeaders w.responseHeaders))
    (hextends : storability P w.method w.requestHeaders w.metadata body.length opts = .store →
      w.status = 206 → eqIgnoreAsciiCase w.method "GET" = true → ∀ cr existing,
        w.contentRange = some cr → cr.len = body.length → (∀ r, existing = some r → K r) →
          (existing.any fun r => r.body.isComplete) = false →
            Stays D T (Syndeo.writePartial P w body cr existing)) :
    Stays D T (storeWithProvenance P opts w body) := by
  refine Stays.bind (hdry.asking trivial) fun _ => ?_
  split
  · exact hdry dry_rejected
  · rename_i hstore
    split
    · exact hdry.storePartial hget (hextends hstore ‹_›)
    · rename_i hstatus
      exact (hdry.storeWhole (hdry.put hwrite (hbody hstatus)) (hput hstore hstatus)).bind fun _ =>
        hdry.afterStore (hhead hstore)

/-- **A store of a body that came in pieces.** -/
theorem StaysDry.finishStreamed (hdry : StaysDry D T) (hwrite : MayWrite P D T B)
    {writer : BlobWriter} (hbody : w.status ≠ 206 → writer.bytes ∈ B)
    (hput : storability P w.method w.requestHeaders w.metadata writer.len opts = .store →
      w.status ≠ 206 → ∀ receipt now newBlobs,
        receipt.id = P.blake3 writer.bytes ∧ receipt.len = writer.bytes.length →
          Stays D T (ask (.putEntry (w.record P receipt now) newBlobs)))
    (hhead : storability P w.method w.requestHeaders w.metadata writer.len opts = .store →
      eqIgnoreAsciiCase w.method "HEAD" = true → Stays D T
        (Syndeo.reconcileHead P w.partition (normalizeUrl P w.url) w.requestHeaders w.responseHeaders)) :
    Stays D T (finishStreamed P opts w writer) := by
  refine Stays.bind (hdry.asking trivial) fun _ => ?_
  split
  · exact hdry dry_rejected
  · rename_i hstore
    split
    · exact hdry dry_rejected
    · rename_i hstatus
      exact (hdry.storeWhole (hdry.put hwrite (hbody hstatus)) (hput hstore hstatus)).bind fun _ =>
        hdry.afterStore (hhead hstore)

/-! ### Where a file may be written for any body -/

/-- **What a range leaves of an entry**, whatever was read: the fields are its own, and the
runs were held or are not empty. -/
structure Storing.Leaves (P : Platform) (w : Storing) (existing : Option EntryRecord)
    (record : EntryRecord) : Prop where
  fields : ∃ completeLen segments now body,
    record = { w.partialRecord P existing completeLen segments now with body := body }
  runs : ∀ seg ∈ segmentsOf (some record), seg ∈ segmentsOf existing ∨ seg.start < seg.stop

theorem Storing.LeavesOf.leaves {body : Bytes} {cr : ContentRange} {existing : Option EntryRecord}
    {W : Bytes → Prop} {record : EntryRecord} (h : w.LeavesOf P body cr existing W record) :
    w.Leaves P existing record := by
  obtain ⟨now, made, -, rfl⟩ := h
  rcases made with _ | whole
  · refine ⟨⟨_, [], now, _, rfl⟩, fun seg hseg => ?_⟩
    have hmem := (List.perm_insertionSort _ _).mem_iff.mp hseg
    rcases List.mem_append.mp hmem with hold | hnew
    · exact Or.inl hold
    · obtain ⟨gap, hgap, rfl⟩ := List.mem_map.mp hnew
      exact Or.inr (Coverage.bounds_missing _ hgap).2.1
  · exact ⟨⟨_, [], now, _, rfl⟩, fun _ h => nomatch h⟩

theorem StaysPlain.writePartial (hplain : StaysPlain D T) {body : Bytes} {cr : ContentRange}
    {existing : Option EntryRecord}
    (hput : ∀ record newBlobs, w.Leaves P existing record →
      Stays D T (ask (.putEntry record newBlobs))) :
    Stays D T (Syndeo.writePartial P w body cr existing) :=
  hplain.dry.writePartial (B := Set.univ) hplain.mayWrite (fun _ _ => trivial)
    (fun _ _ _ _ => (hplain.dry dry_readSpan).with) (fun _ _ => trivial)
    fun record newBlobs h => hput record newBlobs h.leaves

theorem StaysPlain.store (hplain : StaysPlain D T) {body : Bytes} {K : EntryRecord → Prop}
    (hget : ∀ key, StaysWith D T (fun found => ∀ r, found = some r → K r) (ask (.getEntry key)))
    (hput : storability P w.method w.requestHeaders w.metadata body.length opts = .store →
      ∀ receipt now newBlobs, Stays D T (ask (.putEntry (w.record P receipt now) newBlobs)))
    (hhead : storability P w.method w.requestHeaders w.metadata body.length opts = .store →
      eqIgnoreAsciiCase w.method "HEAD" = true → Stays D T
        (Syndeo.reconcileHead P w.partition (normalizeUrl P w.url) w.requestHeaders w.responseHeaders))
    (hrange : storability P w.method w.requestHeaders w.metadata body.length opts = .store →
      w.status = 206 → eqIgnoreAsciiCase w.method "GET" = true → ∀ existing record newBlobs,
        (∀ r, existing = some r → K r) → w.Leaves P existing record →
          Stays D T (ask (.putEntry record newBlobs))) :
    Stays D T (storeWithProvenance P opts w body) :=
  hplain.dry.store (B := Set.univ) hplain.mayWrite (fun _ => trivial) hget
    (fun hstore _ receipt now newBlobs _ => hput hstore receipt now newBlobs) hhead
    fun hstore hstatus hmethod _ existing _ _ hK _ => hplain.writePartial
      fun record newBlobs => hrange hstore hstatus hmethod existing record newBlobs hK

theorem StaysPlain.finishStreamed (hplain : StaysPlain D T) {writer : BlobWriter}
    (hput : storability P w.method w.requestHeaders w.metadata writer.len opts = .store →
      ∀ receipt now newBlobs, Stays D T (ask (.putEntry (w.record P receipt now) newBlobs)))
    (hhead : storability P w.method w.requestHeaders w.metadata writer.len opts = .store →
      eqIgnoreAsciiCase w.method "HEAD" = true → Stays D T
        (Syndeo.reconcileHead P w.partition (normalizeUrl P w.url) w.requestHeaders w.responseHeaders)) :
    Stays D T (finishStreamed P opts w writer) :=
  hplain.dry.finishStreamed (B := Set.univ) hplain.mayWrite (fun _ => trivial)
    (fun hstore _ receipt now newBlobs _ => hput hstore receipt now newBlobs) hhead

/-! ### What follows a confirmation, and what peers are given -/

/-- What follows a confirmation that was written. -/
theorem StaysDry.confirmed (hdry : StaysDry D T) {record : EntryRecord} {key : String}
    {metadata : StoredMeta} {want : Want} {age : ℕ → ℕ} :
    Stays D T (do
      ask (.bump counters.notModified 1)
      let now ← clock
      let r ← attempt (materialize P key record metadata (age now) want)
      match r with
      | .ok response => do
        ask (.bump counters.bytesFromCache response.body.length)
        ask (.bump counters.hits 1)
        pure (some response)
      | .error e => do
        if e.isLostBody then dropBroken key record else pure ()
        throw e : CacheM (Option StoredResponse)) := by
  have hbump : ∀ {name n}, Stays D T (ask (.bump name n)) := hdry.asking trivial
  refine Stays.bind hbump fun _ => Stays.bind hdry.timed fun now =>
    (hdry dry_materialize).lift_run.bind fun r => ?_
  rcases r with e | response
  · simp only
    split
    · exact (hdry dry_dropBroken).bind fun _ => stays_throw
    · exact stays_throw
  · exact Stays.bind hbump fun _ => Stays.bind hbump fun _ => stays_pure

theorem StaysDry.grantPeerEligibility (hdry : StaysDry D T)
    {content : ContentId} {declared : Integrity}
    (hgrant : ∀ keys, Stays D T (ask (.grantEligibility content keys))) :
    Stays D T (grantPeerEligibility P content declared) := by
  rw [Syndeo.grantPeerEligibility]
  split
  · exact stays_pure
  · refine hdry.holdingShared ((hdry dry_get).lift_run.bind fun r => ?_)
    rcases r with e | bytes
    · simp only
      split
      · exact stays_pure
      · exact stays_throw
    · exact Stays.bind (hgrant _) fun _ => stays_pure

theorem StaysDry.bodyNamed (hdry : StaysDry D T) {content : ContentId} {named : Option Hash}
    (hlook : Stays D T (ask (.eligibleHashes content))) : Stays D T (bodyNamed P content named) := by
  refine Stays.bind hlook fun keys => ?_
  split
  · exact stays_pure
  · refine Stays.bind (hdry dry_get).lift_run fun r => ?_
    rcases r with e | bytes
    · simp only
      split
      · exact stays_pure
      · exact stays_throw
    · simp only
      split
      · exact stays_pure
      · exact stays_pure

theorem StaysDry.bodyForPeer (hdry : StaysDry D T) {asked : PeerAsk}
    (hlook : ∀ content, Stays D T (ask (.eligibleHashes content))) :
    Stays D T (bodyForPeer P asked) := by
  cases asked with
  | content id => exact hdry.bodyNamed (hlook id)
  | integrity hash =>
    refine Stays.bind (hdry.asking trivial) fun found => ?_
    rcases found with _ | id
    · exact stays_pure
    · exact hdry.bodyNamed (hlook id)

/-! ### Looking up -/

/-- The responses a reply carries. -/
def Reply.responses : Reply → List StoredResponse
  | .lookup (.fresh r) => [r]
  | .lookup (.stale r _ _) => [r]
  | .lookup (.revalidate r _ _ _) => [r]
  | .response (some r) => [r]
  | _ => []

/-- A lookup that gives no response, or one of the kind `Q`. -/
def Lookup.Each (Q : StoredResponse → Prop) (r : Lookup) : Prop :=
  ∀ response ∈ (Reply.lookup r).responses, Q response

/-- **What a request wants of an entry** it can be answered with. -/
structure EntryRecord.Wants (P : Platform) (requestHeaders : HeaderMap) (head : Bool)
    (r : EntryRecord) (want : Want) : Prop where
  omitBody : want.omitBody = head
  wanted : match wantedBytes P requestHeaders r r.metadata with
    | .whole => want.range = none
    | .range resolved => want.range = some resolved
    | .unusable _ => False

section Lookup

variable {partition : Option String} {method url key : String} {h : HeaderMap}
  {record : EntryRecord} {tally : List (String × ℕ)} {Q : StoredResponse → Prop} {head : Bool}

theorem each_miss {reason : String} : (Lookup.miss reason).Each Q :=
  fun _ h => absurd h List.not_mem_nil

theorem staysWith_missed (hcount : ∀ counts, Stays D T (ask (.recordAccess none 0 counts)))
    {reason : String} : StaysWith D T (Lookup.Each Q) (missed tally reason) :=
  (hcount _).with.bind fun _ _ => staysWith_pure each_miss

/-- **The rest of a lookup** gives what it reconstructs of the entry it selected. -/
theorem staysWith_lookupEntry_of
    (hwithin : ∀ {α : Type} {x : CacheM α}, x.run.Asks (CacheAct.Within key) → Stays D T x)
    (hmake : ∀ age want, record.Wants P h head want →
      StaysWith D T Q (materialize P key record record.metadata age want)) :
    StaysWith D T (Lookup.Each Q) (lookupEntry P opts h head key record tally) := by
  have hcount : ∀ counts, Stays D T (ask (.recordAccess none 0 counts)) := fun _ =>
    hwithin ⟨trivial, fun _ => trivial⟩
  have hstamp : ∀ used counts, Stays D T (ask (.recordAccess (some key) used counts)) := fun _ _ =>
    hwithin ⟨rfl, fun _ => trivial⟩
  have hgiven : ∀ {response : StoredResponse} {r : Lookup}, Q response →
      (Reply.lookup r).responses = [response] → r.Each Q := by
    intro response r hkind heq response' hmem
    rw [heq] at hmem
    rwa [List.mem_singleton.mp hmem]
  have hor : ∀ {age : ℕ} {want : Want} {serve : StoredResponse → CacheM Lookup},
      record.Wants P h head want →
      (∀ response, Q response → StaysWith D T (Lookup.Each Q) (serve response)) →
      StaysWith D T (Lookup.Each Q)
        (materializeOr P key record record.metadata age want tally serve) := by
    intro age want serve hwants hserve
    refine (hmake age want hwants).lift_run.bind fun r hr => ?_
    rcases r with e | response
    · simp only
      split
      · exact (hwithin within_dropBroken).with.bind fun _ _ => staysWith_missed hcount
      · exact staysWith_throw
    · exact hserve response (hr response rfl)
  have hgo : ∀ (now : ℕ) (want : Want), record.Wants P h head want →
      StaysWith D T (Lookup.Each Q)
        (lookupEntry.go P opts h key record tally record.metadata now want) := by
    intro now want hwants
    rw [lookupEntry.go]
    split
    · exact hor hwants fun response hkind => (hstamp _ _).with.bind fun _ _ =>
        staysWith_pure (hgiven hkind rfl)
    · exact hor hwants fun response hkind => (hstamp _ _).with.bind fun _ _ =>
        staysWith_pure (hgiven hkind rfl)
    · split
      · exact staysWith_missed hcount
      · split
        · exact staysWith_missed hcount
        · exact hor hwants fun response hkind => (hcount _).with.bind fun _ _ =>
            staysWith_pure (hgiven hkind rfl)
    · exact staysWith_missed hcount
  refine (hwithin (x := clock) ⟨trivial, fun _ => trivial⟩).with.bind fun now _ => ?_
  split
  · exact staysWith_missed hcount
  · rename_i resolved hwanted
    exact hgo now _ ⟨rfl, by rw [hwanted]⟩
  · rename_i hwanted
    exact hgo now _ ⟨rfl, by rw [hwanted]⟩

theorem staysWith_selected {head : Bool} {selected : Option (String × EntryRecord)}
    (hcount : ∀ counts, Stays D T (ask (.recordAccess none 0 counts)))
    (hentry : ∀ key r, selected = some (key, r) → StaysWith D T (Lookup.Each Q)
      (lookupEntry P opts h head key r tally)) :
    StaysWith D T (Lookup.Each Q) (match selected with
      | none => missed tally "no stored variant"
      | some (key, record) => lookupEntry P opts h head key record tally) := by
  rcases selected with _ | ⟨key, record⟩
  · exact staysWith_missed hcount
  · exact hentry key record rfl

/-- **A lookup gives what it reconstructed** of an entry that its request selects. -/
theorem staysWith_lookup_of {G : String → EntryRecord → Prop}
    (hcount : ∀ counts, Stays D T (ask (.recordAccess none 0 counts)))
    (hwithin : ∀ key r, G key r → ∀ {α : Type} {x : CacheM α},
      x.run.Asks (CacheAct.Within key) → Stays D T x)
    (hselect : isCacheableMethod method = true →
      ∀ m, m = method ∨ m = "GET" ∧ eqIgnoreAsciiCase method "HEAD" = true →
        StaysWith D T (fun selected => ∀ key r, selected = some (key, r) → G key r)
          (selectVariant P partition m (normalizeUrl P url) h))
    (hmake : ∀ key r age want, G key r → r.Wants P h (eqIgnoreAsciiCase method "HEAD") want →
      StaysWith D T Q (materialize P key r r.metadata age want)) :
    StaysWith D T (Lookup.Each Q) (lookup P opts partition method url h) := by
  have hentry : ∀ key r, G key r → StaysWith D T (Lookup.Each Q)
      (lookupEntry P opts h (eqIgnoreAsciiCase method "HEAD") key r [(counters.requests, 1)]) :=
    fun key r hG => staysWith_lookupEntry_of (hwithin key r hG) fun age want =>
      hmake key r age want hG
  rw [lookup]
  simp only
  split
  · exact staysWith_missed hcount
  · rename_i hmethod
    have hselect := hselect (by simpa using hmethod)
    refine (hselect method (Or.inl rfl)).bind fun own hown => ?_
    split
    · rename_i hhead
      have hhead := (Bool.and_eq_true_iff.mp hhead).2
      exact (hselect "GET" (Or.inr ⟨rfl, hhead⟩)).bind fun selected hselected =>
        staysWith_selected hcount fun key r hr => hentry key r (hselected key r hr)
    · exact staysWith_selected hcount fun key r hr => hentry key r (hown key r hr)

end Lookup

/-! ### How much is read -/

section Length

variable {T : τ → Prop} {key : String} {record : EntryRecord} {metadata : StoredMeta} {age : ℕ}
  {partition : Option String} {method url : String} {requestHeaders : HeaderMap}

/-- **A span that is read** is no longer than up to its end. -/
theorem staysWith_readSpan_length
    (hread : ∀ {α : Type} {x : CacheM α}, x.run.Asks CacheAct.OnFiles → Stays D T x) {stop : ℕ} :
    StaysWith D T (fun body => body.length ≤ stop) (readSpan P record 0 stop) := by
  have hsegments : ∀ (segments : List Segment) (cursor : ℕ) (out : Bytes),
      out.length ≤ cursor → cursor ≤ stop →
      StaysWith D T (fun r => r.1.length ≤ stop) (readSegments P stop segments cursor out) := by
    intro segments
    induction segments with
    | nil => exact fun cursor out hout hcursor => staysWith_pure (hout.trans hcursor)
    | cons segment rest ih =>
      intro cursor out hout hcursor
      rw [readSegments]
      split
      · exact ih cursor out hout hcursor
      · split
        · exact staysWith_pure (hout.trans hcursor)
        · refine (hread files_get).with.bind fun bytes _ => ?_
          have hpart : ((bytes.take (min (min stop segment.stop - segment.start) bytes.length)).drop
              (min (cursor - segment.start)
                (min (min stop segment.stop - segment.start) bytes.length))).length ≤
              min stop segment.stop - cursor := by
            rw [List.length_drop, List.length_take]
            omega
          have hlength : (out ++ (bytes.take (min (min stop segment.stop - segment.start)
              bytes.length)).drop (min (cursor - segment.start)
                (min (min stop segment.stop - segment.start) bytes.length))).length ≤
              min stop segment.stop := by
            rw [List.length_append]
            omega
          simp only
          split
          · exact staysWith_pure (hlength.trans (min_le_left _ _))
          · exact ih _ _ hlength (min_le_left _ _)
  rw [readSpan]
  split
  · refine (hread files_get).with.bind fun body _ => staysWith_pure ?_
    rw [List.length_drop, List.length_take]
    omega
  · refine (hsegments _ 0 [] le_rfl (Nat.zero_le _)).bind fun r hr => ?_
    obtain ⟨out, cursor⟩ := r
    simp only
    split
    · exact staysWith_throw
    · exact staysWith_pure hr

/-- **What is reconstructed of an entry** is no longer than its body, and has none where
that is left out. -/
theorem staysWith_materialize_length
    (hread : ∀ {α : Type} {x : CacheM α}, x.run.Asks CacheAct.OnFiles → Stays D T x) {want : Want}
    (hwant : want.omitBody = true ∨ want.range = none) :
    StaysWith D T (fun response => response.body.length ≤
        if want.omitBody then 0 else record.body.completeLen.getD 0)
      (materialize P key record metadata age want) := by
  obtain ⟨range, omitBody⟩ := want
  cases omitBody with
  | true => exact staysWith_pure le_rfl
  | false =>
    obtain rfl : range = none := hwant.resolve_left Bool.false_ne_true
    exact (staysWith_readSpan_length hread).bind fun body hbody => staysWith_pure hbody

/-- **To a `HEAD` a lookup gives no body.** -/
theorem each_head_of_lookup (h : eqIgnoreAsciiCase method "HEAD" = true) :
    (lookup P opts partition method url requestHeaders).run.Obeys (.free CacheAct) (fun r _ =>
      ∀ found, r = .ok found → found.Each fun response => response.body = []) () := by
  have hfree : ∀ {α : Type} {x : CacheM α}, Stays (.free CacheAct) (fun _ => True) x :=
    Prog.stays_free
  have hlookup : StaysWith (.free CacheAct) (fun _ => True)
      (Lookup.Each fun response => response.body = [])
      (lookup P opts partition method url requestHeaders) := by
    refine staysWith_lookup_of (G := fun _ _ => True) (fun _ => hfree)
      (fun _ _ _ {_} {_} _ => hfree)
      (fun _ _ _ => hfree.with.mono fun _ _ _ _ _ => trivial) fun key r age want _ hwants => ?_
    have homit : want.omitBody = true := hwants.omitBody.trans h
    refine (staysWith_materialize_length (fun _ => hfree) (Or.inl homit)).mono fun response hle => ?_
    rw [homit, if_pos rfl] at hle
    exact List.length_eq_zero_iff.mp (Nat.le_zero.mp hle)
  refine (hlookup () trivial).mono fun r _ hr found hfound => ?_
  rw [hfound] at hr
  exact hr.2

end Length

end Syndeo
