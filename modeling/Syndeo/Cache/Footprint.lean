import Syndeo.Cache.Operations

/-!
# What the operations ask for

The kinds of steps that the parts of an operation are made of, whatever those
steps are answered. A statement about one kind of step then passes over all the
parts that never take it.
-/

namespace Syndeo

open Concurrent
open Text (eqIgnoreAsciiCase)
open Prog (Asks Stays StaysWith asks_run_bind asks_lift_run stays_pure stays_throw staysWith_pure)

/-! ### What a transaction leaves alone -/

/-- The transaction may write an entry or take one out. -/
def IndexAct.TouchesEntries : ∀ {β : Type}, IndexAct β → Prop
  | _, .putEntry _ _ => True
  | _, .refreshEntry _ => True
  | _, .invalidate _ _ _ => True
  | _, .removeEntry _ => True
  | _, .dropBrokenEntry _ _ => True
  | _, .dropEntryHolding _ _ => True
  | _, .recordAccess _ _ _ => True
  | _, .clear => True
  | _, _ => False

theorem Index.entries_forget {ix : Index} {id : ContentId} :
    (ix.forgetBlobIfUnreferenced id).2.entries = ix.entries := by
  rw [forgetBlobIfUnreferenced]
  split
  · split <;> rfl
  · rfl

theorem Index.entries_grant {ix : Index} {id : ContentId} {verified : List Bytes} :
    (ix.grantEligibility id verified).2.entries = ix.entries := by
  unfold grantEligibility
  split
  · rfl
  · simp only
    split <;> rfl

/-- The other transactions leave the entries as they are. -/
theorem IndexAct.run_entries {ix ix' : Index} {β : Type} {a : IndexAct β} {b : β}
    (ha : ¬a.TouchesEntries) (hrun : a.run ix = .ok (b, ix')) : ix'.entries = ix.entries := by
  cases a with
  | putEntry record newBlobs => exact absurd trivial ha
  | refreshEntry record => exact absurd trivial ha
  | invalidate partition method url => exact absurd trivial ha
  | removeEntry key => exact absurd trivial ha
  | dropBrokenEntry key expected => exact absurd trivial ha
  | dropEntryHolding key expected => exact absurd trivial ha
  | recordAccess key now tally => exact absurd trivial ha
  | clear => exact absurd trivial ha
  | forgetBlobIfUnreferenced id =>
    obtain rfl := (Prod.mk.inj (Except.ok.inj hrun)).2
    exact Index.entries_forget
  | grantEligibility id verified =>
    obtain rfl := (Prod.mk.inj (Except.ok.inj hrun)).2
    exact Index.entries_grant
  | _ =>
    obtain rfl := (Prod.mk.inj (Except.ok.inj hrun)).2
    rfl

/-- Removing one entry leaves the others. -/
theorem Index.lookup_removeEntry_of_ne {ix : Index} {k key : String} (h : k ≠ key) :
    (ix.removeEntry k).2.entries.lookup key = ix.entries.lookup key := by
  rw [removeEntry]
  split
  · rfl
  · exact AList.lookup_erase_ne h.symm

/-- A removed entry is gone. -/
theorem Index.lookup_removeEntry {ix : Index} {key : String} :
    (ix.removeEntry key).2.entries.lookup key = none := by
  rw [removeEntry]
  split
  · assumption
  · exact AList.lookup_erase _ _

/-- The transaction takes entries out and writes none. -/
def IndexAct.TakesOut : ∀ {β : Type}, IndexAct β → Prop
  | _, .invalidate _ _ _ => True
  | _, .removeEntry _ => True
  | _, .dropBrokenEntry _ _ => True
  | _, .dropEntryHolding _ _ => True
  | _, .clear => True
  | _, _ => False

namespace Index

variable {ix : Index} {k key pkey : String} {record : EntryRecord}

theorem lookup_of_removeKey (h : (ix.removeKey key).2.entries.lookup k = some record) :
    ix.entries.lookup k = some record := by
  have herase : (ix.entries.erase key).lookup k = some record := h
  rcases eq_or_ne k key with rfl | hne
  · rw [AList.lookup_erase] at herase
    exact absurd herase (by simp)
  · rwa [AList.lookup_erase_ne hne] at herase

theorem lookup_of_removeVariants {keys : List String}
    (h : (removeVariants pkey keys ix).2.entries.lookup k = some record) :
    ix.entries.lookup k = some record := by
  induction keys generalizing ix with
  | nil => exact h
  | cons v keys ih => exact lookup_of_removeKey (ih h)

theorem lookup_of_removeEntry (h : (ix.removeEntry key).2.entries.lookup k = some record) :
    ix.entries.lookup k = some record := by
  rw [removeEntry] at h
  split at h
  · exact h
  · exact lookup_of_removeKey h

theorem lookup_of_dropEntryIfUnchanged {expected : EntryRecord} {revoke : Bool}
    (h : (ix.dropEntryIfUnchanged key expected revoke).2.entries.lookup k = some record) :
    ix.entries.lookup k = some record := by
  rw [dropEntryIfUnchanged] at h
  split at h
  · simp only at h
    split at h
    · exact lookup_of_removeEntry h
    · exact lookup_of_removeEntry h
  · exact h

end Index

/-- What is there after entries were taken out was there before. -/
theorem IndexAct.lookup_of_takesOut {ix ix' : Index} {β : Type} {a : IndexAct β} {b : β}
    {k : String} {record : EntryRecord} (ha : a.TakesOut) (hrun : a.run ix = .ok (b, ix'))
    (h : ix'.entries.lookup k = some record) : ix.entries.lookup k = some record := by
  cases a with
  | invalidate partition method url =>
    obtain rfl := (Prod.mk.inj (Except.ok.inj hrun)).2
    exact Index.lookup_of_removeVariants h
  | removeEntry key =>
    obtain rfl := (Prod.mk.inj (Except.ok.inj hrun)).2
    exact Index.lookup_of_removeEntry h
  | dropBrokenEntry key expected =>
    obtain rfl := (Prod.mk.inj (Except.ok.inj hrun)).2
    exact Index.lookup_of_dropEntryIfUnchanged h
  | dropEntryHolding key expected =>
    obtain rfl := (Prod.mk.inj (Except.ok.inj hrun)).2
    exact Index.lookup_of_dropEntryIfUnchanged h
  | clear =>
    obtain rfl := (Prod.mk.inj (Except.ok.inj hrun)).2
    exact absurd h (by simp)
  | _ => exact ha.elim

/-! ### Deleting and evicting -/

/-- The steps of a deletion. -/
def CacheAct.Deletes : ∀ {β : Type}, CacheAct β → Prop
  | _, .index (.forgetBlobIfUnreferenced _) => True
  | _, .file (.remove _) => True
  | _, .gate _ => True
  | _, _ => False

/-- The steps of an eviction. -/
def CacheAct.Evicts : ∀ {β : Type}, CacheAct β → Prop
  | _, .index .blobTotals => True
  | _, .index .allEntries => True
  | _, .index (.removeEntry _) => True
  | _, .index (.getBlob _) => True
  | _, .index (.bump _ _) => True
  | _, a => a.Deletes

theorem CacheAct.Deletes.evicts {β : Type} {a : CacheAct β} (h : a.Deletes) : a.Evicts := by
  cases a with
  | index a => cases a <;> trivial
  | _ => exact h

section Programs

variable {P : Platform} {opts : CacheOptions} {H : ∀ {β : Type}, CacheAct β → Prop} {α : Type}

theorem asks_attempt {x : CacheM α} (hx : x.run.Asks H) : (attempt x).run.Asks H := asks_lift_run hx

theorem asks_holdingExclusive {x : CacheM α} (hx : x.run.Asks CacheAct.Deletes) :
    (holdingExclusive x).run.Asks CacheAct.Deletes :=
  asks_run_bind ⟨trivial, fun _ => trivial⟩ fun _ => asks_run_bind (asks_attempt hx) fun _ =>
    asks_run_bind ⟨trivial, fun _ => trivial⟩ fun _ => trivial

theorem asks_deleteEach {ids : List ContentId} :
    (deleteEach ids).run.Asks CacheAct.Deletes := by
  induction ids with
  | nil => trivial
  | cons id rest ih =>
    rw [deleteEach]
    refine asks_run_bind ⟨trivial, fun _ => trivial⟩ fun forgotten => ?_
    split
    · exact asks_run_bind (asks_run_bind ⟨trivial, fun _ => trivial⟩ fun _ => trivial) fun _ =>
        asks_run_bind ih fun _ => trivial
    · exact ih

theorem asks_deleteOrphans {ids : List ContentId} :
    (deleteOrphans ids).run.Asks CacheAct.Deletes := by
  rw [deleteOrphans]
  split
  · trivial
  · exact asks_holdingExclusive asks_deleteEach

theorem asks_releaseFrom {ids : List ContentId} {onDisk : ℕ} :
    (releaseFrom ids onDisk).run.Asks CacheAct.Evicts := by
  induction ids generalizing onDisk with
  | nil => trivial
  | cons id rest ih =>
    rw [releaseFrom]
    refine asks_run_bind ⟨trivial, fun _ => trivial⟩ fun blob => ?_
    rcases blob with _ | blob
    · exact ih
    · exact ih

theorem asks_evictFrom {target onDisk evicted : ℕ} {candidates : List (String × EntryRecord)} :
    (evictFrom target candidates onDisk evicted).run.Asks CacheAct.Evicts := by
  induction candidates generalizing onDisk evicted with
  | nil => trivial
  | cons candidate rest ih =>
    rw [evictFrom]
    split
    · trivial
    · exact asks_run_bind ⟨trivial, fun _ => trivial⟩ fun _ => asks_run_bind asks_releaseFrom fun _ =>
        asks_run_bind (asks_deleteOrphans.mono fun _ => CacheAct.Deletes.evicts) fun _ => ih

theorem asks_enforceBudget : (enforceBudget P opts).run.Asks CacheAct.Evicts := by
  rw [enforceBudget]
  split
  · trivial
  · refine asks_run_bind ⟨trivial, fun _ => trivial⟩ fun totals => ?_
    obtain ⟨-, -, onDisk, -⟩ := totals
    simp only
    split
    · trivial
    · refine asks_run_bind ⟨trivial, fun _ => trivial⟩ fun _ => asks_run_bind asks_evictFrom
        fun evicted => ?_
      split
      · exact asks_run_bind ⟨trivial, fun _ => trivial⟩ fun _ => trivial
      · trivial

end Programs

/-! ### Everything but entries and peers -/

/-- The step reads the index or the clock. -/
def CacheAct.Reads : ∀ {β : Type}, CacheAct β → Prop
  | _, .index (.getEntry _) => True
  | _, .index (.variantKeys _ _ _) => True
  | _, .now => True
  | _, _ => False

/-- The step writes no entry, makes nothing known to peers, and does not ask what is. -/
def CacheAct.Plain : ∀ {β : Type}, CacheAct β → Prop
  | _, .index (.putEntry _ _) => False
  | _, .index (.refreshEntry _) => False
  | _, .index (.grantEligibility _ _) => False
  | _, .index (.eligibleHashes _) => False
  | _, _ => True

/-- The step is plain, and writes no file. -/
def CacheAct.Dry : ∀ {β : Type}, CacheAct β → Prop
  | _, .file (.write _ _) => False
  | _, a => a.Plain

/-- The step is a call to the file system that writes no file. -/
def CacheAct.OnFiles : ∀ {β : Type}, CacheAct β → Prop
  | _, .file (.write _ _) => False
  | _, .file _ => True
  | _, _ => False

/-- The step touches no entry but the one under this key, and that one to stamp it or to
drop it. -/
def CacheAct.Within (key : String) : ∀ {β : Type}, CacheAct β → Prop
  | _, .index (.recordAccess (some k) _ _) => k = key
  | _, .index (.recordAccess none _ _) => True
  | _, .index (.dropBrokenEntry k _) => k = key
  | _, .index (.bump _ _) => True
  | _, .index (.forgetBlobIfUnreferenced _) => True
  | _, .index _ => False
  | _, .file (.write _ _) => False
  | _, _ => True

theorem CacheAct.Dry.plain {β : Type} {a : CacheAct β} (h : a.Dry) : a.Plain := by
  cases a with
  | file a => trivial
  | _ => exact h

theorem CacheAct.OnFiles.within {key : String} {β : Type} {a : CacheAct β} (h : a.OnFiles) :
    a.Within key := by
  cases a with
  | file a => cases a <;> trivial
  | _ => exact h.elim

theorem CacheAct.Deletes.within {key : String} {β : Type} {a : CacheAct β} (h : a.Deletes) :
    a.Within key := by
  cases a with
  | index a => cases a <;> trivial
  | file a => cases a <;> trivial
  | _ => trivial

theorem CacheAct.Within.dry {key : String} {β : Type} {a : CacheAct β} (h : a.Within key) :
    a.Dry := by
  cases a with
  | index a => cases a <;> trivial
  | file a => cases a <;> trivial
  | _ => trivial

theorem CacheAct.OnFiles.dry {β : Type} {a : CacheAct β} (h : a.OnFiles) : a.Dry :=
  CacheAct.Within.dry (CacheAct.OnFiles.within h : a.Within "")

theorem CacheAct.Reads.dry {β : Type} {a : CacheAct β} (h : a.Reads) : a.Dry := by
  cases a with
  | index a => cases a <;> trivial
  | file a => cases a <;> trivial
  | _ => trivial

theorem CacheAct.Deletes.dry {β : Type} {a : CacheAct β} (h : a.Deletes) : a.Dry :=
  CacheAct.Within.dry (CacheAct.Deletes.within h : a.Within "")

theorem CacheAct.Evicts.dry {β : Type} {a : CacheAct β} (h : a.Evicts) : a.Dry := by
  cases a with
  | index a => cases a <;> trivial
  | file a => cases a <;> trivial
  | _ => trivial

/-- What is dry is plain. -/
theorem asks_plain {α : Type} {x : Prog CacheAct α} (h : x.Asks CacheAct.Dry) :
    x.Asks CacheAct.Plain :=
  h.mono fun _ => CacheAct.Dry.plain

section Plain

variable {P : Platform} {opts : CacheOptions} {partition : Option String} {method url key : String}
  {requestHeaders : HeaderMap} {record : EntryRecord} {tally : List (String × ℕ)}

theorem asks_selectAmong {candidates : List String} :
    (selectAmong P partition method url requestHeaders candidates).run.Asks CacheAct.Reads := by
  induction candidates with
  | nil => trivial
  | cons candidate rest ih =>
    refine asks_run_bind ⟨trivial, fun _ => trivial⟩ fun found => ?_
    rcases found with _ | record
    · exact ih
    · simp only
      split
      · trivial
      · exact ih

theorem asks_selectVariant :
    (selectVariant P partition method url requestHeaders).run.Asks CacheAct.Reads :=
  asks_run_bind ⟨trivial, fun _ => trivial⟩ fun _ => asks_selectAmong

theorem dry_selectVariant :
    (selectVariant P partition method url requestHeaders).run.Asks CacheAct.Dry :=
  asks_selectVariant.mono fun _ => CacheAct.Reads.dry

theorem dry_deleteOrphans {ids : List ContentId} : (deleteOrphans ids).run.Asks CacheAct.Dry :=
  asks_deleteOrphans.mono fun _ => CacheAct.Deletes.dry

theorem dry_enforceBudget : (enforceBudget P opts).run.Asks CacheAct.Dry :=
  asks_enforceBudget.mono fun _ => CacheAct.Evicts.dry

theorem files_get {id : ContentId} : (get P id).run.Asks CacheAct.OnFiles := by
  refine asks_run_bind ⟨trivial, fun _ => trivial⟩ fun file => ?_
  rcases file with _ | raw
  · trivial
  · refine asks_run_bind (x := ExceptT.mk (pure (decodeFile P raw))) trivial fun decoded => ?_
    rcases decoded with _ | bytes
    · trivial
    · simp only
      split
      · trivial
      · exact asks_run_bind (asks_attempt ⟨trivial, fun _ => trivial⟩) fun _ => trivial

theorem files_readSegments {stop cursor : ℕ} {segments : List Segment} {out : Bytes} :
    (readSegments P stop segments cursor out).run.Asks CacheAct.OnFiles := by
  induction segments generalizing cursor out with
  | nil => trivial
  | cons seg rest ih =>
    rw [readSegments]
    split
    · exact ih
    · split
      · trivial
      · refine asks_run_bind files_get fun bytes => ?_
        simp only
        split
        · trivial
        · exact ih

theorem files_readSpan {first stop : ℕ} :
    (readSpan P record first stop).run.Asks CacheAct.OnFiles := by
  rw [readSpan]
  split
  · exact asks_run_bind files_get fun _ => trivial
  · refine asks_run_bind files_readSegments fun r => ?_
    simp only
    split <;> trivial

theorem files_materialize {metadata : StoredMeta} {age : ℕ} {want : Want} :
    (materialize P key record metadata age want).run.Asks CacheAct.OnFiles := by
  obtain ⟨range, omitBody⟩ := want
  cases omitBody with
  | true => trivial
  | false =>
    rcases range with _ | resolved
    · exact asks_run_bind files_readSpan fun _ => trivial
    · exact asks_run_bind files_readSpan fun _ => trivial

theorem dry_get {id : ContentId} : (get P id).run.Asks CacheAct.Dry :=
  files_get.mono fun _ => CacheAct.OnFiles.dry

theorem dry_readSpan {first stop : ℕ} :
    (readSpan P record first stop).run.Asks CacheAct.Dry :=
  files_readSpan.mono fun _ => CacheAct.OnFiles.dry

theorem dry_materialize {metadata : StoredMeta} {age : ℕ} {want : Want} :
    (materialize P key record metadata age want).run.Asks CacheAct.Dry :=
  files_materialize.mono fun _ => CacheAct.OnFiles.dry

theorem within_dropBroken : (dropBroken key record).run.Asks (CacheAct.Within key) := by
  refine asks_run_bind ⟨rfl, fun _ => trivial⟩ fun orphaned => ?_
  rcases orphaned with _ | orphaned
  · trivial
  · exact asks_run_bind ⟨trivial, fun _ => trivial⟩ fun _ =>
      asks_run_bind (asks_deleteOrphans.mono fun _ => CacheAct.Deletes.within) fun _ => trivial

theorem dry_dropBroken : (dropBroken key record).run.Asks CacheAct.Dry :=
  within_dropBroken.mono fun _ => CacheAct.Within.dry

theorem within_missed {reason : String} : (missed tally reason).run.Asks (CacheAct.Within key) :=
  asks_run_bind ⟨trivial, fun _ => trivial⟩ fun _ => trivial

theorem within_materializeOr {metadata : StoredMeta} {age : ℕ} {want : Want}
    {serve : StoredResponse → CacheM Lookup}
    (hserve : ∀ r, (serve r).run.Asks (CacheAct.Within key)) :
    (materializeOr P key record metadata age want tally serve).run.Asks (CacheAct.Within key) := by
  refine asks_run_bind (asks_attempt (files_materialize.mono fun _ => CacheAct.OnFiles.within))
    fun r => ?_
  rcases r with e | response
  · simp only
    split
    · exact asks_run_bind within_dropBroken fun _ =>
        asks_run_bind ⟨trivial, fun _ => trivial⟩ fun _ => trivial
    · trivial
  · exact hserve response

/-- **What is left of a lookup** once an entry is selected touches no other entry. -/
theorem within_lookupEntry {head : Bool} :
    (lookupEntry P opts requestHeaders head key record tally).run.Asks (CacheAct.Within key) := by
  have hserve : ∀ {used : ℕ} {counts : List (String × ℕ)} {L : Lookup},
      (do ask (.recordAccess (some key) used counts); pure L : CacheM Lookup).run.Asks
        (CacheAct.Within key) :=
    asks_run_bind ⟨rfl, fun _ => trivial⟩ fun _ => trivial
  have hgo : ∀ (metadata : StoredMeta) (now : ℕ) (want : Want),
      (lookupEntry.go P opts requestHeaders key record tally metadata now want).run.Asks
        (CacheAct.Within key) := by
    intro metadata now want
    rw [lookupEntry.go]
    split
    · exact within_materializeOr fun _ => hserve
    · exact within_materializeOr fun _ => hserve
    · split
      · exact within_missed
      · split
        · exact within_missed
        · exact within_materializeOr fun _ => asks_run_bind ⟨trivial, fun _ => trivial⟩
            fun _ => trivial
    · exact within_missed
  refine asks_run_bind ⟨trivial, fun _ => trivial⟩ fun now => ?_
  split
  · exact within_missed
  · exact hgo _ _ _
  · exact hgo _ _ _

theorem dry_missed {reason : String} : (missed tally reason).run.Asks CacheAct.Dry :=
  asks_run_bind ⟨trivial, fun _ => trivial⟩ fun _ => trivial

theorem dry_lookupEntry {head : Bool} :
    (lookupEntry P opts requestHeaders head key record tally).run.Asks CacheAct.Dry :=
  within_lookupEntry.mono fun _ => CacheAct.Within.dry

theorem dry_selected {head : Bool} (selected : Option (String × EntryRecord)) :
    (match selected with
      | none => missed tally "no stored variant"
      | some (key, record) =>
        lookupEntry P opts requestHeaders head key record tally).run.Asks CacheAct.Dry := by
  rcases selected with _ | ⟨key, record⟩
  · exact dry_missed
  · exact dry_lookupEntry

theorem dry_lookup :
    (lookup P opts partition method url requestHeaders).run.Asks CacheAct.Dry := by
  rw [lookup]
  simp only
  split
  · exact dry_missed
  · refine asks_run_bind dry_selectVariant fun own => ?_
    split
    · exact asks_run_bind dry_selectVariant dry_selected
    · exact dry_selected own

theorem plain_put {bytes : Bytes} : (put P bytes).run.Asks CacheAct.Plain := by
  refine asks_run_bind (asks_attempt ⟨trivial, fun _ => trivial⟩) fun there => ?_
  split
  · refine asks_run_bind ⟨trivial, fun _ => trivial⟩ fun file => ?_
    rcases file with _ | raw
    · trivial
    · refine asks_run_bind ⟨trivial, fun _ => trivial⟩ fun file => ?_
      exact asks_run_bind (x := ExceptT.mk (pure (readCompression file))) trivial fun _ => trivial
  · exact asks_run_bind ⟨trivial, fun _ => trivial⟩ fun _ => trivial

theorem dry_countDeduped {receipt : WriteReceipt} :
    (countDeduped receipt).run.Asks CacheAct.Dry := by
  rw [countDeduped]
  split
  · trivial
  · exact ⟨trivial, fun _ => trivial⟩

theorem plain_adopt {writer : BlobWriter} : (adopt P writer).run.Asks CacheAct.Plain := plain_put

theorem dry_rejected {reason : String} : (rejected reason).run.Asks CacheAct.Dry :=
  asks_run_bind ⟨trivial, fun _ => trivial⟩ fun _ => trivial

theorem dry_discardRepresentation {content : ContentId} :
    (discardRepresentation key content).run.Asks CacheAct.Dry := by
  refine asks_run_bind ⟨trivial, fun _ => trivial⟩ fun found => ?_
  rcases found with _ | record
  · trivial
  · simp only
    split
    · refine asks_run_bind ⟨trivial, fun _ => trivial⟩ fun orphaned => ?_
      rcases orphaned with _ | orphaned
      · trivial
      · exact asks_run_bind dry_deleteOrphans fun _ => trivial
    · trivial

theorem dry_invalidateUrl : (invalidateUrl P partition method url).run.Asks CacheAct.Dry := by
  rw [invalidateUrl]
  split
  · trivial
  · exact asks_run_bind ⟨trivial, fun _ => trivial⟩ fun _ => asks_run_bind dry_deleteOrphans
      fun _ => asks_run_bind ⟨trivial, fun _ => trivial⟩ fun _ =>
        asks_run_bind dry_deleteOrphans fun _ => trivial

theorem dry_purge : (purge P partition method url).run.Asks CacheAct.Dry :=
  asks_run_bind ⟨trivial, fun _ => trivial⟩ fun _ => asks_run_bind dry_deleteOrphans fun _ => trivial

theorem dry_collectGarbage : collectGarbage.run.Asks CacheAct.Dry := by
  refine asks_run_bind ⟨trivial, fun _ => trivial⟩ fun _ => asks_run_bind dry_deleteOrphans
    fun _ => asks_run_bind ?_ fun _ => trivial
  refine asks_run_bind ⟨trivial, fun _ => trivial⟩ fun stale => ?_
  split
  · trivial
  · exact asks_run_bind ⟨trivial, fun _ => trivial⟩ fun _ => trivial

theorem dry_clear : clear.run.Asks CacheAct.Dry := by
  have hremove : ∀ ids, (removeEach ids).run.Asks CacheAct.Dry := by
    intro ids
    induction ids with
    | nil => trivial
    | cons id rest ih =>
      refine asks_run_bind ⟨trivial, fun _ => trivial⟩ fun there => ?_
      split
      · exact asks_run_bind ih fun _ => trivial
      · trivial
  refine asks_run_bind ⟨trivial, fun _ => trivial⟩ fun _ => asks_run_bind (asks_attempt ?_) fun _ =>
    asks_run_bind ⟨trivial, fun _ => trivial⟩ fun _ => trivial
  exact asks_run_bind ⟨trivial, fun _ => trivial⟩ fun _ =>
    asks_run_bind (asks_run_bind ⟨trivial, fun _ => trivial⟩ hremove) fun _ => trivial

theorem dry_acceptPeerBody {integrity : Integrity} {body : Bytes} :
    (acceptPeerBody P integrity body).run.Asks CacheAct.Dry := by
  rw [acceptPeerBody]
  split
  · exact ⟨trivial, fun _ => trivial⟩
  · exact asks_run_bind ⟨trivial, fun _ => trivial⟩ fun _ => trivial

end Plain

end Syndeo
