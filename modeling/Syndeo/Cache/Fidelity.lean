import Syndeo.Cache.Partitions

/-!
# What a hit says of the fields that were sent

A response is stored as text. Of a field that is stored, the values that are text
come back, each with its bytes and in their order, and the others are left out:
`HeaderValue` also admits the bytes from 128 on, and a value with one of those is not
text.

In every run a hit is made of an entry that one of the operations stored, and unless
one of them folds fresh fields into an entry, with the fields of its response
(`Syndeo.EntryRecord.HeadersOf`). A field that is owed to the client
(`Syndeo.Storing.Owes`) is then replayed as it was sent exactly when all its values are
text (`Syndeo.replayed_iff`).
-/

namespace Syndeo

open Concurrent Tables
open Text (eqIgnoreAsciiCase)
open Prog (Stays StaysWith staysWith_pure stays_free obeys_run_bind)

/-! ### Fields that are owed -/

/-- **A hit owes the client this field**: it is not the connection's, is never left out and
not suppressed, and is none of those that the cache states itself. -/
structure Storing.Owes (w : Storing) (range : Option Resolved) (n : HeaderName) : Prop where
  endToEnd : isHopByHop n.text (connectionTokens w.responseHeaders) = false
  stored : isNeverStored n.text = false
  unsuppressed : ∀ f ∈ suppressedFields w.metadata, HeaderName.fromBytes f ≠ some n
  age : n ≠ header.age
  length : range.isSome = true ∨ w.status = 206 → n ≠ header.contentRange ∧ n ≠ header.contentLength

/-- **The entry has the fields of this store's response**, as storage keeps them. -/
def EntryRecord.HeadersOf (w : Storing) (r : EntryRecord) : Prop :=
  r.headers = .forStorage w.responseHeaders ∨ w.status = 206 ∧ ∃ completeLen,
    r.headers = .forStorage (representationHeaders w.responseHeaders completeLen)

/-- The entry was stored by one of the operations, and has the fields of its response, or
there is one that folds fresh fields into entries. -/
def EntryRecord.SentBy (P : Platform) (ops : List Op) (r : EntryRecord) : Prop :=
  (∃ op ∈ ops, ∃ w bodyLen, op.Stores w bodyLen ∧ r.StoredAs P w ∧ r.HeadersOf w) ∨
    r.StoredBy P ops ∧ ∃ op ∈ ops, op.Folds

/-- **The response is served with what is said of it**, and with what the cache states. -/
def StoredResponse.Served (response : StoredResponse) : Prop :=
  response.headers = servedHeaders response.metadata response.age response.range

section Fields

variable {P : Platform} {opts : CacheOptions} {ops : List Op} {w : Storing} {r : EntryRecord}
  {range : Option Resolved} {n m : HeaderName} {h : HeaderMap}

theorem EntryRecord.SentBy.storedBy (hr : r.SentBy P ops) : r.StoredBy P ops := by
  rcases hr with ⟨op, hop, w, k, hstores, h, -⟩ | ⟨hstored, -⟩
  · exact ⟨op, hop, w, k, hstores, h⟩
  · exact hstored

/-- What the entries are, that the operations write. -/
theorem written_sentBy : Written P opts ops (EntryRecord.SentBy P ops) where
  touched := fun r now hr => by
    have hby : Written P opts ops (EntryRecord.StoredBy P ops) := written_storedBy
    rcases hr with ⟨op, hop, w, k, hstores, h, hheaders⟩ | ⟨hstored, hfolds⟩
    · exact Or.inl ⟨op, hop, w, k, hstores,
        ⟨h.cacheable, h.partition, h.method, h.url, h.varyKey⟩, hheaders⟩
    · exact Or.inr ⟨hby.touched r now hstored, hfolds⟩
  variant := fun r hr => by
    have hby : Written P opts ops (EntryRecord.StoredBy P ops) := written_storedBy
    exact hby.variant r hr.storedBy
  whole := fun op hop w bodyLen hstores hstore _ _ => Or.inl ⟨op, hop, w, bodyLen, hstores,
    ⟨isCacheableMethod_of_store hstore, rfl, rfl, rfl, rfl⟩, Or.inl rfl⟩
  range := fun op hop w bodyLen hstores hstore hstatus hget _ _ _ hleaves => by
    obtain ⟨completeLen, _, _, _, rfl⟩ := hleaves.fields
    exact Or.inl ⟨op, hop, w, bodyLen, hstores, ⟨isCacheableMethod_of_store hstore, rfl,
      (Text.eqIgnoreAsciiCase_iff.mp hget).symm, rfl, rfl⟩, Or.inr ⟨hstatus, completeLen, rfl⟩⟩
  folded := fun op hop hfolds r headers requestTime responseTime hr => by
    have hby : Written P opts ops (EntryRecord.StoredBy P ops) := written_storedBy
    exact Or.inr ⟨hby.folded op hop hfolds r headers requestTime responseTime hr.storedBy,
      op, hop, hfolds⟩

/-- Putting text into another field leaves a field alone. -/
theorem getAll_insertText_of_ne {text : String} (hne : n ≠ m) :
    (insertText h m text).getAll n = h.getAll n := by
  rw [insertText]
  split
  · exact HeaderMap.getAll_insert_of_ne hne
  · rfl

/-- So does removing others. -/
theorem getAll_foldl_remove_of_not_mem {names : List HeaderName} (hnot : n ∉ names) :
    (names.foldl HeaderMap.remove h).getAll n = h.getAll n := by
  induction names generalizing h with
  | nil => rfl
  | cons first rest ih =>
    rw [List.foldl_cons, ih fun hmem => hnot (List.mem_cons_of_mem _ hmem)]
    exact HeaderMap.getAll_remove_of_ne fun heq => hnot (heq ▸ List.mem_cons_self)

/-- **What is served of a field** that is not suppressed and not stated. -/
theorem getAll_servedHeaders {metadata : StoredMeta} {age : ℕ}
    (hsuppressed : ∀ f ∈ suppressedFields metadata, HeaderName.fromBytes f ≠ some n)
    (hage : n ≠ header.age)
    (hlength : range.isSome = true → n ≠ header.contentRange ∧ n ≠ header.contentLength) :
    (servedHeaders metadata age range).getAll n = metadata.headers.getAll n := by
  have hnot : n ∉ (suppressedFields metadata).filterMap HeaderName.fromBytes := fun hmem => by
    obtain ⟨f, hf, hn⟩ := List.mem_filterMap.mp hmem
    exact hsuppressed f hf hn
  have hwhole : (servedHeaders metadata age none).getAll n = metadata.headers.getAll n := by
    rw [servedHeaders, getAll_insertText_of_ne hage, HeaderMap.getAll_remove_of_ne hage,
      getAll_foldl_remove_of_not_mem hnot]
  rcases range with _ | resolved
  · exact hwhole
  · obtain ⟨hrange, hlen⟩ := hlength rfl
    have hstated : servedHeaders metadata age (some resolved) = insertText
        (insertText (servedHeaders metadata age none) header.contentRange resolved.contentRange)
        header.contentLength (toString resolved.len) := rfl
    rw [hstated, getAll_insertText_of_ne hlen, getAll_insertText_of_ne hrange, hwhole]

/-- What is never stored is all that is stripped. -/
theorem getAll_stripNeverStored (hstored : isNeverStored n.text = false) :
    (stripNeverStored h).getAll n = h.getAll n := by
  refine getAll_foldl_remove_of_not_mem fun hmem => ?_
  have hnever : isNeverStored n.text = true :=
    List.any_eq_true.mpr ⟨n, hmem, Text.eqIgnoreAsciiCase_iff.mpr rfl⟩
  exact nomatch hstored.symm.trans hnever

/-- **What the entry has of a field** that is owed: the values that are text. -/
theorem EntryRecord.HeadersOf.getAll_eq (hr : r.HeadersOf w)
    (hkept : StoredHeaders.omits w.responseHeaders n = false)
    (hlength : w.status = 206 → n ≠ header.contentRange ∧ n ≠ header.contentLength) :
    r.headers.toHeaderMap.getAll n = (w.responseHeaders.getAll n).filter fun v => v.toStr.isSome := by
  rcases hr with hheaders | ⟨hstatus, completeLen, hheaders⟩
  · rw [hheaders, StoredHeaders.getAll_forStorage, hkept, if_neg Bool.false_ne_true]
  · have homits : StoredHeaders.omits (representationHeaders w.responseHeaders completeLen) n =
        false := by
      rw [StoredHeaders.omits, connectionTokens_representationHeaders]
      exact hkept
    rw [hheaders, StoredHeaders.getAll_forStorage, homits, if_neg Bool.false_ne_true,
      getAll_representationHeaders (hlength hstatus).1 (hlength hstatus).2]

/-- The values of `Cache-Control` that the entry has are those of the response, or none. -/
theorem EntryRecord.HeadersOf.cacheControl (hr : r.HeadersOf w) :
    (r.headers.toHeaderMap.getAll header.cacheControl).filterMap HeaderValue.toStr =
        (w.responseHeaders.getAll header.cacheControl).filterMap HeaderValue.toStr ∨
      (r.headers.toHeaderMap.getAll header.cacheControl).filterMap HeaderValue.toStr = [] := by
  have htext : ∀ l : List HeaderValue,
      (l.filter fun v => v.toStr.isSome).filterMap HeaderValue.toStr =
        l.filterMap HeaderValue.toStr := fun l => by
    induction l with
    | nil => rfl
    | cons v l ih =>
      rcases hv : v.toStr with _ | s
      · simp [hv, ih]
      · simp [hv, ih]
  rcases homits : StoredHeaders.omits w.responseHeaders header.cacheControl with _ | _
  · rw [hr.getAll_eq homits fun _ => by decide, htext]
    exact Or.inl rfl
  · refine Or.inr ?_
    rcases hr with hheaders | ⟨-, completeLen, hheaders⟩
    · rw [hheaders, StoredHeaders.getAll_forStorage, homits, if_pos rfl, List.filterMap_nil]
    · have hrep : StoredHeaders.omits (representationHeaders w.responseHeaders completeLen)
          header.cacheControl = true := by
        rw [StoredHeaders.omits, connectionTokens_representationHeaders]
        exact homits
      rw [hheaders, StoredHeaders.getAll_forStorage, hrep, if_pos rfl, List.filterMap_nil]

/-- The fields that are suppressed are told by the values of `Cache-Control`. -/
theorem suppressedFields_eq (metadata : StoredMeta) : suppressedFields metadata =
    (((metadata.headers.getAll header.cacheControl).filterMap HeaderValue.toStr).foldl
      CacheControl.absorb .default).noCacheFields ++
    (((metadata.headers.getAll header.cacheControl).filterMap HeaderValue.toStr).foldl
      CacheControl.absorb .default).privateFields := by
  rw [suppressedFields, CacheControl.fromHeaders]
  split <;> rfl

/-- **What the entry suppresses, the response suppresses.** -/
theorem EntryRecord.HeadersOf.suppressed (hr : r.HeadersOf w) {metadata : StoredMeta}
    (hmetadata : metadata.headers.getAll header.cacheControl =
      r.headers.toHeaderMap.getAll header.cacheControl) {f : String}
    (hf : f ∈ suppressedFields metadata) : f ∈ suppressedFields w.metadata := by
  rw [suppressedFields_eq, hmetadata] at hf
  rw [suppressedFields_eq]
  rcases hr.cacheControl with hsame | hnone
  · rw [hsame] at hf
    exact hf
  · rw [hnone] at hf
    exact nomatch hf

end Fields

/-! ### What a hit replays -/

theorem rebuilds_served (P : Platform) : Rebuilds P StoredResponse.Served := by
  intro key record metadata age want
  obtain ⟨range, omitBody⟩ := want
  cases omitBody with
  | true => exact staysWith_pure rfl
  | false =>
    rcases range with _ | resolved
    · exact stays_free.with.bind fun _ _ => staysWith_pure rfl
    · exact stays_free.with.bind fun _ _ => staysWith_pure rfl

section Replay

variable {P : Platform} {opts : CacheOptions} {ops : List Op} {c : Config CacheAct Store Outcome}
  {i : ℕ} {partition : Option String} {method url : String} {h : HeaderMap} {L : Lookup}
  {response : StoredResponse}

/-- **Whatever a lookup came to is served with what is said of it.** -/
theorem served_of_runs (hrun : cacheRuns.Runs (running P opts .empty ops) c)
    (hop : ops[i]? = some (.lookup partition method url h))
    (hresult : c.result i = some (.ok (.lookup L))) : L.Each StoredResponse.Served := by
  refine Kept.runs_free (Q := fun j r => j = i → ∀ L, r = .ok (.lookup L) →
    L.Each StoredResponse.Served) (fun _ => rfl) (fun j p hj => ?_) hrun
    (Config.result_eq_some.mp hresult) rfl L rfl
  change (ops.map (Op.program P opts))[j]? = some p at hj
  rw [List.getElem?_map] at hj
  obtain ⟨op, hop', rfl⟩ := Option.map_eq_some_iff.mp hj
  rcases eq_or_ne j i with rfl | hne
  · obtain rfl := Option.some.inj (hop.symm.trans hop')
    refine obeys_run_bind.mpr ((staysWith_lookup (rebuilds_served P) () trivial).mono
      fun r u hr => ?_)
    rcases r with e | served
    · exact fun _ _ heq => nomatch heq
    · rintro - L heq
      obtain rfl : served = L := Reply.lookup.inj (Except.ok.inj heq)
      exact hr.2
  · have hstays : Stays (.free CacheAct) (fun _ => True) (op.run P opts) := stays_free
    exact (hstays () trivial).mono fun _ _ _ heq => absurd heq hne

end Replay

/-! ### A page with a note -/

/-- The name of a field that the cache knows nothing of. -/
def noteName : HeaderName := ⟨"x-note", by decide⟩

/-- The page, with a note. -/
def pageNoted (note : HeaderValue) : Storing :=
  { pageStore with responseHeaders := pageStore.responseHeaders.append noteName note }

/-- It is stored, and looked up. -/
def notedOps (note : HeaderValue) : List Op :=
  [.store (pageNoted note) [97], .lookup none "GET" "http://a.test/x" ∅]

/-- The lookup has come to a fresh response with these notes. -/
def servedNotes (c : Config CacheAct Store Outcome) : Option (List HeaderValue) :=
  match c.result 1 with
  | some (.ok (.lookup (.fresh response))) => some (response.headers.getAll noteName)
  | _ => none

theorem exists_of_servedNotes {c : Config CacheAct Store Outcome} {notes : List HeaderValue}
    (h : servedNotes c = some notes) : ∃ response,
      c.result 1 = some (.ok (.lookup (.fresh response))) ∧
        response.headers.getAll noteName = notes := by
  rw [servedNotes] at h
  split at h
  · exact ⟨_, ‹_›, Option.some.inj h⟩
  · exact nomatch h

end Syndeo
