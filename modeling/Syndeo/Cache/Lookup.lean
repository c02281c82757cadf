import Syndeo.Cache.Blob

/-!
# Reading from the cache

`Syndeo.lookup` finds the stored variant a request selects, decides what of it
the request wants and whether it may be had, and reads the bytes back. An entry
whose body cannot be read back stops being an entry, and the request becomes a
miss.
-/

namespace Syndeo

open Text

/-! ### The counters -/

namespace counters

def hits : String := "hits"
def staleHits : String := "stale_hits"
def misses : String := "misses"
def revalidations : String := "revalidations"
def notModified : String := "not_modified"
def stores : String := "stores"
def rejects : String := "rejects"
def bytesFromCache : String := "bytes_from_cache"
def bytesFromOrigin : String := "bytes_from_origin"
def bytesDeduped : String := "bytes_deduped"
def peerAccepted : String := "peer_accepted"
def peerRejected : String := "peer_rejected"
def requests : String := "requests"
def rangeHits : String := "range_hits"
def partialStores : String := "partial_stores"
def evictions : String := "evictions"
def corruptEntries : String := "corrupt_entries"

end counters

/-! ### What a lookup comes to -/

/-- `StoredResponse`: a response reconstructed from the store. -/
structure StoredResponse where
  key : String
  status : ℕ
  headers : HeaderMap
  body : Bytes
  content : Option ContentId
  provenance : Provenance
  age : ℕ
  metadata : StoredMeta
  range : Option Resolved
  bodyOmitted : Bool

/-- `Lookup`. -/
inductive Lookup
  | miss (reason : String)
  | fresh (response : StoredResponse)
  | stale (response : StoredResponse) (refreshInBackground : Bool) (reason : String)
  | revalidate (response : StoredResponse) (conditional : List (HeaderName × String))
      (staleIfError : Option ℕ) (reason : String)

/-- `Wanted`: which bytes of a stored entry a request can be answered with. -/
inductive Wanted
  | whole
  | range (resolved : Resolved)
  | unusable (reason : String)

/-- `Want`. -/
structure Want where
  range : Option Resolved
  omitBody : Bool

variable (P : Platform)

/-! ### Deleting files -/

/-- The loop of `delete_orphans`. -/
def deleteEach : List ContentId → CacheM ℕ
  | [] => pure 0
  | id :: rest => do
    let forgotten ← ask (.forgetBlobIfUnreferenced id)
    if forgotten then do
      remove id
      let deleted ← deleteEach rest
      pure (deleted + 1)
    else deleteEach rest

/-- `delete_orphans`: delete the files of blobs nothing refers to, and their
records. Each is checked again under the exclusive gate. -/
def deleteOrphans (candidates : List ContentId) : CacheM ℕ :=
  if candidates = [] then pure 0 else holdingExclusive (deleteEach candidates)

/-- `drop_broken`: drop an entry whose body turned out to be missing or corrupt. -/
def dropBroken (key : String) (record : EntryRecord) : CacheM Unit := do
  let orphaned ← ask (.dropBrokenEntry key record)
  match orphaned with
  | some orphaned => do
    ask (.bump counters.corruptEntries 1)
    let _ ← deleteOrphans orphaned
    pure ()
  | none => pure ()

/-- `discard_broken`: the entry goes, and the request becomes a miss. -/
def discardBroken (key : String) (record : EntryRecord) (tally : List (String × ℕ)) :
    CacheM Lookup := do
  dropBroken key record
  ask (.recordAccess none 0 (tally ++ [(counters.misses, 1)]))
  pure (.miss "stored body missing or corrupt")

/-! ### Selecting -/

/-- Several values joined into one, if there are any. -/
def joined (values : List String) : Option String :=
  if values = [] then none else some (String.intercalate "," values)

/-- `coding_accepted`. -/
def codingAccepted (record : EntryRecord) (requestHeaders : HeaderMap) : Bool :=
  codingAcceptable
    (joined ((record.headers.pairs.filter fun p =>
      eqIgnoreAsciiCase p.1 "content-encoding").map Prod.snd))
    (joined ((requestHeaders.getAll header.acceptEncoding).filterMap HeaderValue.toStr))

/-- The entry is the variant this request selects, in a coding it accepts. -/
def selects (record : EntryRecord) (requestHeaders : HeaderMap) : Bool :=
  varyKey P record.varyFields requestHeaders = record.varyKey &&
    codingAccepted record requestHeaders

/-- The loop of `select_variant`. -/
def selectAmong (partition : Option String) (method url : String) (requestHeaders : HeaderMap) :
    List String → CacheM (Option (String × EntryRecord))
  | [] => pure none
  | candidate :: rest => do
    let key := entryKey partition method url candidate
    let found ← ask (.getEntry key)
    match found with
    | some record =>
      if selects P record requestHeaders then pure (some (key, record))
      else selectAmong partition method url requestHeaders rest
    | none => selectAmong partition method url requestHeaders rest

/-- `select_variant`: the first stored variant that this request selects. -/
def selectVariant (partition : Option String) (method url : String) (requestHeaders : HeaderMap) :
    CacheM (Option (String × EntryRecord)) := do
  let candidates ← ask (.variantKeys partition method url)
  selectAmong P partition method url requestHeaders candidates

/-- `wanted_bytes`: what this request wants out of the stored entry. -/
def wantedBytes (requestHeaders : HeaderMap) (record : EntryRecord) (metadata : StoredMeta) :
    Wanted :=
  let entire : Wanted :=
    if record.body.isComplete then .whole else .unusable "only part of the body is stored"
  match requestHeaders.getStr header.range with
  | none => entire
  | some raw =>
    if (requestHeaders.getStr header.ifRange).any
        fun condition => !ifRangeMatches P condition metadata.headers then
      .unusable "if-range does not match the stored validator"
    else match parseRange raw with
      -- an unparsable range is ignored
      | none => entire
      | some specs =>
        match specs with
        | [spec] =>
          match record.body.completeLen with
          | none => .unusable "the length of the whole body is not known"
          | some completeLen =>
            match resolve spec completeLen with
            -- unsatisfiable: the range is ignored
            | none => entire
            | some resolved =>
              if record.body.coverage.covers resolved.halfOpen.1 resolved.halfOpen.2 then
                .range resolved
              else .unusable "the requested range is not stored"
        | _ => .unusable "multipart ranges are not served from the store"

/-! ### Reading back -/

/-- The loop of `read_span` over the segments: what was read, and where it got
to. -/
def readSegments (stop : ℕ) : List Segment → ℕ → Bytes → CacheM (Bytes × ℕ)
  | [], cursor, out => pure (out, cursor)
  | segment :: rest, cursor, out =>
    if segment.stop ≤ cursor then readSegments stop rest cursor out
    else if cursor < segment.start ∨ stop ≤ segment.start then pure (out, cursor)
    else do
      let bytes ← get P segment.content
      let upTo := min stop segment.stop
      let first := cursor - segment.start
      let last := min (upTo - segment.start) bytes.length
      let out := out ++ (bytes.take last).drop (min first last)
      if stop ≤ upTo then pure (out, upTo) else readSegments stop rest upTo out

/-- `read_span`: read `[start, stop)` out of an entry, whole or in runs. -/
def readSpan (record : EntryRecord) (start stop : ℕ) : CacheM Bytes :=
  match record.body with
  | .Complete content _ => do
    let body ← get P content
    let last := min stop body.length
    pure ((body.take last).drop (min start last))
  | .Partial _ segments => do
    let (out, cursor) ← readSegments P stop segments start []
    if cursor < stop then
      throw (.missingBlob s!"bytes {start}..{stop} of {record.url}")
    else pure out

/-- A header value made from text, where it can be one. -/
def insertText (h : HeaderMap) (n : HeaderName) (text : String) : HeaderMap :=
  match HeaderValue.fromStr text with
  | some v => h.insert n v
  | none => h

/-- The headers a stored response is served with. -/
def servedHeaders (metadata : StoredMeta) (age : ℕ) (range : Option Resolved) : HeaderMap :=
  let suppressed := (suppressedFields metadata).filterMap HeaderName.fromBytes
  let headers := insertText ((suppressed.foldl HeaderMap.remove metadata.headers).remove header.age)
    header.age (toString age)
  match range with
  | some resolved =>
    insertText (insertText headers header.contentRange resolved.contentRange) header.contentLength
      (toString resolved.len)
  | none => headers

/-- `materialize`: the response a stored entry stands for. -/
def materialize (key : String) (record : EntryRecord) (metadata : StoredMeta) (age : ℕ)
    (want : Want) : CacheM StoredResponse := do
  let body ← match want.omitBody, want.range with
    | true, _ => pure []
    | false, some resolved => readSpan P record resolved.halfOpen.1 resolved.halfOpen.2
    | false, none => readSpan P record 0 (record.body.completeLen.getD 0)
  -- nothing that leaves the store may carry a field that is never stored
  let metadata := { metadata with headers := stripNeverStored metadata.headers }
  pure {
    key := key
    status := if want.range.isSome then 206 else record.status
    headers := servedHeaders metadata age want.range
    body := body
    content := record.contentId
    provenance := record.provenance
    age := age
    metadata := metadata
    range := want.range
    bodyOmitted := want.omitBody }

/-- Read an entry back and go on with it; if its body is lost, the entry goes. -/
def materializeOr (key : String) (record : EntryRecord) (metadata : StoredMeta) (age : ℕ)
    (want : Want) (tally : List (String × ℕ)) (serve : StoredResponse → CacheM Lookup) :
    CacheM Lookup := do
  let r ← attempt (materialize P key record metadata age want)
  match r with
  | .ok response => serve response
  | .error e => if e.isLostBody then discardBroken key record tally else throw e

/-! ### Looking up -/

/-- The metadata of a stored entry. -/
def EntryRecord.metadata (r : EntryRecord) : StoredMeta :=
  ⟨r.status, r.headers.toHeaderMap, r.requestTime, r.responseTime⟩

/-- A miss, with what it counts for. -/
def missed (tally : List (String × ℕ)) (reason : String) : CacheM Lookup := do
  ask (.recordAccess none 0 (tally ++ [(counters.misses, 1)]))
  pure (.miss reason)

/-- What serving a response counts for. -/
def servedTally (tally : List (String × ℕ)) (counter : String) (want : Want)
    (response : StoredResponse) : List (String × ℕ) :=
  tally ++ [(counter, 1)] ++ (if want.range.isSome then [(counters.rangeHits, 1)] else []) ++
    [(counters.bytesFromCache, response.body.length)]

/-- The rest of `lookup`, once an entry is selected. -/
def lookupEntry (opts : CacheOptions) (requestHeaders : HeaderMap) (head : Bool) (key : String)
    (record : EntryRecord) (tally : List (String × ℕ)) : CacheM Lookup := do
  let metadata := record.metadata
  let now ← clock
  match wantedBytes P requestHeaders record metadata with
  | .unusable reason => missed tally reason
  | .range resolved => go metadata now ⟨some resolved, head⟩
  | .whole => go metadata now ⟨none, head⟩
where
  /-- Whether the entry may be had, by the rules of freshness. -/
  go (metadata : StoredMeta) (now : ℕ) (want : Want) : CacheM Lookup :=
    match evaluate P requestHeaders metadata now opts with
    | .fresh age _ =>
      materializeOr P key record metadata age want tally fun response => do
        ask (.recordAccess (some key) now (servedTally tally counters.hits want response))
        pure (.fresh response)
    | .serveStale age _ refreshInBackground reason =>
      materializeOr P key record metadata age want tally fun response => do
        ask (.recordAccess (some key) now (servedTally tally counters.staleHits want response))
        pure (.stale response refreshInBackground reason)
    | .revalidate age _ staleIfError reason =>
      if !hasValidator metadata then missed tally "stale with no validator"
      else if !record.body.isComplete then
        missed tally "a stale partial entry is refetched, not revalidated"
      else
        materializeOr P key record metadata age want tally fun response => do
          ask (.recordAccess none 0 (tally ++ [(counters.revalidations, 1)]))
          pure (.revalidate response (conditionalHeaders metadata) staleIfError reason)
    | .unusable reason => missed tally reason

/-- `Cache::lookup`. -/
def lookup (opts : CacheOptions) (partition : Option String) (method url : String)
    (requestHeaders : HeaderMap) : CacheM Lookup := do
  let tally := [(counters.requests, 1)]
  let url := normalizeUrl P url
  if !isCacheableMethod method then missed tally "method is not cacheable"
  else do
    -- a stored GET can answer a HEAD; its own variant is tried first
    let head := eqIgnoreAsciiCase method "HEAD"
    let own ← selectVariant P partition method url requestHeaders
    let selected ←
      if own.isNone && head then selectVariant P partition "GET" url requestHeaders else pure own
    match selected with
    | none => missed tally "no stored variant"
    | some (key, record) => lookupEntry P opts requestHeaders head key record tally

end Syndeo
