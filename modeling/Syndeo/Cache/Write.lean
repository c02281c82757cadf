import Mathlib.Algebra.Order.Ring.Rat
import Syndeo.Cache.Lookup

/-!
# Writing to the cache

Storing a response, whole or in ranges; what a confirmation or a `HEAD` does to
an entry that is there; and what takes entries out again. Every one of them is a
sequence of transactions and file operations that others can cut into, and only
the gate keeps some of those others away: a store holds it shared from its look
at the disk until its references are written, a deletion holds it exclusively.
-/

namespace Syndeo

open Text

/-- `StoreOutcome`. -/
inductive StoreOutcome
  | stored (content : ContentId) (deduped : Bool)
  | storedPartial (held : ℕ) (completeLen : Option ℕ)
  | notStored (reason : String)
  deriving DecidableEq

variable (P : Platform)

/-! ### Integrity rows -/

/-- The tag `sri_key` begins with. -/
def Algorithm.tag : Algorithm → UInt8
  | .sha256 => 1
  | .sha384 => 2
  | .sha512 => 3

/-- `sri_key`: one byte of algorithm, then the digest. -/
def sriKey (algorithm : Algorithm) (digest : Bytes) : Bytes := algorithm.tag :: digest

/-- `hash_from_sri_key`. -/
def hashFromSriKey : Bytes → Option Hash
  | [] => none
  | tag :: digest =>
    if tag = 1 then some ⟨.sha256, digest⟩
    else if tag = 2 then some ⟨.sha384, digest⟩
    else if tag = 3 then some ⟨.sha512, digest⟩
    else none

/-- `sri_digests`: every digest a body could be named by. -/
def sriDigests (body : Bytes) (content : ContentId) : List (Bytes × ContentId) :=
  [.sha256, .sha384, .sha512].map fun algorithm =>
    (sriKey algorithm (P.digest algorithm body), content)

/-! ### Eviction -/

/-- The order of `order_for_eviction`: whether the first of two entries goes no
later than the second. -/
def goesFirst (policy : Eviction) (a b : EntryRecord) : Bool :=
  let value (r : EntryRecord) := P.divide (r.hits + 1) (max r.body.heldLen 1)
  match policy with
  | .leastRecentlyUsed => a.lastUsed ≤ b.lastUsed
  | .leastFrequentlyUsed => a.hits < b.hits || (a.hits = b.hits && a.lastUsed ≤ b.lastUsed)
  | .cost => value a < value b || (value a = value b && a.lastUsed ≤ b.lastUsed)

/-- `order_for_eviction`. -/
def orderForEviction (entries : List (String × EntryRecord)) (policy : Eviction) :
    List (String × EntryRecord) :=
  entries.insertionSort fun a b => goesFirst P policy a.2 b.2

/-- What the blobs an entry let go of took on the disk, off the running total. -/
def releaseFrom : List ContentId → ℕ → CacheM ℕ
  | [], onDisk => pure onDisk
  | id :: rest, onDisk => do
    let blob ← ask (.getBlob id)
    match blob with
    | some blob => releaseFrom rest (onDisk - blob.storedLen)
    | none => releaseFrom rest onDisk

/-- The loop of `enforce_budget`. -/
def evictFrom (target : ℕ) : List (String × EntryRecord) → ℕ → ℕ → CacheM ℕ
  | [], _, evicted => pure evicted
  | (key, _) :: rest, onDisk, evicted =>
    if onDisk ≤ target then pure evicted
    else do
      let orphaned ← ask (.removeEntry key)
      let onDisk ← releaseFrom orphaned onDisk
      let _ ← deleteOrphans orphaned
      evictFrom target rest onDisk (evicted + 1)

/-- `evict_to_fraction.clamp(0.1, 1.0)`. -/
def clampFraction (q : ℚ) : ℚ := min (max q (1 / 10)) 1

/-- `enforce_budget`: bring the store back under its size budget by dropping
entries. -/
def enforceBudget (opts : CacheOptions) : CacheM ℕ :=
  match opts.capacityBytes with
  | none => pure 0
  | some capacity => do
    let (_, _, onDisk, _) ← ask .blobTotals
    if onDisk ≤ capacity then pure 0
    else do
      let candidates ← ask .allEntries
      let evicted ← evictFrom (P.scale capacity (clampFraction opts.evictToFraction))
        (orderForEviction P candidates opts.eviction) onDisk 0
      if 0 < evicted then ask (.bump counters.evictions evicted) else pure ()
      pure evicted

/-! ### Two answers about one representation -/

/-- The entity tag `same_representation` goes by: none where it is weak. -/
def strongEtag (h : HeaderMap) : Option String :=
  ((h.getStr header.etag).map trim).filter fun v => !startsWith v "W/"

/-- `same_representation`: whether two sets of headers are taken to describe the
same representation. -/
def sameRepresentation (stored fresh : HeaderMap) : Bool :=
  match strongEtag stored, strongEtag fresh with
  | some a, some b => a = b
  | _, _ =>
    match headerDate P stored header.lastModified, headerDate P fresh header.lastModified with
    | some a, some b => a = b
    | _, _ => false

/-- The rest of `reconcile_head`, once the stored `GET` is found. -/
def reconcileWith (key : String) (record : EntryRecord) (headHeaders : HeaderMap) :
    CacheM Unit := do
  let stored := record.headers.toHeaderMap
  if sameRepresentation P stored headHeaders then
    ask (.refreshEntry { record with headers := .forStorage (apply304 stored headHeaders) })
  else do
    let orphaned ← ask (.removeEntry key)
    let _ ← deleteOrphans orphaned

/-- `reconcile_head`: a `HEAD` refreshes the stored `GET` or proves it out of
date. -/
def reconcileHead (partition : Option String) (url : String)
    (requestHeaders headHeaders : HeaderMap) : CacheM Unit := do
  let selected ← selectVariant P partition "GET" url requestHeaders
  match selected with
  | none => pure ()
  | some (key, record) => reconcileWith P key record headHeaders

/-! ### Storing a whole body -/

/-- A store declined, and counted. -/
def rejected (reason : String) : CacheM StoreOutcome := do
  ask (.bump counters.rejects 1)
  pure (.notStored reason)

/-- What a store is given about the response, besides its body. -/
structure Storing where
  partition : Option String
  method : String
  url : String
  requestHeaders : HeaderMap
  status : ℕ
  responseHeaders : HeaderMap
  requestTime : ℕ
  responseTime : ℕ
  provenance : Provenance

namespace Storing

/-- The metadata the policy decides by. -/
def metadata (w : Storing) : StoredMeta :=
  ⟨w.status, w.responseHeaders, w.requestTime, w.responseTime⟩

/-- The variant the response is stored as. -/
def vkey (w : Storing) : String := varyKey P (varyFields w.responseHeaders) w.requestHeaders

/-- The entry of a whole body, at its normalized URL. -/
def record (w : Storing) (receipt : WriteReceipt) (now : ℕ) : EntryRecord where
  partition := w.partition
  url := normalizeUrl P w.url
  method := toAsciiUppercase w.method
  status := w.status
  headers := .forStorage w.responseHeaders
  varyFields := varyFields w.responseHeaders
  varyKey := w.vkey P
  body := .Complete receipt.id receipt.len
  requestTime := w.requestTime
  responseTime := w.responseTime
  storedAt := now
  lastUsed := now
  hits := 0
  provenance := w.provenance

end Storing

/-- Count bytes that were on the disk already. -/
def countDeduped (receipt : WriteReceipt) : CacheM Unit :=
  if receipt.newlyWritten then pure () else ask (.bump counters.bytesDeduped receipt.len)

/-- The part of a store that holds the gate: from its look at the disk until its
references are written. -/
def storeWhole (w : Storing) (write : CacheM WriteReceipt) :
    CacheM (WriteReceipt × List ContentId) :=
  holdingShared do
    let receipt ← write
    countDeduped receipt
    let now ← clock
    let orphaned ← ask (.putEntry (w.record P receipt now) [(receipt.id, receipt.record now)])
    pure (receipt, orphaned)

/-- What follows the storing of a whole body. -/
def afterStore (opts : CacheOptions) (w : Storing) (receipt : WriteReceipt)
    (orphaned : List ContentId) (digests : List (Bytes × ContentId)) : CacheM StoreOutcome := do
  let _ ← deleteOrphans orphaned
  ask (.indexSri digests)
  ask (.bump counters.stores 1)
  if eqIgnoreAsciiCase w.method "HEAD" then
    reconcileHead P w.partition (normalizeUrl P w.url) w.requestHeaders w.responseHeaders
  else pure ()
  let _ ← enforceBudget P opts
  pure (.stored receipt.id (!receipt.newlyWritten))

/-! ### Storing a range -/

/-- The loop of `store_partial` over the parts of a range that are not held: each
is written as a blob of its own. -/
def putSlices (body : Bytes) (start now : ℕ) :
    List (ℕ × ℕ) → CacheM (List Segment × List (ContentId × BlobRecord))
  | [] => pure ([], [])
  | (first, last) :: rest => do
    let receipt ← put P ((body.take (last - start)).drop (first - start))
    countDeduped receipt
    let (segments, newBlobs) ← putSlices body start now rest
    pure (⟨first, last, receipt.id⟩ :: segments, (receipt.id, receipt.record now) :: newBlobs)

/-- The headers of the representation a range is part of. -/
def representationHeaders (responseHeaders : HeaderMap) (completeLen : Option ℕ) : HeaderMap :=
  let headers := responseHeaders.remove header.contentRange
  match completeLen with
  | some total => insertText headers header.contentLength (toString total)
  | none => headers.remove header.contentLength

/-- The fields that say nothing of a length are the response's own. -/
theorem getAll_representationHeaders {responseHeaders : HeaderMap} {completeLen : Option ℕ}
    {n : HeaderName} (hrange : n ≠ header.contentRange) (hlength : n ≠ header.contentLength) :
    (representationHeaders responseHeaders completeLen).getAll n = responseHeaders.getAll n := by
  have hremove : (responseHeaders.remove header.contentRange).getAll n = responseHeaders.getAll n :=
    HeaderMap.getAll_remove_of_ne hrange
  rcases completeLen with _ | total
  · exact (HeaderMap.getAll_remove_of_ne hlength).trans hremove
  · simp only [representationHeaders, insertText]
    split
    · exact (HeaderMap.getAll_insert_of_ne hlength).trans hremove
    · exact hremove

/-- The segments an entry holds; a complete one, or none, holds none. -/
def segmentsOf : Option EntryRecord → List Segment
  | some r =>
    match r.body with
    | .Partial _ segments => segments
    | .Complete _ _ => []
  | none => []

/-- The entry of a range, folded into what was held of its representation. -/
def Storing.partialRecord (w : Storing) (existing : Option EntryRecord) (completeLen : Option ℕ)
    (segments : List Segment) (now : ℕ) : EntryRecord where
  partition := w.partition
  url := normalizeUrl P w.url
  method := "GET"
  -- what is stored is a representation; the 206 belongs to the exchange
  status := 200
  headers := .forStorage (representationHeaders w.responseHeaders completeLen)
  varyFields := varyFields w.responseHeaders
  varyKey := w.vkey P
  body := .Partial completeLen segments
  requestTime := w.requestTime
  responseTime := w.responseTime
  storedAt := (existing.map EntryRecord.storedAt).getD now
  lastUsed := now
  hits := (existing.map EntryRecord.hits).getD 0
  provenance := w.provenance

/-- Where the runs have met, the entry becomes a complete one. -/
def completeRecord (record : EntryRecord) (newBlobs : List (ContentId × BlobRecord)) (now : ℕ) :
    CacheM (EntryRecord × List (ContentId × BlobRecord) × Option ContentId) :=
  match record.body.completeLen with
  | none => pure (record, newBlobs, none)
  | some total =>
    if record.body.coverage.covers 0 total then do
      let whole ← readSpan P record 0 total
      let receipt ← put P whole
      ask (.indexSri (sriDigests P whole receipt.id))
      pure ({ record with body := .Complete receipt.id receipt.len },
        newBlobs ++ [(receipt.id, receipt.record now)], some receipt.id)
    else pure (record, newBlobs, none)

/-- The part of `store_partial` that holds the gate. -/
def writePartial (w : Storing) (body : Bytes) (contentRange : ContentRange)
    (existing : Option EntryRecord) :
    CacheM (EntryRecord × Option ContentId × List ContentId) :=
  holdingShared do
    let segments := segmentsOf existing
    let completeLen := contentRange.completeLen.or (existing.bind fun r => r.body.completeLen)
    let coverage := Coverage.fromSorted (segments.map Segment.run)
    let (start, stop) := contentRange.halfOpen
    let now ← clock
    let (added, newBlobs) ← putSlices P body start now (coverage.missing start stop)
    let segments := (segments ++ added).insertionSort fun a b => a.start ≤ b.start
    let record := w.partialRecord P existing completeLen segments now
    let (record, newBlobs, completed) ← completeRecord P record newBlobs now
    let orphaned ← ask (.putEntry record newBlobs)
    pure (record, completed, orphaned)

/-- The rest of `store_partial`, once it is known what is held of the
representation. -/
def extendRange (opts : CacheOptions) (w : Storing) (body : Bytes) (contentRange : ContentRange)
    (existing : Option EntryRecord) : CacheM StoreOutcome :=
  if existing.any fun r => r.body.isComplete then
    pure (.notStored "the whole body is already stored")
  else do
    let (record, completed, orphaned) ← writePartial P w body contentRange existing
    let _ ← deleteOrphans orphaned
    ask (.bump counters.stores 1)
    if completed.isNone then ask (.bump counters.partialStores 1) else pure ()
    let _ ← enforceBudget P opts
    match completed with
    | some content => pure (.stored content false)
    | none => pure (.storedPartial record.body.heldLen record.body.completeLen)

/-- The rest of `store_partial`, once the entry that is stored has been read. -/
def foldRange (opts : CacheOptions) (w : Storing) (body : Bytes) (contentRange : ContentRange)
    (key : String) (found : Option EntryRecord) : CacheM StoreOutcome :=
  match found with
  | none => extendRange P opts w body contentRange none
  | some r =>
    if sameRepresentation P r.headers.toHeaderMap w.responseHeaders then
      extendRange P opts w body contentRange (some r)
    else do
      -- ranges of two representations are not stitched together
      let orphaned ← ask (.removeEntry key)
      let _ ← deleteOrphans orphaned
      extendRange P opts w body contentRange none

/-- `store_partial`, once the range is one that can be stored. -/
def storeRange (opts : CacheOptions) (w : Storing) (body : Bytes) (contentRange : ContentRange) :
    CacheM StoreOutcome := do
  let key := entryKey w.partition "GET" (normalizeUrl P w.url) (w.vkey P)
  let found ← ask (.getEntry key)
  foldRange P opts w body contentRange key found

/-- `store_partial`: a 206, folded into whatever partial representation is already
stored. -/
def storePartial (opts : CacheOptions) (w : Storing) (body : Bytes) : CacheM StoreOutcome :=
  if !eqIgnoreAsciiCase w.method "GET" then rejected "only a GET is stored as partial content"
  else if isMultipart w.responseHeaders then rejected "multipart ranges are passed through"
  else match (w.responseHeaders.getStr header.contentRange).bind parseContentRange with
    | none => rejected "206 without a usable Content-Range"
    | some contentRange =>
      if contentRange.len ≠ body.length then rejected "206 body does not match its Content-Range"
      else storeRange P opts w body contentRange

/-! ### Storing -/

/-- `store_with_provenance`. -/
def storeWithProvenance (opts : CacheOptions) (w : Storing) (body : Bytes) :
    CacheM StoreOutcome := do
  ask (.bump counters.bytesFromOrigin body.length)
  match storability P w.method w.requestHeaders w.metadata body.length opts with
  | .reject reason => rejected reason
  | .store =>
    if w.status = 206 then storePartial P opts w body
    else do
      let (receipt, orphaned) ← storeWhole P w (put P body)
      afterStore P opts w receipt orphaned (sriDigests P body receipt.id)

/-- `store`. -/
def store (opts : CacheOptions) (w : Storing) (body : Bytes) : CacheM StoreOutcome :=
  storeWithProvenance P opts { w with provenance := .origin } body

/-- `finish_streamed`: store a body that arrived in pieces. -/
def finishStreamed (opts : CacheOptions) (w : Storing) (writer : BlobWriter) :
    CacheM StoreOutcome := do
  ask (.bump counters.bytesFromOrigin writer.len)
  match storability P w.method w.requestHeaders w.metadata writer.len opts with
  | .reject reason => rejected reason
  | .store =>
    if w.status = 206 then rejected "a streamed 206 is not combined"
    else do
      let (receipt, orphaned) ← storeWhole P w (adopt P writer)
      afterStore P opts w receipt orphaned (sriDigests P writer.bytes receipt.id)

/-! ### Confirming, and taking out -/

/-- The entry as a confirmation leaves it. -/
def EntryRecord.confirmed (r : EntryRecord) (freshHeaders : HeaderMap)
    (requestTime responseTime : ℕ) : EntryRecord :=
  { r with
    headers := .forStorage (apply304 r.headers.toHeaderMap freshHeaders)
    requestTime := requestTime
    responseTime := responseTime }

/-- `record_not_modified`: fold a 304 into the stored entry, so that it becomes
fresh again. -/
def recordNotModified (key : String) (freshHeaders : HeaderMap) (requestTime responseTime : ℕ) :
    CacheM (Option StoredResponse) := do
  let found ← ask (.getEntry key)
  match found with
  | none => pure none
  | some old => do
    let record := old.confirmed freshHeaders requestTime responseTime
    ask (.refreshEntry record)
    ask (.bump counters.notModified 1)
    let metadata : StoredMeta :=
      ⟨record.status, apply304 old.headers.toHeaderMap freshHeaders, requestTime, responseTime⟩
    let now ← clock
    let r ← attempt (materialize P key record metadata (currentAge P metadata now) ⟨none, false⟩)
    match r with
    | .ok response => do
      ask (.bump counters.bytesFromCache response.body.length)
      ask (.bump counters.hits 1)
      pure (some response)
    | .error e => do
      -- the origin confirmed a body that is no longer held: the entry goes
      if e.isLostBody then dropBroken key record else pure ()
      throw e

/-- `discard_representation`: drop an entry, if it still holds these bytes. -/
def discardRepresentation (key : String) (content : ContentId) : CacheM Bool := do
  let found ← ask (.getEntry key)
  match found with
  | none => pure false
  | some record =>
    if record.contentId = some content then do
      let orphaned ← ask (.dropEntryHolding key record)
      match orphaned with
      | some orphaned => do
        let _ ← deleteOrphans orphaned
        pure true
      | none => pure false
    else pure false

/-- `Cache::invalidate`: an unsafe method takes out what is stored of its
target. -/
def invalidateUrl (partition : Option String) (method url : String) : CacheM ℕ :=
  if !invalidates method then pure 0
  else do
    let gets ← ask (.invalidate partition "GET" (normalizeUrl P url))
    let _ ← deleteOrphans gets
    let heads ← ask (.invalidate partition "HEAD" (normalizeUrl P url))
    let _ ← deleteOrphans heads
    pure (gets.length + heads.length)

/-- `purge`. -/
def purge (partition : Option String) (method url : String) : CacheM Unit := do
  let orphaned ← ask (.invalidate partition method (normalizeUrl P url))
  let _ ← deleteOrphans orphaned

/-- `Index::prune_sri`. -/
def pruneSri : CacheM ℕ := do
  let stale ← ask .staleSri
  if stale = [] then pure 0
  else do
    ask (.dropSri stale)
    pure stale.length

/-- `collect_garbage`: delete the blobs nothing points at any more, and the
integrity rows that pointed at them. -/
def collectGarbage : CacheM ℕ := do
  let orphans ← ask .orphanedBlobs
  let deleted ← deleteOrphans orphans
  let _ ← pruneSri
  pure deleted

/-- `clear`: remove every stored response and every body. -/
def clear : CacheM ℕ :=
  holdingExclusive do
    let entries ← ask .clear
    let _ ← removeEveryBody
    pure entries

/-! ### Peers -/

/-- `grant_peer_eligibility`: mark a stored body as one a peer may be given, by
the declared hashes it satisfies. -/
def grantPeerEligibility (content : ContentId) (declared : Integrity) : CacheM (List Hash) :=
  match declared.strongest with
  | none => pure []
  | some _ => holdingShared do
    let r ← attempt (get P content)
    match r with
    | .ok bytes => do
      let matching := dedupAdjacent (declared.atStrongest.filter fun h => h.matches P bytes)
      let fresh ← ask (.grantEligibility content (matching.map fun h => sriKey h.algorithm h.digest))
      pure (matching.filter fun h => sriKey h.algorithm h.digest ∈ fresh)
    | .error e => if e.isLostBody then pure [] else throw e

/-- `peer_eligibility`: the hashes a peer may name a body by. -/
def peerEligibility (content : ContentId) : CacheM (List Hash) := do
  let keys ← ask (.eligibleHashes content)
  pure (keys.filterMap hashFromSriKey)

/-- `PeerAsk`: how a peer names the body it wants. -/
inductive PeerAsk
  | content (id : ContentId)
  | integrity (hash : Hash)

/-- The rest of `body_for_peer`, once the name is an address. -/
def bodyNamed (content : ContentId) (named : Option Hash) : CacheM (Option Bytes) := do
  let eligible ← ask (.eligibleHashes content)
  if eligible.isEmpty || named.any fun h => sriKey h.algorithm h.digest ∉ eligible then pure none
  else do
    let r ← attempt (get P content)
    match r with
    | .ok bytes => if named.all fun h => h.matches P bytes then pure (some bytes) else pure none
    | .error e => if e.isLostBody then pure none else throw e

/-- `body_for_peer`: the body, if it is one that may be shared under this name. -/
def bodyForPeer (asked : PeerAsk) : CacheM (Option Bytes) :=
  match asked with
  | .content id => bodyNamed P id none
  | .integrity hash => do
    let found ← ask (.contentForSri (sriKey hash.algorithm hash.digest))
    match found with
    | some id => bodyNamed P id (some hash)
    | none => pure none

/-- `accept_peer_body`, for a body asked for by a declared integrity: checked,
counted, and not kept. -/
def acceptPeerBody (integrity : Integrity) (body : Bytes) : CacheM Unit := do
  if !integrity.isEmpty && integrity.verify P body then ask (.bump counters.peerAccepted 1)
  else do
    ask (.bump counters.peerRejected 1)
    throw (.integrity (String.intercalate " " (integrity.hashes.map (Hash.toToken P)))
      (P.blake3 body).toHex)

end Syndeo
