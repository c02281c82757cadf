import Syndeo.Net.Exchange
import Syndeo.Net.Redirects

/-!
# Fetching

`Net::fetch` and what it is made of, as programs of the steps of
`Syndeo.Net.NetAct`. A fetch asks the cache first (`Syndeo.Net.fetchOnce`); what the
cache does not answer is asked of the origin, and streamed on where it can be
(`Syndeo.Net.fetchFromOrigin`) or taken in whole where something has to be decided by
it (`Syndeo.Net.origin`). The body of a streamed answer reaches the store only as the
caller reads it (`Syndeo.Net.readStream`), and the entry is written behind its end.

`Syndeo.Net.netSystem` runs any number of fetches side by side with whatever else the
process does, and with what they start.
-/

namespace Syndeo

namespace Net

open Concurrent Tables Text
open Redirects (FetchError Round redacted refuseUnusableIntegrity)

/-! ### Keeping, landing, collecting -/

/-- The text of an error of the cache. -/
def displayCacheError : CacheError → String
  | .io message => "io: " ++ message
  | .index message => "index: " ++ message
  | .missingBlob what => "blob " ++ what ++ " is missing from the store"
  | .integrity expected actual =>
    "integrity check failed: expected " ++ expected ++ ", computed " ++ actual

/-- `Keep::admits`: leave to store what came from this address, held until `release`. -/
def Keep.admits (keep : Keep) (address : Option IpAddr) : NetM Bool :=
  if keep.publicOnly && !address.any Reach.isPublic then pure false else act (.admits keep.since)

/-- The loop of `join_all` over the writes that are waited for. -/
def awaitEach : List ℕ → NetM Unit
  | [] => pure ()
  | landing :: rest => do
    act (.over landing)
    awaitEach rest

/-- `Landing::settled`. -/
def settled (address : Option String) : NetM Unit := do
  let waiting ← act (.pending address)
  awaitEach waiting

/-- The loop of `collect_body`. -/
def collectFrom (limit : ℕ) (out : Bytes) : List (Except String Bytes) → Except NetError Bytes
  | [] => .ok out
  | .error e :: _ => .error (.transport e)
  | .ok chunk :: rest =>
    if limit < out.length + chunk.length then .error (.bodyTooLarge limit)
    else collectFrom limit (out ++ chunk) rest

/-- `collect_body`. -/
def collectBody (limit : ℕ) (items : List (Except String Bytes)) : Except NetError Bytes :=
  collectFrom limit [] items

namespace Tee

/-- `Tee::new`. -/
def new (writer : BlobWriter) (limit : ℕ) : Tee := ⟨some writer, false, limit⟩

/-- `Tee::observe`. -/
def observe (tee : Tee) (chunk : Bytes) : NetM Tee :=
  match tee.writer with
  | none => pure tee
  | some writer =>
    if tee.limit < writer.len + chunk.length then pure { tee with writer := none, overBudget := true }
    else do
      let written ← act .spool
      if written then pure { tee with writer := some (writer.write chunk) }
      else pure { tee with writer := none }

end Tee

/-! ### One request to an origin -/

/-- `may_retry_over_tcp`. -/
def mayRetryOverTcp (method : String) (reached : Reached) : Bool :=
  reached = .nothing || ["GET", "HEAD", "OPTIONS", "TRACE", "PUT", "DELETE"].contains method

/-- `origin_headers`. -/
def originHeaders (request : FetchRequest) (extra : List (HeaderName × String)) : NetM Exchange := do
  let answer ← act (.tcp request extra)
  given answer

/-- `origin_any`. -/
def originAny (request : FetchRequest) (extra : List (HeaderName × String)) : NetM Exchange := do
  let quic ← act (.triesQuic request)
  if quic then do
    let answer ← act (.quic request extra)
    match answer with
    | .ok exchange => pure exchange
    | .error failed =>
      if mayRetryOverTcp request.method failed.reached then originHeaders request extra
      else given (.error failed.error)
  else originHeaders request extra

/-- `origin_request`, which is all of `Net::origin`. -/
def origin (config : NetConfig) (request : FetchRequest) (extra : List (HeaderName × String)) :
    NetM Answer := do
  let exchange ← originHeaders request extra
  let body ← given (collectBody config.maxBodyBytes exchange.items)
  pure ⟨exchange.status, exchange.headers, body, exchange.address⟩

/-! ### What is handed on -/

/-- A response, and what becomes of its body as it is read. -/
structure Fetched where
  response : FetchResponse
  teed : Option Teed

/-- `finish_with`. -/
def finishWith (status : ℕ) (headers : HeaderMap) (body : FetchBody) (source : Source)
    (content : Option ContentId) (protocol : Protocol) : NetM FetchResponse := do
  let elapsed ← act .elapsed
  pure {
    status := status
    headers := headers
    body := body
    source := source
    elapsedMs := elapsed
    content := content
    finalUrl := ""
    redirects := 0
    protocol := protocol }

/-- `finish`. -/
def finish (status : ℕ) (headers : HeaderMap) (body : Bytes) (source : Source)
    (content : Option ContentId) : NetM Fetched := do
  let response ← finishWith status headers (.bytes body) source content .none
  pure ⟨response, none⟩

/-- `is_hop`. -/
def isHop (request : FetchRequest) (status : ℕ) (headers : HeaderMap) : Bool :=
  request.redirect = .follow && [301, 302, 303, 307, 308].contains status &&
    (headers.getStr header.location).any fun s => trim s ≠ ""

/-- `with_cookies_of`. -/
def withCookiesOf (served notModified : HeaderMap) : HeaderMap :=
  neverStored.foldl (fun served name =>
    (notModified.getAll name).foldl (fun served value => served.append name value) served) served

/-- `infer_content_type`. -/
def inferContentType (url : String) : Option String :=
  let path := url.toList.takeWhile fun c => c ≠ '?' && c ≠ '#'
  match (rsplitOnce '.' path).map fun p => toAsciiLowercase (String.ofList p.2) with
  | some "js" | some "mjs" => some "text/javascript; charset=utf-8"
  | some "css" => some "text/css; charset=utf-8"
  | some "json" => some "application/json"
  | some "wasm" => some "application/wasm"
  | some "svg" => some "image/svg+xml"
  | some "png" => some "image/png"
  | some "jpg" | some "jpeg" => some "image/jpeg"
  | some "webp" => some "image/webp"
  | some "avif" => some "image/avif"
  | some "gif" => some "image/gif"
  | some "woff2" => some "font/woff2"
  | some "woff" => some "font/woff"
  | some "html" | some "htm" => some "text/html; charset=utf-8"
  | _ => none

variable (P : Platform) (config : NetConfig)

/-- `Landing::address`. -/
def landingAddress (partition : Option String) (url : String) : String :=
  partition.getD "" ++ "\n" ++ normalizeUrl P url

/-- What a store is told of an answer of an origin. -/
def storing (request : FetchRequest) (status : ℕ) (headers : HeaderMap)
    (requestTime responseTime : ℕ) : Storing where
  partition := request.partition
  method := request.method
  url := request.url
  requestHeaders := request.headers
  status := status
  responseHeaders := headers
  requestTime := requestTime
  responseTime := responseTime
  provenance := .origin

/-- `Net::store`. -/
def keepAnswer (request : FetchRequest) (status : ℕ) (headers : HeaderMap) (body : Bytes)
    (address : Option IpAddr) (keep : Keep) : NetM (Option ContentId) := do
  let kept ← keep.admits address
  if kept then do
    let time ← now .answer
    let outcome ← attemptCache .answer
      (store P config.cacheOptions (storing request status headers time time) body)
    act .release
    match outcome with
    | .ok (.stored content _) => pure (some content)
    | _ => pure none
  else pure none

/-! ### Declared integrity -/

/-- `matching_strongest`. -/
def matchingStrongest (integrity : Integrity) (body : Bytes) : List Hash :=
  match integrity.strongest with
  | none => []
  | some strongest => integrity.hashes.filter fun h => h.algorithm = strongest && h.matches P body

/-- `announce_to`. -/
def announce (hashes : List Hash) : NetM Unit :=
  if hashes.isEmpty then pure () else act (.announce hashes)

/-- Grant a body to peers, and announce what that newly made shareable. -/
def grantAndAnnounce (errand : Errand) (content : ContentId) (integrity : Integrity) :
    NetM Unit := do
  let granted ← attemptCache errand (grantPeerEligibility P content integrity)
  match granted with
  | .ok fresh => announce fresh
  | .error _ => pure ()

/-- `share_verified`. -/
def shareVerified (content : ContentId) (integrity : Integrity) (matching : List Hash) :
    NetM Unit := do
  let recorded ← attemptCache .answer (peerEligibility content)
  match recorded with
  | .ok recorded =>
    if matching.all recorded.contains then pure () else grantAndAnnounce P .answer content integrity
  | .error _ => grantAndAnnounce P .answer content integrity

/-- `stored_satisfies`. -/
def storedSatisfies (request : FetchRequest) (stored : StoredResponse) : NetM Bool :=
  match request.integrity with
  | none => pure true
  | some integrity =>
    if isHop request stored.status stored.headers then pure true
    else
      let matching := matchingStrongest P integrity stored.body
      if !matching.isEmpty then
        match stored.content with
        | some content => do
          shareVerified P content integrity matching
          pure true
        | none => pure true
      else
        match stored.content with
        | some content => do
          let _ ← attemptCache .answer (discardRepresentation stored.key content)
          pure false
        | none => pure false

/-- What is said of a body that does not satisfy its declaration. -/
def integrityMessage (request : FetchRequest) (integrity : Integrity) (body : Bytes) : String :=
  let (expected, actual) := integrity.mismatch P body
  redacted P request.url ++ ": " ++ displayCacheError (.integrity expected actual)

/-- `accept_declared`. -/
def acceptDeclared (request : FetchRequest) (integrity : Integrity) (answer : Answer)
    (protocol : Protocol) (keep : Keep) : NetM Fetched := do
  let respond (content : Option ContentId) : NetM Fetched := do
    let source := if content.isSome then .origin else .passThrough
    let response ←
      finishWith answer.status answer.headers (.bytes answer.body) source content protocol
    pure ⟨response, none⟩
  if isHop request answer.status answer.headers then do
    let content ←
      keepAnswer P config request answer.status answer.headers answer.body answer.address keep
    respond content
  else if !integrity.verify P answer.body then
    given (.error (.integrity (integrityMessage P request integrity answer.body)))
  else do
    let content ←
      keepAnswer P config request answer.status answer.headers answer.body answer.address keep
    match content with
    | some id => do
      grantAndAnnounce P .answer id integrity
      respond content
    | none => respond content

/-- The headers that are made up for the body of a peer. -/
def peerHeaders (url : String) (body : Bytes) : HeaderMap :=
  let headers : HeaderMap :=
    match inferContentType url with
    | some contentType => insertText ⟨[]⟩ header.contentType contentType
    | none => ⟨[]⟩
  insertText headers header.contentLength (toString body.length)

/-- `try_peers`. -/
def tryPeers (request : FetchRequest) : NetM (Option Fetched) :=
  match request.integrity with
  | none => pure none
  | some integrity =>
    match integrity.strongestHash with
    | none => pure none
    | some hash => do
      let found ← act (.askPeers hash)
      match found with
      | none => pure none
      | some body => do
        let accepted ← attemptCache .answer (acceptPeerBody P integrity body)
        match accepted with
        | .error _ => pure none
        | .ok () => do
          let fetched ← finish 200 (peerHeaders request.url body) body .peer (some (P.blake3 body))
          pure (some fetched)

/-! ### Streaming -/

/-- `write_streamed`. -/
def writeStreamed (teed : Teed) (writer : BlobWriter) : NetM Unit := do
  let kept ← teed.keep.admits teed.address
  if kept then do
    let time ← now .write
    let _ ← attemptCache .write (finishStreamed P config.cacheOptions
      (storing teed.request teed.status teed.headers teed.requestTime time) writer)
    act .release
  else pure ()

/-- `stream_body`: what goes with the stream, if it is to be kept. -/
def streamBody (request : FetchRequest) (exchange : Exchange) (keep : Keep) :
    NetM (Option Teed) := do
  let kept ← keep.admits exchange.address
  if kept then do
    act .release
    let opened ← act .spool
    if opened then do
      let requestTime ← now .answer
      pure (some {
        tee := .new ⟨[]⟩ config.maxBodyBytes
        request := request
        status := exchange.status
        headers := exchange.headers
        requestTime := requestTime
        keep := keep
        address := exchange.address })
    else pure none
  else pure none

/-- `land`. -/
def land (teed : Teed) : NetM Unit :=
  match teed.tee.writer with
  | none => pure ()
  | some writer => do
    let landing ← act (.beginLanding (landingAddress P teed.request.partition teed.request.url))
    let runtime ← act .runtime
    if runtime then act (.spawn (.write teed writer landing))
    else do
      let _ ← attempt (writeStreamed P config teed writer)
      act (.endLanding landing)

/-- What a caller has of a body: the pieces it was given, and whether it was given
the end. -/
structure Received where
  response : FetchResponse
  read : List (Except String Bytes)
  ended : Bool

/-- The stream of `stream_body`, as far as it is read. -/
def readStream (read : List (Except String Bytes)) :
    Option Teed → List (Except String Bytes) → NetM (List (Except String Bytes) × Bool)
  | teed, [] => do
    let more ← act .more
    if more then do
      match teed with
      | some teed => land P config teed
      | none => pure ()
      pure (read, true)
    else pure (read, false)
  | none, item :: rest => do
    let more ← act .more
    if more then readStream (read ++ [item]) none rest else pure (read, false)
  | some teed, .ok chunk :: rest => do
    let more ← act .more
    if more then do
      let tee ← teed.tee.observe chunk
      readStream (read ++ [.ok chunk]) (some { teed with tee := tee }) rest
    else pure (read, false)
  | some _, .error e :: _ => do
    let more ← act .more
    -- what was written is dropped, and the stream is done
    if more then do
      let more ← act .more
      pure (read ++ [.error e], more)
    else pure (read, false)

/-- A caller reads what it was given, as far as it likes. -/
def receive (fetched : Fetched) : NetM Received :=
  match fetched.response.body with
  | .bytes body => pure ⟨fetched.response, (FetchBody.bytes body).intoStream, true⟩
  | .stream items => do
    let (read, ended) ← readStream P config [] fetched.teed items
    pure ⟨fetched.response, read, ended⟩

/-! ### Refreshing -/

/-- `Refreshed`. -/
inductive Refreshed
  | stored (shared : List Hash)
  | notStored

/-- What `refresh_entry` does with an answer that is not a confirmation. -/
def replaceEntry (request : FetchRequest) (answer : Answer) : NetM Refreshed := do
  let verified := request.integrity.filter fun _ => !isHop request answer.status answer.headers
  if verified.any fun integrity => !integrity.verify P answer.body then pure .notStored
  else do
    let time ← now .refresh
    let outcome ← onCache .refresh (store P config.cacheOptions
      (storing request answer.status answer.headers time time) answer.body)
    match outcome with
    | .stored content _ =>
      match verified with
      | some integrity => do
        let shared ← onCache .refresh (grantPeerEligibility P content integrity)
        pure (.stored shared)
      | none => pure (.stored [])
    | .storedPartial _ _ => pure (.stored [])
    | .notStored _ => pure .notStored

/-- `refresh_entry`. -/
def refreshEntry (request : FetchRequest) (key : String)
    (conditional : List (HeaderName × String)) (keep : Keep) : NetM Refreshed := do
  let answer ← origin config request conditional
  let kept ← keep.admits answer.address
  if kept then do
    let outcome ← attempt (if answer.status = 304 then do
        let time ← now .refresh
        let refreshed ← onCache .refresh (recordNotModified P key answer.headers time time)
        pure (if refreshed.isSome then .stored [] else .notStored)
      else replaceEntry P config request answer)
    act .release
    given outcome
  else pure .notStored

/-- `spawn_refresh`. -/
def spawnRefresh (key : String) (request : FetchRequest)
    (conditional : List (HeaderName × String)) (keep : Keep) : NetM Unit := do
  let first ← act (.beginRefresh key)
  if first then act (.spawn (.refresh key request conditional keep)) else pure ()

/-! ### One hop -/

/-- `fetch_from_origin`. -/
def fetchFromOrigin (request : FetchRequest) (extra : List (HeaderName × String)) (keep : Keep) :
    NetM Fetched := do
  let exchange ← originAny request extra
  match request.integrity with
  | some integrity => do
    let body ← given (collectBody config.maxBodyBytes exchange.items)
    acceptDeclared P config request integrity
      ⟨exchange.status, exchange.headers, body, exchange.address⟩ exchange.protocol keep
  | none => do
    let teed ← streamBody config request exchange keep
    let response ← finishWith exchange.status exchange.headers (.stream exchange.items) .origin
      none exchange.protocol
    pure ⟨response, teed⟩

/-- `refetch_lost`. -/
def refetchLost (request : FetchRequest) (keep : Keep) : NetM Fetched := do
  let fetched ← fetchFromOrigin P config request [] keep
  if fetched.response.status = 304 then given (.error (.lostBody request.url)) else pure fetched

/-- A stored response is handed on, if it may be; otherwise the origin is asked. -/
def serveOr (request : FetchRequest) (stored : StoredResponse) (keep : Keep)
    (serve : NetM Fetched) : NetM Fetched := do
  let satisfies ← storedSatisfies P request stored
  if satisfies then serve else fetchFromOrigin P config request [] keep

/-- What `fetch_once` does where a stale entry was confirmed. -/
def confirmed (request : FetchRequest) (stored : StoredResponse) (answer : Answer) (keep : Keep) :
    NetM Fetched := do
  let kept ← keep.admits answer.address
  if kept then do
    let time ← now .answer
    let recorded ← attemptCache .answer
      (recordNotModified P stored.key answer.headers time time)
    act .release
    match recorded with
    | .ok (some refreshed) =>
      serveOr P config request refreshed keep (finish refreshed.status
        (withCookiesOf refreshed.headers answer.headers) refreshed.body .revalidated
        refreshed.content)
    | .ok none =>
      finish stored.status (withCookiesOf stored.headers answer.headers) stored.body .cacheStale
        stored.content
    | .error e =>
      if e.isLostBody then refetchLost P config request keep else given (.error (.cache e))
  else
    finish stored.status (withCookiesOf stored.headers answer.headers) stored.body .revalidated
      stored.content

/-- What `fetch_once` does where it was not. -/
def replaced (request : FetchRequest) (answer : Answer) (keep : Keep) : NetM Fetched :=
  match request.integrity with
  | some integrity => acceptDeclared P config request integrity answer .none keep
  | none => do
    let content ←
      keepAnswer P config request answer.status answer.headers answer.body answer.address keep
    finish answer.status answer.headers answer.body .origin content

/-- What `fetch_once` does where an entry has to be asked about. -/
def revalidate (request : FetchRequest) (stored : StoredResponse)
    (conditional : List (HeaderName × String)) (staleIfError : Option ℕ) (keep : Keep) :
    NetM Fetched := do
  let attempted ← attempt (origin config request conditional)
  match attempted with
  | .ok answer =>
    if answer.status = 304 then confirmed P config request stored answer keep
    else replaced P config request answer keep
  | .error e =>
    if config.honourStaleIfError && staleIfError.isSome then
      finish stored.status stored.headers stored.body .staleOnError stored.content
    else given (.error e)

/-- What `fetch_once` does with what the cache has. -/
def answerFrom (request : FetchRequest) (keep : Keep) : Lookup → NetM Fetched
  | .fresh stored =>
    serveOr P config request stored keep
      (finish stored.status stored.headers stored.body .cache stored.content)
  | .stale stored refreshInBackground _ =>
    serveOr P config request stored keep do
      if refreshInBackground then
        spawnRefresh stored.key request (conditionalHeaders stored.metadata) keep
      else pure ()
      finish stored.status stored.headers stored.body .cacheStale stored.content
  | .revalidate stored conditional staleIfError _ =>
    serveOr P config request stored keep
      (revalidate P config request stored conditional staleIfError keep)
  | .miss _ => do
    let found ← tryPeers P request
    match found with
    | some fetched => pure fetched
    | none => fetchFromOrigin P config request [] keep

/-- What `fetch_once` does with a method that is not safe: what is held of the target
goes, and the answer is passed through. -/
def passThrough (request : FetchRequest) : NetM Fetched := do
  let _ ← attemptCache .answer (invalidateUrl P request.partition request.method request.url)
  let answer ← origin config request []
  finish answer.status answer.headers answer.body .passThrough none

/-- What `fetch_once` does with the others: the cache is asked first. -/
def consult (request : FetchRequest) (keep : Keep) : NetM Fetched := do
  let found ← onCache .answer
    (lookup P config.cacheOptions request.partition request.method request.url request.headers)
  answerFrom P config request keep found

/-- `fetch_once`. -/
def fetchOnce (request : FetchRequest) : NetM Fetched := do
  act (.hop request)
  settled (some (landingAddress P request.partition request.url))
  let since ← act .since
  if invalidates request.method then passThrough P config request
  else consult P config request ⟨since, config.cachePublicAddressesOnly⟩

/-! ### The loop -/

/-- An error of the loop. -/
def ofFetchError : FetchError NetError → NetError
  | .tooManyRedirects limit => .tooManyRedirects limit
  | .redirectLoop url => .redirectLoop url
  | .integrity message => .integrity message
  | .other e => e

/-- The end of the loop: what goes with the stream goes with it, and is dropped where
the stream is. -/
def Fetched.last (fetched : Fetched) (response : FetchResponse) : Fetched :=
  match response.body with
  | .bytes _ => ⟨response, none⟩
  | .stream _ => ⟨response, fetched.teed⟩

/-- The loop of `Net::fetch`, while this many redirects may still be followed. -/
def fetchFrom : ℕ → FetchRequest → List String → NetM Fetched
  | left, current, visited => do
    let fetched ← fetchOnce P config current
    match Redirects.round P config.maxRedirects (config.maxRedirects - left) current visited
        (.ok fetched.response : Except NetError FetchResponse) with
    | .done result => do
      let response ← given (result.mapError ofFetchError)
      pure (fetched.last response)
    | .next request visited' =>
      match left with
      | 0 => given (.error (.tooManyRedirects config.maxRedirects))
      | left + 1 => fetchFrom left request visited'

/-- `Net::fetch`. -/
def fetch (request : FetchRequest) : NetM Fetched := do
  given ((refuseUnusableIntegrity P request).mapError ofFetchError)
  fetchFrom P config config.maxRedirects request [normalizeUrl P request.url]

/-- `Net::clear_cache`. -/
def clearCache : NetM ℕ := do
  act .beginClear
  let removed ← attempt (onCache .upkeep Syndeo.clear)
  act .endClear
  given removed

/-! ### What a process does -/

/-- What the threads of a process do: a caller fetches and reads what it is given, and
the process clears its cache, waits for what is being written, collects garbage and
serves its peers. -/
inductive Job
  | fetch (request : FetchRequest)
  | clearCache
  | landed
  | collectGarbage
  | serve (asked : PeerAsk)

/-- What such a thread returns. -/
inductive Outcome
  | received (result : Except NetError Received)
  | cleared (result : Except NetError ℕ)
  | landed
  | collected (result : Except CacheError ℕ)
  | served (result : Except CacheError (Option Bytes))
  /-- A task has run. -/
  | ran

/-- The program of a job. -/
def Job.program : Job → Prog NetAct Outcome
  | .fetch request => do
    let r ← (Net.fetch P config request >>= receive P config).run
    pure (.received r)
  | .clearCache => do
    let r ← Net.clearCache.run
    pure (.cleared r)
  | .landed => do
    let _ ← (settled none).run
    pure .landed
  | .collectGarbage => do
    let r ← Syndeo.collectGarbage.run.lift (NetAct.cache .upkeep)
    pure (.collected r)
  | .serve asked => do
    let r ← (bodyForPeer P asked).run.lift (NetAct.cache .upkeep)
    pure (.served r)

/-- What a task does. -/
def Task.body : Task → NetM Unit
  | .refresh key request conditional keep => do
    let outcome ← attempt (refreshEntry P config request key conditional keep)
    match outcome with
    | .ok (.stored shared) => announce shared
    | _ => pure ()
    act (.endRefresh key)
  | .write teed writer landing => do
    let _ ← attempt (writeStreamed P config teed writer)
    act (.endLanding landing)

/-- The program of a task. -/
def Task.program (task : Task) : Prog NetAct Outcome := do
  let _ ← (task.body P config).run
  pure .ran

/-- The program that a step starts. -/
def child : ∀ {β : Type}, NetAct β → Option (Prog NetAct Outcome)
  | _, .spawn task => some (task.program P config)
  | _, _ => none

/-- **A process**, whatever the world contributes. -/
def netSystem : System NetAct NetState Outcome :=
  System.ofPerform NetState.perform (fun _ => True) (child P config)

/-- The start of a run. -/
def running (s : NetState) (jobs : List Job) : Config NetAct NetState Outcome :=
  ⟨s, jobs.map (Job.program P config)⟩

variable {P config}

/-- A schedule that ends as it should: there is such a run. -/
theorem exists_netRuns {c : Config NetAct NetState Outcome} {rest : List (World × ℕ)}
    {p : Config NetAct NetState Outcome → Bool}
    (h : (c.follow NetState.perform (child P config) rest).any p = true) :
    ∃ c', (netSystem P config).Runs c c' ∧ p c' = true :=
  Config.exists_runs_of_follow (fun _ _ => trivial) h

/-! ### One page -/

/-- The process of the examples. -/
def sampleConfig : NetConfig where
  sharedCache := false
  maxBodyBytes := 1
  honourStaleIfError := true
  maxRedirects := 5
  cachePublicAddressesOnly := false

/-- An origin that answers so at this time, where all goes well. -/
def sampleWorld (time status : ℕ) (headers : List (String × String)) (body : Bytes) : World :=
  let exchange : Exchange := ⟨status, toHeaderMap headers, [.ok body], .http1, none⟩
  { weather := ⟨time, none⟩
    tcp := .ok exchange
    quic := .ok exchange
    peer := none
    flag := true
    elapsed := 0 }

/-- A thread that makes so many steps. -/
def stretch (world : World) (i steps : ℕ) : List (World × ℕ) := List.replicate steps (world, i)

end Net

end Syndeo
