import Mathlib.Data.Finset.Insert
import Syndeo.Data.Table
import Syndeo.Peer.Protocol

/-!
# The swarm's loop

One task owns the state of all fetches, and handles one thing at a time: a
command, a tick of the clock, an event of the network. `Syndeo.Swarm.Loop` is that
state, with what the networking library has handed out so far, and with a log of
all that has passed between the loop and the rest: what happened, and what the loop
did about it.

Nothing is assumed of the order in which things happen, nor of the network: an
answer can come for a request that was never made, twice, or not at all. All that
the library is relied on for is that it numbers requests and queries and does not
use a number again.
-/

namespace Syndeo

open Tables

namespace Swarm

variable {Peer : Type}

/-- `PeerError`, as far as a fetch ends in it. -/
inductive PeerError
  | notFound
  | timeout
  deriving DecidableEq

/-- What a fetch is answered. -/
abbrev Outcome := Except PeerError Bytes

/-- `PeerConfig`. -/
structure PeerConfig where
  serve : Bool
  discovery : Bool
  announce : Bool
  fetchTimeout : ℕ

/-- `Ledger`: what one peer has taken from us and given us. -/
structure Ledger where
  served : ℕ := 0
  bytesServed : ℕ := 0
  received : ℕ := 0
  bytesReceived : ℕ := 0
  debt : ℕ := 0
  deriving DecidableEq

/-- `OPENING_CREDIT`. -/
def openingCredit : ℕ := 32

namespace Ledger

/-- `Ledger::in_credit`. -/
def inCredit (self : Ledger) : Bool := decide (self.debt < openingCredit)

/-- `Ledger::standing`. -/
def standing (self : Ledger) : ℤ := self.received - self.served

/-- A body was handed over. -/
def gave (self : Ledger) (bytes : ℕ) : Ledger :=
  { self with
    served := self.served + 1
    bytesServed := self.bytesServed + bytes
    debt := min (self.debt + 1) (2 ^ 32 - 1) }

/-- A body was taken. -/
def took (self : Ledger) (bytes : ℕ) : Ledger :=
  { self with
    received := self.received + 1
    bytesReceived := self.bytesReceived + bytes
    debt := self.debt - 1 }

end Ledger

/-! ### What happens, and what is done -/

/-- `Command`. The end of a fetch's one-shot channel that is written to is a number;
`starts` says whether the library takes the announcement; the commands that only
look are one. -/
inductive Command
  | fetch (request : BlobRequest) (reply : ℕ)
  | announce (key : Bytes) (starts : Bool)
  | look
  deriving DecidableEq

/-- One turn of the loop. -/
inductive Event (Peer : Type)
  /-- A command is received, at a reading of the clock. -/
  | command (c : Command) (now : ℕ)
  /-- The sweep ticks, at a reading of the clock. -/
  | sweep (now : ℕ)
  | connectionEstablished (peer : Peer)
  | connectionClosed (peer : Peer) (numEstablished : ℕ)
  /-- A provider query has found providers. -/
  | foundProviders (query : ℕ) (providers : List Peer)
  /-- A provider query has finished, or failed. -/
  | queryOver (query : ℕ)
  /-- A peer asks, and this is what the cache has for it. -/
  | request (peer : Peer) (request : BlobRequest) (found : Option Bytes)
  | response (peer : Peer) (requestId : ℕ) (response : BlobResponse)
  | outboundFailure (requestId : ℕ)
  /-- Anything else. -/
  | other

/-- What is in the log. -/
inductive Entry (Peer : Type)
  | happened (e : Event Peer)
  /-- A command is taken up as the fetch of this number. -/
  | accepted (fetch : ℕ) (request : BlobRequest) (reply deadline : ℕ)
  /-- `send_request`, on behalf of a fetch. -/
  | asked (fetch requestId : ℕ) (peer : Peer)
  /-- `get_providers`, on behalf of a fetch. -/
  | queried (fetch query : ℕ)
  /-- Something is sent on the channel of a fetch. -/
  | replied (fetch reply : ℕ) (outcome : Outcome)
  /-- `send_response`. -/
  | answered (peer : Peer) (response : BlobResponse)
  /-- `start_providing`. -/
  | provided (key : Bytes)

/-! ### The state -/

/-- `Pending`: one fetch in flight. -/
structure Pending (Peer : Type) where
  request : BlobRequest
  reply : Option ℕ
  outstanding : ℕ
  asked : Finset Peer
  query : Option ℕ
  deadline : ℕ

/-- `State`. -/
structure State (Peer : Type) where
  connected : List Peer
  ledgers : Table Peer Ledger
  announced : Finset Bytes
  /-- The fetch that each request is for. -/
  pending : Table ℕ ℕ
  /-- The fetch that each query is for. -/
  providerQueries : Table ℕ ℕ
  fetches : Table ℕ (Pending Peer)
  nextFetch : ℕ

/-- **The loop**: its state, the numbers that the library will use next, and the log. -/
structure Loop (Peer : Type) extends State Peer where
  nextRequest : ℕ
  nextQuery : ℕ
  log : List (Entry Peer)

namespace Loop

/-- A loop that has just started. -/
def start : Loop Peer where
  connected := []
  ledgers := ∅
  announced := ∅
  pending := ∅
  providerQueries := ∅
  fetches := ∅
  nextFetch := 0
  nextRequest := 0
  nextQuery := 0
  log := []

/-- Something is added to the log. -/
def record (self : Loop Peer) (e : Entry Peer) : Loop Peer := { self with log := self.log ++ [e] }

/-- `Pending::finish`. -/
def finish (self : Loop Peer) (id : ℕ) (entry : Pending Peer) (outcome : Outcome) : Loop Peer :=
  match entry.reply with
  | some reply => self.record (.replied id reply outcome)
  | none => self

variable [DecidableEq Peer]

/-- The ledger of a peer. -/
def ledger (self : Loop Peer) (peer : Peer) : Ledger := (self.ledgers.lookup peer).getD {}

/-- `State::by_standing`. -/
def byStanding (self : Loop Peer) : List Peer :=
  self.connected.mergeSort fun a b => decide ((self.ledger b).standing ≤ (self.ledger a).standing)

/-- A request is sent to one peer. -/
def ask (self : Loop Peer) (id : ℕ) (entry : Pending Peer) (peer : Peer) :
    Loop Peer × Pending Peer :=
  ({ self with
      pending := self.pending.insert self.nextRequest id
      nextRequest := self.nextRequest + 1
      log := self.log ++ [.asked id self.nextRequest peer] },
    { entry with asked := insert peer entry.asked, outstanding := entry.outstanding + 1 })

/-- A request is sent to each peer that is not passed over. -/
def askEach (skip : Pending Peer → Peer → Bool) (id : ℕ) :
    List Peer → Loop Peer × Pending Peer → Loop Peer × Pending Peer
  | [], r => r
  | peer :: peers, r =>
    askEach skip id peers (if skip r.2 peer then r else r.1.ask id r.2 peer)

/-- `start_provider_query`, where a query is started. -/
def startProviderQuery (config : PeerConfig) (self : Loop Peer) (id : ℕ) (entry : Pending Peer) :
    Option (Loop Peer × Pending Peer) :=
  if config.discovery = false ∨ entry.query.isSome then none
  else some
    ({ self with
        providerQueries := self.providerQueries.insert self.nextQuery id
        nextQuery := self.nextQuery + 1
        log := self.log ++ [.queried id self.nextQuery] },
      { entry with query := some self.nextQuery })

/-- A fetch is put where it was. -/
def keep (self : Loop Peer) (id : ℕ) (entry : Pending Peer) : Loop Peer :=
  { self with fetches := self.fetches.insert id entry }

/-- A fetch is taken away. -/
def drop (self : Loop Peer) (id : ℕ) : Loop Peer :=
  { self with fetches := self.fetches.erase id }

/-- `exhausted`. -/
def exhausted (config : PeerConfig) (self : Loop Peer) (id : ℕ) : Loop Peer :=
  match self.fetches.lookup id with
  | none => self
  | some entry =>
    if 0 < entry.outstanding then self
    else
      match (self.drop id).startProviderQuery config id entry with
      | some (self, entry) => self.keep id entry
      | none => (self.drop id).finish id entry (.error .notFound)

/-- `handle_command`, of a fetch. -/
def handleFetch (config : PeerConfig) (self : Loop Peer) (request : BlobRequest) (reply now : ℕ) :
    Loop Peer :=
  let id := self.nextFetch
  let entry : Pending Peer :=
    { request := request
      reply := some reply
      outstanding := 0
      asked := ∅
      query := none
      deadline := now + config.fetchTimeout }
  let self := { self with nextFetch := id + 1 }.record (.accepted id request reply entry.deadline)
  let r := askEach (fun _ _ => false) id self.byStanding (self, entry)
  if r.2.outstanding = 0 then
    match r.1.startProviderQuery config id r.2 with
    | some (self, entry) => self.keep id entry
    | none => r.1.finish id r.2 (.error .notFound)
  else r.1.keep id r.2

/-- `handle_command`. -/
def handleCommand (config : PeerConfig) (self : Loop Peer) (now : ℕ) : Command → Loop Peer
  | .fetch request reply => self.handleFetch config request reply now
  | .announce key starts =>
    if !config.announce || !config.serve then self
    else if key ∈ self.announced then self
    else if starts then { self with announced := insert key self.announced }.record (.provided key)
    else self.record (.provided key)
  | .look => self

/-- `expire`. -/
def expire (self : Loop Peer) (now : ℕ) : Loop Peer :=
  ((rows self.fetches).filter fun r => r.2.deadline ≤ now).foldl
    (fun self r => (self.drop r.1).finish r.1 r.2 (.error .timeout)) self

/-- `handle_kademlia_event`, where providers were found. -/
def handleProviders (localPeer : Peer) (self : Loop Peer) (query : ℕ) (providers : List Peer) :
    Loop Peer :=
  match self.providerQueries.lookup query with
  | none => self
  | some id =>
    match self.fetches.lookup id with
    | none => self
    | some entry =>
      let r := askEach (fun entry peer => peer == localPeer || decide (peer ∈ entry.asked)) id
        providers (self, entry)
      r.1.keep id r.2

/-- `handle_kademlia_event`, where the query is over. -/
def handleQueryOver (self : Loop Peer) (query : ℕ) : Loop Peer :=
  match self.providerQueries.lookup query with
  | none => self
  | some id =>
    let self := { self with providerQueries := self.providerQueries.erase query }
    match self.fetches.lookup id with
    | none => self
    | some entry =>
      let entry := { entry with query := none }
      if entry.outstanding = 0 then (self.drop id).finish id entry (.error .notFound)
      else self.keep id entry

/-- `handle_blob_event`, of a peer's request. -/
def handleRequest (config : PeerConfig) (self : Loop Peer) (peer : Peer) (found : Option Bytes) :
    Loop Peer :=
  let ledger := self.ledger peer
  let response : BlobResponse :=
    if config.serve = false then .missing
    else if ledger.inCredit = false then .throttled
    else
      match found with
      | some body => if body.length ≤ maxBody then .«have» body else .missing
      | none => .missing
  let ledger := match response with
    | .«have» body => ledger.gave body.length
    | _ => ledger
  { self with ledgers := self.ledgers.insert peer ledger }.record (.answered peer response)

/-- The bytes that a response brings, if they are what was asked for. -/
def brings (P : Platform) (entry : Pending Peer) : BlobResponse → Option Bytes
  | .«have» body =>
    if body.length ≤ maxBody ∧ entry.request.isSatisfiedBy P body then some body else none
  | _ => none

/-- `handle_blob_event`, of a peer's response. -/
def handleResponse (P : Platform) (config : PeerConfig) (self : Loop Peer) (peer : Peer)
    (requestId : ℕ) (response : BlobResponse) : Loop Peer :=
  match self.pending.lookup requestId with
  | none => self
  | some id =>
    let self := { self with pending := self.pending.erase requestId }
    match self.fetches.lookup id with
    | none => self
    | some entry =>
      let entry := { entry with outstanding := entry.outstanding - 1 }
      match brings P entry response with
      | some body =>
        ({ self with
            ledgers := self.ledgers.insert peer ((self.ledger peer).took body.length) }.drop
          id).finish id entry (.ok body)
      | none => (self.keep id entry).exhausted config id

/-- `handle_blob_event`, of a request that failed. -/
def handleFailure (config : PeerConfig) (self : Loop Peer) (requestId : ℕ) : Loop Peer :=
  match self.pending.lookup requestId with
  | none => self
  | some id =>
    let self := { self with pending := self.pending.erase requestId }
    match self.fetches.lookup id with
    | none => self
    | some entry =>
      (self.keep id { entry with outstanding := entry.outstanding - 1 }).exhausted config id

/-- **One turn of the loop**, on what has happened. -/
def handle (P : Platform) (config : PeerConfig) (localPeer : Peer) (self : Loop Peer) :
    Event Peer → Loop Peer
  | .command c now => self.handleCommand config now c
  | .sweep now => self.expire now
  | .connectionEstablished peer =>
    if peer ∈ self.connected then self else { self with connected := self.connected ++ [peer] }
  | .connectionClosed peer numEstablished =>
    if numEstablished = 0 then
      { self with connected := self.connected.filter fun p => p ≠ peer }
    else self
  | .foundProviders query providers => self.handleProviders localPeer query providers
  | .queryOver query => self.handleQueryOver query
  | .request peer _ found => self.handleRequest config peer found
  | .response peer requestId response => self.handleResponse P config peer requestId response
  | .outboundFailure requestId => self.handleFailure config requestId
  | .other => self

/-- What a turn leaves. -/
def after (P : Platform) (config : PeerConfig) (localPeer : Peer) (self : Loop Peer)
    (e : Event Peer) : Loop Peer :=
  (self.record (.happened e)).handle P config localPeer e

end Loop

end Swarm

end Syndeo
