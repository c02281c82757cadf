import Syndeo.Cache.Operations
import Syndeo.Net.Message
import Syndeo.Net.Reach

/-!
# What the network process shares, and its steps

The fetches of a network process run side by side, with what they leave running
behind them: the refresh of an entry that was served stale, the writing of a body
whose end was handed on. What they share is a `Syndeo.Net.NetState`: the store, the
count of how often it was cleared, the writes that are under way and the entries
that are being refreshed. A `Syndeo.Net.NetAct` is one step of one of them, and
`Syndeo.Net.NetState.perform` what it does.

An origin, a peer and a caller answer as they like, and so does the machine where it
is asked whether something can be done; a `Syndeo.Net.World` is what they contribute.
The body of an answer is told in full when its headers come; it is read piece by
piece.
-/

namespace Syndeo

namespace Net

open Concurrent Tables

/-! ### What is configured, and what goes wrong -/

/-- `NetConfig`, as far as a fetch goes by it. -/
structure NetConfig where
  sharedCache : Bool
  maxBodyBytes : ℕ
  honourStaleIfError : Bool
  maxRedirects : ℕ
  cachePublicAddressesOnly : Bool

/-- The options of its cache. -/
def NetConfig.cacheOptions (config : NetConfig) : CacheOptions :=
  { CacheOptions.default with
    shared := config.sharedCache
    maxBodyBytes := config.maxBodyBytes }

/-- `NetError`. -/
inductive NetError
  | cache (error : CacheError)
  | http (message : String)
  | hyper (message : String)
  | transport (message : String)
  | invalidUrl (url : String)
  | dns (message : String)
  | tls (message : String)
  | bodyTooLarge (limit : ℕ)
  | tooManyRedirects (limit : ℕ)
  | redirectLoop (url : String)
  | lostBody (url : String)
  | integrity (message : String)
  | io (message : String)
  deriving DecidableEq

/-- `Reached`: how far a request got that failed. -/
inductive Reached
  | nothing
  | request
  deriving DecidableEq

/-- `Failed`. -/
structure Failed where
  reached : Reached
  error : NetError

/-- **What an origin answers**, the pieces of the body as they will come, and the
address of the connection that carried it. -/
structure Exchange where
  status : ℕ
  headers : HeaderMap
  items : List (Except String Bytes)
  protocol : Protocol
  address : Option IpAddr

/-- `Answer`: one whose body is all there. -/
structure Answer where
  status : ℕ
  headers : HeaderMap
  body : Bytes
  address : Option IpAddr

/-! ### What runs behind an answer -/

/-- `Keep`: the count of clears when a request began, and whose answers are kept. -/
structure Keep where
  since : ℕ
  publicOnly : Bool

/-- `Tee`. -/
structure Tee where
  writer : Option BlobWriter
  overBudget : Bool
  limit : ℕ

/-- `Teed`, but for the pieces that have not come. -/
structure Teed where
  tee : Tee
  request : FetchRequest
  status : ℕ
  headers : HeaderMap
  requestTime : ℕ
  keep : Keep
  address : Option IpAddr

/-- What is started beside the fetches: the refresh of a stale entry, and the write of
a body that has come in full. -/
inductive Task
  | refresh (key : String) (request : FetchRequest) (conditional : List (HeaderName × String))
      (keep : Keep)
  | write (teed : Teed) (writer : BlobWriter) (landing : ℕ)

/-- On whose behalf the cache is asked for something: that of a caller, of a refresh, of
the writing of a body, or of the process itself. -/
inductive Errand
  | answer
  | refresh
  | write
  | upkeep
  deriving DecidableEq

/-! ### The state, and the steps -/

/-- What the fetches of a process share. -/
structure NetState where
  store : Store
  /-- How often the cache was cleared. -/
  cleared : ℕ
  /-- Who holds the count shared. -/
  keepers : List ℕ
  /-- Who holds it exclusively. -/
  clearing : Option ℕ
  /-- `Landing::pending`: the address of each write that is under way. -/
  landings : Table ℕ String
  nextLanding : ℕ
  /-- The keys of the entries that are being refreshed. -/
  refreshing : List String

/-- A process that has just been started on a store. -/
def NetState.starting (store : Store) : NetState := ⟨store, 0, [], none, ∅, 0, []⟩

/-- **One step of a fetch**, or of what it leaves running. -/
inductive NetAct : Type → Type 1
  | cache {β : Type} (errand : Errand) (a : CacheAct β) : NetAct β
  /-- A hop begins, and what it takes is timed from here. -/
  | hop (request : FetchRequest) : NetAct Unit
  /-- A request over TCP: the origin's answer, or why there is none. -/
  | tcp (request : FetchRequest) (extra : List (HeaderName × String)) :
      NetAct (Except NetError Exchange)
  /-- A request over QUIC. -/
  | quic (request : FetchRequest) (extra : List (HeaderName × String)) :
      NetAct (Except Failed Exchange)
  /-- Whether QUIC is to be tried: `AltSvc::should_try`, where there is an endpoint. -/
  | triesQuic (request : FetchRequest) : NetAct Bool
  /-- The swarm is asked for a body of this hash. -/
  | askPeers (hash : Hash) : NetAct (Option Bytes)
  /-- The swarm is told what it can be asked for. -/
  | announce (hashes : List Hash) : NetAct Unit
  /-- The count of clears is read. -/
  | since : NetAct ℕ
  /-- The count is held shared, unless it is no longer this. -/
  | admits (since : ℕ) : NetAct Bool
  | release : NetAct Unit
  /-- The count is held exclusively, and raised. -/
  | beginClear : NetAct Unit
  | endClear : NetAct Unit
  /-- The writes that are under way, for an address or for any. -/
  | pending (address : Option String) : NetAct (List ℕ)
  /-- Waiting for a write to be over. -/
  | over (landing : ℕ) : NetAct Unit
  /-- A write is under way. -/
  | beginLanding (address : String) : NetAct ℕ
  | endLanding (landing : ℕ) : NetAct Unit
  /-- Whether nobody refreshes the entry yet; then this one does. -/
  | beginRefresh (key : String) : NetAct Bool
  | endRefresh (key : String) : NetAct Unit
  /-- Whether a temporary file can be made, or written on. -/
  | spool : NetAct Bool
  /-- Whether there is a runtime to hand a task to. -/
  | runtime : NetAct Bool
  /-- Whether the caller reads on. -/
  | more : NetAct Bool
  /-- How long it took. -/
  | elapsed : NetAct ℕ
  | spawn (task : Task) : NetAct Unit

/-- **What the world contributes to a step.** -/
structure World where
  weather : Weather
  tcp : Except NetError Exchange
  quic : Except Failed Exchange
  peer : Option Bytes
  flag : Bool
  elapsed : ℕ

/-- **What a step does**; it waits where a lock or a write does. -/
def NetState.perform (w : World) (i : ℕ) :
    ∀ {β : Type}, NetAct β → NetState → Option (β × NetState)
  | _, .cache _ a, s =>
    (Store.perform w.weather i a s.store).map fun r => (r.1, { s with store := r.2 })
  | _, .hop _, s => some ((), s)
  | _, .tcp _ _, s => some (w.tcp, s)
  | _, .quic _ _, s => some (w.quic, s)
  | _, .triesQuic _, s => some (w.flag, s)
  | _, .askPeers _, s => some (w.peer, s)
  | _, .announce _, s => some ((), s)
  | _, .since, s => if s.clearing = none then some (s.cleared, s) else none
  | _, .admits since, s =>
    if s.clearing = none then
      if s.cleared = since then some (true, { s with keepers := i :: s.keepers })
      else some (false, s)
    else none
  | _, .release, s => some ((), { s with keepers := s.keepers.erase i })
  | _, .beginClear, s =>
    if s.clearing = none ∧ s.keepers = [] then
      some ((), { s with clearing := some i, cleared := s.cleared + 1 })
    else none
  | _, .endClear, s => some ((), { s with clearing := none })
  | _, .pending address, s =>
    some (((rows s.landings).filter fun r => address.all fun at_ => r.2 = at_).map Prod.fst, s)
  | _, .over landing, s => if (s.landings.lookup landing).isNone then some ((), s) else none
  | _, .beginLanding address, s =>
    some (s.nextLanding, { s with
      landings := s.landings.insert s.nextLanding address
      nextLanding := s.nextLanding + 1 })
  | _, .endLanding landing, s => some ((), { s with landings := s.landings.erase landing })
  | _, .beginRefresh key, s =>
    if key ∈ s.refreshing then some (false, s)
    else some (true, { s with refreshing := key :: s.refreshing })
  | _, .endRefresh key, s => some ((), { s with refreshing := s.refreshing.erase key })
  | _, .spool, s => some (w.flag, s)
  | _, .runtime, s => some (w.flag, s)
  | _, .more, s => some (w.flag, s)
  | _, .elapsed, s => some (w.elapsed, s)
  | _, .spawn _, s => some ((), s)

section Perform

variable {w : World} {i : ℕ} {s s' : NetState} {β : Type} {b : β}

/-- The step is one of the cache. -/
def NetAct.OnCache : ∀ {β : Type}, NetAct β → Prop
  | _, .cache _ _ => True
  | _, _ => False

theorem NetState.perform_cache {errand : Errand} {a : CacheAct β} :
    NetState.perform w i (.cache errand a) s = some (b, s') ↔
      Store.perform w.weather i a s.store = some (b, s'.store) ∧ s' = { s with store := s'.store } := by
  simp only [perform, Option.map_eq_some_iff, Prod.mk.injEq, Prod.exists]
  constructor
  · rintro ⟨b, store, hperform, rfl, rfl⟩
    exact ⟨hperform, rfl⟩
  · rintro ⟨hperform, heq⟩
    exact ⟨b, s'.store, hperform, rfl, heq.symm⟩

/-- The other steps leave the store as it is. -/
theorem NetState.store_of_perform {a : NetAct β} (ha : ¬a.OnCache)
    (hstep : NetState.perform w i a s = some (b, s')) : s'.store = s.store := by
  cases a with
  | cache errand a => exact absurd trivial ha
  | since | beginClear | «over» =>
    obtain ⟨-, heq⟩ := Option.ite_none_right_eq_some.mp hstep
    obtain ⟨-, rfl⟩ := Prod.mk.inj (Option.some.inj heq)
    rfl
  | admits since =>
    obtain ⟨-, heq⟩ := Option.ite_none_right_eq_some.mp hstep
    split at heq
    · obtain ⟨-, rfl⟩ := Prod.mk.inj (Option.some.inj heq)
      rfl
    · obtain ⟨-, rfl⟩ := Prod.mk.inj (Option.some.inj heq)
      rfl
  | beginRefresh key =>
    rw [perform] at hstep
    split at hstep
    · obtain ⟨-, rfl⟩ := Prod.mk.inj (Option.some.inj hstep)
      rfl
    · obtain ⟨-, rfl⟩ := Prod.mk.inj (Option.some.inj hstep)
      rfl
  | _ =>
    obtain ⟨-, rfl⟩ := Prod.mk.inj (Option.some.inj hstep)
    rfl

end Perform

/-! ### Programs of such steps -/

/-- A piece of a fetch: it fails with a `NetError`, or returns. -/
abbrev NetM := ExceptT NetError (Prog NetAct)

/-- One step. -/
def act {β : Type} (a : NetAct β) : NetM β := ExceptT.lift (Prog.call a)

/-- A result that is there already. -/
def given {α : Type} (r : Except NetError α) : NetM α := ExceptT.mk (pure r)

/-- What an operation of the cache comes to, an error included. -/
def attemptCache {α : Type} (errand : Errand) (x : CacheM α) : NetM (Except CacheError α) :=
  ExceptT.lift (x.run.lift (NetAct.cache errand))

/-- An operation of the cache; its error is an error. -/
def onCache {α : Type} (errand : Errand) (x : CacheM α) : NetM α := do
  let r ← attemptCache errand x
  given (r.mapError .cache)

/-- What a piece of a fetch comes to, an error included. -/
def attempt {α : Type} (x : NetM α) : NetM (Except NetError α) := ExceptT.lift x.run

/-- `now_secs`. -/
def now (errand : Errand) : NetM ℕ := act (.cache errand .now)

end Net

end Syndeo
