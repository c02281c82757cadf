import Syndeo.Cache.Write

/-!
# The operations of a cache

What a cache can be asked to do, as one type, so that a run of a cache is a pool
of `Syndeo.Op`s: any number of them, each part way through its own program.
-/

namespace Syndeo

open Concurrent

/-- **The public operations of `Cache`** that touch its index or its files. -/
inductive Op
  | lookup (partition : Option String) (method url : String) (requestHeaders : HeaderMap)
  | store (w : Storing) (body : Bytes)
  | finishStreamed (w : Storing) (writer : BlobWriter)
  | recordNotModified (key : String) (freshHeaders : HeaderMap) (requestTime responseTime : ℕ)
  | discardRepresentation (key : String) (content : ContentId)
  | invalidate (partition : Option String) (method url : String)
  | purge (partition : Option String) (method url : String)
  | enforceBudget
  | collectGarbage
  | clear
  | grantPeerEligibility (content : ContentId) (declared : Integrity)
  | bodyForPeer (asked : PeerAsk)
  | acceptPeerBody (integrity : Integrity) (body : Bytes)

/-- What an operation returns. -/
inductive Reply
  | lookup (result : Lookup)
  | outcome (result : StoreOutcome)
  | response (result : Option StoredResponse)
  | flag (result : Bool)
  | count (result : ℕ)
  | hashes (result : List Hash)
  | body (result : Option Bytes)
  | done

/-- What a thread that runs one operation returns. -/
abbrev Outcome := Except CacheError Reply

variable (P : Platform) (opts : CacheOptions)

/-- An operation. -/
def Op.run : Op → CacheM Reply
  | .lookup partition method url requestHeaders => do
    pure (.lookup (← Syndeo.lookup P opts partition method url requestHeaders))
  | .store w body => do pure (.outcome (← storeWithProvenance P opts w body))
  | .finishStreamed w writer => do pure (.outcome (← Syndeo.finishStreamed P opts w writer))
  | .recordNotModified key freshHeaders requestTime responseTime => do
    pure (.response (← Syndeo.recordNotModified P key freshHeaders requestTime responseTime))
  | .discardRepresentation key content => do
    pure (.flag (← Syndeo.discardRepresentation key content))
  | .invalidate partition method url => do
    pure (.count (← invalidateUrl P partition method url))
  | .purge partition method url => do
    Syndeo.purge P partition method url
    pure .done
  | .enforceBudget => do pure (.count (← Syndeo.enforceBudget P opts))
  | .collectGarbage => do pure (.count (← Syndeo.collectGarbage))
  | .clear => do pure (.count (← Syndeo.clear))
  | .grantPeerEligibility content declared => do
    pure (.hashes (← Syndeo.grantPeerEligibility P content declared))
  | .bodyForPeer asked => do pure (.body (← Syndeo.bodyForPeer P asked))
  | .acceptPeerBody integrity body => do
    Syndeo.acceptPeerBody P integrity body
    pure .done

/-- The program of an operation. -/
def Op.program (op : Op) : Prog CacheAct Outcome := (op.run P opts).run

/-- The start of a run: a store, and the operations that are begun on it. -/
def running (s : Store) (ops : List Op) : Config CacheAct Store Outcome :=
  ⟨s, ops.map (Op.program P opts)⟩

/-- The runs of cache operations side by side, whatever the clock says and
whatever calls fail. -/
abbrev cacheRuns : System CacheAct Store Outcome := cacheSystem Outcome fun _ => True

/-! ### Runs that are computed -/

variable {P opts} {s : Store} {ops : List Op} {c : Config CacheAct Store Outcome}
  {rest : List (Weather × ℕ)} {p : Config CacheAct Store Outcome → Bool}

/-- A configuration, and a schedule it can follow. -/
theorem exists_cacheRuns
    (h : (c.follow Store.perform (fun {_} _ => none) rest).any p = true) :
    ∃ c', cacheRuns.Runs c c' ∧ p c' = true :=
  Config.exists_runs_of_follow (fun _ _ => trivial) h

/-- A schedule whose every step is allowed. -/
theorem exists_cacheRuns_when (ok : ℕ → ∀ {β : Type}, CacheAct β → Store → Prop)
    [∀ i β (a : CacheAct β) s, Decidable (ok i a s)]
    (h : (c.follow (allowing ok Store.perform) (fun {_} _ => none) rest).any p = true) :
    ∃ c', (cacheRuns.when ok).Runs c c' ∧ p c' = true := by
  rw [cacheRuns, cacheSystem, ← System.ofPerform_allowing]
  exact Config.exists_runs_of_follow (fun _ _ => trivial) h

/-- A schedule whose history is written down. -/
theorem exists_cacheRuns_noting {η : Type}
    (note : ℕ → ∀ {β : Type}, CacheAct β → Store → β → Store → η → η)
    {c : Config CacheAct (Store × η) Outcome} {p : Config CacheAct (Store × η) Outcome → Bool}
    (h : (c.follow (noting note Store.perform) (fun {_} _ => none) rest).any p = true) :
    ∃ c', (cacheRuns.recording fun i _ => note i).Runs c c' ∧ p c' = true := by
  rw [cacheRuns, cacheSystem, ← System.ofPerform_noting]
  exact Config.exists_runs_of_follow (fun _ _ => trivial) h

end Syndeo
