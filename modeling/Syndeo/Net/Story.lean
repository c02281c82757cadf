import Syndeo.Cache.Walk
import Syndeo.Concurrent.Pool
import Syndeo.Net.Walk

/-!
# How an answer came about

What a fetch tells of itself (`Syndeo.Net.Story`): the request of the hop it is at,
what an origin last answered to it and whether that had to be taken in whole, and what
was read back of an entry that the origin confirmed. Where no integrity is declared,
this decides what the caller is given (`Syndeo.Net.Came`): a response of the store, the
stream of the origin's body, that body in full, or a failure.

The stories are told by every run (`Syndeo.Net.told_fetch`), so what they decide holds
whatever else the process does meanwhile.
-/

namespace Syndeo

namespace Net

open Concurrent
open Prog (Asks Settles Stays StaysWith)
open Text (eqIgnoreAsciiCase)

/-! ### What is told -/

/-- **What a fetch tells of itself.** -/
structure Story where
  /-- The request of the hop. -/
  hop : Option FetchRequest
  /-- What an origin last answered to it. -/
  asked : Option Exchange
  /-- Whether that had to be taken in whole. -/
  whole : Bool
  /-- Whether an entry is to be confirmed. -/
  revalidates : Bool
  /-- The entry that was confirmed. -/
  refreshed : Option EntryRecord
  /-- How much of it was read back. -/
  readBack : ℕ

namespace Story

/-- Nothing is told yet. -/
def start : Story := ⟨none, none, false, false, none, 0⟩

/-- An origin has answered, or failed. -/
def answered (t : Story) (answer : Option Exchange) : Story where
  hop := t.hop
  asked := answer
  whole := t.revalidates || t.hop.any fun request => invalidates request.method
  revalidates := false
  refreshed := none
  readBack := 0

/-- The story goes on with each step. -/
def next (t : Story) : ∀ {β : Type}, NetAct β → β → Story
  | _, .hop request, _ => { start with hop := some request }
  | _, .tcp _ _, answer => t.answered answer.toOption
  | _, .quic _ _, answer => t.answered answer.toOption
  | _, .cache .answer (.index (.recordAccess _ _ tally)), .ok _ =>
    { t with revalidates := counted tally counters.revalidations ≠ 0 }
  | _, .cache .answer (.index (.refreshEntry record)), .ok _ => { t with refreshed := some record }
  | _, .cache .answer (.index (.bump name n)), .ok _ =>
    if name = counters.bytesFromCache then { t with readBack := n } else t
  | _, _, _ => t

/-- The two differ in nothing but the entry that was confirmed. -/
structure Alike (t u : Story) : Prop where
  hop : u.hop = t.hop
  asked : u.asked = t.asked
  whole : u.whole = t.whole
  revalidates : u.revalidates = t.revalidates
  readBack : u.readBack = t.readBack

theorem Alike.refl (t : Story) : t.Alike t := ⟨rfl, rfl, rfl, rfl, rfl⟩

theorem Alike.trans {t u v : Story} (h : t.Alike u) (h' : u.Alike v) : t.Alike v :=
  ⟨h'.hop.trans h.hop, h'.asked.trans h.asked, h'.whole.trans h.whole,
    h'.revalidates.trans h.revalidates, h'.readBack.trans h.readBack⟩

end Story

/-- The discipline of the story: it only listens. -/
def story : Discipline NetAct Story where
  may := fun {_} _ _ => True
  sees := fun {_} _ _ _ => True
  next := fun {_} t a b => t.next a b
  born := fun {_} _ _ => .start

/-! ### Steps that are not told -/

/-- Nothing is told of the step. -/
def NetAct.Mute : ∀ {β : Type}, NetAct β → Prop
  | _, .hop _ => False
  | _, .tcp _ _ => False
  | _, .quic _ _ => False
  | _, .cache .answer (.index (.recordAccess _ _ _)) => False
  | _, .cache .answer (.index (.refreshEntry _)) => False
  | _, .cache .answer (.index (.bump name _)) => name ≠ counters.bytesFromCache
  | _, _ => True

/-- Nothing is told of the step, but perhaps which entry was confirmed. -/
def NetAct.Aside : ∀ {β : Type}, NetAct β → Prop
  | _, .cache .answer (.index (.refreshEntry _)) => True
  | _, a => a.Mute

section Steps

variable {α β : Type} {t u : Story} {x : NetM α}

theorem NetAct.Mute.next {a : NetAct β} (ha : a.Mute) (b : β) : t.next a b = t := by
  cases a with
  | cache errand a =>
    cases errand with
    | answer =>
      cases a with
      | index a =>
        cases a with
        | recordAccess key now tally => exact ha.elim
        | refreshEntry record => exact ha.elim
        | bump name n =>
          rcases b with e | _
          · rfl
          · exact if_neg ha
        | _ => rfl
      | _ => rfl
    | _ => rfl
  | hop request => exact ha.elim
  | tcp request extra => exact ha.elim
  | quic request extra => exact ha.elim
  | _ => rfl

theorem NetAct.Aside.next {a : NetAct β} (ha : a.Aside) (b : β) : t.Alike (t.next a b) := by
  by_cases hmute : a.Mute
  · rw [hmute.next]
    exact .refl t
  · cases a with
    | cache errand a =>
      cases errand with
      | answer =>
        cases a with
        | index a =>
          cases a with
          | refreshEntry record => rcases b with e | _ <;> exact ⟨rfl, rfl, rfl, rfl, rfl⟩
          | _ => exact absurd ha hmute
        | _ => exact absurd ha hmute
      | _ => exact absurd ha hmute
    | _ => exact absurd ha hmute

theorem CacheAct.Uncounted.aside {errand : Errand} {a : CacheAct β} (ha : a.Uncounted) :
    (NetAct.cache errand a).Aside := by
  cases errand with
  | answer =>
    cases a with
    | index a =>
      cases a with
      | recordAccess key now tally => exact ha.elim
      | bump name n => exact ha.2.2.2
      | _ => trivial
    | _ => trivial
  | _ => trivial

theorem tolerates_aside : Tolerates @NetAct.Aside where
  cache := fun _ _ ha => CacheAct.Uncounted.aside ha
  apart := fun a ha => by
    cases a with
    | cache errand a => exact ha.elim
    | hop request => exact ha.elim
    | tcp request extra => exact ha.elim
    | quic request extra => exact ha.elim
    | _ => trivial

/-- Steps that are not told of leave the story as it is. -/
theorem stays_mute {T : Story → Prop} (hx : x.run.Asks NetAct.Mute) : Stays story T x :=
  Prog.stays_of_asks hx fun a t ha ht => ⟨trivial, fun b _ => by
    change T (t.next a b)
    rwa [NetAct.Mute.next ha]⟩

theorem stays_aside (hx : x.run.Asks NetAct.Aside) : Stays story t.Alike x :=
  Prog.stays_of_asks hx fun _ _ ha ht => ⟨trivial, fun b _ => ht.trans (NetAct.Aside.next ha b)⟩


end Steps

/-! ### What the store is asked -/

attribute [local irreducible] invalidates isCacheableMethod

section Cache

variable {P : Platform} {config : NetConfig} {opts : CacheOptions} {errand : Errand} {α : Type}
  {t u : Story} {x : CacheM α} {request : FetchRequest} {keep : Keep}

theorem stays_uncounted_story (hx : x.run.Asks CacheAct.Uncounted) :
    Stays (story.comap (NetAct.cache errand)) t.Alike x :=
  Prog.stays_of_asks hx fun _ _ ha ht =>
    ⟨trivial, fun b _ => ht.trans (NetAct.Aside.next (CacheAct.Uncounted.aside ha) b)⟩

/-- **A lookup is told of** where it asks for an entry to be confirmed; and to a `HEAD` it
gives no body. -/
theorem obeys_lookup_story {partition : Option String} {method url : String} {h : HeaderMap} :
    (lookup P opts partition method url h).run.Obeys (story.comap (NetAct.cache .answer))
      (fun r u => (match r with
        | .ok found => Story.Alike { t with revalidates := found.asks } u
        | .error _ => t.Alike u) ∧ (eqIgnoreAsciiCase method "HEAD" = true → ∀ found, r = .ok found →
          found.Each fun response => response.body = [])) t := by
  have hsettles : Settles (story.comap (NetAct.cache .answer)) t.Alike
      (lookup P opts partition method url h) t
      fun found u => Story.Alike { t with revalidates := found.asks } u := by
    refine settles_lookup stays_uncounted_story ?_ (.refl t)
    intro key now tally found u hcounts hu
    refine ⟨trivial, fun b _ => ?_⟩
    rcases b with e | _
    · exact hu
    · refine ⟨hu.hop, hu.asked, hu.whole, ?_, hu.readBack⟩
      change decide (counted tally counters.revalidations ≠ 0) = found.asks
      rw [hcounts.asked]
      cases found.asks <;> rfl
  by_cases hhead : eqIgnoreAsciiCase method "HEAD" = true
  · refine (hsettles.and_free (each_head_of_lookup hhead)).mono fun r u hu => ⟨?_, fun _ => hu.2⟩
    rcases r with e | found
    · exact hu.1
    · exact hu.1
  · refine Prog.Obeys.mono hsettles fun r u hu => ⟨?_, fun h => absurd h hhead⟩
    rcases r with e | found
    · exact hu
    · exact hu

/-- **What a confirmation tells**: the entry that was confirmed, and how much of it was read
back, which is no more than it has. -/
def Story.Confirms (t : Story) : Except CacheError (Option StoredResponse) → Story → Prop
  | .ok none, u => u = t
  | .ok (some response), u => u.hop = t.hop ∧ u.asked = t.asked ∧ u.whole = t.whole ∧
      u.revalidates = t.revalidates ∧ response.body.length = u.readBack ∧
      ∃ record, u.refreshed = some record ∧ response.body.length ≤ record.body.completeLen.getD 0
  | .error _, u => u.hop = t.hop ∧ u.asked = t.asked ∧ u.whole = t.whole ∧
      u.revalidates = t.revalidates

theorem obeys_recordNotModified_story {key : String} {fresh : HeaderMap}
    {requestTime responseTime : ℕ} :
    (recordNotModified P key fresh requestTime responseTime).run.Obeys
      (story.comap (NetAct.cache .answer)) t.Confirms t := by
  have hmute : ∀ {β : Type} {x : CacheM β} {T : Story → Prop},
      x.run.Asks (fun {_} a => (NetAct.cache .answer a).Mute) →
      Stays (story.comap (NetAct.cache .answer)) T x := fun {β x T} hx =>
    Prog.stays_of_asks hx fun a t ha ht => ⟨trivial, fun b _ => by
      change T (Story.next t (.cache .answer a) b)
      rwa [NetAct.Mute.next ha]⟩
  have hfiles : ∀ {β : Type} {x : CacheM β} {T : Story → Prop},
      x.run.Asks CacheAct.OnFiles → Stays (story.comap (NetAct.cache .answer)) T x := fun hx =>
    hmute (hx.mono fun a ha => by
      cases a with
      | file a => trivial
      | _ => exact ha.elim)
  refine ⟨trivial, fun found _ => ?_⟩
  rcases found with e | _ | old
  · exact ⟨rfl, rfl, rfl, rfl⟩
  · exact rfl
  · refine ⟨trivial, fun b _ => ?_⟩
    rcases b with e | _
    · exact ⟨rfl, rfl, rfl, rfl⟩
    · let told : Story := { t with refreshed := some (old.confirmed fresh requestTime responseTime) }
      have hbump : Stays (story.comap (NetAct.cache .answer)) (· = told)
          (ask (.bump counters.notModified 1)) :=
        hmute ⟨(by decide : counters.notModified ≠ counters.bytesFromCache), fun _ => trivial⟩
      have hclock : Stays (story.comap (NetAct.cache .answer)) (· = told) clock :=
        hmute ⟨trivial, fun _ => trivial⟩
      have herror : ∀ (e : CacheError) {u : Story}, told.Alike u → t.Confirms (.error e) u :=
        fun _ _ hu => ⟨hu.hop, hu.asked, hu.whole, hu.revalidates⟩
      refine Prog.obeys_run_bind.mpr ((hbump told rfl).mono fun r u hu => ?_)
      subst hu
      rcases r with e | _
      · exact herror e (.refl _)
      refine Prog.obeys_run_bind.mpr ((hclock told rfl).mono fun r u hu => ?_)
      subst hu
      rcases r with e | now
      · exact herror e (.refl _)
      refine Prog.obeys_run_bind.mpr (((staysWith_materialize_length (T := (· = told))
        hfiles (Or.inr rfl)).lift_run told rfl).mono fun r u hu => ?_)
      rcases r with e | e | response
      · rw [hu.1]
        exact herror e (.refl _)
      · rw [hu.1, Prog.orElse_ok]
        simp only
        split
        · refine Prog.obeys_run_bind.mpr
            ((stays_uncounted_story uncounted_dropBroken told (.refl told)).mono fun r v hv => ?_)
          rcases r with e' | _
          · exact herror e' hv
          · exact herror e hv
        · exact herror e (.refl _)
      · rw [hu.1]
        refine ⟨trivial, fun b _ => ?_⟩
        rcases b with e | _
        · exact ⟨rfl, rfl, rfl, rfl⟩
        · refine ⟨trivial, fun b _ => ?_⟩
          have hle := hu.2 response rfl
          rcases b with e | _
          · exact ⟨rfl, rfl, rfl, rfl⟩
          · exact ⟨rfl, rfl, rfl, rfl, rfl, _, rfl, hle⟩

end Cache

/-! ### How an answer came about -/

/-- The request is a `HEAD`. -/
def IsHead (request : FetchRequest) : Prop := eqIgnoreAsciiCase request.method "HEAD" = true

/-- The response has the status and the fields of what the origin answered, and this body. -/
structure Fetched.Hands (fetched : Fetched) (x : Exchange) (body : FetchBody) : Prop where
  status : fetched.response.status = x.status
  headers : fetched.response.headers = x.headers
  body : fetched.response.body = body

/-- **How the answer to a request came about** that declares no integrity, by what is told
of it. -/
inductive Came (config : NetConfig) (request : FetchRequest) (t : Story) :
    Except NetError Fetched → Prop
  /-- From the store; no origin has answered. -/
  | stored {fetched : Fetched} {body : Bytes} (asked : t.asked = none) (readBack : t.readBack = 0)
      (gives : fetched.response.body = .bytes body) (head : IsHead request → body = []) :
      Came config request t (.ok fetched)
  /-- What the origin answered, its body as it comes. -/
  | streamed {fetched : Fetched} {x : Exchange} (asked : t.asked = some x) (whole : t.whole = false)
      (readBack : t.readBack = 0) (hands : fetched.Hands x (.stream x.items)) :
      Came config request t (.ok fetched)
  /-- What the origin answered, its body in full. -/
  | taken {fetched : Fetched} {x : Exchange} {body : Bytes} (asked : t.asked = some x)
      (whole : t.whole = true) (readBack : t.readBack = 0)
      (answers : x.status = 304 → invalidates request.method = true)
      (collected : collectBody config.maxBodyBytes x.items = .ok body)
      (hands : fetched.Hands x (.bytes body)) : Came config request t (.ok fetched)
  /-- The entry that the origin confirmed, as it is read back. -/
  | confirmed {fetched : Fetched} {x : Exchange} {body : Bytes} {record : EntryRecord}
      (asked : t.asked = some x) (whole : t.whole = true) (status : x.status = 304)
      (safe : invalidates request.method = false) (refreshed : t.refreshed = some record)
      (readBack : body.length = t.readBack)
      (length : body.length ≤ record.body.completeLen.getD 0)
      (gives : fetched.response.body = .bytes body) : Came config request t (.ok fetched)
  /-- The entry that the origin confirmed, as it was. -/
  | asItWas {fetched : Fetched} {x : Exchange} {body : Bytes} (asked : t.asked = some x)
      (whole : t.whole = true) (status : x.status = 304)
      (safe : invalidates request.method = false) (readBack : t.readBack = 0)
      (gives : fetched.response.body = .bytes body) (head : IsHead request → body = []) :
      Came config request t (.ok fetched)
  /-- The entry, where what the origin answered could not be taken in. -/
  | instead {fetched : Fetched} {x : Exchange} {body : Bytes} {e : NetError}
      (asked : t.asked = some x) (whole : t.whole = true) (readBack : t.readBack = 0)
      (safe : invalidates request.method = false) (honoured : config.honourStaleIfError = true)
      (refused : collectBody config.maxBodyBytes x.items = .error e)
      (source : fetched.response.source = .staleOnError)
      (gives : fetched.response.body = .bytes body) (head : IsHead request → body = []) :
      Came config request t (.ok fetched)
  /-- No answer. -/
  | failed {e : NetError}
      (streamed : ∀ x, t.asked = some x → t.whole = false →
        x.status = 304 ∧ invalidates request.method = false)
      (taken : ∀ x, t.asked = some x → t.whole = true →
        collectBody config.maxBodyBytes x.items = .error e ∨
          x.status = 304 ∧ invalidates request.method = false) : Came config request t (.error e)

/-! ### Pieces that are passed over -/

/-- **The piece is passed over**: it has a result, and the story is as it was. -/
abbrev Passes {α : Type} (x : NetM α) : Prop := ∀ t, Prog.Yields story x t fun _ u => t.Alike u

section Passes

variable {P : Platform} {config : NetConfig} {α β : Type} {t : Story} {x : NetM α}
  {f : α → NetM β} {request : FetchRequest} {keep : Keep} {exchange : Exchange}

theorem passes_act {a : NetAct α} (ha : a.Aside) : Passes (act a) :=
  fun _ => ⟨trivial, fun b _ => NetAct.Aside.next ha b⟩

theorem passes_pure {a : α} : Passes (pure a : NetM α) := fun t => .refl t

theorem Passes.bind (hx : Passes x) (hf : ∀ a, Passes (f a)) : Passes (x >>= f) := fun t =>
  Prog.Yields.bind (hx t) fun a u hu => (hf a u).mono fun _ _ hv => hu.trans hv

/-- What comes after it goes on from there. -/
theorem Passes.obeys_then (hx : Passes x) {Q : Except NetError β → Story → Prop}
    (hf : ∀ a u, t.Alike u → (f a).run.Obeys story Q u) : (x >>= f).run.Obeys story Q t :=
  Prog.obeys_run_bind.mpr (Prog.Obeys.mono (hx t) fun r u hu => by
    rcases r with e | a
    · exact hu.elim
    · exact hf a u hu)

theorem passes_attemptCache {errand : Errand} {x : CacheM α} (hx : x.run.Asks CacheAct.Uncounted) :
    Passes (attemptCache errand x) := fun t =>
  obeys_attemptCache.mpr (stays_uncounted_story hx t (.refl t))

theorem passes_admits {address : Option IpAddr} : Passes (keep.admits address) := by
  rw [Keep.admits]
  split
  · exact passes_pure
  · exact passes_act trivial

theorem passes_settled {address : Option String} : Passes (settled address) := by
  have heach : ∀ waiting, Passes (awaitEach waiting) := by
    intro waiting
    induction waiting with
    | nil => exact passes_pure
    | cons landing rest ih => exact Passes.bind (passes_act trivial) fun _ => ih
  exact Passes.bind (passes_act trivial) heach

theorem passes_streamBody : Passes (streamBody config request exchange keep) := by
  refine Passes.bind passes_admits fun kept => ?_
  split
  · refine Passes.bind (passes_act trivial) fun _ => Passes.bind (passes_act trivial) fun opened => ?_
    split
    · exact Passes.bind (passes_act trivial) fun _ => passes_pure
    · exact passes_pure
  · exact passes_pure

theorem passes_keepAnswer {status : ℕ} {headers : HeaderMap} {body : Bytes}
    {address : Option IpAddr} :
    Passes (keepAnswer P config request status headers body address keep) := by
  refine Passes.bind passes_admits fun kept => ?_
  split
  · refine Passes.bind (passes_act trivial) fun _ =>
      Passes.bind (passes_attemptCache uncounted_store) fun outcome =>
        Passes.bind (passes_act trivial) fun _ => ?_
    split
    · exact passes_pure
    · exact passes_pure
  · exact passes_pure

theorem passes_spawnRefresh {key : String} {conditional : List (HeaderName × String)} :
    Passes (spawnRefresh key request conditional keep) := by
  refine Passes.bind (passes_act trivial) fun first => ?_
  split
  · exact passes_act trivial
  · exact passes_pure

end Passes

/-! ### One hop -/

section Hop

variable {P : Platform} {config : NetConfig} {t u : Story} {request : FetchRequest} {keep : Keep}
  {extra : List (HeaderName × String)} {Q : Except NetError Fetched → Story → Prop}

theorem Story.answered_answered (ht : t.revalidates = false) (a b : Option Exchange) :
    (t.answered a).answered b = t.answered b := by
  simp only [answered, ht]

/-- An origin has answered to a request that is safe, or not. -/
theorem Story.answered_whole {a : Option Exchange} (hhop : t.hop = some request) :
    (t.answered a).whole = (t.revalidates || invalidates request.method) := by
  simp only [answered, hhop, Option.any_some]

theorem obeys_originHeaders {Q : Except NetError Exchange → Story → Prop}
    (hQ : ∀ answer : Except NetError Exchange, Q answer (t.answered answer.toOption)) :
    (originHeaders request extra).run.Obeys story Q t := by
  refine ⟨trivial, fun answer _ => ?_⟩
  rcases answer with e | x
  · exact hQ (.error e)
  · exact hQ (.ok x)

/-- Whichever way the origin is asked, its answer is told in the same way. -/
theorem obeys_originAny {Q : Except NetError Exchange → Story → Prop} (ht : t.revalidates = false)
    (hQ : ∀ answer : Except NetError Exchange, Q answer (t.answered answer.toOption)) :
    (originAny request extra).run.Obeys story Q t := by
  refine ⟨trivial, fun quic _ => ?_⟩
  have htcp : (originHeaders request extra).run.Obeys story Q t := obeys_originHeaders hQ
  have hagain : (originHeaders request extra).run.Obeys story Q (t.answered none) :=
    obeys_originHeaders fun answer => by
      rw [Story.answered_answered ht]
      exact hQ answer
  cases quic with
  | false => exact htcp
  | true =>
    refine ⟨trivial, fun answer _ => ?_⟩
    rcases answer with failed | x
    · change (if mayRetryOverTcp request.method failed.reached then originHeaders request extra
        else given (.error failed.error) : NetM Exchange).run.Obeys story Q (t.answered none)
      split
      · exact hagain
      · exact hQ (.error failed.error)
    · exact hQ (.ok x)

theorem obeys_origin {Q : Except NetError Answer → Story → Prop}
    (hfailed : ∀ e, Q (.error e) (t.answered none))
    (hrefused : ∀ x e, collectBody config.maxBodyBytes x.items = .error e →
      Q (.error e) (t.answered (some x)))
    (htaken : ∀ x body, collectBody config.maxBodyBytes x.items = .ok body →
      Q (.ok ⟨x.status, x.headers, body, x.address⟩) (t.answered (some x))) :
    (origin config request extra).run.Obeys story Q t := by
  refine Prog.obeys_run_bind.mpr (obeys_originHeaders fun answer => ?_)
  rcases answer with e | x
  · exact hfailed e
  · rw [Prog.orElse_ok]
    rcases hbody : collectBody config.maxBodyBytes x.items with e | body
    · exact hrefused x e hbody
    · exact htaken x body hbody

/-- What is finished is a response with this body. -/
theorem obeys_finish {status : ℕ} {headers : HeaderMap} {body : Bytes} {source : Source}
    {content : Option ContentId}
    (hQ : ∀ fetched : Fetched, fetched.response.status = status →
      fetched.response.headers = headers → fetched.response.body = .bytes body →
        fetched.response.source = source → Q (.ok fetched) t) :
    (finish status headers body source content).run.Obeys story Q t :=
  ⟨trivial, fun _ _ => hQ _ rfl rfl rfl rfl⟩

theorem obeys_fetchFromOrigin (hnone : request.integrity = none) (ht : t.revalidates = false)
    (hfailed : ∀ e, Q (.error e) (t.answered none))
    (hstreamed : ∀ x fetched u, (t.answered (some x)).Alike u → fetched.Hands x (.stream x.items) →
      Q (.ok fetched) u) :
    (fetchFromOrigin P config request extra keep).run.Obeys story Q t := by
  refine Prog.obeys_run_bind.mpr (obeys_originAny ht fun answer => ?_)
  rcases answer with e | x
  · exact hfailed e
  · rw [Prog.orElse_ok]
    simp only [hnone]
    refine passes_streamBody.obeys_then fun teed u hu => ⟨trivial, fun _ _ => ?_⟩
    exact hstreamed x _ _ hu ⟨rfl, rfl, rfl⟩

/-- Where no integrity is declared, what is stored satisfies it. -/
theorem serveOr_of_none (hnone : request.integrity = none) {stored : StoredResponse}
    {serve : NetM Fetched} : serveOr P config request stored keep serve = serve := by
  have hsatisfies : storedSatisfies P request stored = pure true := by
    rw [storedSatisfies, hnone]
  rw [serveOr, hsatisfies, pure_bind, if_pos rfl]

/-- What is told, and how the answer came about. -/
abbrev CameOf (config : NetConfig) (request : FetchRequest) (r : Except NetError Fetched)
    (u : Story) : Prop := u.hop = some request ∧ Came config request u r

/-- **What is asked of the origin and streamed** came about so. -/
theorem came_fetchFromOrigin (hnone : request.integrity = none) (hhop : t.hop = some request)
    (ht : t.revalidates = false) (hsafe : invalidates request.method = false) :
    (fetchFromOrigin P config request extra keep).run.Obeys story (fun r u =>
      CameOf config request r u ∧ ∀ fetched, r = .ok fetched → ∃ x, u.asked = some x ∧
        u.whole = false ∧ fetched.response.status = x.status) t := by
  have hwhole : ∀ a, (t.answered a).whole = false := fun a => by
    rw [Story.answered_whole hhop, ht, hsafe]
    rfl
  refine obeys_fetchFromOrigin hnone ht (fun e => ?_) fun x fetched u hu hands => ?_
  · exact ⟨⟨hhop, .failed (fun x hx => nomatch hx) fun x hx => nomatch hx⟩, fun _ h => nomatch h⟩
  · have hasked : u.asked = some x := hu.asked
    have hw : u.whole = false := hu.whole.trans (hwhole _)
    refine ⟨⟨hu.hop.trans hhop, .streamed hasked hw hu.readBack hands⟩, fun fetched' h => ?_⟩
    obtain rfl := Except.ok.inj h
    exact ⟨x, hasked, hw, hands.status⟩

theorem came_refetchLost (hnone : request.integrity = none) (hhop : t.hop = some request)
    (ht : t.revalidates = false) (hsafe : invalidates request.method = false) :
    (refetchLost P config request keep).run.Obeys story (CameOf config request) t := by
  refine Prog.obeys_run_bind.mpr
    ((came_fetchFromOrigin hnone hhop ht hsafe).mono fun r u hu => ?_)
  obtain ⟨hcame, hstatus⟩ := hu
  rcases r with e | fetched
  · exact hcame
  · obtain ⟨x, hasked, hwhole, hx⟩ := hstatus fetched rfl
    rw [Prog.orElse_ok]
    split
    · rename_i hnot
      refine ⟨hcame.1, .failed (fun y hy _ => ?_) fun y hy hw => ?_⟩
      · obtain rfl := Option.some.inj (hasked.symm.trans hy)
        exact ⟨hx.symm.trans hnot, hsafe⟩
      · exact absurd (hwhole.symm.trans hw) Bool.false_ne_true
    · exact hcame

/-- The origin has confirmed an entry of this request's. -/
structure Story.Confirming (t : Story) (request : FetchRequest) (x : Exchange) : Prop where
  hop : t.hop = some request
  asked : t.asked = some x
  whole : t.whole = true
  revalidates : t.revalidates = false
  readBack : t.readBack = 0
  status : x.status = 304
  safe : invalidates request.method = false

theorem Story.Confirming.alike {x : Exchange} (h : t.Confirming request x) (hu : t.Alike u) :
    u.Confirming request x :=
  ⟨hu.hop.trans h.hop, hu.asked.trans h.asked, hu.whole.trans h.whole,
    hu.revalidates.trans h.revalidates, hu.readBack.trans h.readBack, h.status, h.safe⟩

/-- It has, and that is no answer. -/
theorem Story.Confirming.failed {x : Exchange} {e : NetError} (h : t.Confirming request x)
    (hhop : u.hop = t.hop) (hasked : u.asked = t.asked) (hwhole : u.whole = t.whole) :
    CameOf config request (.error e) u := by
  refine ⟨hhop.trans h.hop, .failed (fun y _ hw => ?_) fun y hy _ => Or.inr ?_⟩
  · exact absurd (hw.symm.trans (hwhole.trans h.whole)) Bool.false_ne_true
  · obtain rfl := Option.some.inj ((hasked.trans h.asked).symm.trans hy)
    exact ⟨h.status, h.safe⟩

/-- **A confirmed entry** is read back, or served as it was. -/
theorem came_confirmed {x : Exchange} {stored : StoredResponse} {answer : Answer}
    (hnone : request.integrity = none) (ht : t.Confirming request x)
    (head : IsHead request → stored.body = []) :
    (confirmed P config request stored answer keep).run.Obeys story (CameOf config request) t := by
  have hasItWas : ∀ {u : Story} {headers : HeaderMap} {source : Source}, t.Alike u →
      (finish stored.status headers stored.body source stored.content).run.Obeys story
        (CameOf config request) u := fun hu =>
    obeys_finish fun fetched _ _ hgives _ =>
      have h := ht.alike hu
      ⟨h.hop, .asItWas h.asked h.whole h.status h.safe h.readBack hgives head⟩
  refine passes_admits.obeys_then fun kept u hu => ?_
  split
  · refine Passes.obeys_then (passes_act (a := .cache .answer .now) trivial) fun time v hv => ?_
    have hconfirming := (ht.alike hu).alike hv
    refine Prog.obeys_run_bind.mpr (obeys_attemptCache.mpr
      (obeys_recordNotModified_story.mono fun recorded w hw => ⟨trivial, fun _ _ => ?_⟩))
    rcases recorded with e | _ | response
    · simp only
      obtain ⟨hhop, hasked, hwhole, hrevalidates⟩ := hw
      split
      · exact came_refetchLost hnone (hhop.trans hconfirming.hop)
          (hrevalidates.trans hconfirming.revalidates) hconfirming.safe
      · exact hconfirming.failed hhop hasked hwhole
    · obtain rfl : w = v := hw
      exact hasItWas (hu.trans hv)
    · obtain ⟨hhop, hasked, hwhole, hrevalidates, hread, record, hrefreshed, hlength⟩ := hw
      simp only
      rw [serveOr_of_none hnone]
      exact obeys_finish fun fetched _ _ hgives _ => ⟨hhop.trans hconfirming.hop,
        .confirmed (hasked.trans hconfirming.asked) (hwhole.trans hconfirming.whole)
          hconfirming.status hconfirming.safe hrefreshed hread hlength hgives⟩
  · exact hasItWas hu

/-- **An entry that has to be asked about.** -/
theorem came_revalidate {stored : StoredResponse} {conditional : List (HeaderName × String)}
    {staleIfError : Option ℕ} (hnone : request.integrity = none) (hhop : t.hop = some request)
    (ht : t.revalidates = true) (hsafe : invalidates request.method = false)
    (head : IsHead request → stored.body = []) :
    (revalidate P config request stored conditional staleIfError keep).run.Obeys story
      (CameOf config request) t := by
  have hwhole : ∀ a, (t.answered a).whole = true := fun a => by
    rw [Story.answered_whole hhop, ht, Bool.true_or]
  refine Prog.obeys_run_bind.mpr ?_
  rw [attempt, ExceptT.run_lift, map_eq_pure_bind, Prog.obeys_bind]
  refine obeys_origin (fun e => ?_) (fun x e hrefused => ?_) fun x body hbody => ?_
  · change (if config.honourStaleIfError && staleIfError.isSome then
        finish stored.status stored.headers stored.body .staleOnError stored.content
      else given (.error e)).run.Obeys story (CameOf config request) (t.answered none)
    split
    · exact obeys_finish fun fetched _ _ hgives _ => ⟨hhop, .stored rfl rfl hgives head⟩
    · exact ⟨hhop, .failed (fun x hx => nomatch hx) fun x hx => nomatch hx⟩
  · change (if config.honourStaleIfError && staleIfError.isSome then
        finish stored.status stored.headers stored.body .staleOnError stored.content
      else given (.error e)).run.Obeys story (CameOf config request) (t.answered (some x))
    split
    · rename_i hstale
      exact obeys_finish fun fetched _ _ hgives hsource => ⟨hhop, .instead rfl (hwhole _) rfl hsafe
        (Bool.and_eq_true_iff.mp hstale).1 hrefused hsource hgives head⟩
    · refine ⟨hhop, .failed (fun y _ hw => ?_) fun y hy _ => Or.inl ?_⟩
      · exact absurd (hw.symm.trans (hwhole _)) Bool.false_ne_true
      · obtain rfl := Option.some.inj hy
        exact hrefused
  · change (if x.status = 304 then
        confirmed P config request stored ⟨x.status, x.headers, body, x.address⟩ keep
      else replaced P config request ⟨x.status, x.headers, body, x.address⟩ keep).run.Obeys story
        (CameOf config request) (t.answered (some x))
    split
    · rename_i hstatus
      exact came_confirmed hnone ⟨hhop, rfl, hwhole _, rfl, rfl, hstatus, hsafe⟩ head
    · rename_i hstatus
      rw [replaced, hnone]
      refine passes_keepAnswer.obeys_then fun content u hu => obeys_finish fun fetched hs hh hb _ => ?_
      exact ⟨hu.hop.trans hhop, .taken hu.asked (hu.whole.trans (hwhole _)) hu.readBack
        (fun h => absurd h hstatus) hbody ⟨hs, hh, hb⟩⟩

/-- What was looked up gives no body to a `HEAD`. -/
def GivesHead (request : FetchRequest) (found : Lookup) : Prop :=
  IsHead request → found.Each fun response => response.body = []

theorem came_answerFrom {found : Lookup} (hnone : request.integrity = none)
    (hhop : t.hop = some request) (hasked : t.asked = none) (hread : t.readBack = 0)
    (ht : t.revalidates = found.asks) (hsafe : invalidates request.method = false)
    (head : GivesHead request found) :
    (answerFrom P config request keep found).run.Obeys story (CameOf config request) t := by
  cases found with
  | fresh stored =>
    simp only [answerFrom, serveOr_of_none hnone]
    exact obeys_finish fun fetched _ _ hgives _ =>
      ⟨hhop, .stored hasked hread hgives fun h => head h stored (List.mem_singleton.mpr rfl)⟩
  | stale stored refreshInBackground reason =>
    simp only [answerFrom, serveOr_of_none hnone]
    have hserve : ∀ u : Story, t.Alike u →
        (finish stored.status stored.headers stored.body .cacheStale stored.content).run.Obeys story
          (CameOf config request) u := fun u hu => obeys_finish fun fetched _ _ hgives _ =>
      ⟨hu.hop.trans hhop, .stored (hu.asked.trans hasked) (hu.readBack.trans hread) hgives
        fun h => head h stored (List.mem_singleton.mpr rfl)⟩
    split
    · exact passes_spawnRefresh.obeys_then fun _ u hu => hserve u hu
    · exact hserve t (.refl t)
  | revalidate stored conditional staleIfError reason =>
    simp only [answerFrom, serveOr_of_none hnone]
    exact came_revalidate hnone hhop ht hsafe fun h => head h stored (List.mem_singleton.mpr rfl)
  | miss reason =>
    have hpeers : tryPeers P request = pure none := by
      rw [tryPeers, hnone]
    simp only [answerFrom, hpeers, pure_bind]
    exact (came_fetchFromOrigin hnone hhop ht hsafe).mono fun r u hu => hu.1

/-- **Every answer to a hop** came about in one of these ways. -/
theorem came_fetchOnce (hnone : request.integrity = none) :
    (fetchOnce P config request).run.Obeys story (CameOf config request) t := by
  refine ⟨trivial, fun _ _ => ?_⟩
  let told : Story := { Story.start with hop := some request }
  change ((do
    settled (some (landingAddress P request.partition request.url))
    let since ← act .since
    if invalidates request.method then passThrough P config request
    else consult P config request ⟨since, config.cachePublicAddressesOnly⟩ : NetM Fetched)).run.Obeys
      story (CameOf config request) told
  refine passes_settled.obeys_then fun _ u hu => ?_
  refine Passes.obeys_then (passes_act (a := .since) trivial) fun since v hv => ?_
  have hv := hu.trans hv
  split
  · rename_i hunsafe
    refine Passes.obeys_then (passes_attemptCache uncounted_invalidateUrl) fun _ w hw => ?_
    have hw := hv.trans hw
    have hwhole : ∀ a, (w.answered a).whole = true := fun a => by
      rw [Story.answered_whole hw.hop, hunsafe, Bool.or_true]
    refine Prog.obeys_run_bind.mpr
      (obeys_origin (fun e => ?_) (fun x e hrefused => ?_) fun x body hbody => ?_)
    · exact ⟨hw.hop, .failed (fun x hx => nomatch hx) fun x hx => nomatch hx⟩
    · refine ⟨hw.hop, .failed (fun y _ hfalse => ?_) fun y hy _ => Or.inl ?_⟩
      · exact absurd (hfalse.symm.trans (hwhole _)) Bool.false_ne_true
      · obtain rfl := Option.some.inj hy
        exact hrefused
    · exact obeys_finish fun fetched hs hh hb _ =>
        ⟨hw.hop, .taken rfl (hwhole _) rfl (fun _ => hunsafe) hbody ⟨hs, hh, hb⟩⟩
  · rename_i hsafe
    have hsafe : invalidates request.method = false := by simpa using hsafe
    refine Prog.obeys_run_bind.mpr
      (obeys_onCache.mpr ((obeys_lookup_story (t := v)).mono fun r w hw => ?_))
    obtain ⟨htold, head⟩ := hw
    rcases r with e | found
    · refine ⟨htold.hop.trans hv.hop, .failed (fun x hx => ?_) fun x hx => ?_⟩
      · exact absurd ((htold.asked.trans hv.asked).symm.trans hx) (by simp [told, Story.start])
      · exact absurd ((htold.asked.trans hv.asked).symm.trans hx) (by simp [told, Story.start])
    · exact came_answerFrom hnone (htold.hop.trans hv.hop) (htold.asked.trans hv.asked)
        (htold.readBack.trans hv.readBack) htold.revalidates hsafe fun h => head h found rfl

end Hop

end Net

end Syndeo
