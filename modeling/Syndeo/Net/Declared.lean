import Syndeo.Net.Limits

/-!
# Declared integrity

A request may declare what the bytes of its answer hash to. A body comes to a caller by
many ways: from the store, fresh or stale, confirmed or not, from an origin, from a peer,
or over redirects. On each of them it is held against the declaration, but for the body
of a redirect that is followed, which nobody is given (`Syndeo.Net.Sound`).

Nothing of this depends on what the store, an origin or a peer has to say: whatever a
step is answered, the program that asked for it comes to a body as it was declared, or to
an error. So it does in every run (`Syndeo.Net.declared_satisfied`).
-/

namespace Syndeo

namespace Net

open Concurrent
open Prog (StaysWith stays_free staysWith_pure staysWith_return)
open Redirects (FetchError)

/-- What a piece of a fetch gives, if it does not fail, whatever its steps are answered. -/
abbrev Gives {α : Type} (G : α → Prop) (x : NetM α) : Prop :=
  StaysWith (.free NetAct) (fun _ => True) G x

section Declared

-- what a piece keeps to is told by its lemmas, and not by unfolding the piece
attribute [local irreducible] Prog.Obeys

variable {P : Platform} {config : NetConfig} {request : FetchRequest} {integrity : Integrity}
  {status : ℕ} {headers : HeaderMap} {body : Bytes} {stored : StoredResponse} {keep : Keep}
  {extra : List (HeaderName × String)} {answer : Answer} {α : Type}

theorem gives_any {x : NetM α} : Gives (fun _ => True) x := stays_free.with

/-- A status and fields that lead on to another hop, or bytes as they were declared. -/
def Meets (P : Platform) (request : FetchRequest) (integrity : Integrity) (status : ℕ)
    (headers : HeaderMap) (body : Bytes) : Prop :=
  isHop request status headers = true ∨ integrity.verify P body = true

/-- **A sound answer to a hop**: a redirect that leads on, or a body as it was declared. -/
def Sound (P : Platform) (request : FetchRequest) (integrity : Integrity) (fetched : Fetched) :
    Prop :=
  isHop request fetched.response.status fetched.response.headers = true ∨
    ∃ body, fetched.response.body = .bytes body ∧ integrity.verify P body = true

theorem gives_finishWith {source : Source} {content : Option ContentId} {protocol : Protocol}
    (h : Meets P request integrity status headers body) :
    Gives (fun response => Sound P request integrity ⟨response, none⟩)
      (finishWith status headers (.bytes body) source content protocol) :=
  gives_any.bind fun _ _ => staysWith_pure (h.imp id fun hverify => ⟨body, rfl, hverify⟩)

theorem gives_finish {source : Source} {content : Option ContentId}
    (h : Meets P request integrity status headers body) :
    Gives (Sound P request integrity) (finish status headers body source content) :=
  (gives_finishWith h).bind fun _ hresponse => staysWith_pure hresponse

/-! ### From the store -/

/-- A hash that the body has, of the strongest algorithm, is enough. -/
theorem verify_of_matchingStrongest (h : matchingStrongest P integrity body ≠ []) :
    integrity.verify P body = true := by
  obtain ⟨hash, hhash⟩ := List.exists_mem_of_ne_nil _ h
  rw [matchingStrongest] at hhash
  rw [Integrity.verify]
  rcases hstrongest : integrity.strongest with _ | strongest
  · rfl
  · rw [hstrongest] at hhash
    obtain ⟨hmem, hmatches⟩ := List.mem_filter.mp hhash
    rw [Bool.and_eq_true, decide_eq_true_iff] at hmatches
    refine List.any_eq_true.mpr ⟨hash, List.mem_filter.mpr ⟨hmem, ?_⟩, hmatches.2⟩
    rw [hstrongest, hmatches.1, decide_eq_true_iff]

/-- **What the store has is looked at** before it is handed on. -/
theorem gives_storedSatisfies (hdeclared : request.integrity = some integrity) :
    Gives (fun satisfies => satisfies = true →
        Meets P request integrity stored.status stored.headers stored.body)
      (storedSatisfies P request stored) := by
  have hfalse : Gives (fun satisfies : Bool => satisfies = true →
      Meets P request integrity stored.status stored.headers stored.body) (pure false) :=
    staysWith_pure fun h => absurd h Bool.false_ne_true
  rw [storedSatisfies, hdeclared]
  dsimp only
  split
  · rename_i hhop
    exact staysWith_pure fun _ => Or.inl hhop
  · split
    · rename_i hmatching
      have hverify : integrity.verify P stored.body = true :=
        verify_of_matchingStrongest (by simpa using hmatching)
      split
      · exact gives_any.bind fun _ _ => staysWith_pure fun _ => Or.inr hverify
      · exact staysWith_pure fun _ => Or.inr hverify
    · split
      · exact gives_any.bind fun _ _ => hfalse
      · exact hfalse

/-- The cookies of a confirmation lead nowhere. -/
theorem isHop_withCookiesOf (served notModified : HeaderMap) :
    isHop request status (withCookiesOf served notModified) = isHop request status served := by
  have hone : ∀ (name : HeaderName) (values : List HeaderValue) (served : HeaderMap),
      name ≠ header.location →
        (values.foldl (fun served value => served.append name value) served).getAll
          header.location = served.getAll header.location := by
    intro name values
    induction values with
    | nil => exact fun _ _ => rfl
    | cons value values ih =>
      intro served hname
      rw [List.foldl_cons, ih _ hname, HeaderMap.getAll_append, if_neg hname, List.append_nil]
  have hget : (withCookiesOf served notModified).getStr header.location =
      served.getStr header.location := by
    rw [HeaderMap.getStr, HeaderMap.getStr, HeaderMap.get, HeaderMap.get, withCookiesOf,
      neverStored, List.foldl_cons, List.foldl_cons, List.foldl_nil,
      hone _ _ _ (by decide), hone _ _ _ (by decide)]
  rw [isHop, isHop, hget]

/-! ### From an origin, or from a peer -/

/-- **An answer is held against the declaration** before it is kept or handed on. -/
theorem gives_acceptDeclared {protocol : Protocol} :
    Gives (Sound P request integrity)
      (acceptDeclared P config request integrity answer protocol keep) := by
  have hrespond : ∀ {source : Source} {content : Option ContentId},
      Meets P request integrity answer.status answer.headers answer.body →
        Gives (Sound P request integrity) (do
          let response ← finishWith answer.status answer.headers (.bytes answer.body) source
            content protocol
          pure ⟨response, none⟩) :=
    fun h => (gives_finishWith h).bind fun _ hresponse => staysWith_pure hresponse
  rw [acceptDeclared]
  dsimp only
  split
  · rename_i hhop
    exact gives_any.bind fun _ _ => hrespond (Or.inl hhop)
  · split
    · exact staysWith_return fun _ h => by cases h
    · rename_i hverify
      have hmeets : Meets P request integrity answer.status answer.headers answer.body :=
        Or.inr (by simpa using hverify)
      refine gives_any.bind fun content _ => ?_
      split
      · exact gives_any.bind fun _ _ => hrespond hmeets
      · exact hrespond hmeets

/-- What is streamed is not declared. -/
theorem gives_fetchFromOrigin (hdeclared : request.integrity = some integrity) :
    Gives (Sound P request integrity) (fetchFromOrigin P config request extra keep) := by
  rw [fetchFromOrigin, hdeclared]
  exact gives_any.bind fun _ _ => gives_any.bind fun _ _ => gives_acceptDeclared

theorem gives_refetchLost (hdeclared : request.integrity = some integrity) :
    Gives (Sound P request integrity) (refetchLost P config request keep) := by
  refine (gives_fetchFromOrigin hdeclared).bind fun fetched hfetched => ?_
  split
  · exact staysWith_return fun _ h => by cases h
  · exact staysWith_pure hfetched

/-- What a peer has is held against the declaration by the cache. -/
theorem gives_acceptPeerBody :
    Gives (fun accepted => accepted = .ok () → integrity.verify P body = true)
      (attemptCache .answer (acceptPeerBody P integrity body)) := by
  intro t _
  rw [obeys_attemptCache, acceptPeerBody]
  split
  · rename_i hverify
    refine Prog.Obeys.mono (Prog.obeys_of_forall (fun _ _ _ => trivial) fun _ _ => trivial)
      fun r u _ => ?_
    exact ⟨trivial, fun _ => (Bool.and_eq_true_iff.mp hverify).2⟩
  · refine Prog.obeys_run_bind.mpr (Prog.Obeys.mono
      (Prog.obeys_of_forall (fun _ _ _ => trivial) fun _ _ => trivial) fun r u _ => ?_)
    rcases r with e | _
    · exact ⟨trivial, fun h => by cases h⟩
    · exact Prog.obeys_pure.mpr ⟨trivial, fun h => by cases h⟩

theorem gives_tryPeers (hdeclared : request.integrity = some integrity) :
    Gives (fun found => ∀ fetched ∈ found, Sound P request integrity fetched)
      (tryPeers P request) := by
  have hnone : Gives (fun found : Option Fetched => ∀ fetched ∈ found,
      Sound P request integrity fetched) (pure none) :=
    staysWith_pure fun _ h => by cases h
  rw [tryPeers, hdeclared]
  dsimp only
  split
  · exact hnone
  · refine gives_any.bind fun found _ => ?_
    split
    · exact hnone
    · refine gives_acceptPeerBody.bind fun accepted haccepted => ?_
      split
      · exact hnone
      · have hmeets : ∀ headers, Meets P request integrity 200 headers _ := fun _ =>
          Or.inr (haccepted rfl)
        refine StaysWith.bind (gives_finish (hmeets _)) fun fetched hfetched => ?_
        exact staysWith_pure fun _ h => Option.some.inj h ▸ hfetched

/-! ### A hop -/

theorem gives_serveOr (hdeclared : request.integrity = some integrity) {serve : NetM Fetched}
    (hserve : Meets P request integrity stored.status stored.headers stored.body →
      Gives (Sound P request integrity) serve) :
    Gives (Sound P request integrity) (serveOr P config request stored keep serve) := by
  refine (gives_storedSatisfies hdeclared).bind fun satisfies hsatisfies => ?_
  split
  · rename_i h
    exact hserve (hsatisfies h)
  · exact gives_fetchFromOrigin hdeclared

/-- What was confirmed is what was looked at, or it is looked at again. -/
theorem gives_confirmed (hdeclared : request.integrity = some integrity)
    (hstored : Meets P request integrity stored.status stored.headers stored.body) :
    Gives (Sound P request integrity) (confirmed P config request stored answer keep) := by
  have hserve : ∀ {served : StoredResponse} {source : Source},
      Meets P request integrity served.status served.headers served.body →
        Gives (Sound P request integrity) (finish served.status
          (withCookiesOf served.headers answer.headers) served.body source served.content) :=
    fun h => gives_finish (h.imp (fun hhop => by rwa [isHop_withCookiesOf]) id)
  refine gives_any.bind fun kept _ => ?_
  split
  · refine gives_any.bind fun _ _ => gives_any.bind fun recorded _ => gives_any.bind fun _ _ => ?_
    split
    · exact gives_serveOr hdeclared hserve
    · exact hserve hstored
    · split
      · exact gives_refetchLost hdeclared
      · exact staysWith_return fun _ h => by cases h
  · exact hserve hstored

theorem gives_revalidate (hdeclared : request.integrity = some integrity)
    {conditional : List (HeaderName × String)} {staleIfError : Option ℕ}
    (hstored : Meets P request integrity stored.status stored.headers stored.body) :
    Gives (Sound P request integrity)
      (revalidate P config request stored conditional staleIfError keep) := by
  refine gives_any.bind fun attempted _ => ?_
  split
  · split
    · exact gives_confirmed hdeclared hstored
    · rw [replaced, hdeclared]
      exact gives_acceptDeclared
  · split
    · exact gives_finish hstored
    · exact staysWith_return fun _ h => by cases h

theorem gives_answerFrom (hdeclared : request.integrity = some integrity) (found : Lookup) :
    Gives (Sound P request integrity) (answerFrom P config request keep found) := by
  cases found with
  | fresh stored => exact gives_serveOr hdeclared gives_finish
  | stale stored refreshInBackground reason =>
    refine gives_serveOr hdeclared fun hstored => ?_
    split
    · exact gives_any.bind fun _ _ => gives_finish hstored
    · exact gives_finish hstored
  | revalidate stored conditional staleIfError reason =>
    exact gives_serveOr hdeclared (gives_revalidate hdeclared)
  | miss reason =>
    refine (gives_tryPeers hdeclared).bind fun found hfound => ?_
    split
    · exact staysWith_pure (hfound _ rfl)
    · exact gives_fetchFromOrigin hdeclared

/-- **A hop** with a declaration, which is a `GET`. -/
theorem gives_fetchOnce (hdeclared : request.integrity = some integrity)
    (hget : request.method = "GET") :
    Gives (Sound P request integrity) (fetchOnce P config request) := by
  have hsafe : invalidates request.method = false := by
    rw [hget]
    decide
  refine gives_any.bind fun _ _ => gives_any.bind fun _ _ => gives_any.bind fun since _ => ?_
  rw [hsafe, if_neg Bool.false_ne_true]
  exact gives_any.bind fun found _ => gives_answerFrom hdeclared found

/-! ### The loop -/

/-- **A body as it was declared.** -/
def Declared (P : Platform) (integrity : Integrity) (fetched : Fetched) : Prop :=
  ∃ body, fetched.response.body = .bytes body ∧ integrity.verify P body = true

/-- The loop does not end with a redirect that leads on, where something is declared. -/
theorem declared_of_done {current : FetchRequest} {visited : List String} {redirects : ℕ}
    {fetched : Fetched} {response : FetchResponse} (hdeclared : current.integrity = some integrity)
    (hsound : Sound P current integrity fetched)
    (h : Redirects.round P config.maxRedirects redirects current visited
      (.ok fetched.response : Except NetError FetchResponse) = .done (.ok response)) :
    Declared P integrity (fetched.last response) := by
  have hbody : ¬Follows current fetched.response → response.body = fetched.response.body →
      Declared P integrity (fetched.last response) := fun hnot hsame => by
    rw [Declared, Fetched.response_last, hsame]
    exact hsound.resolve_left fun hhop => hnot (follows_iff_isHop.mpr hhop)
  have hfinal : ∀ last : FetchResponse,
      (Redirects.finalRedirect current last : Except (FetchError NetError) FetchResponse) ≠
        .ok response := fun last heq => by
    rw [Redirects.finalRedirect, hdeclared] at heq
    cases heq
  rw [Redirects.round] at h
  dsimp only at h
  split at h
  · rename_i hmanual
    obtain rfl := Except.ok.inj (Redirects.Round.done.inj h)
    exact hbody (fun hf => hf.1 hmanual) rfl
  · split at h
    · rename_i htarget
      obtain rfl := Except.ok.inj (Redirects.Round.done.inj h)
      exact hbody (fun hf => hf.2 htarget) rfl
    · split at h
      · cases h
      · split at h
        · exact absurd (Redirects.Round.done.inj h) (hfinal _)
        · split at h
          · exact absurd (Redirects.Round.done.inj h) (hfinal _)
          · split at h
            · cases h
            · cases h

theorem gives_done {current : FetchRequest} {visited : List String} {redirects : ℕ}
    {fetched : Fetched} {result : Except (FetchError NetError) FetchResponse}
    (hdeclared : current.integrity = some integrity) (hsound : Sound P current integrity fetched)
    (h : Redirects.round P config.maxRedirects redirects current visited
      (.ok fetched.response : Except NetError FetchResponse) = .done result) :
    Gives (Declared P integrity) (do
      let response ← given (result.mapError ofFetchError)
      pure (fetched.last response)) := by
  rcases result with e | response
  · exact StaysWith.bind (staysWith_return (G := fun _ : FetchResponse => False) fun _ h => by
      cases h) fun _ hfalse => hfalse.elim
  · refine StaysWith.bind (staysWith_return (G := fun given => given = response) fun _ h =>
      (Except.ok.inj h).symm) fun given hgiven => staysWith_pure ?_
    rw [hgiven]
    exact declared_of_done hdeclared hsound h

/-- **The loop** hands the declaration on from hop to hop, and the method stays a `GET`. -/
theorem gives_fetchFrom {left : ℕ} {current : FetchRequest} {visited : List String}
    (hdeclared : current.integrity = some integrity) (hget : current.method = "GET") :
    Gives (Declared P integrity) (fetchFrom P config left current visited) := by
  induction left generalizing current visited with
  | zero =>
    rw [fetchFrom]
    refine (gives_fetchOnce hdeclared hget).bind fun fetched hsound => ?_
    split
    · rename_i result hround
      exact gives_done hdeclared hsound hround
    · exact staysWith_return fun _ h => by cases h
  | succ left ih =>
    rw [fetchFrom]
    refine (gives_fetchOnce hdeclared hget).bind fun fetched hsound => ?_
    split
    · rename_i result hround
      exact gives_done hdeclared hsound hround
    · rename_i next visited' hround
      obtain ⟨target, status, -, -, rfl, -⟩ := Redirects.of_round_next hround
      exact ih hdeclared (by rw [Redirects.followed]; simp only [hget, ite_self])

/-- **A fetch that returns** returns what satisfies the declaration. -/
theorem gives_fetch (hdeclared : request.integrity = some integrity) :
    Gives (fun fetched => ∃ body, fetched.response.body = .bytes body ∧
      integrity.Satisfied P body) (fetch P config request) := by
  rcases hrefuse : (Redirects.refuseUnusableIntegrity P request :
      Except (FetchError NetError) Unit) with e | _
  · rw [fetch, hrefuse]
    exact StaysWith.bind (staysWith_return (G := fun _ : Unit => False) fun _ h => by cases h)
      fun _ hfalse => hfalse.elim
  · rw [Redirects.refuseUnusableIntegrity, hdeclared] at hrefuse
    dsimp only at hrefuse
    split at hrefuse
    · cases hrefuse
    · rename_i hempty
      split at hrefuse
      · cases hrefuse
      · rename_i hmethod
        refine gives_any.bind fun _ _ => StaysWith.mono (gives_fetchFrom hdeclared
          (not_not.mp hmethod)) fun fetched hfetched => ?_
        obtain ⟨body, hbody, hverify⟩ := hfetched
        exact ⟨body, hbody, (Integrity.verify_iff P (by simpa using hempty) body).mp hverify⟩

end Declared

/-! ### In a run -/

/-- **What a caller is given as it was declared**: the response has all of it, and there is
nothing else to read. -/
def GivenAsDeclared (P : Platform) (integrity : Integrity) (received : Received) : Prop :=
  ∃ body, received.response.body = .bytes body ∧ received.read = (FetchBody.bytes body).intoStream ∧
    integrity.Satisfied P body

/-- What the caller at this place returns, where it declared something. -/
def KeepsDeclaration (P : Platform) (jobs : List Job) (i : ℕ) (r : Outcome) : Prop :=
  ∀ request integrity received, jobs[i]? = some (.fetch request) →
    request.integrity = some integrity → r = .received (.ok received) →
      GivenAsDeclared P integrity received

section Runs

variable {P : Platform} {config : NetConfig} {jobs : List Job} {s : NetState}
  {c : Config NetAct NetState Outcome} {i : ℕ} {request : FetchRequest} {integrity : Integrity}
  {received : Received}

theorem obeys_job {job : Job} (hi : jobs[i]? = some job) : (job.program P config).Obeys
    (.free NetAct) (fun r _ => KeepsDeclaration P jobs i r) () := by
  cases job with
  | fetch request =>
    rcases hdeclared : request.integrity with _ | integrity
    · refine Prog.obeys_of_forall (fun _ _ _ => trivial) fun r _ => ?_
      intro request' integrity received hi' hdeclared' _
      obtain rfl := Job.fetch.inj (Option.some.inj (hi.symm.trans hi'))
      rw [hdeclared] at hdeclared'
      cases hdeclared'
    · have hgives : Gives (GivenAsDeclared P integrity)
          (Net.fetch P config request >>= receive P config) := by
        refine StaysWith.bind (gives_fetch hdeclared) fun fetched hfetched => ?_
        obtain ⟨body, hbody, hsatisfied⟩ := hfetched
        rw [receive, hbody]
        exact staysWith_pure ⟨body, hbody, rfl, hsatisfied⟩
      refine Prog.obeys_bind.mpr ((hgives () trivial).mono fun r _ hr => ?_)
      intro request' integrity' received hi' hdeclared' hreceived
      obtain rfl := Job.fetch.inj (Option.some.inj (hi.symm.trans hi'))
      obtain rfl := Option.some.inj (hdeclared.symm.trans hdeclared')
      obtain rfl := Outcome.received.inj hreceived
      exact hr.2
  | _ =>
    refine Prog.obeys_bind.mpr (Prog.obeys_of_forall (fun _ _ _ => trivial) fun _ _ => ?_)
    exact fun _ _ _ _ _ h => by cases h

theorem governs_free : Governs (netSystem P config) (.free NetAct) (fun _ _ => True)
    (fun i r _ => KeepsDeclaration P jobs i r) where
  step := fun _ _ _ _ _ _ _ _ _ _ _ _ => ⟨trivial, trivial⟩
  child := by
    intro n β a p _ _ hchild
    cases a with
    | spawn task =>
      obtain rfl := Option.some.inj hchild
      refine Prog.obeys_bind.mpr (Prog.obeys_of_forall (fun _ _ _ => trivial) fun _ _ => ?_)
      exact fun _ _ _ _ _ h => by cases h
    | _ => cases hchild

/-- **No way leads to bytes that were not held against the declaration**: in every run, from
any state of the store, whatever the origins and the peers have to say, what a fetch returns
satisfies a hash of the strongest algorithm that its request declares. -/
theorem declared_satisfied (hrun : (netSystem P config).Runs (running P config s jobs) c)
    (hjob : jobs[i]? = some (.fetch request)) (hdeclared : request.integrity = some integrity)
    (hresult : c.result i = some (.received (.ok received))) :
    ∃ body, received.response.body = .bytes body ∧
      received.read = (FetchBody.bytes body).intoStream ∧ integrity.Satisfied P body := by
  have hkept : Kept (.free NetAct) (fun _ _ => True) (fun i r _ => KeepsDeclaration P jobs i r)
      (running P config s jobs) := by
    refine ⟨fun _ => (), trivial, fun j p hp => ?_⟩
    rw [running, List.getElem?_map] at hp
    obtain ⟨job, hj, rfl⟩ := Option.map_eq_some_iff.mp hp
    exact obeys_job hj
  obtain ⟨-, -, hreturned⟩ := (hkept.runs governs_free hrun).returned
    (Config.result_eq_some.mp hresult)
  exact hreturned request integrity received hjob hdeclared rfl

end Runs

/-- A declaration of one byte. -/
def byteIntegrity : Integrity := ⟨[⟨.sha256, Platform.sample.digest .sha256 [97]⟩]⟩

/-- A request with it. -/
def declaredRequest : FetchRequest :=
  { Redirects.sampleRequest "GET" ∅ [] with integrity := some byteIntegrity }

/-- The caller at this place has returned, and not with an error. -/
def succeeded (i : ℕ) (c : Config NetAct NetState Outcome) : Bool :=
  match c.result i with
  | some (.received (.ok _)) => true
  | _ => false

/-- The byte is fetched, kept, and given. -/
theorem declared_satisfied_of_byte : ∃ (c : Config NetAct NetState Outcome) (received : Received),
    (netSystem Platform.sample sampleConfig).Runs
      (running Platform.sample sampleConfig (.starting .empty) [.fetch declaredRequest]) c ∧
    c.result 0 = some (.received (.ok received)) ∧
      ∃ body, received.response.body = .bytes body ∧
        received.read = (FetchBody.bytes body).intoStream ∧
          byteIntegrity.Satisfied Platform.sample body := by
  have hfollow : ((running Platform.sample sampleConfig (.starting .empty)
      [.fetch declaredRequest]).follow NetState.perform (child Platform.sample sampleConfig)
        (stretch (sampleWorld 10 200 [("cache-control", "max-age=60")] [97]) 0 27)).any
          (succeeded 0) = true := by
    decide +kernel
  obtain ⟨c, hruns, hc⟩ := exists_netRuns hfollow
  rw [succeeded] at hc
  split at hc
  · rename_i received hresult
    exact ⟨c, received, hruns, hresult, declared_satisfied hruns rfl rfl hresult⟩
  · exact absurd hc Bool.false_ne_true

end Net

end Syndeo
