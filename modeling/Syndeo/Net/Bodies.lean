import Syndeo.Net.Story

/-!
# The bodies a caller is given

The last hop of a fetch decides what its caller is given: the loop of `Net::fetch` hands
the response on, or leaves the body of a redirect out that cannot be followed
(`Syndeo.Net.Concludes`). In every run, whatever else the process does, the story of a
fetch ends with that hop and with how its answer came about
(`Syndeo.Net.ended_of_telling`).
-/

namespace Syndeo

namespace Net

open Concurrent
open Prog (Asks Stays)
open Redirects (FetchError Round followed redirectTarget)
open Text (eqIgnoreAsciiCase)

/-! ### Taking a body in whole -/

section Collecting

variable {limit : ℕ} {out whole : Bytes} {items : List (Except String Bytes)} {pieces : List Bytes}

theorem exists_pieces_of_collectFrom (h : collectFrom limit out items = .ok whole) :
    ∃ pieces : List Bytes, items = pieces.map .ok ∧ whole = out ++ pieces.flatten := by
  induction items generalizing out with
  | nil =>
    obtain rfl := Except.ok.inj h
    exact ⟨[], rfl, (List.append_nil _).symm⟩
  | cons item items ih =>
    rcases item with e | chunk
    · exact nomatch h
    · rw [collectFrom] at h
      split at h
      · exact nomatch h
      · obtain ⟨pieces, rfl, rfl⟩ := ih h
        exact ⟨chunk :: pieces, rfl, by rw [List.flatten_cons, List.append_assoc]⟩

/-- **What is taken in** is all the pieces, and none of them failed. -/
theorem exists_pieces_of_collect (h : collectBody limit items = .ok whole) :
    ∃ pieces : List Bytes, items = pieces.map .ok ∧ whole = pieces.flatten :=
  exists_pieces_of_collectFrom h

theorem collectFrom_pieces (hout : out.length ≤ limit) :
    collectFrom limit out (pieces.map .ok) =
      if (out ++ pieces.flatten).length ≤ limit then .ok (out ++ pieces.flatten)
      else .error (.bodyTooLarge limit) := by
  induction pieces generalizing out with
  | nil =>
    rw [List.flatten_nil, List.append_nil, if_pos hout]
    rfl
  | cons chunk pieces ih =>
    rw [List.map_cons, collectFrom, List.flatten_cons, ← List.append_assoc]
    split
    · rename_i hlong
      rw [if_neg]
      rw [List.length_append, List.length_append]
      omega
    · rename_i hfits
      exact ih (by rw [List.length_append]; omega)

/-- **A body is taken in** where it is no longer than the limit, and refused where it is. -/
theorem collectBody_pieces : collectBody limit (pieces.map .ok) =
    if pieces.flatten.length ≤ limit then .ok pieces.flatten else .error (.bodyTooLarge limit) :=
  collectFrom_pieces (Nat.zero_le limit)

end Collecting

/-! ### The end of the loop -/

/-- The response is a redirect that this request has followed. -/
def Follows (last : FetchRequest) (response : FetchResponse) : Prop :=
  last.redirect ≠ .manual ∧ redirectTarget response ≠ none

instance (last : FetchRequest) (response : FetchResponse) : Decidable (Follows last response) :=
  inferInstanceAs (Decidable (_ ∧ _))

@[simp] theorem Fetched.response_last {fetched : Fetched} {response : FetchResponse} :
    (fetched.last response).response = response := by
  rw [Fetched.last]
  split <;> rfl

/-- **What the loop makes of the answer to its last hop.** -/
inductive Concludes (last : FetchRequest) :
    Except NetError Fetched → Except NetError Fetched → Prop
  | failed {e : NetError} : Concludes last (.error e) (.error e)
  | given {fetched : Fetched} {redirects : ℕ} (h : ¬Follows last fetched.response) :
      Concludes last (.ok fetched) (.ok (fetched.last
        { fetched.response with finalUrl := last.url, redirects := redirects }))
  /-- A redirect that cannot be followed is given without its body. -/
  | dropped {fetched : Fetched} {redirects : ℕ} (h : Follows last fetched.response) :
      Concludes last (.ok fetched) (.ok (fetched.last
        { fetched.response with finalUrl := last.url, redirects := redirects, body := .bytes [] }))
  | refused {fetched : Fetched} {e : NetError} (h : Follows last fetched.response) :
      Concludes last (.ok fetched) (.error e)

section Loop

variable {P : Platform} {config : NetConfig} {t : Story} {current : FetchRequest}
  {visited : List String} {fetched : Fetched} {redirects : ℕ}

/-- **The end of the loop** is one of these. -/
theorem concludes_of_done {result : Except (FetchError NetError) FetchResponse}
    (hnone : current.integrity = none)
    (h : Redirects.round P config.maxRedirects redirects current visited
      (.ok fetched.response : Except NetError FetchResponse) = .done result) :
    Concludes current (.ok fetched)
      (match result with
      | .ok response => .ok (fetched.last response)
      | .error e => .error (ofFetchError e)) := by
  have hfinal : ∀ response : FetchResponse,
      (Redirects.finalRedirect current response : Except (FetchError NetError) FetchResponse) =
        .ok response := fun response => by
    rw [Redirects.finalRedirect, hnone]
    rfl
  rw [Redirects.round] at h
  simp only [hfinal] at h
  split at h
  · rename_i hmanual
    obtain rfl := Round.done.inj h
    exact .given fun hf => hf.1 hmanual
  · rename_i hfollow
    split at h
    · rename_i htarget
      obtain rfl := Round.done.inj h
      exact .given fun hf => hf.2 htarget
    · rename_i location htarget
      have hf : Follows current fetched.response :=
        ⟨hfollow, Option.ne_none_iff_exists'.mpr ⟨location, htarget⟩⟩
      split at h
      · obtain rfl := Round.done.inj h
        exact .refused hf
      · split at h
        · obtain rfl := Round.done.inj h
          exact .dropped hf
        · split at h
          · obtain rfl := Round.done.inj h
            exact .dropped hf
          · split at h
            · obtain rfl := Round.done.inj h
              exact .refused hf
            · cases h

/-- **The last hop of a fetch**, and what came of it: the request that began it declares
this integrity, and without one its answer came about as it is told. -/
structure Ended (config : NetConfig) (declared : Option Integrity) (t : Story)
    (r : Except NetError Fetched) (last : FetchRequest) : Prop where
  hop : t.hop = some last
  integrity : last.integrity = declared
  get : declared.isSome = true → last.method = "GET"
  came : declared = none → ∃ answer, Came config last t answer ∧ Concludes last answer r

/-- The step leaves the hop as it is. -/
def NetAct.Aims (current : FetchRequest) {β : Type} (a : NetAct β) : Prop :=
  ∀ (t : Story) (b : β), t.hop = some current → (t.next a b).hop = some current

theorem aims_cache {β : Type} (errand : Errand) (a : CacheAct β) :
    (NetAct.cache errand a).Aims current := by
  intro t b ht
  by_cases hmute : (NetAct.cache errand a).Mute
  · rwa [hmute.next]
  · cases errand with
    | answer =>
      cases a with
      | index a =>
        cases a with
        | recordAccess key now tally => rcases b with e | _ <;> exact ht
        | refreshEntry record => rcases b with e | _ <;> exact ht
        | bump name n =>
          rcases b with e | _
          · exact ht
          · change (if name = counters.bytesFromCache then { t with readBack := n } else t).hop = _
            split
            · exact ht
            · exact ht
        | _ => exact absurd trivial hmute
      | _ => exact absurd trivial hmute
    | _ => exact absurd trivial hmute

theorem tolerates_aims : Tolerates (fun {_} a => NetAct.Aims current a) where
  cache := fun errand a _ => aims_cache errand a
  apart := fun a ha => by
    cases a with
    | cache errand a => exact ha.elim
    | hop request => exact ha.elim
    | tcp request extra => exact ha.elim
    | quic request extra => exact ha.elim
    | _ => exact fun _ _ ht => ht

/-- **A hop** is at its request until the next one begins. -/
theorem hop_fetchOnce :
    (fetchOnce P config current).run.Obeys story (fun _ u => u.hop = some current) t := by
  have hasks : (fetchOnce P config current).run.Asks (NetAct.Aims current) :=
    tolerates_aims.fetchOnce (fun _ _ => ⟨fun _ _ ht => ht, fun _ _ ht => ht⟩) aims_cache
      fun _ _ _ => rfl
  refine ⟨trivial, fun b _ => ?_⟩
  exact Prog.stays_of_asks (x := ExceptT.mk _) (T := fun u : Story => u.hop = some current)
    (hasks.2 b) (fun a u ha hu => ⟨trivial, fun b _ => ha u b hu⟩) _ rfl

theorem ended_fetchOnce : (fetchOnce P config current).run.Obeys story (fun r u =>
    u.hop = some current ∧ (current.integrity = none → Came config current u r)) t := by
  rcases hdeclared : current.integrity with _ | declared
  · exact (came_fetchOnce hdeclared).mono fun r u hu => ⟨hu.1, fun _ => hu.2⟩
  · exact hop_fetchOnce.mono fun r u hu => ⟨hu, fun h => nomatch h⟩

/-- The loop ends with this hop. -/
theorem ended_done {u : Story} {result : Except (FetchError NetError) FetchResponse}
    (hget : current.integrity.isSome = true → current.method = "GET") (hhop : u.hop = some current)
    (hcame : current.integrity = none → Came config current u (.ok fetched))
    (h : Redirects.round P config.maxRedirects redirects current visited
      (.ok fetched.response : Except NetError FetchResponse) = .done result) :
    (do let response ← given (result.mapError ofFetchError); pure (fetched.last response) :
      NetM Fetched).run.Obeys story
        (fun r u => ∃ last, Ended config current.integrity u r last) u := by
  have hconcludes := fun hnone : current.integrity = none => concludes_of_done hnone h
  rcases result with e | response
  · exact ⟨current, hhop, rfl, hget, fun hnone => ⟨_, hcame hnone, hconcludes hnone⟩⟩
  · exact ⟨current, hhop, rfl, hget, fun hnone => ⟨_, hcame hnone, hconcludes hnone⟩⟩

/-- **The loop ends with some hop.** -/
theorem ended_fetchFrom {left : ℕ} (hget : current.integrity.isSome = true → current.method = "GET") :
    (fetchFrom P config left current visited).run.Obeys story
      (fun r u => ∃ last, Ended config current.integrity u r last) t := by
  induction left generalizing current visited t with
  | zero =>
    rw [fetchFrom]
    refine Prog.obeys_run_bind.mpr (ended_fetchOnce.mono fun r u hu => ?_)
    obtain ⟨hhop, hcame⟩ := hu
    rcases r with e | fetched
    · exact ⟨current, hhop, rfl, hget, fun hnone => ⟨_, hcame hnone, .failed⟩⟩
    · rw [Prog.orElse_ok]
      split
      · rename_i result hround
        exact ended_done hget hhop hcame hround
      · rename_i request visited' hround
        obtain ⟨next, status, hleads, -⟩ := Redirects.of_round_next hround
        exact absurd hleads.more (by simp)
  | succ left ih =>
    rw [fetchFrom]
    refine Prog.obeys_run_bind.mpr (ended_fetchOnce.mono fun r u hu => ?_)
    obtain ⟨hhop, hcame⟩ := hu
    rcases r with e | fetched
    · exact ⟨current, hhop, rfl, hget, fun hnone => ⟨_, hcame hnone, .failed⟩⟩
    · rw [Prog.orElse_ok]
      split
      · rename_i result hround
        exact ended_done hget hhop hcame hround
      · rename_i request visited' hround
        obtain ⟨next, status, -, -, rfl, -⟩ := Redirects.of_round_next hround
        have hnext : (followed P current next status).integrity.isSome = true →
            (followed P current next status).method = "GET" := fun h => by
          rw [followed]
          simp only [hget h, ite_self]
        exact ih hnext

/-- **A fetch ends with some hop**, unless what it declares cannot be used. -/
theorem ended_fetch {request : FetchRequest} :
    (fetch P config request).run.Obeys story (fun r u =>
      (∃ last, Ended config request.integrity u r last) ∨
        (request.integrity.isSome = true ∧ ∃ e, r = .error e)) t := by
  rcases hrefuse : (Redirects.refuseUnusableIntegrity P request :
      Except (FetchError NetError) Unit) with e | _
  · have hsome : request.integrity.isSome = true := by
      rcases hdeclared : request.integrity with _ | integrity
      · rw [Redirects.refuseUnusableIntegrity, hdeclared] at hrefuse
        exact nomatch hrefuse
      · rfl
    rw [fetch, hrefuse]
    exact Or.inr ⟨hsome, _, rfl⟩
  · have hget : request.integrity.isSome = true → request.method = "GET" := by
      intro hsome
      obtain ⟨integrity, hdeclared⟩ := Option.isSome_iff_exists.mp hsome
      rw [Redirects.refuseUnusableIntegrity, hdeclared] at hrefuse
      simp only at hrefuse
      split at hrefuse
      · exact nomatch hrefuse
      · split at hrefuse
        · exact nomatch hrefuse
        · rename_i hmethod
          exact of_not_not hmethod
    rw [fetch, hrefuse]
    exact (ended_fetchFrom hget).mono fun r u hu => Or.inl hu

end Loop

/-! ### What is read of it -/

section Reading

variable {P : Platform} {config : NetConfig} {t : Story} {teed : Teed}

/-- What is written behind a body is not told. -/
theorem mute_writeStreamed {writer : BlobWriter} :
    (writeStreamed P config teed writer).run.Asks NetAct.Mute := by
  have hmute : ∀ {α : Type} {a : NetAct α}, a.Mute → (act a).run.Asks NetAct.Mute := asks_act
  have hadmits : (teed.keep.admits teed.address).run.Asks NetAct.Mute := by
    rw [Keep.admits]
    split
    · trivial
    · exact hmute trivial
  refine Prog.asks_run_bind hadmits fun kept => ?_
  split
  · refine Prog.asks_run_bind (hmute (a := .cache .write .now) trivial) fun time =>
      Prog.asks_run_bind ?_ fun _ => hmute trivial
    rw [attemptCache, ExceptT.run_lift, map_eq_pure_bind]
    exact (Prog.asks_lift (Prog.asks_of_forall fun a => trivial)).bind fun _ => trivial
  · trivial

theorem yields_land : Prog.Yields story (land P config teed) t fun _ u => u = t := by
  rw [land]
  split
  · exact rfl
  · refine ⟨trivial, fun landing _ => ⟨trivial, fun runtime _ => ?_⟩⟩
    cases runtime with
    | true => exact ⟨trivial, fun _ _ => rfl⟩
    | false =>
      have hattempt : Prog.Yields story (attempt (writeStreamed P config teed ‹BlobWriter›)) t
          fun _ u => u = t := by
        rw [Prog.Yields, attempt, ExceptT.run_lift, map_eq_pure_bind, Prog.obeys_bind]
        exact stays_mute mute_writeStreamed t rfl
      exact Prog.Yields.bind hattempt fun _ u hu => ⟨trivial, fun _ _ => hu⟩

theorem yields_observe {tee : Tee} {chunk : Bytes} :
    Prog.Yields story (tee.observe chunk) t fun _ u => u = t := by
  rw [Tee.observe]
  split
  · exact rfl
  · split
    · exact rfl
    · refine ⟨trivial, fun written _ => ?_⟩
      cases written with
      | true => exact rfl
      | false => exact rfl

/-- **A body that is read to its end** is all the pieces, where none of them fails. -/
theorem yields_readStream {read items : List (Except String Bytes)} {teed : Option Teed} :
    Prog.Yields story (readStream P config read teed items) t fun r u =>
      u = t ∧ (r.2 = true → (∀ e, .error e ∉ items) → r.1 = read ++ items) := by
  fun_induction readStream P config read teed items with
  | case1 read teed =>
    refine ⟨trivial, fun more _ => ?_⟩
    have hend : Prog.Yields story (pure (read, true) : NetM _) t fun r u =>
        u = t ∧ (r.2 = true → (∀ e, .error e ∉ ([] : List (Except String Bytes))) →
          r.1 = read ++ []) := ⟨rfl, fun _ _ => (List.append_nil read).symm⟩
    cases more with
    | true =>
      rcases teed with _ | teed
      · exact hend
      · exact Prog.Yields.bind yields_land fun _ u hu => by
          subst hu
          exact hend
    | false => exact ⟨rfl, fun h => absurd h Bool.false_ne_true⟩
  | case2 read item rest ih =>
    refine ⟨trivial, fun more _ => ?_⟩
    cases more with
    | true =>
      refine Prog.Yields.mono ih fun r u hu => ⟨hu.1, fun hended hok => ?_⟩
      rw [hu.2 hended fun e he => hok e (List.mem_cons_of_mem _ he), List.append_assoc,
        List.singleton_append]
    | false => exact ⟨rfl, fun h => absurd h Bool.false_ne_true⟩
  | case3 read teed chunk rest ih =>
    refine ⟨trivial, fun more _ => ?_⟩
    cases more with
    | true =>
      refine Prog.Yields.bind yields_observe fun tee u hu => ?_
      subst hu
      refine Prog.Yields.mono (ih tee) fun r u hu => ⟨hu.1, fun hended hok => ?_⟩
      rw [hu.2 hended fun e he => hok e (List.mem_cons_of_mem _ he), List.append_assoc,
        List.singleton_append]
    | false => exact ⟨rfl, fun h => absurd h Bool.false_ne_true⟩
  | case4 read teed e rest =>
    refine ⟨trivial, fun more _ => ?_⟩
    have hnot : ∀ {r : List (Except String Bytes) × Bool}, r.2 = true →
        (∀ e', .error e' ∉ .error e :: rest) → r.1 = read ++ .error e :: rest :=
      fun _ hok => absurd List.mem_cons_self (hok e)
    cases more with
    | true => exact ⟨trivial, fun more _ => ⟨rfl, hnot⟩⟩
    | false => exact ⟨rfl, hnot⟩

/-- **What a caller reads** of what it was given. -/
theorem yields_receive {fetched : Fetched} :
    Prog.Yields story (receive P config fetched) t fun received u =>
      u = t ∧ received.response = fetched.response ∧ ∀ items, fetched.response.body = .stream items →
        received.ended = true → (∀ e, .error e ∉ items) → received.read = items := by
  rw [receive]
  split
  · rename_i body hbody
    exact ⟨rfl, rfl, by simp [hbody]⟩
  · rename_i items hbody
    refine Prog.Yields.bind yields_readStream fun r u hu => ?_
    obtain ⟨read, ended⟩ := r
    refine ⟨hu.1, rfl, fun items' h hended hok => ?_⟩
    obtain rfl := FetchBody.stream.inj (hbody.symm.trans h)
    exact hu.2 hended hok

end Reading

/-! ### Every run -/

/-- What a caller receives of what the fetch gave it. -/
inductive Receives : Except NetError Fetched → Except NetError Received → Prop
  | failed {e : NetError} : Receives (.error e) (.error e)
  | given {fetched : Fetched} {received : Received} (response : received.response = fetched.response)
      (read : ∀ items, fetched.response.body = .stream items → received.ended = true →
        (∀ e, .error e ∉ items) → received.read = items) :
      Receives (.ok fetched) (.ok received)

/-- A process whose fetches tell their stories. -/
abbrev telling (P : Platform) (config : NetConfig) :
    System NetAct (NetState × List Story) Outcome := (netSystem P config).telling story

/-- The start of a run, where nothing is told yet. -/
def listening (P : Platform) (config : NetConfig) (s : NetState) (jobs : List Job) :
    Config NetAct (NetState × List Story) Outcome :=
  ⟨(s, jobs.map fun _ => .start), jobs.map (Job.program P config)⟩

/-- A schedule that ends as it should: there is such a run. -/
theorem exists_telling {P : Platform} {config : NetConfig} {rest : List (World × ℕ)}
    {c : Config NetAct (NetState × List Story) Outcome}
    {p : Config NetAct (NetState × List Story) Outcome → Bool}
    (h : (c.follow (noting (fun i {_} a _ b _ => story.tell (child P config a).isSome i a b)
      NetState.perform) (child P config) rest).any p = true) :
    ∃ c', (telling P config).Runs c c' ∧ p c' = true := by
  rw [telling, System.telling, netSystem, ← System.ofPerform_noting]
  exact Config.exists_runs_of_follow (fun _ _ => trivial) h

section Runs

variable {P : Platform} {config : NetConfig} {jobs : List Job} {s : NetState}
  {c : Config NetAct (NetState × List Story) Outcome} {i : ℕ} {t : Story} {request : FetchRequest}
  {result : Except NetError Received}

/-- What the caller at this place receives, by the story that was told of it. -/
def Delivers (config : NetConfig) (jobs : List Job) (i : ℕ) (r : Outcome) (t : Story) : Prop :=
  ∀ request result, jobs[i]? = some (.fetch request) → r = .received result →
    ∃ answer, Receives answer result ∧
      ((∃ last, Ended config request.integrity t answer last) ∨
        (request.integrity.isSome = true ∧ ∃ e, answer = .error e))

theorem tells_story : Tells (netSystem P config) story (Delivers config jobs) where
  sees := fun _ _ _ _ => trivial
  child := by
    intro n β a p t hchild
    cases a with
    | spawn task =>
      obtain rfl := Option.some.inj hchild
      exact Prog.obeys_bind.mpr (Prog.obeys_of_forall (fun _ _ _ => trivial)
        fun _ _ _ _ _ h => nomatch h)
    | _ => exact nomatch hchild

theorem delivers_job {job : Job} (hi : jobs[i]? = some job) :
    (job.program P config).Obeys story (Delivers config jobs i) t := by
  cases job with
  | fetch request =>
    refine Prog.obeys_bind.mpr (Prog.obeys_run_bind.mpr (ended_fetch.mono fun answer u hu => ?_))
    rcases answer with e | fetched
    · intro request' result hi' hresult
      obtain rfl := Job.fetch.inj (Option.some.inj (hi.symm.trans hi'))
      obtain rfl := Outcome.received.inj hresult
      exact ⟨_, .failed, hu⟩
    · refine Prog.Obeys.mono yields_receive fun r v hv => ?_
      rcases r with e | received
      · exact hv.elim
      · obtain ⟨rfl, hresponse, hread⟩ := hv
        intro request' result hi' hresult
        obtain rfl := Job.fetch.inj (Option.some.inj (hi.symm.trans hi'))
        obtain rfl := Outcome.received.inj hresult
        exact ⟨_, .given hresponse hread, hu⟩
  | _ =>
    refine Prog.obeys_bind.mpr (Prog.obeys_of_forall (fun _ _ _ => trivial) fun _ _ => ?_)
    exact fun request result _ h => nomatch h

/-- **In every run**, what a caller receives came about as its story tells. -/
theorem ended_of_telling (hrun : (telling P config).Runs (listening P config s jobs) c)
    (hjob : jobs[i]? = some (.fetch request)) (hresult : c.result i = some (.received result))
    (hstory : c.shared.2[i]? = some t) : ∃ answer, Receives answer result ∧
      ((∃ last, Ended config request.integrity t answer last) ∨
        (request.integrity.isSome = true ∧ ∃ e, answer = .error e)) := by
  have htold : Told story (Delivers config jobs) (listening P config s jobs) := by
    refine ⟨by simp [listening], fun j p u hp _ => ?_⟩
    rw [listening, List.getElem?_map] at hp
    obtain ⟨job, hjob, rfl⟩ := Option.map_eq_some_iff.mp hp
    exact delivers_job hjob
  exact htold.returned tells_story hrun hresult hstory request result hjob rfl

end Runs

end Net

end Syndeo
