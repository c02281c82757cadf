import Syndeo.Cache.Policy
import Syndeo.Net.Message

/-!
# Following redirects

`Net::fetch` asks for an address, and for wherever it is sent on to, until an
answer is no redirect or it gives up. What it asks at each step is made of what it
asked before and of the answer: `Syndeo.Redirects.round` is one pass of its loop,
`Syndeo.Redirects.hop` the request of the pass with this number, and
`Syndeo.Redirects.fetch` what comes of it all. How a request is answered is left
open, and may be different every time.

Credentials are kept from one hop to the next where both have one origin, so they
reach only hops whose whole way had the origin it began with
(`Syndeo.Redirects.credentials_stay_home`).
-/

namespace Syndeo

namespace Redirects

open Text

/-! ### The source -/

/-- `NetError`, as far as redirects are about: the rest is what `fetch_once` may
fail with. -/
inductive FetchError (E : Type)
  | tooManyRedirects (limit : ℕ)
  | redirectLoop (url : String)
  | integrity (message : String)
  | other (error : E)
  deriving DecidableEq

section

variable (P : Platform)

/-- `Redacted`. -/
def redacted (url : String) : String :=
  match P.parseUrl url with
  | none => "<url>"
  | some u =>
    match u.host with
    | some host =>
      if host = "" then u.scheme ++ ":<redacted>"
      else u.scheme ++ "://" ++ host ++ (u.port.elim "" fun port => ":" ++ toString port)
    | none => u.scheme ++ ":<redacted>"

/-- `refuse_unusable_integrity`. -/
def refuseUnusableIntegrity {E : Type} (request : FetchRequest) : Except (FetchError E) Unit :=
  let refusal (why : String) : Except (FetchError E) Unit :=
    .error (.integrity (redacted P request.url ++ ": " ++ why))
  match request.integrity with
  | none => .ok ()
  | some integrity =>
    if integrity.isEmpty then refusal "no usable hash was declared"
    else if request.method ≠ "GET" then refusal "declared integrity applies only to a GET"
    else if request.headers.containsKey header.range then
      refusal "declared integrity describes a whole body, and this asked for a range"
    else .ok ()

/-- `final_redirect`. -/
def finalRedirect {E : Type} (request : FetchRequest) (response : FetchResponse) :
    Except (FetchError E) FetchResponse :=
  if request.integrity.isSome then
    .error (.integrity (request.url ++
      ": a redirect that cannot be followed does not satisfy the declared integrity"))
  else .ok response

/-- `redirect_target`. -/
def redirectTarget (response : FetchResponse) : Option String :=
  if [301, 302, 303, 307, 308].contains response.status then
    ((response.headers.getStr header.location).map trim).filter (· ≠ "")
  else none

/-- The fields that are kept from other origins. -/
def sensitive : List HeaderName :=
  [header.authorization, header.cookie, header.proxyAuthorization]

/-- The fields a new target has its own of. -/
def ownOfTarget : List HeaderName := [header.host, header.contentLength, header.contentType]

/-- Scheme, host and effective port. -/
def originOf (url : String) : Option (String × Option String × Option ℕ) :=
  (P.parseUrl url).map fun u => (u.scheme, u.host, u.portOrKnownDefault)

/-- Whether two addresses are read, and have one origin. -/
def sameOrigin (source target : String) : Bool :=
  match P.parseUrl source, P.parseUrl target with
  | some a, some b =>
    a.scheme == b.scheme && a.host == b.host && a.portOrKnownDefault == b.portOrKnownDefault
  | _, _ => false

/-- `forwardable_headers`. -/
def forwardableHeaders (headers : HeaderMap) (source target : String) : HeaderMap :=
  ⟨headers.fields.filter fun f =>
    !(sensitive.contains f.1 && !sameOrigin P source target) && !ownOfTarget.contains f.1⟩

/-- The statuses that keep the method and the body. -/
def Preserves (status : ℕ) : Prop := status = 307 ∨ status = 308

instance (status : ℕ) : Decidable (Preserves status) :=
  inferInstanceAs (Decidable (status = 307 ∨ status = 308))

/-- The request that follows a redirect. -/
def followed (current : FetchRequest) (next : Url) (status : ℕ) : FetchRequest where
  partition := current.partition
  method := if Preserves status then current.method else "GET"
  url := P.showUrl next
  headers := forwardableHeaders P current.headers current.url (P.showUrl next)
  body := if Preserves status then current.body else []
  integrity := current.integrity
  redirect := current.redirect

/-- Where a redirect leads, read against the address it came from. -/
def target (current : FetchRequest) (response : FetchResponse) : Option Url :=
  (redirectTarget response).bind fun location =>
    (P.parseUrl current.url).bind fun base => P.joinUrl base location

/-- What one pass of the loop comes to: the end, or another pass. -/
inductive Round (E : Type)
  | done (result : Except (FetchError E) FetchResponse)
  | next (request : FetchRequest) (visited : List String)

/-- One pass of the loop of `Net::fetch`, once `fetch_once` has answered. -/
def round {E : Type} (limit redirects : ℕ) (current : FetchRequest) (visited : List String)
    (answer : Except E FetchResponse) : Round E :=
  match answer with
  | .error error => .done (.error (.other error))
  | .ok response =>
    let response := { response with finalUrl := current.url, redirects := redirects }
    if current.redirect = .manual then .done (.ok response)
    else
      match redirectTarget response with
      | none => .done (.ok response)
      | some _ =>
        let last := { response with body := .bytes [] }
        if limit ≤ redirects then .done (.error (.tooManyRedirects limit))
        else
          match target P current response with
          | none => .done (finalRedirect current last)
          | some next =>
            if next.scheme ≠ "http" ∧ next.scheme ≠ "https" then
              .done (finalRedirect current last)
            else
              let normalized := normalizeUrl P (P.showUrl next)
              if visited.contains normalized then .done (.error (.redirectLoop normalized))
              else .next (followed P current next response.status) (visited ++ [normalized])

/-- **A redirect that leads on**, with this status: it is to be followed here, there
may be one more, and where it leads can be asked. -/
structure Leads {E : Type} (limit redirects : ℕ) (current : FetchRequest)
    (answer : Except E FetchResponse) (next : Url) (status : ℕ) : Prop where
  follow : current.redirect ≠ .manual
  more : redirects < limit
  answer : ∃ response, answer = .ok response ∧ response.status = status ∧
    target P current response = some next
  scheme : next.scheme = "http" ∨ next.scheme = "https"

end

section Rounds

variable {P : Platform} {E : Type} {limit redirects : ℕ} {current request : FetchRequest}
  {visited visited' : List String} {answer : Except E FetchResponse} {next : Url} {status : ℕ}

/-- **A redirect that leads on** is followed unless its address was asked for before. -/
theorem round_of_leads (visited : List String) (h : Leads P limit redirects current answer next status) :
    round P limit redirects current visited answer =
      if normalizeUrl P (P.showUrl next) ∈ visited then
        .done (.error (.redirectLoop (normalizeUrl P (P.showUrl next))))
      else .next (followed P current next status) (visited ++ [normalizeUrl P (P.showUrl next)]) := by
  obtain ⟨response, rfl, rfl, htarget⟩ := h.answer
  obtain ⟨location, hlocation, -⟩ := Option.bind_eq_some_iff.mp htarget
  have hscheme : ¬(next.scheme ≠ "http" ∧ next.scheme ≠ "https") := by
    rintro ⟨h1, h2⟩
    exact h.scheme.elim h1 h2
  have hlocation' : redirectTarget { response with
      finalUrl := current.url, redirects := redirects } = some location := hlocation
  have htarget' : target P current { response with
      finalUrl := current.url, redirects := redirects } = some next := htarget
  rw [round]
  dsimp only
  rw [if_neg h.follow, hlocation']
  dsimp only
  rw [if_neg (Nat.not_le.mpr h.more), htarget']
  dsimp only
  rw [if_neg hscheme]
  by_cases hvisited : normalizeUrl P (P.showUrl next) ∈ visited
  · rw [if_pos (List.contains_iff_mem.mpr hvisited), if_pos hvisited]
  · rw [if_neg fun hc => hvisited (List.contains_iff_mem.mp hc), if_neg hvisited]

/-- What is not led on ends here, and not in a loop. -/
theorem round_cases (P : Platform) (limit redirects : ℕ) (current : FetchRequest)
    (visited : List String) (answer : Except E FetchResponse) :
    (∃ next status, Leads P limit redirects current answer next status) ∨
      ∃ result, round P limit redirects current visited answer = .done result ∧
        ∀ url, result ≠ .error (.redirectLoop url) := by
  have hfinal : ∀ response : FetchResponse, ∀ url,
      (finalRedirect current response : Except (FetchError E) FetchResponse) ≠
        .error (.redirectLoop url) := by
    intro response url h
    rw [finalRedirect] at h
    split at h
    · exact nomatch h
    · exact nomatch h
  rcases answer with error | response
  · exact Or.inr ⟨_, rfl, nofun⟩
  · simp only [round]
    split
    · exact Or.inr ⟨_, rfl, nofun⟩
    · rename_i hfollow
      split
      · exact Or.inr ⟨_, rfl, nofun⟩
      · split
        · exact Or.inr ⟨_, rfl, nofun⟩
        · rename_i hmore
          split
          · exact Or.inr ⟨_, rfl, hfinal _⟩
          · rename_i next htarget
            split
            · exact Or.inr ⟨_, rfl, hfinal _⟩
            · rename_i hscheme
              refine Or.inl ⟨next, response.status, hfollow, Nat.lt_of_not_le hmore,
                ⟨response, rfl, rfl, htarget⟩, ?_⟩
              by_contra hother
              exact hscheme (not_or.mp hother)

/-- **Another pass** is one of a redirect that leads on. -/
theorem of_round_next (h : round P limit redirects current visited answer =
    .next request visited') : ∃ next status,
      Leads P limit redirects current answer next status ∧
        normalizeUrl P (P.showUrl next) ∉ visited ∧ request = followed P current next status ∧
          visited' = visited ++ [normalizeUrl P (P.showUrl next)] := by
  rcases round_cases P limit redirects current visited answer with
    ⟨next, status, hleads⟩ | ⟨result, hdone, -⟩
  · rw [round_of_leads _ hleads] at h
    split at h
    · exact nomatch h
    · rename_i hnew
      obtain ⟨rfl, rfl⟩ := Round.next.inj h
      exact ⟨next, status, hleads, hnew, rfl, rfl⟩
  · rw [hdone] at h
    exact nomatch h

/-- **A loop** is a redirect that leads on to an address that was asked for. -/
theorem round_eq_loop_iff {url : String} : round P limit redirects current visited answer =
    .done (.error (.redirectLoop url)) ↔ ∃ next status,
      Leads P limit redirects current answer next status ∧
        normalizeUrl P (P.showUrl next) = url ∧ url ∈ visited := by
  constructor
  · intro h
    rcases round_cases P limit redirects current visited answer with
      ⟨next, status, hleads⟩ | ⟨result, hdone, hnot⟩
    · rw [round_of_leads _ hleads] at h
      split at h
      · rename_i hvisited
        obtain rfl := FetchError.redirectLoop.inj (Except.error.inj (Round.done.inj h))
        exact ⟨next, status, hleads, rfl, hvisited⟩
      · exact nomatch h
    · rw [hdone] at h
      exact absurd (Round.done.inj h) (hnot url)
  · rintro ⟨next, status, hleads, rfl, hvisited⟩
    rw [round_of_leads _ hleads, if_pos hvisited]

end Rounds

/-! ### The loop -/

section Loop

variable (P : Platform) {E : Type} (limit : ℕ) (once : ℕ → FetchRequest → Except E FetchResponse)

/-- The loop of `Net::fetch`, from where it has followed so many redirects. -/
def fetchFrom (redirects : ℕ) (current : FetchRequest) (visited : List String) :
    Except (FetchError E) FetchResponse :=
  match h : round P limit redirects current visited (once redirects current) with
  | .done result => result
  | .next request visited' => fetchFrom (redirects + 1) request visited'
termination_by limit - redirects
decreasing_by
  obtain ⟨next, status, hleads, -⟩ := of_round_next h
  have hmore := hleads.more
  omega

/-- `Net::fetch`. -/
def fetch (request : FetchRequest) : Except (FetchError E) FetchResponse :=
  match refuseUnusableIntegrity P request with
  | .error error => .error error
  | .ok () => fetchFrom P limit once 0 request [normalizeUrl P request.url]

/-- **The requests that are made**, with the addresses asked for so far: the one with
this number, if it comes to that. -/
def hop (request : FetchRequest) : ℕ → Option (FetchRequest × List String)
  | 0 =>
    match refuseUnusableIntegrity (E := E) P request with
    | .error _ => none
    | .ok () => some (request, [normalizeUrl P request.url])
  | k + 1 =>
    match hop request k with
    | none => none
    | some (current, visited) =>
      match round P limit k current visited (once k current) with
      | .done _ => none
      | .next request visited' => some (request, visited')

end Loop

/-! ### What is sent at a hop -/

/-- `with_extra`. -/
def withExtra (headers : HeaderMap) (extra : List (HeaderName × String)) : HeaderMap :=
  extra.foldl (fun out e =>
    match HeaderValue.fromStr e.2 with
    | some value => out.insert e.1 value
    | none => out) headers

/-- `asks_for_encoding`, where `NetConfig::forward_accept_encoding` is this. -/
def asksForEncoding (forwardAcceptEncoding : Bool) (request : FetchRequest) : Bool :=
  forwardAcceptEncoding && request.integrity.isNone

/-- The name the client goes by, unless the request has one. -/
def withUserAgent (userAgent : String) (headers : HeaderMap) : HeaderMap :=
  if headers.containsKey header.userAgent then headers
  else
    match HeaderValue.fromStr userAgent with
    | some value => headers.insert header.userAgent value
    | none => headers

/-- The request's `Accept-Encoding`, if it goes to the origin. -/
def withEncoding (forwardAcceptEncoding : Bool) (request : FetchRequest) (headers : HeaderMap) :
    HeaderMap :=
  if asksForEncoding forwardAcceptEncoding request then headers
  else headers.remove header.acceptEncoding

/-- The fields that `origin_headers` sends. -/
def originHeaders (userAgent : String) (forwardAcceptEncoding : Bool) (request : FetchRequest)
    (extra : List (HeaderName × String)) : HeaderMap :=
  let endToEnd : HeaderMap := ⟨request.headers.fields.filter fun f =>
    !isHopByHop f.1.text (connectionTokens request.headers)⟩
  withEncoding forwardAcceptEncoding request (withUserAgent userAgent (withExtra endToEnd extra))

/-- The fields that `origin_any` has sent over QUIC. -/
def quicHeaders (forwardAcceptEncoding : Bool) (request : FetchRequest)
    (extra : List (HeaderName × String)) : HeaderMap :=
  let headers := withEncoding forwardAcceptEncoding request (withExtra request.headers extra)
  ⟨headers.fields.filter fun f => !(isHopByHop f.1.text [] || f.1 = header.host)⟩

/-- The conditions a stored response is asked about with, if there is one. -/
def conditions (stored : Option StoredMeta) : List (HeaderName × String) :=
  stored.elim [] conditionalHeaders

section Sent

variable {n : HeaderName} {extra : List (HeaderName × String)}

theorem getAll_withExtra (hextra : ∀ e ∈ extra, e.1 ≠ n) (headers : HeaderMap) :
    (withExtra headers extra).getAll n = headers.getAll n := by
  induction extra generalizing headers with
  | nil => rfl
  | cons e extra ih =>
    have hrest : ∀ e' ∈ extra, e'.1 ≠ n := fun e' he' => hextra e' (List.mem_cons_of_mem _ he')
    rw [withExtra, List.foldl_cons, ← withExtra, ih hrest]
    split
    · exact HeaderMap.getAll_insert_of_ne (Ne.symm (hextra e List.mem_cons_self))
    · rfl

theorem getAll_withUserAgent (hn : n ≠ header.userAgent) (userAgent : String)
    (headers : HeaderMap) : (withUserAgent userAgent headers).getAll n = headers.getAll n := by
  rw [withUserAgent]
  split
  · rfl
  · split
    · exact HeaderMap.getAll_insert_of_ne hn
    · rfl

theorem getAll_withEncoding (hn : n ≠ header.acceptEncoding) (forwardAcceptEncoding : Bool)
    (request : FetchRequest) (headers : HeaderMap) :
    (withEncoding forwardAcceptEncoding request headers).getAll n = headers.getAll n := by
  rw [withEncoding]
  split
  · rfl
  · exact HeaderMap.getAll_remove_of_ne hn

theorem fst_of_mem_conditions {stored : Option StoredMeta} {e : HeaderName × String}
    (h : e ∈ conditions stored) : e.1 = header.ifNoneMatch ∨ e.1 = header.ifModifiedSince := by
  rcases stored with _ | metadata
  · exact nomatch h
  · rcases List.mem_append.mp h with h | h
    · obtain ⟨etag, -, rfl⟩ := Option.map_eq_some_iff.mp (Option.mem_toList.mp h)
      exact Or.inl rfl
    · obtain ⟨lm, -, rfl⟩ := Option.map_eq_some_iff.mp (Option.mem_toList.mp h)
      exact Or.inr rfl

/-- **A credential that is sent is the request's.** -/
theorem getAll_ne_nil_of_sent {userAgent : String} {forwardAcceptEncoding : Bool}
    {request : FetchRequest} {stored : Option StoredMeta} (hn : n ∈ sensitive)
    (h : (originHeaders userAgent forwardAcceptEncoding request (conditions stored)).getAll n ≠ [] ∨
      (quicHeaders forwardAcceptEncoding request (conditions stored)).getAll n ≠ []) :
    request.headers.getAll n ≠ [] := by
  have hother : ∀ m ∈ sensitive, m ≠ header.ifNoneMatch ∧ m ≠ header.ifModifiedSince ∧
      m ≠ header.userAgent ∧ m ≠ header.acceptEncoding := by decide
  obtain ⟨hmatch, hsince, hagent, hencoding⟩ := hother n hn
  have hextra : ∀ e ∈ conditions stored, e.1 ≠ n := by
    intro e he
    rcases fst_of_mem_conditions he with he | he
    · rw [he]
      exact Ne.symm hmatch
    · rw [he]
      exact Ne.symm hsince
  intro hnone
  rcases h with h | h
  · refine h ?_
    rw [originHeaders, getAll_withEncoding hencoding, getAll_withUserAgent hagent,
      getAll_withExtra hextra, HeaderMap.getAll_filter fun m =>
        !isHopByHop m.text (connectionTokens request.headers), hnone, ite_self]
  · refine h ?_
    rw [quicHeaders, HeaderMap.getAll_filter fun m =>
        !(isHopByHop m.text [] || decide (m = header.host)), getAll_withEncoding hencoding,
      getAll_withExtra hextra, hnone, ite_self]

end Sent

/-! ### The chain -/

section Chain

variable {P : Platform} {E : Type} {limit : ℕ} {once : ℕ → FetchRequest → Except E FetchResponse}
  {request current : FetchRequest} {visited : List String} {k : ℕ}

/-- **The next request** follows a redirect of the one before, to an address that was
not asked for yet. -/
theorem hop_succ {next' : FetchRequest} {visited' : List String} :
    hop P limit once request (k + 1) = some (next', visited') ↔
      ∃ current visited next status, hop P limit once request k = some (current, visited) ∧
        Leads P limit k current (once k current) next status ∧
          normalizeUrl P (P.showUrl next) ∉ visited ∧ next' = followed P current next status ∧
            visited' = visited ++ [normalizeUrl P (P.showUrl next)] := by
  constructor
  · intro h
    rw [hop] at h
    split at h
    · exact nomatch h
    · rename_i current visited hbefore
      split at h
      · exact nomatch h
      · rename_i request' visited'' hround
        obtain ⟨rfl, rfl⟩ := Prod.mk.inj (Option.some.inj h)
        obtain ⟨next, status, hleads, hnew, rfl, rfl⟩ := of_round_next hround
        exact ⟨current, visited, next, status, hbefore, hleads, hnew, rfl, rfl⟩
  · rintro ⟨current, visited, next, status, hbefore, hleads, hnew, rfl, rfl⟩
    have hround := round_of_leads visited hleads
    rw [if_neg hnew] at hround
    simp only [hop, hbefore, hround]

theorem hop_zero (h : hop P limit once request 0 = some (current, visited)) :
    current = request ∧ visited = [normalizeUrl P request.url] := by
  rw [hop] at h
  split at h
  · exact nomatch h
  · obtain ⟨rfl, rfl⟩ := Prod.mk.inj (Option.some.inj h)
    exact ⟨rfl, rfl⟩

/-- **The loop comes to an end**: what `fetch` answers is what the last pass comes to,
unless it refused to ask at all. -/
theorem fetch_ends (P : Platform) (limit : ℕ) (once : ℕ → FetchRequest → Except E FetchResponse)
    (request : FetchRequest) :
    (∃ error, refuseUnusableIntegrity P request = .error error ∧
      fetch P limit once request = .error error) ∨
    ∃ k current visited, k ≤ limit ∧ hop P limit once request k = some (current, visited) ∧
      round P limit k current visited (once k current) = .done (fetch P limit once request) := by
  have hends : ∀ left k current visited, limit - k = left → k ≤ limit →
      hop P limit once request k = some (current, visited) →
        ∃ j current' visited', j ≤ limit ∧ hop P limit once request j = some (current', visited') ∧
          round P limit j current' visited' (once j current') =
            .done (fetchFrom P limit once k current visited) := by
    intro left
    induction left with
    | zero =>
      intro k current visited hleft hk hhop
      refine ⟨k, current, visited, hk, hhop, ?_⟩
      rw [fetchFrom]
      split
      · rename_i result hround
        exact hround
      · rename_i request' visited' hround
        obtain ⟨next, status, hleads, -⟩ := of_round_next hround
        have hmore := hleads.more
        omega
    | succ left ih =>
      intro k current visited hleft hk hhop
      rw [fetchFrom]
      split
      · rename_i result hround
        exact ⟨k, current, visited, hk, hhop, hround⟩
      · rename_i request' visited' hround
        have hnext : hop P limit once request (k + 1) = some (request', visited') := by
          simp only [hop, hhop, hround]
        exact ih (k + 1) request' visited' (by omega) (by omega) hnext
  rcases hrefuse : refuseUnusableIntegrity (E := E) P request with error | _
  · refine Or.inl ⟨error, rfl, ?_⟩
    rw [fetch, hrefuse]
  · have hfirst : hop P limit once request 0 = some (request, [normalizeUrl P request.url]) := by
      rw [hop, hrefuse]
    have hfetch : fetch P limit once request =
        fetchFrom P limit once 0 request [normalizeUrl P request.url] := by
      rw [fetch, hrefuse]
    rw [hfetch]
    exact Or.inr (hends limit 0 request _ rfl (Nat.zero_le _) hfirst)

/-! ### Credentials -/

theorem originOf_eq_of_sameOrigin {source target : String} (h : sameOrigin P source target = true) :
    originOf P target = originOf P source := by
  rw [sameOrigin] at h
  split at h
  · rename_i a b ha hb
    simp only [Bool.and_eq_true, beq_iff_eq] at h
    rw [originOf, originOf, ha, hb, Option.map_some, Option.map_some, h.1.1, h.1.2, h.2]
  · exact nomatch h

/-- A credential that is kept is kept for one origin. -/
theorem sameOrigin_of_forwarded {headers : HeaderMap} {source target : String} {n : HeaderName}
    (hn : n ∈ sensitive) (h : (forwardableHeaders P headers source target).getAll n ≠ []) :
    headers.getAll n ≠ [] ∧ sameOrigin P source target = true := by
  rw [forwardableHeaders, HeaderMap.getAll_filter fun m =>
    !(sensitive.contains m && !sameOrigin P source target) && !ownOfTarget.contains m,
    List.contains_iff_mem.mpr hn] at h
  split at h
  · rename_i hkept
    rw [Bool.true_and, Bool.not_not, Bool.and_eq_true] at hkept
    exact ⟨h, hkept.1⟩
  · exact absurd rfl h

/-- **Where a credential has got to**, every address on the way had the first one's
origin. -/
theorem origin_of_carried {n : HeaderName} (hn : n ∈ sensitive)
    (h : hop P limit once request k = some (current, visited))
    (hcarried : current.headers.getAll n ≠ []) : ∀ j ≤ k, ∀ earlier w,
      hop P limit once request j = some (earlier, w) →
        originOf P earlier.url = originOf P request.url := by
  induction k generalizing current visited with
  | zero =>
    intro j hj earlier w hearlier
    obtain rfl := Nat.le_zero.mp hj
    rw [(hop_zero hearlier).1]
  | succ k ih =>
    obtain ⟨before, seen, next, status, hbefore, -, -, rfl, -⟩ := hop_succ.mp h
    obtain ⟨hhad, hsame⟩ := sameOrigin_of_forwarded hn hcarried
    intro j hj earlier w hearlier
    rcases Nat.lt_or_eq_of_le hj with hj | rfl
    · exact ih hbefore hhad j (Nat.le_of_lt_succ hj) earlier w hearlier
    · rw [h] at hearlier
      obtain ⟨rfl, -⟩ := Prod.mk.inj (Option.some.inj hearlier)
      exact (originOf_eq_of_sameOrigin hsame).trans (ih hbefore hhad k le_rfl before seen hbefore)

end Chain

/-- **Credentials stay where they were meant for**: what is sent at a hop, whether over
TCP or over QUIC, holds one only if each address from the first to this one has the
scheme, the host and the port of the first. -/
theorem credentials_stay_home {E : Type} (P : Platform) (limit : ℕ)
    (once : ℕ → FetchRequest → Except E FetchResponse) (request current : FetchRequest)
    (visited : List String) (k : ℕ)
    (hhop : hop P limit once request k = some (current, visited)) (n : HeaderName)
    (hn : n ∈ sensitive) (userAgent : String) (forwardAcceptEncoding : Bool)
    (stored : Option StoredMeta)
    (hsent : (originHeaders userAgent forwardAcceptEncoding current (conditions stored)).getAll n ≠
        [] ∨ (quicHeaders forwardAcceptEncoding current (conditions stored)).getAll n ≠ []) :
    ∀ j ≤ k, ∀ earlier w, hop P limit once request j = some (earlier, w) →
      originOf P earlier.url = originOf P request.url :=
  origin_of_carried hn hhop (getAll_ne_nil_of_sent hn hsent)

/-- The URL library, on the addresses of one host, and its paths. -/
def samplePlatform : Platform :=
  { Platform.sample with
    parseUrl := fun s =>
      if s = "http://a.test/x" then some ⟨"http", some "a.test", none, "/x", none⟩
      else if s = "http://a.test/y" then some ⟨"http", some "a.test", none, "/y", none⟩
      else none
    joinUrl := fun base path => some { base with rest := path, fragment := none } }

/-- An answer that redirects to a path, or does not. -/
def sampleAnswer (status : ℕ) (path : String) : FetchResponse where
  status := status
  headers := toHeaderMap [("location", path)]
  body := .bytes []
  source := .origin
  elapsedMs := 0
  content := none
  finalUrl := ""
  redirects := 0
  protocol := .http1

/-- A host that answers `/x` with a redirect, and then is there. -/
def sampleOnce (status : ℕ) (path : String) (k : ℕ) (_ : FetchRequest) : Except Unit FetchResponse :=
  .ok (if k = 0 then sampleAnswer status path else sampleAnswer 200 path)

def sampleRequest (method : String) (headers : HeaderMap) (body : Bytes) : FetchRequest where
  method := method
  url := "http://a.test/x"
  headers := headers
  body := body
  integrity := none
  partition := none
  redirect := .follow

/-- A request with a credential. -/
def sampleSecret : FetchRequest :=
  sampleRequest "GET" (toHeaderMap [("authorization", "Basic YTpi")]) []

theorem credentials_stay_home_sample :
    originOf samplePlatform "http://a.test/y" = originOf samplePlatform sampleSecret.url := by
  have hhop : hop samplePlatform 10 (sampleOnce 302 "/y") sampleSecret 1 =
      some ({ sampleSecret with url := "http://a.test/y" },
        ["http://a.test/x", "http://a.test/y"]) := by decide +kernel
  exact credentials_stay_home samplePlatform 10 (sampleOnce 302 "/y") sampleSecret _ _ 1 hhop
    header.authorization (by decide) "Syndeo" false none (Or.inl (by decide +kernel)) 1 le_rfl
    _ _ hhop

end Redirects

end Syndeo
