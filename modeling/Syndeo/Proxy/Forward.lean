import Syndeo.Proxy.Via
import Syndeo.Proxy.Target

/-!
# Forwarding a request

A request is refused, answered by the proxy itself, or sent on: to the URL
`Syndeo.Proxy.targetUrl` gives it, with the fields that may be sent on and the
proxy's own `Via` entry.

A loop is broken by the first thing that happens to a request. It comes back
through any number of others, and what they keep of the `Via` field that was sent
is its beginning: theirs goes behind it (`Syndeo.Proxy.Returned`).
-/

namespace Syndeo.Proxy

/-! ### A request -/

/-- What a request meets besides its own text. -/
structure Surroundings where
  /-- The texts `http::Uri` takes. -/
  accepts : List Char → Bool
  /-- `stats::intercept` has an answer. -/
  intercepts : List Char → Bool
  /-- `url_targets_this_proxy`. -/
  targetsThisProxy : List Char → Bool
  /-- `websocket::upgrading` finds a handshake. -/
  upgrades : HeaderMap → Bool
  /-- The request body is read whole. -/
  bodyRead : Bool

/-- What becomes of a request. -/
inductive Outcome
  | loopDetected
  | badRequest (message : String)
  | statistics
  | webSocket (url : List Char)
  | bodyRefused
  | fetch (url : List Char) (headers : HeaderMap)

/-- The fields a request is sent on with. -/
def sentHeaders (headers : HeaderMap) : HeaderMap := appendOurVia (forwardable headers)

/-- `forward`. -/
def forward (S : Surroundings) (uri : Uri) (headers : HeaderMap) (origin : Option (List Char)) :
    Outcome :=
  if viaNamesUs headers then .loopDetected
  else
    match targetUrl S.accepts uri headers origin with
    | .error refusal => .badRequest refusal
    | .ok url =>
      if S.intercepts url then .statistics
      else if origin.isNone && uri.authority.isNone then
        .badRequest
          "this is a proxy: configure it as one rather than requesting from it directly"
      else if S.targetsThisProxy url then .loopDetected
      else if S.upgrades headers then .webSocket url
      else if S.bodyRead then .fetch url (sentHeaders headers)
      else .bodyRefused

/-- **A request is refused as a loop**, whatever name it reached the proxy by. -/
def RefusedAsLoop (headers : HeaderMap) : Prop :=
  ∀ S uri origin, forward S uri headers origin = .loopDetected

/-- Surroundings in which nothing stands in a request's way. -/
def openRoad : Surroundings where
  accepts := fun _ => true
  intercepts := fun _ => false
  targetsThisProxy := fun _ => false
  upgrades := fun _ => false
  bodyRead := true

/-- A request in proxy form. -/
def proxyForm : Uri := ⟨some "http".toList, some "a.test".toList, []⟩

theorem refusedAsLoop_iff {headers : HeaderMap} :
    RefusedAsLoop headers ↔ viaNamesUs headers = true := by
  constructor
  · intro h
    by_contra hvia
    have hforward := h openRoad proxyForm none
    rw [forward, if_neg hvia] at hforward
    exact nomatch hforward
  · intro hvia S uri origin
    rw [forward, if_pos hvia]

/-! ### A loop -/

/-- The `Via` values that are sent on. -/
def forwardedVia (headers : HeaderMap) : List HeaderValue :=
  (forwardable headers).getAll header.via

/-- **The field that is sent begins with the earlier values**, one after the other. -/
def BeginsWithEarlier (earlier : List HeaderValue) (sent : HeaderMap) : Prop :=
  ∃ v, sent.getAll header.via = [v] ∧ joined earlier <+: v.bytes

/-- **A request that came back**: the first of its `Via` values begins with the
field that was sent, and what is behind it follows as more entries. -/
structure Returned (headers : HeaderMap) where
  back : HeaderMap
  first : HeaderValue
  others : List HeaderValue
  later : List UInt8
  follows : Follows (chars later)
  via_eq : back.getAll header.via = first :: others
  kept : ∃ v, (sentHeaders headers).getAll header.via = [v] ∧ first.bytes = v.bytes ++ later

/-- The earlier values are all sent on, or what is left of the field looks as though
they were. -/
def SendsEarlier (headers : HeaderMap) : Prop :=
  (connectionTokens headers).contains "via" = false ∨
    joined (headers.getAll header.via) <+: ascii "1.1 syndeo"

section Loop

variable {headers : HeaderMap}

theorem getAll_sentHeaders :
    (sentHeaders headers).getAll header.via = [sentVia (forwardedVia headers)] :=
  getAll_appendOurVia (forwardable headers)

theorem forwardedVia_eq : forwardedVia headers =
    if (connectionTokens headers).contains "via" then [] else headers.getAll header.via :=
  getAll_forwardable headers

/-- What is sent begins with what was sent on of the earlier values. -/
theorem joined_isPrefix (values : List HeaderValue) : joined values <+: ourVia values := by
  rw [ourVia_eq]
  split
  · rename_i h
    rw [h]
    exact List.nil_prefix
  · rw [List.append_assoc]
    exact List.prefix_append _ _

theorem beginsWithEarlier_iff :
    BeginsWithEarlier (headers.getAll header.via) (sentHeaders headers) ↔ SendsEarlier headers := by
  have hsent : BeginsWithEarlier (headers.getAll header.via) (sentHeaders headers) ↔
      joined (headers.getAll header.via) <+: ourVia (forwardedVia headers) := by
    rw [BeginsWithEarlier, getAll_sentHeaders]
    constructor
    · rintro ⟨v, hv, h⟩
      obtain rfl := (List.cons.inj hv).1
      exact h
    · exact fun h => ⟨_, rfl, h⟩
  rw [hsent, forwardedVia_eq, SendsEarlier]
  split
  · rename_i hvia
    rw [hvia]
    exact ⟨Or.inr, fun h => h.resolve_left Bool.noConfusion⟩
  · rename_i hvia
    exact ⟨fun _ => Or.inl (Bool.not_eq_true _ ▸ hvia), fun _ => joined_isPrefix _⟩

/-- Our entry in what is sent. -/
theorem viaNamesUs_sentHeaders :
    viaNamesUs (sentHeaders headers) = true ↔ Readable (forwardedVia headers) [] := by
  have hfollows : Follows (chars []) := ⟨[], [], rfl, nofun, Or.inl rfl⟩
  rw [viaNamesUs, getAll_sentHeaders, List.any_cons, List.any_nil, Bool.or_false]
  exact valueNamesUs_behind hfollows (List.append_nil _).symm

/-- And in what comes back. -/
theorem viaNamesUs_back (r : Returned headers) :
    viaNamesUs r.back = true ↔
      Readable (forwardedVia headers) r.later ∨ r.others.any valueNamesUs = true := by
  obtain ⟨v, hv, hfirst⟩ := r.kept
  rw [getAll_sentHeaders] at hv
  obtain rfl := (List.cons.inj hv).1
  rw [viaNamesUs, r.via_eq, List.any_cons, Bool.or_eq_true, valueNamesUs_behind r.follows hfirst]

end Loop

/-- **When a loop is found**: for every request, the field that is sent begins with the
earlier values and names us exactly where the earlier values are sent on and the scanner
gets to our entry; and a request that comes back is refused exactly where the scanner
still does, behind what the others added, or another of its values names us. -/
theorem loop_found_iff (headers : HeaderMap) :
    (BeginsWithEarlier (headers.getAll header.via) (sentHeaders headers) ∧
        viaNamesUs (sentHeaders headers) = true ↔
      SendsEarlier headers ∧ Readable (forwardedVia headers) []) ∧
    ∀ r : Returned headers, RefusedAsLoop r.back ↔
      Readable (forwardedVia headers) r.later ∨ r.others.any valueNamesUs = true :=
  ⟨and_congr beginsWithEarlier_iff viaNamesUs_sentHeaders,
    fun r => refusedAsLoop_iff.trans (viaNamesUs_back r)⟩

/-- A request whose one `Via` value opens a comment. -/
def openComment : HeaderMap := ⟨[(header.via, ⟨ascii "1.1 a (", by decide⟩)]⟩

/-- **A comment that is never closed hides our entry**: the request is sent on, and
sent on again when it comes back as it was. -/
theorem openComment_not_found :
    viaNamesUs (sentHeaders openComment) = false ∧ ¬RefusedAsLoop (sentHeaders openComment) := by
  have hvia : viaNamesUs (sentHeaders openComment) = false := by decide
  refine ⟨hvia, fun h => ?_⟩
  have hforward := h openRoad proxyForm none
  rw [forward, hvia] at hforward
  exact nomatch hforward

end Syndeo.Proxy
