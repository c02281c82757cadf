import Syndeo.Concurrent.Events
import Syndeo.Proxy.Credential
import Syndeo.Proxy.Forward
import Syndeo.Proxy.Websocket

/-!
# Who the proxy works for

Any process of the machine can find the proxy's port. What comes to the port answers for
itself: every request to the proxy carries the credential or is asked for it, before anything
else is looked at. What comes through a tunnel does not, as the request that opened it did,
and it goes where that one said.

So whatever comes to the port and through the tunnels, and in whatever order, the proxy
fetches, opens and signs nothing but for a client that had the credential, and the credential
goes no further than the proxy (`Syndeo.Proxy.Gate.gated_of_runs`).
-/

namespace Syndeo.Proxy

open Syndeo.Text

/-! ### A request to the proxy -/

/-- A request to the proxy itself. -/
structure Request where
  /-- Its method is `CONNECT`. -/
  connect : Bool
  uri : Uri
  headers : HeaderMap

/-- What becomes of it: a 407, after which the connection may have to be closed; a refusal; a
tunnel to a host and a port; or what `forward` does. -/
inductive Answer
  | required (close : Bool)
  | badRequest (message : String)
  | loopDetected
  | tunnel (host : List Char) (port : ℕ)
  | forwarded (outcome : Outcome)

/-- `carries_body`. -/
def carriesBody (headers : HeaderMap) : Bool :=
  headers.containsKey header.transferEncoding ||
    (headers.getStr header.contentLength).any fun v => trim v ≠ "0"

/-- `connect`, up to where the tunnel is taken over; `ours` is `targets_this_proxy`. -/
def connect (ours : List Char → ℕ → Bool) (req : Request) : Answer :=
  match req.uri.authority with
  | none => .badRequest "CONNECT needs an authority"
  | some authority =>
    match Uri.portOf authority with
    | none => .badRequest "CONNECT needs a port"
    | some port =>
      if viaNamesUs req.headers || ours (Uri.hostOf authority) port then .loopDetected
      else .tunnel (Uri.hostOf authority) port

/-- `handle`. -/
def handle (auth : Option ProxyAuth) (ours : List Char → ℕ → Bool) (S : Surroundings)
    (req : Request) : Answer :=
  if auth.any fun auth => !auth.admits req.headers then .required (carriesBody req.headers)
  else if req.connect then connect ours req
  else .forwarded (forward S req.uri req.headers none)

/-- `TLS_HANDSHAKE_RECORD`. -/
def tlsHandshakeRecord : UInt8 := 0x16

namespace Gate

open Events

/-- What there is of a tunnel: nothing has come through it yet, or it carries requests, or it
is closed. -/
inductive Stage
  | silent
  | carries (scheme : Scheme)
  | closed
  deriving DecidableEq

/-- A tunnel that was opened. -/
structure OpenTunnel where
  host : List Char
  port : ℕ
  stage : Stage

/-- What happened. -/
inductive Note
  | answered (req : Request) (answer : Answer)
  | opened (tunnel : ℕ) (req : Request) (host : List Char) (port : ℕ)
  | minted (tunnel : ℕ) (host : List Char)
  | inside (tunnel : ℕ) (headers : HeaderMap) (outcome : Outcome)

/-- The proxy, with its tunnels and what happened so far. -/
structure Serving where
  auth : Option ProxyAuth
  ours : List Char → ℕ → Bool
  tunnels : List OpenTunnel
  log : List Note

/-- What can happen. -/
inductive Event
  /-- A request comes to the proxy, over whichever connection. -/
  | request (req : Request) (S : Surroundings)
  /-- The first byte comes through a tunnel, or none does. If it is a handshake, a leaf is
  minted or cannot be, and the client accepts it or does not. -/
  | first (tunnel : ℕ) (byte : Option UInt8) (mints accepts : Bool)
  /-- A request comes through a tunnel. -/
  | through (tunnel : ℕ) (uri : Uri) (headers : HeaderMap) (S : Surroundings)
  /-- A tunnel is closed. -/
  | close (tunnel : ℕ)

namespace Serving

/-- The proxy when it begins to serve. -/
def start (auth : Option ProxyAuth) (ours : List Char → ℕ → Bool) : Serving := ⟨auth, ours, [], []⟩

variable (s : Serving)

def note (n : Note) : Serving := { s with log := s.log ++ [n] }

/-- A tunnel comes to another stage. -/
def become (n : ℕ) (t : OpenTunnel) (stage : Stage) : Serving :=
  { s with tunnels := s.tunnels.set n { t with stage } }

/-- A tunnel is taken over. -/
def takeOver (req : Request) (host : List Char) (port : ℕ) : Serving :=
  { s.note (.opened s.tunnels.length req host port) with
    tunnels := s.tunnels ++ [⟨host, port, .silent⟩] }

/-- A request is answered. -/
def answer (req : Request) (answer : Answer) : Serving :=
  match answer with
  | .tunnel host port => (s.note (.answered req answer)).takeOver req host port
  | _ => s.note (.answered req answer)

/-- The task of a tunnel, on its first byte. -/
def first (n : ℕ) (t : OpenTunnel) (byte : Option UInt8) (mints accepts : Bool) : Serving :=
  match byte with
  | none => s.become n t .closed
  | some byte =>
    if byte = tlsHandshakeRecord then
      if mints then
        (s.note (.minted n t.host)).become n t (if accepts then .carries .https else .closed)
      else s.become n t .closed
    else s.become n t (.carries .http)

/-- What an event does. -/
def after : Event → Option Serving
  | .request req S => some (s.answer req (handle s.auth s.ours S req))
  | .first n byte mints accepts =>
    match s.tunnels[n]? with
    | some ⟨host, port, .silent⟩ => some (s.first n ⟨host, port, .silent⟩ byte mints accepts)
    | _ => none
  | .through n uri headers S =>
    match s.tunnels[n]? with
    | some ⟨host, port, .carries scheme⟩ =>
      some (s.note (.inside n headers
        (forward S uri headers (some (tunnelOrigin scheme host port)))))
    | _ => none
  | .close n => s.tunnels[n]?.map fun t => s.become n t .closed

end Serving

/-- **One event.** -/
abbrev Step : Serving → Event → Serving → Prop := stepOf (fun _ _ => True) Serving.after

/-! ### What it is held to -/

/-- **Nothing is said of the credential** to where a request is sent on, by a fetch or by a
WebSocket. -/
def KeepsCredential (headers : HeaderMap) (outcome : Outcome) : Prop :=
  (∀ url sent, outcome = .fetch url sent → sent.getAll header.proxyAuthorization = []) ∧
    ∀ url, outcome = .webSocket url → ∀ parse handshake,
      openRequest parse url headers = .ok handshake →
        handshake.headers.getAll header.proxyAuthorization = []

/-- **A request is sent to this origin**, if it is sent anywhere. -/
def StaysAt (origin : List Char) (outcome : Outcome) : Prop :=
  ∀ url, (outcome = .webSocket url ∨ ∃ sent, outcome = .fetch url sent) → origin <+: url

/-- **A tunnel was opened** to this host and port, for a request that was admitted. -/
def OpenedFor (auth : ProxyAuth) (before : List Note) (n : ℕ) (host : List Char) (port : ℕ) :
    Prop :=
  ∃ req, .opened n req host port ∈ before ∧ auth.admits req.headers = true ∧
    ∃ authority, req.uri.authority = some authority ∧ host = Uri.hostOf authority ∧
      Uri.portOf authority = some port

/-- What happens, happens for a client that has the credential. -/
def Gated (auth : ProxyAuth) (before : List Note) : Note → Prop
  | .answered req answer =>
    (auth.admits req.headers = true ∨ answer = .required (carriesBody req.headers)) ∧
      ∀ outcome, answer = .forwarded outcome → KeepsCredential req.headers outcome
  | .opened n req host port => .answered req (.tunnel host port) ∈ before ∧
      ∀ req' host' port', .opened n req' host' port' ∉ before
  | .minted n host => ∃ port, OpenedFor auth before n host port
  | .inside n headers outcome => KeepsCredential headers outcome ∧
      ∃ host port scheme, OpenedFor auth before n host port ∧
        (scheme = .https → .minted n host ∈ before) ∧
        StaysAt (tunnelOrigin scheme host port) outcome

/-- **The invariant**, of a proxy with a credential. -/
structure Sound (auth : ProxyAuth) (s : Serving) : Prop where
  serves : s.auth = some auth
  gated : EachAfter (Gated auth) s.log
  tunnels : ∀ n t, s.tunnels[n]? = some t → OpenedFor auth s.log n t.host t.port ∧
    (t.stage = .carries .https → .minted n t.host ∈ s.log)
  numbers : ∀ n req host port, .opened n req host port ∈ s.log → n < s.tunnels.length

/-! ### What is sent on -/

theorem hopByHop_proxyAuthorization (tokens : List String) :
    isHopByHop header.proxyAuthorization.text tokens = true :=
  Bool.or_eq_true_iff.mpr (Or.inl (by decide))

theorem getAll_proxyAuthorization_sentHeaders (headers : HeaderMap) :
    (sentHeaders headers).getAll header.proxyAuthorization = [] := by
  have hkept := HeaderMap.getAll_filter (h := headers) (n := header.proxyAuthorization) fun n =>
    !(decide (n = header.host) || isHopByHop n.text (connectionTokens headers))
  rw [sentHeaders, appendOurVia, HeaderMap.getAll_insert_of_ne (by decide), forwardable, hkept,
    hopByHop_proxyAuthorization, Bool.or_true]
  rfl

/-- What is sent on goes to the request's URL, and as it may be sent on. -/
theorem forward_spec {S : Surroundings} {uri : Uri} {headers : HeaderMap}
    {origin : Option (List Char)} {url : List Char} :
    (forward S uri headers origin = .webSocket url →
        targetUrl S.accepts uri headers origin = .ok url) ∧
      ∀ sent, forward S uri headers origin = .fetch url sent →
        targetUrl S.accepts uri headers origin = .ok url ∧ sent = sentHeaders headers := by
  cases htarget : targetUrl S.accepts uri headers origin with
  | error refusal =>
    simp only [forward, htarget]
    split_ifs <;> simp
  | ok target =>
    simp only [forward, htarget]
    split_ifs <;> simp +contextual

theorem keepsCredential_forward (S : Surroundings) (uri : Uri) (headers : HeaderMap)
    (origin : Option (List Char)) : KeepsCredential headers (forward S uri headers origin) := by
  constructor
  · intro url sent h
    rw [(forward_spec.2 sent h).2]
    exact getAll_proxyAuthorization_sentHeaders headers
  · intro url _ parse handshake h
    obtain ⟨-, -, uri, authority, hostHeader, -, -, -, hsent⟩ := openRequest_eq_ok h
    rw [hsent, getAll_sent (by decide) (by decide) (by decide) (by decide),
      if_pos (hopByHop_proxyAuthorization _)]

theorem staysAt_forward (S : Surroundings) (uri : Uri) (headers : HeaderMap)
    (origin : List Char) : StaysAt origin (forward S uri headers (some origin)) := by
  intro url h
  have htarget : targetUrl S.accepts uri headers (some origin) = .ok url := by
    rcases h with h | ⟨sent, h⟩
    · exact forward_spec.1 h
    · exact (forward_spec.2 sent h).1
  rw [targetUrl] at htarget
  split_ifs at htarget
  obtain rfl := Except.ok.inj htarget
  exact List.prefix_append _ _

/-! ### One request -/

/-- **What is not asked for the credential had it**, and a tunnel is where the request said. -/
theorem handle_spec {auth : ProxyAuth} {ours : List Char → ℕ → Bool} {S : Surroundings}
    {req : Request} :
    (auth.admits req.headers = true ∨
        handle (some auth) ours S req = .required (carriesBody req.headers)) ∧
      (∀ outcome, handle (some auth) ours S req = .forwarded outcome →
        KeepsCredential req.headers outcome) ∧
      ∀ host port, handle (some auth) ours S req = .tunnel host port →
        auth.admits req.headers = true ∧ ∃ authority, req.uri.authority = some authority ∧
          host = Uri.hostOf authority ∧ Uri.portOf authority = some port := by
  rw [handle, Option.any_some]
  cases hadmits : auth.admits req.headers with
  | false => simp
  | true =>
    rw [Bool.not_true, if_neg Bool.false_ne_true]
    refine ⟨.inl rfl, fun outcome h => ?_, fun host port h => ⟨rfl, ?_⟩⟩
    · split_ifs at h
      · rw [connect] at h
        split at h
        · cases h
        · split at h
          · cases h
          · split_ifs at h
      · cases h
        exact keepsCredential_forward _ _ _ _
    · split_ifs at h
      rw [connect] at h
      split at h
      · cases h
      · rename_i authority hauthority
        split at h
        · cases h
        · rename_i port' hport
          split_ifs at h
          cases h
          exact ⟨authority, hauthority, rfl, hport⟩

/-! ### One event -/

theorem OpenedFor.concat {auth : ProxyAuth} {before : List Note} {n port : ℕ} {host : List Char}
    (h : OpenedFor auth before n host port) (e : Note) :
    OpenedFor auth (before ++ [e]) n host port := by
  obtain ⟨req, hopened, hrest⟩ := h
  exact ⟨req, List.mem_append_left _ hopened, hrest⟩

namespace Sound

variable {auth : ProxyAuth} {s s' : Serving}

theorem start (auth : ProxyAuth) (ours : List Char → ℕ → Bool) :
    Sound auth (.start (some auth) ours) :=
  ⟨rfl, eachAfter_nil, fun n t h => by simp [Serving.start] at h, fun n req host port h => by
    simp [Serving.start] at h⟩

/-- Something happened that opens no tunnel. -/
theorem note {e : Note} (h : Sound auth s) (he : Gated auth s.log e)
    (hopens : ∀ n req host port, e ≠ .opened n req host port) : Sound auth (s.note e) := by
  refine ⟨h.serves, eachAfter_concat.mpr ⟨h.gated, he⟩, fun n t ht => ?_,
    fun n req host port hmem => ?_⟩
  · obtain ⟨hopened, hminted⟩ := h.tunnels n t ht
    exact ⟨hopened.concat e, fun hstage => List.mem_append_left _ (hminted hstage)⟩
  · rcases List.mem_append.mp hmem with hmem | hmem
    · exact h.numbers n req host port hmem
    · exact absurd (List.mem_singleton.mp hmem).symm (hopens n req host port)

/-- A tunnel comes to another stage. -/
theorem become {n : ℕ} {t : OpenTunnel} {stage : Stage} (h : Sound auth s)
    (ht : s.tunnels[n]? = some t)
    (hminted : stage = .carries .https → .minted n t.host ∈ s.log) :
    Sound auth (s.become n t stage) := by
  refine ⟨h.serves, h.gated, fun m u hu => ?_, fun m req host port hmem => ?_⟩
  · rcases eq_or_ne n m with rfl | hne
    · have hlt : n < s.tunnels.length := (List.getElem?_eq_some_iff.mp ht).1
      rw [Serving.become, List.getElem?_set_self hlt] at hu
      obtain rfl := Option.some.inj hu
      exact ⟨(h.tunnels n t ht).1, hminted⟩
    · rw [Serving.become, List.getElem?_set_ne hne] at hu
      exact h.tunnels m u hu
  · rw [Serving.become, List.length_set]
    exact h.numbers m req host port hmem

/-- A tunnel is taken over, for a request that was admitted. -/
theorem takeOver {req : Request} {host : List Char} {port : ℕ} (h : Sound auth s)
    (hanswered : .answered req (.tunnel host port) ∈ s.log)
    (hadmitted : auth.admits req.headers = true)
    (hauthority : ∃ authority, req.uri.authority = some authority ∧
      host = Uri.hostOf authority ∧ Uri.portOf authority = some port) :
    Sound auth (s.takeOver req host port) := by
  have hopened : OpenedFor auth (s.takeOver req host port).log s.tunnels.length host port :=
    ⟨req, List.mem_append_right _ (List.mem_singleton.mpr rfl), hadmitted, hauthority⟩
  refine ⟨h.serves, eachAfter_concat.mpr ⟨h.gated, hanswered, fun req' host' port' hmem => ?_⟩,
    fun n t ht => ?_, fun n req' host' port' hmem => ?_⟩
  · exact lt_irrefl _ (h.numbers _ _ _ _ hmem)
  · rw [Serving.takeOver] at ht
    rcases Nat.lt_or_ge n s.tunnels.length with hlt | hge
    · rw [List.getElem?_append_left hlt] at ht
      obtain ⟨hearlier, hminted⟩ := h.tunnels n t ht
      exact ⟨hearlier.concat _, fun hstage => List.mem_append_left _ (hminted hstage)⟩
    · rw [List.getElem?_append_right hge, List.getElem?_singleton] at ht
      split_ifs at ht with hzero
      obtain rfl := Option.some.inj ht
      obtain rfl : n = s.tunnels.length := by omega
      exact ⟨hopened, fun hstage => by cases hstage⟩
  · rw [Serving.takeOver, List.length_append, List.length_singleton]
    rcases List.mem_append.mp hmem with hmem | hmem
    · exact Nat.lt_succ_of_lt (h.numbers n req' host' port' hmem)
    · cases List.mem_singleton.mp hmem
      exact Nat.lt_succ_self _

/-- **A request is answered.** -/
theorem answer (h : Sound auth s) (S : Surroundings) (req : Request) :
    Sound auth (s.answer req (handle s.auth s.ours S req)) := by
  rw [h.serves]
  obtain ⟨hadmits, hkeeps, htunnel⟩ := @handle_spec auth s.ours S req
  generalize handle (some auth) s.ours S req = answer at hadmits hkeeps htunnel
  have hnoted : Sound auth (s.note (.answered req answer)) :=
    h.note ⟨hadmits, hkeeps⟩ fun n req host port => by simp
  cases answer with
  | tunnel host port =>
    obtain ⟨hadmitted, hauthority⟩ := htunnel host port rfl
    exact hnoted.takeOver (List.mem_append_right _ (List.mem_singleton.mpr rfl)) hadmitted
      hauthority
  | required close => exact hnoted
  | badRequest message => exact hnoted
  | loopDetected => exact hnoted
  | forwarded outcome => exact hnoted

/-- **The first byte comes through a tunnel.** -/
theorem first {n : ℕ} {t : OpenTunnel} (h : Sound auth s) (ht : s.tunnels[n]? = some t)
    (byte : Option UInt8) (mints accepts : Bool) : Sound auth (s.first n t byte mints accepts) := by
  cases byte with
  | none => exact h.become ht fun hstage => by cases hstage
  | some byte =>
    have hminted : Sound auth (s.note (.minted n t.host)) :=
      h.note ⟨t.port, (h.tunnels n t ht).1⟩ fun n req host port => by simp
    rw [Serving.first]
    split_ifs
    · exact hminted.become ht fun _ => List.mem_append_right _ (List.mem_singleton.mpr rfl)
    · exact hminted.become ht fun hstage => by cases hstage
    · exact h.become ht fun hstage => by cases hstage
    · exact h.become ht fun hstage => by cases hstage

/-- **A step keeps the invariant.** -/
theorem step {e : Event} (h : Sound auth s) (hstep : Step s e s') : Sound auth s' := by
  obtain ⟨-, hstep⟩ := hstep
  cases e with
  | request req S =>
    obtain rfl := Option.some.inj hstep
    exact h.answer S req
  | first n byte mints accepts =>
    rw [Serving.after] at hstep
    split at hstep
    · rename_i host port ht
      obtain rfl := Option.some.inj hstep
      exact h.first ht byte mints accepts
    · cases hstep
  | through n uri headers S =>
    rw [Serving.after] at hstep
    split at hstep
    · rename_i host port scheme ht
      obtain rfl := Option.some.inj hstep
      obtain ⟨hopened, hminted⟩ := h.tunnels n _ ht
      refine h.note ⟨keepsCredential_forward _ _ _ _, host, port, scheme, hopened, ?_, ?_⟩
        fun n req host port => by simp
      · rintro rfl
        exact hminted rfl
      · exact staysAt_forward _ _ _ _
    · cases hstep
  | close n =>
    obtain ⟨t, ht, rfl⟩ := Option.map_eq_some_iff.mp hstep
    exact h.become ht fun hstage => by cases hstage

end Sound

/-- The value a client presents that has the token. -/
def presented : HeaderValue where
  bytes := (ProxyAuth.forToken Base64Bytes.encode sampleToken).expected
  ok := by decide +kernel

/-- A request for a tunnel, with these fields. -/
def tunnelRequest (fields : List (HeaderName × HeaderValue)) : Request :=
  ⟨true, ⟨none, some "example.com:443".toList, []⟩, ⟨fields⟩⟩

/-- A client is asked for the credential and presents it, and fetches a page. -/
def onePage : List Event :=
  [.request (tunnelRequest []) openRoad,
    .request (tunnelRequest [(header.proxyAuthorization, presented)]) openRoad,
    .first 0 (some tlsHandshakeRecord) true true,
    .through 0 ⟨none, none, "/".toList⟩ ⟨[(header.proxyAuthorization, presented)]⟩ openRoad]

/-- The page is fetched, without the credential. -/
def pageFetched (s : Serving) : Bool :=
  s.log.length = 5 && s.log.getLast?.any fun e => match e with
    | .inside 0 _ (.fetch url sent) =>
      url = "https://example.com/".toList && sent.getAll header.proxyAuthorization = []
    | _ => false

end Gate

end Syndeo.Proxy
