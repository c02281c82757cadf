import Syndeo.Http.Uri
import Syndeo.Ipc.Base64
import Syndeo.Proxy.Via

/-!
# WebSockets through the proxy

A WebSocket is opened by a request that asks to switch protocols, and the fields
that ask are the connection's own. The proxy reads them,
`Syndeo.Proxy.upgrading`, takes them out with everything else that is the
connection's, `Syndeo.Proxy.forwardable`, and says them again itself,
`Syndeo.Proxy.openRequest`. The answer goes back the same way: it is read by
`Syndeo.Proxy.switched`, and handed on by `Syndeo.Proxy.relayed`.

What is the connection's is for the sender to say, in `Connection`. The fields
are read as they came, and the ones `Connection` names are taken out afterwards,
so the key that was read need not be there when the request leaves
(`Syndeo.Proxy.opens_openRequest_iff`), nor the value that accepts it when the
answer does (`Syndeo.Proxy.switches_handedOn_iff`).
-/

namespace Syndeo.Proxy

open Syndeo.Text

/-! ### The handshake -/

/-- `http::Version`. -/
inductive Version
  | http09
  | http10
  | http11
  | http2
  | http3
  deriving DecidableEq, Repr

/-- The `base64` engine `STANDARD`, and `Sha1`. -/
structure Suite where
  decode : String → Option Bytes
  encode : Bytes → String
  sha1 : Bytes → Bytes

/-- `Upgrading`. -/
inductive Upgrading
  | no
  | webSocket (key : String)
  | refused (why : String)
  deriving DecidableEq, Repr

/-- A value of `Upgrade` that names WebSocket, among others. -/
def namesWebsocket (value : HeaderValue) : Bool :=
  value.toStr.any fun v => (v.toList.splitOn ',').any fun token =>
    eqIgnoreAsciiCase (String.ofList (trimChars token)) "websocket"

/-- A value that says `websocket` and nothing else. -/
def saysWebsocket (value : HeaderValue) : Bool :=
  value.toStr.any fun v => eqIgnoreAsciiCase (String.ofList (trimChars v.toList)) "websocket"

/-- Exactly one key, of 16 bytes. -/
def handshakeKey (S : Suite) : List HeaderValue → Option String
  | [one] => (one.toStr.map fun v => String.ofList (trimChars v.toList)).filter fun key =>
    (S.decode key).any fun bytes => bytes.length = 16
  | _ => none

/-- Exactly one value, which is text and is this one. -/
def saysExactly (text : String) : List HeaderValue → Bool
  | [one] => one.toStr.any fun v => String.ofList (trimChars v.toList) = text
  | _ => false

/-- A length that is not zero. -/
def declaresBody (value : HeaderValue) : Bool :=
  value.toStr.elim true fun len => String.ofList (trimChars len.toList) ≠ "0"

/-- `upgrading`. -/
def upgrading (S : Suite) (method : String) (version : Version) (headers : HeaderMap) : Upgrading :=
  let upgrades := headers.getAll header.upgrade
  if !upgrades.any namesWebsocket then .no
  else
    match upgrades with
    | [upgrade] =>
      if !saysWebsocket upgrade then .refused "an Upgrade that names more than WebSocket"
      else if method ≠ "GET" then .refused "a WebSocket handshake is a GET"
      else if version ≠ .http11 then .refused "a WebSocket handshake is HTTP/1.1"
      else if !(connectionTokens headers).contains "upgrade" then
        .refused "a Connection that does not name Upgrade"
      else
        match handshakeKey S (headers.getAll header.secWebsocketKey) with
        | none => .refused "not exactly one Sec-WebSocket-Key of 16 bytes"
        | some key =>
          if !saysExactly "13" (headers.getAll header.secWebsocketVersion) then
            .refused "not exactly Sec-WebSocket-Version 13"
          else if headers.containsKey header.transferEncoding ||
              (headers.getAll header.contentLength).any declaresBody then
            .refused "a WebSocket handshake with a body"
          else .webSocket key
    | _ => .refused "more than one Upgrade field"

/-- `GUID`. -/
def guid : String := "258EAFA5-E914-47DA-95CA-C5AB0DC85B11"

/-- `accept`. -/
def accept (S : Suite) (key : String) : String := S.encode (S.sha1 (utf8 key ++ utf8 guid))

/-- `switched`. -/
def switched (S : Suite) (headers : HeaderMap) (key : String) : Except String Unit :=
  if !(match headers.getAll header.upgrade with
      | [one] => saysWebsocket one
      | _ => false) then
    .error "its 101 does not say Upgrade: websocket"
  else if !(connectionTokens headers).contains "upgrade" then
    .error "its 101 does not say Connection: Upgrade"
  else if !saysExactly (accept S key) (headers.getAll header.secWebsocketAccept) then
    .error "its 101 does not accept this handshake's key"
  else .ok ()

/-! ### The two sides of it -/

/-- `HeaderValue::from_static("websocket")`. -/
def websocketValue : HeaderValue := ⟨ascii "websocket", by decide⟩

/-- `HeaderValue::from_static("Upgrade")`. -/
def upgradeValue : HeaderValue := ⟨ascii "Upgrade", by decide⟩

/-- The two fields an upgrade needs, said by the proxy. -/
def sayUpgrade (headers : HeaderMap) : HeaderMap :=
  (headers.insert header.upgrade websocketValue).insert header.connection upgradeValue

/-- What goes on to the origin. -/
structure Handshake where
  secure : Bool
  host : List Char
  port : ℕ
  target : List Char
  method : String
  version : Version
  headers : HeaderMap
  deriving DecidableEq

/-- `open`, up to where the origin is reached. -/
def openRequest (parse : List Char → Option Uri) (url : List Char) (headers : HeaderMap) :
    Except String Handshake :=
  match parse url with
  | none => .error "a WebSocket address that cannot be read"
  | some uri =>
    let secure : Option Bool :=
      match uri.scheme.map fun s => toAsciiLowercase (String.ofList s) with
      | some "https" | some "wss" => some true
      | some "http" | some "ws" => some false
      | _ => none
    match secure with
    | none => .error "a WebSocket address under a scheme this proxy does not carry"
    | some secure =>
      match uri.host, uri.authority with
      | some host, some authority =>
        match HeaderValue.fromStr (String.ofList authority) with
        | none => .error "a WebSocket address with no host"
        | some hostHeader => .ok {
            secure
            host
            port := uri.port.getD (if secure then 443 else 80)
            target := uri.pathText
            method := "GET"
            version := .http11
            headers := sayUpgrade ((appendOurVia (forwardable headers)).insert header.host hostHeader) }
      | _, _ => .error "a WebSocket address with no host"

/-- `end_to_end`. -/
def endToEnd (headers : HeaderMap) : HeaderMap :=
  ⟨headers.fields.filter fun f =>
    !(isHopByHop f.1.text (connectionTokens headers) || f.1 = header.contentLength)⟩

/-- What the client is given of an origin's answer: an answer of its own, the
answer as it is, or the switch. -/
inductive Relayed
  | text (status : ℕ) (message : String)
  | ordinary (status : ℕ) (headers : HeaderMap)
  | switching (headers : HeaderMap)
  deriving DecidableEq

/-- `open`, once the origin has answered. -/
def relayed (S : Suite) (status : ℕ) (headers : HeaderMap) (key : String) : Relayed :=
  if status ≠ 101 then .ordinary status (endToEnd headers)
  else
    match switched S headers key with
    | .error why =>
      .text 502 ("this WebSocket's origin did not complete the handshake: " ++ why)
    | .ok () => .switching (sayUpgrade (endToEnd headers))

/-! ### What a handshake is -/

/-- **A well-formed handshake**, with its key. -/
structure Opens (S : Suite) (method : String) (version : Version) (headers : HeaderMap)
    (key : String) : Prop where
  upgrade : ∃ value, headers.getAll header.upgrade = [value] ∧ namesWebsocket value = true ∧
    saysWebsocket value = true
  method : method = "GET"
  version : version = .http11
  connection : (connectionTokens headers).contains "upgrade" = true
  key : handshakeKey S (headers.getAll header.secWebsocketKey) = some key
  thirteen : saysExactly "13" (headers.getAll header.secWebsocketVersion) = true
  chunked : headers.getAll header.transferEncoding = []
  length : (headers.getAll header.contentLength).any declaresBody = false

/-- **A switch** that accepts a key. -/
structure Switches (S : Suite) (headers : HeaderMap) (key : String) : Prop where
  upgrade : ∃ value, headers.getAll header.upgrade = [value] ∧ saysWebsocket value = true
  connection : (connectionTokens headers).contains "upgrade" = true
  accept : saysExactly (accept S key) (headers.getAll header.secWebsocketAccept) = true

section Reading

variable {S : Suite} {method : String} {version : Version} {headers : HeaderMap} {key : String}

theorem upgrading_eq_webSocket_iff :
    upgrading S method version headers = .webSocket key ↔ Opens S method version headers key := by
  constructor
  · intro h
    rw [upgrading] at h
    split at h
    · exact nomatch h
    rename_i hnames
    split at h
    · rename_i value hvalue
      split at h
      · exact nomatch h
      rename_i hsays
      split at h
      · exact nomatch h
      rename_i hmethod
      split at h
      · exact nomatch h
      rename_i hversion
      split at h
      · exact nomatch h
      rename_i hconnection
      split at h
      · exact nomatch h
      · rename_i k hkey
        split_ifs at h with hthirteen hbody
        obtain rfl := Upgrading.webSocket.inj h
        rw [Bool.or_eq_true, not_or, Bool.not_eq_true, Bool.not_eq_true,
          HeaderMap.containsKey_eq_false_iff] at hbody
        rw [hvalue] at hnames
        exact {
          upgrade := ⟨value, hvalue, by simpa using hnames, by simpa using hsays⟩
          method := not_not.mp hmethod
          version := not_not.mp hversion
          connection := by simpa using hconnection
          key := hkey
          thirteen := by simpa using hthirteen
          chunked := hbody.1
          length := hbody.2 }
    · exact nomatch h
  · rintro ⟨⟨value, hvalue, hnames, hsays⟩, rfl, rfl, hconnection, hkey, hthirteen, hchunked,
      hlength⟩
    have hkeyed : headers.containsKey header.transferEncoding = false :=
      HeaderMap.containsKey_eq_false_iff.mpr hchunked
    simp only [upgrading, hvalue, List.any_cons, List.any_nil, hnames, hsays, hconnection, hkey,
      hthirteen, hkeyed, hlength]
    rfl

theorem switched_eq_ok_iff : switched S headers key = .ok () ↔ Switches S headers key := by
  constructor
  · intro h
    rw [switched] at h
    split_ifs at h with hsays hconnection haccept
    have hupgrade : ∃ value, headers.getAll header.upgrade = [value] ∧
        saysWebsocket value = true := by
      split at hsays
      · exact ⟨_, ‹_›, by simpa using hsays⟩
      · exact absurd rfl hsays
    exact ⟨hupgrade, by simpa using hconnection, by simpa using haccept⟩
  · rintro ⟨⟨value, hvalue, hsays⟩, hconnection, haccept⟩
    simp only [switched, hvalue, hsays, hconnection, haccept]
    rfl

end Reading

/-! ### What is said again -/

section Said

variable {headers : HeaderMap} {n : HeaderName}

theorem getAll_upgrade_sayUpgrade :
    (sayUpgrade headers).getAll header.upgrade = [websocketValue] := by
  rw [sayUpgrade, HeaderMap.getAll_insert_of_ne (by decide), HeaderMap.getAll_insert_self]

theorem connectionTokens_sayUpgrade : connectionTokens (sayUpgrade headers) = ["upgrade"] := by
  rw [connectionTokens, sayUpgrade, HeaderMap.getAll_insert_self]
  decide

theorem getAll_sayUpgrade (hupgrade : n ≠ header.upgrade) (hconnection : n ≠ header.connection) :
    (sayUpgrade headers).getAll n = headers.getAll n := by
  rw [sayUpgrade, HeaderMap.getAll_insert_of_ne hconnection, HeaderMap.getAll_insert_of_ne hupgrade]

/-- A field of the sender's, where it is no field of every connection. -/
theorem isHopByHop_eq {name : String} {tokens : List String}
    (hname : hopByHop.contains (toAsciiLowercase name) = false)
    (hlower : toAsciiLowercase name = name) :
    isHopByHop name tokens = tokens.contains name := by
  rw [isHopByHop, hname, hlower, Bool.false_or]

/-- The fields that are sent on. -/
theorem getAll_sent {authority : HeaderValue} (hupgrade : n ≠ header.upgrade)
    (hconnection : n ≠ header.connection) (hhost : n ≠ header.host) (hvia : n ≠ header.via) :
    (sayUpgrade ((appendOurVia (forwardable headers)).insert header.host authority)).getAll n =
      if isHopByHop n.text (connectionTokens headers) then [] else headers.getAll n := by
  rw [getAll_sayUpgrade hupgrade hconnection, HeaderMap.getAll_insert_of_ne hhost, appendOurVia,
    HeaderMap.getAll_insert_of_ne hvia, forwardable, HeaderMap.getAll_filter fun m =>
      !(decide (m = header.host) || isHopByHop m.text (connectionTokens headers)),
    decide_eq_false hhost, Bool.false_or]
  cases isHopByHop n.text (connectionTokens headers) with
  | true => rfl
  | false => rfl

/-- The fields of an answer that are handed on. -/
theorem getAll_handedOn (hupgrade : n ≠ header.upgrade) (hconnection : n ≠ header.connection)
    (hlength : n ≠ header.contentLength) : (sayUpgrade (endToEnd headers)).getAll n =
      if isHopByHop n.text (connectionTokens headers) then [] else headers.getAll n := by
  rw [getAll_sayUpgrade hupgrade hconnection, endToEnd, HeaderMap.getAll_filter fun m =>
      !(isHopByHop m.text (connectionTokens headers) || decide (m = header.contentLength)),
    decide_eq_false hlength, Bool.or_false]
  cases isHopByHop n.text (connectionTokens headers) with
  | true => rfl
  | false => rfl

end Said

/-! ### What survives -/

/-- A field the proxy says itself: the two of the upgrade, its own `Via` without the
client's, and the `Host` of the address. -/
def SaidByProxy (parse : List Char → Option Uri) (url : List Char)
    (f : HeaderName × HeaderValue) : Prop :=
  f = (header.upgrade, websocketValue) ∨ f = (header.connection, upgradeValue) ∨
    f = (header.via, ourEntry) ∨ f.1 = header.host ∧ ∃ uri authority, parse url = some uri ∧
      uri.authority = some authority ∧ HeaderValue.fromStr (String.ofList authority) = some f.2

/-- **Nothing else of the client's connection is carried.** -/
def CarriesNoOther (parse : List Char → Option Uri) (url : List Char)
    (client sent : HeaderMap) : Prop :=
  ∀ f ∈ sent.fields, isHopByHop f.1.text (connectionTokens client) = true → SaidByProxy parse url f

/-- The fields a handshake is read from stay end-to-end. -/
def LeavesHandshake (client : HeaderMap) : Prop :=
  "sec-websocket-key" ∉ connectionTokens client ∧ "sec-websocket-version" ∉ connectionTokens client

section Opening

variable {S : Suite} {parse : List Char → Option Uri} {url : List Char} {method : String}
  {version : Version} {headers client : HeaderMap} {key : String} {sent : Handshake}

/-- What `open` sends. -/
theorem openRequest_eq_ok (h : openRequest parse url headers = .ok sent) :
    sent.method = "GET" ∧ sent.version = .http11 ∧
      ∃ uri authority hostHeader, parse url = some uri ∧ uri.authority = some authority ∧
        HeaderValue.fromStr (String.ofList authority) = some hostHeader ∧
        sent.headers =
          sayUpgrade ((appendOurVia (forwardable headers)).insert header.host hostHeader) := by
  rw [openRequest] at h
  split at h
  · exact nomatch h
  · rename_i uri huri
    dsimp only at h
    split at h
    · exact nomatch h
    · split at h
      · rename_i host authority _ hauthority
        split at h
        · exact nomatch h
        · rename_i hostHeader hheader
          obtain rfl := Except.ok.inj h
          exact ⟨rfl, rfl, uri, authority, hostHeader, huri, hauthority, hheader, rfl⟩
      · exact nomatch h

theorem mem_insert {h : HeaderMap} {n : HeaderName} {v : HeaderValue}
    {f : HeaderName × HeaderValue} :
    f ∈ (h.insert n v).fields ↔ f ∈ h.fields ∧ f.1 ≠ n ∨ f = (n, v) := by
  simp [HeaderMap.insert, HeaderMap.append, HeaderMap.remove]

/-- A `Via` that is the connection's is not sent on: the one that is sent is ours. -/
theorem appendOurVia_of_named (h : isHopByHop "via" (connectionTokens headers) = true) :
    appendOurVia (forwardable headers) = (forwardable headers).insert header.via ourEntry := by
  have hnamed : (connectionTokens headers).contains "via" = true :=
    (isHopByHop_eq (by decide) (by decide)).symm.trans h
  rw [appendOurVia, getAll_forwardable, if_pos hnamed]
  rfl

/-- **What is sent carries nothing of the client's connection.** -/
theorem carriesNoOther_openRequest (h : openRequest parse url client = .ok sent) :
    CarriesNoOther parse url client sent.headers := by
  obtain ⟨-, -, uri, authority, hostHeader, huri, hauthority, hheader, hsent⟩ := openRequest_eq_ok h
  rintro f hf hhop
  rw [hsent, sayUpgrade] at hf
  rcases mem_insert.mp hf with ⟨hf, -⟩ | rfl
  · rcases mem_insert.mp hf with ⟨hf, -⟩ | rfl
    · rcases mem_insert.mp hf with ⟨hf, -⟩ | rfl
      · have hvia : f.1 = header.via ∨ f ∈ (forwardable client).fields := by
          rcases mem_insert.mp hf with ⟨hf, -⟩ | rfl
          · exact Or.inr hf
          · exact Or.inl rfl
        rcases hvia with hvia | hkept
        · rw [hvia] at hhop
          rw [appendOurVia_of_named hhop] at hf
          rcases mem_insert.mp hf with ⟨-, hne⟩ | rfl
          · exact absurd hvia hne
          · exact Or.inr (Or.inr (Or.inl rfl))
        · have hnot := (List.mem_filter.mp hkept).2
          rw [hhop, Bool.or_true] at hnot
          exact nomatch hnot
      · exact Or.inr (Or.inr (Or.inr ⟨rfl, uri, authority, huri, hauthority, hheader⟩))
    · exact Or.inl rfl
  · exact Or.inr (Or.inl rfl)

/-- **The request is a handshake again** if what it is read from was left alone. -/
theorem opens_openRequest_iff (hopens : Opens S method version client key)
    (h : openRequest parse url client = .ok sent) :
    Opens S sent.method sent.version sent.headers key ↔ LeavesHandshake client := by
  obtain ⟨hmethod, hversion, uri, authority, hostHeader, -, -, -, hsent⟩ := openRequest_eq_ok h
  have hkey : sent.headers.getAll header.secWebsocketKey =
      if (connectionTokens client).contains "sec-websocket-key" then []
        else client.getAll header.secWebsocketKey := by
    rw [hsent, getAll_sent (by decide) (by decide) (by decide) (by decide),
      isHopByHop_eq (by decide) (by decide)]
    rfl
  have hthirteen : sent.headers.getAll header.secWebsocketVersion =
      if (connectionTokens client).contains "sec-websocket-version" then []
        else client.getAll header.secWebsocketVersion := by
    rw [hsent, getAll_sent (by decide) (by decide) (by decide) (by decide),
      isHopByHop_eq (by decide) (by decide)]
    rfl
  constructor
  · intro hagain
    constructor
    · intro hnamed
      have hnone := hagain.key
      rw [hkey, if_pos (List.contains_iff_mem.mpr hnamed)] at hnone
      exact nomatch hnone
    · intro hnamed
      have hnone := hagain.thirteen
      rw [hthirteen, if_pos (List.contains_iff_mem.mpr hnamed)] at hnone
      exact nomatch hnone
  · rintro ⟨hkeyed, hversioned⟩
    exact {
      upgrade := ⟨websocketValue, by rw [hsent, getAll_upgrade_sayUpgrade], by decide, by decide⟩
      method := hmethod
      version := hversion
      connection := by
        rw [hsent, connectionTokens_sayUpgrade]
        decide
      key := by
        rw [hkey, if_neg fun hc => hkeyed (List.contains_iff_mem.mp hc)]
        exact hopens.key
      thirteen := by
        rw [hthirteen, if_neg fun hc => hversioned (List.contains_iff_mem.mp hc)]
        exact hopens.thirteen
      chunked := by
        rw [hsent, getAll_sent (by decide) (by decide) (by decide) (by decide), hopens.chunked,
          ite_self]
      length := by
        rw [hsent, getAll_sent (by decide) (by decide) (by decide) (by decide)]
        split
        · rfl
        · exact hopens.length }

end Opening

/-- **The answer is a switch again** if the value that accepts the key was left alone. -/
theorem switches_handedOn_iff {S : Suite} {answer : HeaderMap} {key : String}
    (h : Switches S answer key) : Switches S (sayUpgrade (endToEnd answer)) key ↔
      "sec-websocket-accept" ∉ connectionTokens answer := by
  have haccept : (sayUpgrade (endToEnd answer)).getAll header.secWebsocketAccept =
      if (connectionTokens answer).contains "sec-websocket-accept" then []
        else answer.getAll header.secWebsocketAccept := by
    rw [getAll_handedOn (by decide) (by decide) (by decide), isHopByHop_eq (by decide) (by decide)]
    rfl
  constructor
  · rintro hagain hnamed
    have hnone := hagain.accept
    rw [haccept, if_pos (List.contains_iff_mem.mpr hnamed)] at hnone
    exact nomatch hnone
  · intro hnamed
    refine ⟨⟨websocketValue, getAll_upgrade_sayUpgrade, by decide⟩, ?_, ?_⟩
    · rw [connectionTokens_sayUpgrade]
      decide
    · rw [haccept, if_neg fun hc => hnamed (List.contains_iff_mem.mp hc)]
      exact h.accept

/-- The engine and the digest, for the key of the sample. -/
def sampleSuite : Suite where
  decode text := (Base64Bytes.decode text).toOption
  encode := Base64Bytes.encode
  sha1 _ := [179, 122, 79, 44, 192, 98, 79, 22, 144, 246, 70, 6, 207, 56, 89, 69, 178, 190, 196, 234]

def sampleKey : String := "dGhlIHNhbXBsZSBub25jZQ=="

/-- A handshake whose `Connection` is this. -/
def sampleClient (connection : String) : HeaderMap := toHeaderMap
  [("host", "a.test"), ("upgrade", "websocket"), ("connection", connection),
    ("sec-websocket-key", sampleKey), ("sec-websocket-version", "13")]

/-- An answer whose `Connection` is this. -/
def sampleAnswer (connection : String) : HeaderMap := toHeaderMap
  [("upgrade", "websocket"), ("connection", connection),
    ("sec-websocket-accept", "s3pPLMBiTxaQ9kYGzzhZRbK+xOo=")]

def sampleUrl : List Char := "http://a.test/chat".toList

/-- What goes on of it. -/
def sampleSent (connection : String) : Handshake where
  secure := false
  host := "a.test".toList
  port := 80
  target := "/chat".toList
  method := "GET"
  version := .http11
  headers := sayUpgrade ((appendOurVia (forwardable (sampleClient connection))).insert header.host
    ⟨ascii "a.test", by decide⟩)

theorem upgrading_sampleClient {connection : String} (h : connection = "Upgrade" ∨
    connection = "Upgrade, Sec-WebSocket-Key") :
    upgrading sampleSuite "GET" .http11 (sampleClient connection) = .webSocket sampleKey := by
  rcases h with rfl | rfl
  · decide +kernel
  · decide +kernel

theorem openRequest_sampleClient (connection : String) :
    openRequest (Uri.parse fun _ => true) sampleUrl (sampleClient connection) =
      .ok (sampleSent connection) := rfl

theorem switched_sampleAnswer :
    switched sampleSuite (sampleAnswer "Upgrade") sampleKey = .ok () := by
  decide +kernel

end Syndeo.Proxy
