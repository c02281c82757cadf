import Syndeo.Ipc.Frame
import Syndeo.Net.Message

/-!
# The request loop of the network process

A fetch is answered in frames: the head, the pieces of the body as they come, none
longer than `Syndeo.chunk`, and an end. A body that fails on its way is an `Error`
in place of the end; so a client that has seen the end has seen everything
(`Syndeo.fetch_whole_or_error`).
-/

namespace Syndeo

variable {Value : Type}

/-! ### The source -/

/-- `CHUNK`. -/
def chunk : ℕ := 512 * 1024

/-- A method as `http::Method` takes it: a token. -/
def isMethod (s : String) : Bool :=
  !s.toList.isEmpty && s.toList.all fun c => c.isAlphanum || isTokenMark c

/-- `str::split_whitespace`. -/
def splitWhitespace (cs : List Char) : List (List Char) :=
  (cs.splitOnP Text.isWhitespace).filter fun t => !t.isEmpty

/-- `Algorithm::parse`. -/
def Algorithm.parse (s : List Char) : Option Algorithm :=
  match Text.toAsciiLowercase (String.ofList s) with
  | "sha256" => some .sha256
  | "sha384" => some .sha384
  | "sha512" => some .sha512
  | _ => none

/-- The length of a digest. -/
def Algorithm.expectedLen : Algorithm → ℕ
  | .sha256 => 32
  | .sha384 => 48
  | .sha512 => 64

/-- **What the service is made of**: the cache's libraries, the two base64 decoders
that a declaration is read with, the configuration, the network, and what answers
everything else. -/
structure Service (Value : Type) where
  platform : Platform
  /-- `general_purpose::STANDARD.decode`. -/
  decodeStandard : String → Except String Bytes
  /-- `general_purpose::URL_SAFE.decode`. -/
  decodeUrlSafe : String → Except String Bytes
  partitionCache : Bool
  /-- `Net::fetch`: an answer, or the text of the error. -/
  fetch : FetchRequest → Except String FetchResponse
  /-- `handle`. -/
  handle : NetRequest → NetResponse Value

namespace Service

variable (self : Service Value)

/-- The loop of `Integrity::parse`. -/
def parseTokens : List (List Char) → List Hash → Except String Integrity
  | [], hashes => .ok ⟨hashes⟩
  | token :: rest, hashes =>
    let token := token.takeWhile (· ≠ '?')
    match Text.splitOnce '-' token with
    | none => parseTokens rest hashes
    | some (alg, b64) =>
      match Algorithm.parse alg with
      | none => parseTokens rest hashes
      | some algorithm =>
        let decoded : Except String Bytes := match self.decodeStandard (String.ofList b64) with
          | .ok digest => .ok digest
          | .error _ => self.decodeUrlSafe (String.ofList b64)
        match decoded with
        | .error e =>
          .error ("malformed integrity metadata: " ++ String.ofList token ++ ": " ++ e)
        | .ok digest =>
          if digest.length ≠ algorithm.expectedLen then
            .error ("malformed integrity metadata: " ++ algorithm.name ++ " digest is " ++
              toString digest.length ++ " bytes, expected " ++ toString algorithm.expectedLen)
          else parseTokens rest (hashes ++ [⟨algorithm, digest⟩])

/-- `Integrity::parse`. -/
def parseIntegrity (value : String) : Except String Integrity :=
  self.parseTokens (splitWhitespace value.toList) []

/-- What is declared, or why it is refused. -/
def declared (integrity : Option String) : Except String (Option Integrity) :=
  match integrity with
  | none => .ok none
  | some value =>
    match self.parseIntegrity value with
    | .error e => .error ("integrity: " ++ e)
    | .ok i => if i.isEmpty then .error "integrity: no usable hash was declared" else .ok (some i)

/-- The text of a failed `Integrity::check`. -/
def mismatchText (i : Integrity) (whole : Bytes) : String :=
  "integrity check failed: expected " ++ (i.mismatch self.platform whole).1 ++ ", computed " ++
    (i.mismatch self.platform whole).2

/-- The fields that are a name and a value. -/
def fieldsOf (headers : List (String × String)) : HeaderMap :=
  headers.foldl (fun map h =>
    match HeaderName.fromBytes h.1, HeaderValue.fromStr h.2 with
    | some n, some v => map.append n v
    | _, _ => map) ⟨[]⟩

/-- `header_pairs`. -/
def headerPairs (headers : HeaderMap) : List (String × String) :=
  headers.fields.filterMap fun f => f.2.toStr.map fun v => (f.1.text, v)

/-- The head of an answer. -/
def beginning (response : FetchResponse) : NetResponse Value :=
  .fetchBegin response.status (headerPairs response.headers) response.source.asStr
    response.protocol.asStr response.elapsedMs

/-- The end of one. -/
def ending (response : FetchResponse) : NetResponse Value :=
  .fetchEnd (response.content.map ContentId.toHex)

/-- Pieces of the body that fit a frame. -/
def pieces (bytes : Bytes) : List (NetResponse Value) :=
  (Wrap.chunks chunk bytes).map .fetchChunk

/-- The loop of `fetch` over a body that arrives. -/
def streamed (finish : NetResponse Value) : List (Except String Bytes) → List (NetResponse Value)
  | [] => [finish]
  | .ok bytes :: rest => pieces bytes ++ streamed finish rest
  | .error e :: _ => [.error e]

/-- What the network is asked. -/
def request (method url : String) (headers : List (String × String)) (body : Bytes)
    (declared : Option Integrity) (partition : Option String) : FetchRequest where
  method := method
  url := url
  headers := fieldsOf headers
  body := body
  integrity := declared
  partition := partition.filter fun _ => self.partitionCache
  redirect := .follow

/-- **`fetch`**: the messages that answer one. -/
def fetchReplies (method url : String) (headers : List (String × String)) (body : Bytes)
    (integrity partition : Option String) : List (NetResponse Value) :=
  if isMethod method = false then [.error ("unknown method " ++ method)]
  else
    match self.declared integrity with
    | .error e => [.error e]
    | .ok declared =>
      match self.fetch (self.request method url headers body declared partition) with
      | .error e => [.error e]
      | .ok response =>
        match declared with
        | some integrity =>
          match response.body.collect with
          | .error e => [.error e]
          | .ok whole =>
            if integrity.verify self.platform whole then
              beginning response :: (pieces whole ++ [ending response])
            else [.error ("integrity: " ++ self.mismatchText integrity whole)]
        | none => beginning response :: streamed (ending response) response.body.intoStream

/-- `respond`. -/
def respond : NetRequest → List (NetResponse Value)
  | .fetch method url headers body integrity partition =>
    self.fetchReplies method url headers body integrity partition
  | other => [self.handle other]

end Service

/-! ### What a client can see -/

/-- Whether a request is answered in more than one frame. -/
def NetRequest.isFetch : NetRequest → Bool
  | .fetch _ _ _ _ _ _ => true
  | _ => false

/-- All that the service writes on a connection. -/
def Service.conversation (self : Service Value) (requests : List NetRequest) :
    List (NetResponse Value) :=
  requests.flatMap self.respond

/-- A client that makes some calls, and looks at none of the answers. -/
def Framed.callAll (json : Json Value) (out : Outgoing) :
    List NetRequest → Incoming → Except (FrameError Value) Incoming
  | [], s => .ok s
  | request :: requests, s =>
    match Framed.call json out s request with
    | .error e => .error e
    | .ok (_, s) => callAll json out requests s

variable {S : Service Value} {json : Json Value} {out : Outgoing} {s s' : Incoming}
  {request : NetRequest} {limit : ℕ} {fetched : Fetched}

/-- Where the chunks end can be told from the messages. -/
theorem map_fetchChunk_append_inj {chunks chunks' : List Bytes} {m m' : NetResponse Value}
    {rest rest' : List (NetResponse Value)} (hm : ∀ c, m ≠ .fetchChunk c)
    (hm' : ∀ c, m' ≠ .fetchChunk c)
    (h : chunks.map .fetchChunk ++ m :: rest = chunks'.map .fetchChunk ++ m' :: rest') :
    chunks = chunks' ∧ m = m' ∧ rest = rest' := by
  induction chunks generalizing chunks' with
  | nil =>
    rcases chunks' with _ | ⟨c', chunks'⟩
    · exact ⟨rfl, List.cons.inj h⟩
    · exact absurd (List.cons.inj h).1 (hm c')
  | cons c chunks ih =>
    rcases chunks' with _ | ⟨c', chunks'⟩
    · exact absurd (List.cons.inj h).1.symm (hm' c)
    · obtain ⟨hc, hrest⟩ := List.cons.inj h
      obtain rfl := NetResponse.fetchChunk.inj hc
      obtain ⟨rfl, hlast⟩ := ih hrest
      exact ⟨rfl, hlast⟩

/-- **What is written of a body that arrives**: chunks, and then the end if all of it has
come, or else an error. -/
theorem Service.streamed_eq (finish : NetResponse Value) (items : List (Except String Bytes)) :
    ∃ chunks : List Bytes,
      (∃ e, Service.streamed finish items = chunks.map .fetchChunk ++ [.error e] ∧
        ∀ pieces : List Bytes, items ≠ pieces.map .ok) ∨
      Service.streamed finish items = chunks.map .fetchChunk ++ [finish] ∧
        ∃ pieces : List Bytes, items = pieces.map .ok ∧ chunks.flatten = pieces.flatten := by
  induction items with
  | nil => exact ⟨[], Or.inr ⟨rfl, [], rfl, rfl⟩⟩
  | cons item items ih =>
    rcases item with e | bytes
    · refine ⟨[], Or.inl ⟨e, rfl, ?_⟩⟩
      rintro (_ | ⟨piece, pieces⟩) hpieces
      · exact absurd hpieces (by simp)
      · exact absurd (List.cons.inj hpieces).1 (by simp)
    · obtain ⟨chunks, ⟨e, hstreamed, hfails⟩ | ⟨hstreamed, pieces, rfl, hflatten⟩⟩ := ih
      · refine ⟨Wrap.chunks chunk bytes ++ chunks, Or.inl ⟨e, ?_, ?_⟩⟩
        · rw [Service.streamed, hstreamed, Service.pieces, List.map_append, List.append_assoc]
        · rintro (_ | ⟨piece, pieces⟩) hpieces
          · exact absurd hpieces (by simp)
          · exact hfails pieces (List.cons.inj hpieces).2
      · refine ⟨Wrap.chunks chunk bytes ++ chunks, Or.inr ⟨?_, bytes :: pieces, rfl, ?_⟩⟩
        · rw [Service.streamed, hstreamed, Service.pieces, List.map_append, List.append_assoc]
        · rw [List.flatten_append, Wrap.flatten_chunks, hflatten, List.flatten_cons]

/-- **A request is answered**, and with this body: it is a fetch, what it declares can be
used, the network has answered it, all of the body has come, and it is what was
declared. -/
def Service.Answers (self : Service Value) : NetRequest → FetchResponse → Bytes → Prop
  | .fetch method url headers body integrity partition, response, whole =>
    isMethod method = true ∧ ∃ declared, self.declared integrity = .ok declared ∧
      self.fetch (self.request method url headers body declared partition) = .ok response ∧
      response.body.collect = .ok whole ∧
      ∀ i, declared = some i → i.verify self.platform whole = true
  | _, _, _ => False

/-- What a client is to make of an answer. -/
def Service.fetchedOf (response : FetchResponse) (whole : Bytes) : Fetched where
  status := response.status
  headers := headerPairs response.headers
  body := whole
  source := response.source.asStr
  protocol := response.protocol.asStr
  elapsedMs := response.elapsedMs
  content := response.content.map ContentId.toHex

/-- An answer is written as its head, its body in chunks, and an end. -/
theorem Service.respond_of_answers {response : FetchResponse} {whole : Bytes}
    (h : S.Answers request response whole) : ∃ chunks : List Bytes, chunks.flatten = whole ∧
      S.respond request = beginning response :: (chunks.map .fetchChunk ++ [ending response]) := by
  cases request with
  | fetch method url headers body integrity partition =>
    obtain ⟨hmethod, declared, hdeclared, hfetch, hwhole, hverify⟩ := h
    rw [Service.respond, Service.fetchReplies, if_neg (by simp [hmethod]), hdeclared]
    dsimp only
    rw [hfetch]
    dsimp only
    rcases declared with _ | i
    · rw [← FetchBody.collectStream_intoStream, FetchBody.collectStream_eq_ok_iff] at hwhole
      obtain ⟨pieces, hpieces, rfl⟩ := hwhole
      obtain ⟨chunks, ⟨e, -, hfails⟩ | ⟨hstreamed, pieces', hpieces', hflatten⟩⟩ :=
        Service.streamed_eq (ending response) response.body.intoStream
      · exact absurd hpieces (hfails pieces)
      · have hsame : pieces' = pieces :=
          List.map_injective_iff.mpr (fun a b hab => Except.ok.inj hab)
            (hpieces'.symm.trans hpieces)
        exact ⟨chunks, by rw [hflatten, hsame, List.nil_append],
          congrArg (List.cons (beginning response)) hstreamed⟩
    · dsimp only
      rw [hwhole]
      dsimp only
      rw [if_pos (hverify i rfl)]
      exact ⟨Wrap.chunks chunk whole, Wrap.flatten_chunks whole, rfl⟩
  | _ => exact h.elim

/-- **What is written as an answer is one**: an end is only written after all of the
body. -/
theorem Service.answers_of_respond {head : NetResponse Value} {chunks : List Bytes}
    {content : Option String} {rest : List (NetResponse Value)}
    (h : S.respond request = head :: (chunks.map .fetchChunk ++ .fetchEnd content :: rest)) :
    ∃ response, S.Answers request response chunks.flatten ∧ head = beginning response ∧
      .fetchEnd content = (ending response : NetResponse Value) := by
  have hsingle : ∀ m : NetResponse Value,
      [m] ≠ head :: (chunks.map .fetchChunk ++ .fetchEnd content :: rest) := by
    intro m heq
    have hlength := congrArg List.length heq
    rw [List.length_cons, List.length_cons, List.length_append, List.length_cons] at hlength
    simp at hlength
  cases request with
  | fetch method url headers body integrity partition =>
    rw [Service.respond, Service.fetchReplies] at h
    split at h
    · exact absurd h (hsingle _)
    · rename_i hmethod
      rw [Bool.not_eq_false] at hmethod
      split at h
      · exact absurd h (hsingle _)
      · rename_i declared hdeclared
        split at h
        · exact absurd h (hsingle _)
        · rename_i response hfetch
          have hbegin : ∀ {ms : List (NetResponse Value)}, beginning response :: ms =
              head :: (chunks.map .fetchChunk ++ .fetchEnd content :: rest) →
              head = beginning response ∧
                ms = chunks.map .fetchChunk ++ .fetchEnd content :: rest := fun heq =>
            ⟨(List.cons.inj heq).1.symm, (List.cons.inj heq).2⟩
          have hend : ∀ c, (ending response : NetResponse Value) ≠ .fetchChunk c := fun c => by
            simp [ending]
          split at h
          · rename_i i
            split at h
            · exact absurd h (hsingle _)
            · rename_i whole hwhole
              split at h
              · rename_i hverify
                obtain ⟨hhead, hmessages⟩ := hbegin h
                obtain ⟨hchunks, hlast, -⟩ := map_fetchChunk_append_inj hend (by simp) hmessages
                refine ⟨response, ⟨hmethod, some i, hdeclared, hfetch, ?_, ?_⟩, hhead, hlast.symm⟩
                · rw [hwhole, ← hchunks, Wrap.flatten_chunks]
                · intro i' hi'
                  obtain rfl := Option.some.inj hi'
                  rwa [← hchunks, Wrap.flatten_chunks]
              · exact absurd h (hsingle _)
          · obtain ⟨hhead, hmessages⟩ := hbegin h
            obtain ⟨chunks', ⟨e, hstreamed, -⟩ | ⟨hstreamed, pieces, hpieces, hflatten⟩⟩ :=
              Service.streamed_eq (ending response : NetResponse Value) response.body.intoStream
            · rw [hstreamed] at hmessages
              obtain ⟨-, hlast, -⟩ := map_fetchChunk_append_inj (by simp) (by simp) hmessages
              exact absurd hlast (by simp)
            · rw [hstreamed] at hmessages
              obtain ⟨rfl, hlast, -⟩ := map_fetchChunk_append_inj hend (by simp) hmessages
              refine ⟨response, ⟨hmethod, none, hdeclared, hfetch, ?_,
                fun i hi => absurd hi (by simp)⟩, hhead, hlast.symm⟩
              rw [← FetchBody.collectStream_intoStream, FetchBody.collectStream_eq_ok_iff]
              exact ⟨pieces, hpieces, by rw [hflatten, List.nil_append]⟩
  | _ => exact absurd h (hsingle _)

/-- What is left to read after some calls. -/
theorem Framed.callAll_of_prefix {calls : List NetRequest} {ms : List (NetResponse Value)}
    (hcalls : ∀ r ∈ calls, r.isFetch = false) (hreads : ∀ m ∈ S.conversation calls, json.Reads m)
    (hs : s.bytes <+: Framed.transcript json (S.conversation calls ++ ms))
    (h : Framed.callAll json out calls s = .ok s') : s'.bytes <+: Framed.transcript json ms := by
  induction calls generalizing s with
  | nil =>
    obtain rfl := Except.ok.inj h
    exact hs
  | cons r calls ih =>
    have hrespond : S.respond r = [S.handle r] := by
      cases r with
      | fetch => exact absurd (hcalls _ List.mem_cons_self) (by simp [NetRequest.isFetch])
      | _ => rfl
    have hconversation : S.conversation (r :: calls) = S.handle r :: S.conversation calls := by
      rw [Service.conversation, List.flatMap_cons, hrespond]
      rfl
    rw [hconversation] at hs hreads
    rw [Framed.callAll] at h
    split at h
    · exact absurd h (by simp)
    · rename_i m rest hcall
      rw [Framed.call] at hcall
      split at hcall
      · exact absurd hcall (by simp)
      · obtain ⟨-, hrest⟩ := Framed.recv_of_prefix (hreads _ List.mem_cons_self) hs hcall
        exact ih (fun r hr => hcalls r (List.mem_cons_of_mem _ hr))
          (fun m hm => hreads m (List.mem_cons_of_mem _ hm)) hrest h

/-- What the origin of the example answers. -/
def shortResponse : FetchResponse where
  status := 200
  headers := ⟨[]⟩
  body := .bytes [97, 98]
  source := .origin
  elapsedMs := 1
  content := none
  finalUrl := "http://a.test/"
  redirects := 0
  protocol := .http1

/-- A network that answers everything alike. -/
def shortService : Service Unit where
  platform := .sample
  decodeStandard := fun _ => .error "Invalid symbol"
  decodeUrlSafe := fun _ => .error "Invalid symbol"
  partitionCache := true
  fetch := fun _ => .ok shortResponse
  handle := fun _ => .pong

/-- The request of the example. -/
def shortRequest : NetRequest := .fetch "GET" "http://a.test/" [] [] none none

/-- The messages of the example. -/
def shortMessages : List (NetResponse Unit) :=
  [.pong, .fetchBegin 200 [] "origin" "http/1.1" 1, .fetchChunk [97, 98], .fetchEnd none]

/-- The text of each. -/
def shortWrite : WireResponse Unit → String
  | .pong => "\"Pong\""
  | .fetchBegin _ _ _ _ _ => "\x7b\"FetchBegin\":\x7b\"status\":200,\"headers\":[]," ++
      "\"source\":\"origin\",\"protocol\":\"http/1.1\",\"elapsed_ms\":1\x7d\x7d"
  | .fetchChunk _ => "\x7b\"FetchChunk\":\x7b\"bytes\":\"YWI=\"\x7d\x7d"
  | .fetchEnd _ => "\x7b\"FetchEnd\":\x7b\"content\":null\x7d\x7d"
  | _ => ""

/-- `serde_json`, on the messages of the example. -/
def shortJson : Json Unit where
  writeRequest := fun
    | .fetch _ _ _ _ _ _ => Text.utf8 ("\x7b\"Fetch\":\x7b\"method\":\"GET\"," ++
        "\"url\":\"http://a.test/\",\"headers\":[],\"body\":\"\",\"integrity\":null," ++
        "\"partition\":null\x7d\x7d")
    | _ => Text.utf8 "\"Ping\""
  write := fun w => Text.utf8 (shortWrite w)
  read := fun bytes =>
    match (shortMessages.map NetResponse.serialize).find? fun w =>
      Utf8.decode bytes == some (shortWrite w).toList with
    | some w => .ok w
    | none => .error "expected value"

theorem reads_short {m : NetResponse Unit} (hm : m ∈ shortMessages) : shortJson.Reads m := by
  have hdecode : ∀ w : WireResponse Unit,
      Utf8.decode (shortJson.write w) = some (shortWrite w).toList := fun w =>
    Utf8.decode_encode _
  rw [Json.Reads, shortJson]
  dsimp only
  rw [show ∀ w : WireResponse Unit, Utf8.decode (Text.utf8 (shortWrite w)) =
    some (shortWrite w).toList from hdecode]
  simp only [shortMessages, List.mem_cons, List.not_mem_nil, or_false] at hm
  rcases hm with rfl | rfl | rfl | rfl <;> rfl

theorem conversation_short :
    shortService.conversation ([.ping] ++ [shortRequest]) = shortMessages := by
  have hpieces : (Service.pieces [97, 98] : List (NetResponse Unit)) = [.fetchChunk [97, 98]] := by
    rw [Service.pieces, Wrap.chunks_of_length_le (by simp) (by simp [chunk])]
    rfl
  have hfetch : shortService.respond shortRequest =
      .fetchBegin 200 [] "origin" "http/1.1" 1 ::
        (Service.pieces [97, 98] ++ [(.fetchEnd none : NetResponse Unit)]) := rfl
  have hping : shortService.respond .ping = [.pong] := rfl
  rw [Service.conversation, List.singleton_append, List.flatMap_cons, List.flatMap_singleton,
    hping, hfetch, hpieces]
  rfl

end Syndeo
