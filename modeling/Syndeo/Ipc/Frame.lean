import Syndeo.Ipc.Base64

/-!
# Frames

Processes speak to each other in frames: four bytes that give a length, and as many
bytes of JSON. A fetch is answered by a sequence of them, a `FetchBegin`, any number
of `FetchChunk`s and a `FetchEnd` or an `Error`, which the client puts together.

What a reader can see of a pipe is a string of bytes and what comes after it, the
end or an error (`Syndeo.Incoming`): when and in which pieces they came makes no
difference to a reader that reads exactly as many as it wants. So a pipe that fails,
or a writer that dies, is one of whose bytes only some arrive.

`serde_json` is a pair of functions (`Syndeo.Json`). What a message carries that is
written and read by code of its own, the bytes in it, is in the message that it is
given (`Syndeo.WireResponse`).
-/

namespace Syndeo

/-! ### Messages -/

/-- `NetRequest`. -/
inductive NetRequest
  | fetch (method url : String) (headers : List (String × String)) (body : Bytes)
      (integrity partition : Option String)
  | stats
  | peerStatus
  | ping
  deriving DecidableEq

/-- `NetResponse`, over the values of `serde_json`. -/
inductive NetResponse (Value : Type)
  | fetchBegin (status : ℕ) (headers : List (String × String)) (source protocol : String)
      (elapsedMs : ℕ)
  | fetchChunk (bytes : Bytes)
  | fetchEnd (content : Option String)
  | stats (value : Value)
  | peerStatus (value : Value)
  | pong
  | error (message : String)

/-- `Fetched`. -/
structure Fetched where
  status : ℕ
  headers : List (String × String)
  body : Bytes
  source : String
  protocol : String
  elapsedMs : ℕ
  content : Option String
  deriving DecidableEq

/-- Whether a response to the request has a body. -/
def NetRequest.hasBody : NetRequest → Bool
  | .fetch method _ _ _ _ _ => !Text.eqIgnoreAsciiCase method "HEAD"
  | _ => true

/-- A request as `serde_json` sees it, its body a text. -/
inductive WireRequest
  | fetch (method url : String) (headers : List (String × String)) (body : String)
      (integrity partition : Option String)
  | stats
  | peerStatus
  | ping
  deriving DecidableEq

/-- A response as `serde_json` sees it, the bytes of a chunk a text. -/
inductive WireResponse (Value : Type)
  | fetchBegin (status : ℕ) (headers : List (String × String)) (source protocol : String)
      (elapsedMs : ℕ)
  | fetchChunk (bytes : String)
  | fetchEnd (content : Option String)
  | stats (value : Value)
  | peerStatus (value : Value)
  | pong
  | error (message : String)
  deriving DecidableEq

/-- **`serde_json`**, for the messages of the network process. -/
structure Json (Value : Type) where
  /-- `to_writer`, of a request. -/
  writeRequest : WireRequest → Bytes
  /-- `to_writer`, of a response. -/
  write : WireResponse Value → Bytes
  /-- `from_slice`, of a response. -/
  read : Bytes → Except String (WireResponse Value)

variable {Value : Type}

/-- `Serialize`, of a request. -/
def NetRequest.serialize : NetRequest → WireRequest
  | .fetch method url headers body integrity partition =>
    .fetch method url headers (Base64Bytes.encode body) integrity partition
  | .stats => .stats
  | .peerStatus => .peerStatus
  | .ping => .ping

/-- `Serialize`. -/
def NetResponse.serialize : NetResponse Value → WireResponse Value
  | .fetchBegin status headers source protocol elapsedMs =>
    .fetchBegin status headers source protocol elapsedMs
  | .fetchChunk bytes => .fetchChunk (Base64Bytes.encode bytes)
  | .fetchEnd content => .fetchEnd content
  | .stats value => .stats value
  | .peerStatus value => .peerStatus value
  | .pong => .pong
  | .error message => .error message

/-- `Deserialize`, which fails on a text that is no base64. -/
def WireResponse.deserialize : WireResponse Value → Except UInt8 (NetResponse Value)
  | .fetchBegin status headers source protocol elapsedMs =>
    .ok (.fetchBegin status headers source protocol elapsedMs)
  | .fetchChunk bytes =>
    match Base64Bytes.decode bytes with
    | .ok bytes => .ok (.fetchChunk bytes)
    | .error ch => .error ch
  | .fetchEnd content => .ok (.fetchEnd content)
  | .stats value => .ok (.stats value)
  | .peerStatus value => .ok (.peerStatus value)
  | .pong => .ok .pong
  | .error message => .ok (.error message)

/-- **What a message carries is read as it was written.** -/
@[simp] theorem NetResponse.deserialize_serialize (m : NetResponse Value) :
    m.serialize.deserialize = .ok m := by
  cases m with
  | fetchChunk bytes =>
    rw [serialize, WireResponse.deserialize, Base64Bytes.decode_encode]
  | _ => rfl

/-! ### Errors -/

/-- `std::io::Error`, as far as it is told apart. -/
inductive IoError
  | unexpectedEof
  | other (message : String)
  deriving DecidableEq

/-- `serde_json::Error`: of the library, or of the base64 in a message. -/
inductive CodecError
  | json (message : String)
  | base64 (character : UInt8)
  deriving DecidableEq

/-- `FrameError`. -/
inductive FrameError (Value : Type)
  | io (e : IoError)
  | tooLarge (length : ℕ)
  | codec (e : CodecError)
  | closed
  | refused (message : String)
  | unexpected (reply : NetResponse Value)
  | bodyTooLarge (limit : ℕ)

/-- `MAX_FRAME`. -/
def maxFrame : ℕ := 16 * 1024 * 1024

/-- `MAX_WHOLE_BODY`. -/
def maxWholeBody : ℕ := 64 * 1024 * 1024

/-- **The library reads a message as it was written.** -/
def Json.Reads (json : Json Value) (m : NetResponse Value) : Prop :=
  json.read (json.write m.serialize) = .ok m.serialize

/-- The message fits in a frame. -/
def Json.Fits (json : Json Value) (m : NetResponse Value) : Prop :=
  (json.write m.serialize).length ≤ maxFrame

/-! ### Pipes -/

/-- What a reader is given: bytes, and after them an error, or the end. -/
structure Incoming where
  bytes : Bytes
  failure : Option String

/-- `read_exact`. -/
def Incoming.readExact (self : Incoming) (n : ℕ) : Except IoError (Bytes × Incoming) :=
  if n ≤ self.bytes.length then
    .ok (self.bytes.take n, { self with bytes := self.bytes.drop n })
  else
    match self.failure with
    | none => .error .unexpectedEof
    | some message => .error (.other message)

theorem Incoming.length_of_readExact {s s' : Incoming} {n : ℕ} {bytes : Bytes}
    (h : s.readExact n = .ok (bytes, s')) :
    s'.bytes.length + n = s.bytes.length ∧ s.bytes = bytes ++ s'.bytes := by
  rw [readExact] at h
  split at h
  · rename_i hn
    obtain ⟨rfl, rfl⟩ := Prod.mk.inj (Except.ok.inj h)
    refine ⟨?_, (List.take_append_drop _ _).symm⟩
    rw [List.length_drop]
    omega
  · split at h <;> exact absurd h (by simp)

/-- What a writer is given: whether a write fails. -/
structure Outgoing where
  failure : Option String

/-! ### The source -/

namespace Framed

/-- `u32::from_be_bytes`. -/
def ofBeBytes (bytes : Bytes) : ℕ := bytes.foldl (fun n b => n * 256 + b.toNat) 0

/-- What `Framed::send` writes, of the bytes of a message. -/
def frame (body : Bytes) : Except (FrameError Value) Bytes :=
  if maxFrame < body.length then .error (.tooLarge (body.length % 2 ^ 32))
  else .ok (beBytes 4 body.length ++ body)

/-- `Framed::recv`. -/
def recv (json : Json Value) (self : Incoming) :
    Except (FrameError Value) (NetResponse Value × Incoming) :=
  match self.readExact 4 with
  | .error .unexpectedEof => .error .closed
  | .error (.other message) => .error (.io (.other message))
  | .ok (length, self) =>
    let length := ofBeBytes length
    if maxFrame < length then .error (.tooLarge length)
    else
      match self.readExact length with
      | .error e => .error (.io e)
      | .ok (body, self) =>
        match json.read body with
        | .error message => .error (.codec (.json message))
        | .ok m =>
          match m.deserialize with
          | .error ch => .error (.codec (.base64 ch))
          | .ok m => .ok (m, self)

/-- What is received is a frame. -/
theorem recv_eq_ok {json : Json Value} {s s' : Incoming} {m : NetResponse Value}
    (h : recv json s = .ok (m, s')) : ∃ length body w,
      length.length = 4 ∧ ofBeBytes length = body.length ∧ s.bytes = length ++ (body ++ s'.bytes) ∧
        json.read body = .ok w ∧ w.deserialize = .ok m := by
  rw [recv] at h
  split at h
  · exact absurd h (by simp)
  · exact absurd h (by simp)
  · rename_i length s₁ hlength
    dsimp only at h
    split at h
    · exact absurd h (by simp)
    · split at h
      · exact absurd h (by simp)
      · rename_i body s₂ hbody
        split at h
        · exact absurd h (by simp)
        · rename_i w hw
          split at h
          · exact absurd h (by simp)
          · rename_i m' hm
            obtain ⟨rfl, rfl⟩ := Prod.mk.inj (Except.ok.inj h)
            obtain ⟨hlen, hs⟩ := Incoming.length_of_readExact hlength
            obtain ⟨hlen₁, hs₁⟩ := Incoming.length_of_readExact hbody
            refine ⟨length, body, w, ?_, ?_, by rw [hs, hs₁], hw, hm⟩
            · have := congrArg List.length hs
              rw [List.length_append] at this
              omega
            · have := congrArg List.length hs₁
              rw [List.length_append] at this
              omega

/-- A frame takes at least the bytes of its length. -/
theorem length_lt_of_recv {json : Json Value} {s s' : Incoming} {m : NetResponse Value}
    (h : recv json s = .ok (m, s')) : s'.bytes.length < s.bytes.length := by
  obtain ⟨length, body, w, hlength, -, hs, -⟩ := recv_eq_ok h
  rw [hs, List.length_append, List.length_append]
  omega

/-- The loop of `Framed::fetch_within`, after `FetchBegin`. -/
def collectBody (json : Json Value) (limit : ℕ) (head : Fetched) (body : Bytes)
    (self : Incoming) : Except (FrameError Value) Fetched :=
  match _hrecv : recv json self with
  | .error e => .error e
  | .ok (.fetchChunk bytes, rest) =>
    if limit < body.length + bytes.length then .error (.bodyTooLarge limit)
    else collectBody json limit head (body ++ bytes) rest
  | .ok (.fetchEnd content, _) => .ok { head with body := body, content := content }
  | .ok (.error message, _) => .error (.refused message)
  | .ok (other, _) => .error (.unexpected other)
termination_by self.bytes.length
decreasing_by exact length_lt_of_recv _hrecv

/-- The length that a response declares. -/
def declaredLength (headers : List (String × String)) : Option ℕ :=
  (headers.find? fun h => Text.eqIgnoreAsciiCase h.1 "content-length").bind fun h =>
    Text.parseU64 (Text.trimChars h.2.toList)

/-- `Framed::send`. -/
def send (json : Json Value) (out : Outgoing) (request : NetRequest) :
    Except (FrameError Value) Bytes :=
  match frame (json.writeRequest request.serialize) with
  | .error e => .error e
  | .ok bytes =>
    match out.failure with
    | some message => .error (.io (.other message))
    | none => .ok bytes

/-- **`Framed::fetch_within`.** -/
def fetchWithin (json : Json Value) (out : Outgoing) (self : Incoming) (request : NetRequest)
    (limit : ℕ) : Except (FrameError Value) Fetched :=
  match send json out request with
  | .error e => .error e
  | .ok _ =>
    match recv json self with
    | .error e => .error e
    | .ok (.fetchBegin status headers source protocol elapsedMs, self) =>
      if request.hasBody && (declaredLength headers).any fun length => decide (limit < length) then
        .error (.bodyTooLarge limit)
      else
        let head : Fetched :=
          { status := status
            headers := headers
            body := []
            source := source
            protocol := protocol
            elapsedMs := elapsedMs
            content := none }
        collectBody json limit head [] self
    | .ok (.error message, _) => .error (.refused message)
    | .ok (other, _) => .error (.unexpected other)

/-- `Framed::fetch`. -/
def fetch (json : Json Value) (out : Outgoing) (self : Incoming) (request : NetRequest) :
    Except (FrameError Value) Fetched :=
  fetchWithin json out self request maxWholeBody

/-- `Framed::call`, of which the client keeps the connection. -/
def call (json : Json Value) (out : Outgoing) (self : Incoming) (request : NetRequest) :
    Except (FrameError Value) (NetResponse Value × Incoming) :=
  match send json out request with
  | .error e => .error e
  | .ok _ => recv json self

/-! ### Lengths -/

@[simp] theorem length_beBytes (k n : ℕ) : (beBytes k n).length = k := by
  induction k generalizing n with
  | zero => rfl
  | succ k ih => rw [beBytes, List.length_append, ih, List.length_singleton]

theorem ofBeBytes_beBytes (k n : ℕ) : ofBeBytes (beBytes k n) = n % 256 ^ k := by
  induction k generalizing n with
  | zero => rw [pow_zero, Nat.mod_one]; rfl
  | succ k ih =>
    have hlast : ofBeBytes (beBytes (k + 1) n) =
        ofBeBytes (beBytes k (n / 256)) * 256 + (UInt8.ofNat (n % 256)).toNat := by
      rw [beBytes, ofBeBytes, List.foldl_append]
      rfl
    rw [hlast, ih, UInt8.toNat_ofNat', Nat.mod_mod, pow_succ', Nat.mod_mul,
      Nat.mul_comm, Nat.add_comm]

/-! ### What a reader makes of what was written -/

variable {json : Json Value} {s s' : Incoming} {m m' : NetResponse Value}
  {ms : List (NetResponse Value)} {limit : ℕ} {head fetched : Fetched} {body : Bytes}

/-- What is written of some messages, up to the first that is too long. -/
def transcript (json : Json Value) : List (NetResponse Value) → Bytes
  | [] => []
  | m :: ms =>
    match (frame (json.write m.serialize) : Except (FrameError Value) Bytes) with
    | .ok bytes => bytes ++ transcript json ms
    | .error _ => []

theorem transcript_cons (h : json.Fits m) : transcript json (m :: ms) =
    beBytes 4 (json.write m.serialize).length ++
      (json.write m.serialize ++ transcript json ms) := by
  rw [transcript, frame, if_neg (not_lt.mpr h), ← List.append_assoc]

theorem transcript_cons_of_not_fits (h : ¬json.Fits m) : transcript json (m :: ms) = [] := by
  rw [transcript, frame, if_pos (not_le.mp h)]

theorem ofBeBytes_length (h : json.Fits m) :
    ofBeBytes (beBytes 4 (json.write m.serialize).length) = (json.write m.serialize).length := by
  have hle : (json.write m.serialize).length ≤ 16 * 1024 * 1024 := h
  rw [ofBeBytes_beBytes]
  exact Nat.mod_eq_of_lt (by omega)

/-- Nothing is received of nothing. -/
theorem ne_nil_of_recv (h : recv json s = .ok (m, s')) : s.bytes ≠ [] := by
  intro hnil
  have hlt := length_lt_of_recv h
  rw [hnil] at hlt
  exact Nat.not_lt_zero _ hlt

/-- **What is received is what was written next**, however much of it has arrived. -/
theorem recv_of_prefix (hreads : json.Reads m) (hs : s.bytes <+: transcript json (m :: ms))
    (h : recv json s = .ok (m', s')) : m' = m ∧ s'.bytes <+: transcript json ms := by
  by_cases hfits : json.Fits m
  · rw [transcript_cons hfits] at hs
    obtain ⟨length, body, w, hlength, hbody, hbytes, hw, hm⟩ := recv_eq_ok h
    obtain ⟨rest, hrest⟩ := hs
    rw [hbytes, List.append_assoc, List.append_assoc] at hrest
    obtain ⟨rfl, htail⟩ := List.append_inj hrest (by rw [hlength, length_beBytes])
    rw [ofBeBytes_length hfits] at hbody
    obtain ⟨rfl, hmore⟩ := List.append_inj htail hbody.symm
    obtain rfl := Except.ok.inj (hw.symm.trans hreads)
    rw [NetResponse.deserialize_serialize] at hm
    exact ⟨(Except.ok.inj hm).symm, rest, hmore⟩
  · rw [transcript_cons_of_not_fits hfits] at hs
    exact absurd (List.prefix_nil.mp hs) (ne_nil_of_recv h)

/-- A message that has arrived is received. -/
theorem recv_transcript {failure : Option String} (hreads : json.Reads m)
    (hfits : json.Fits m) : recv json ⟨transcript json (m :: ms), failure⟩ =
      .ok (m, ⟨transcript json ms, failure⟩) := by
  have hexact : ∀ a b : Bytes, (Incoming.mk (a ++ b) failure).readExact a.length =
      .ok (a, ⟨b, failure⟩) := by
    intro a b
    rw [Incoming.readExact, if_pos (by rw [List.length_append]; omega)]
    simp only [List.take_left, List.drop_left]
  have hlength := hexact (beBytes 4 (json.write m.serialize).length)
    (json.write m.serialize ++ transcript json ms)
  rw [length_beBytes] at hlength
  rw [transcript_cons hfits, recv, hlength]
  dsimp only
  rw [ofBeBytes_length hfits, if_neg (not_lt.mpr hfits), hexact]
  dsimp only
  rw [hreads]
  dsimp only
  rw [NetResponse.deserialize_serialize]

/-- **A body is returned only when it has come to its end**: it is the chunks up to the
first message that is no chunk, and that is a `FetchEnd`. -/
theorem collectBody_of_prefix (hreads : ∀ m ∈ ms, json.Reads m)
    (hs : s.bytes <+: transcript json ms) (hbody : body.length ≤ limit)
    (h : collectBody json limit head body s = .ok fetched) :
    ∃ (chunks : List Bytes) (content : Option String) (rest : List (NetResponse Value)),
      ms = chunks.map .fetchChunk ++ .fetchEnd content :: rest ∧
        fetched = { head with body := body ++ chunks.flatten, content := content } ∧
        (body ++ chunks.flatten).length ≤ limit := by
  induction ms generalizing s body with
  | nil =>
    rw [collectBody] at h
    have hnil : s.bytes = [] := List.prefix_nil.mp hs
    split at h
    · exact absurd h (by simp)
    all_goals
      rename_i hrecv
      exact absurd hnil (ne_nil_of_recv hrecv)
  | cons m ms ih =>
    have hnext : ∀ {m' s'}, recv json s = .ok (m', s') →
        m' = m ∧ s'.bytes <+: transcript json ms := fun hrecv =>
      recv_of_prefix (hreads m List.mem_cons_self) hs hrecv
    rw [collectBody] at h
    split at h
    · exact absurd h (by simp)
    · rename_i bytes rest hrecv
      obtain ⟨rfl, hrest⟩ := hnext hrecv
      split at h
      · exact absurd h (by simp)
      · rename_i hlimit
        obtain ⟨chunks, content, tail, rfl, rfl, hlength⟩ :=
          ih (fun m hm => hreads m (List.mem_cons_of_mem _ hm)) hrest
            (by rw [List.length_append]; omega) h
        refine ⟨bytes :: chunks, content, tail, rfl, ?_, ?_⟩
        · rw [List.flatten_cons, List.append_assoc]
        · rwa [List.flatten_cons, ← List.append_assoc]
    · rename_i content rest hrecv
      obtain ⟨rfl, -⟩ := hnext hrecv
      obtain rfl := Except.ok.inj h
      exact ⟨[], content, ms, rfl, by simp, by simpa using hbody⟩
    · exact absurd h (by simp)
    · exact absurd h (by simp)

/-- One pass of the loop, on a chunk. -/
theorem collectBody_chunk {bytes : Bytes} (h : recv json s = .ok (.fetchChunk bytes, s')) :
    collectBody json limit head body s =
      if limit < body.length + bytes.length then .error (.bodyTooLarge limit)
      else collectBody json limit head (body ++ bytes) s' := by
  rw [collectBody]
  split
  · rename_i hrecv
    exact absurd (h.symm.trans hrecv) (by simp)
  · rename_i hrecv
    obtain ⟨heq, rfl⟩ := Prod.mk.inj (Except.ok.inj (h.symm.trans hrecv))
    rw [NetResponse.fetchChunk.inj heq]
  · rename_i hrecv
    exact absurd (h.symm.trans hrecv) (by simp)
  · rename_i hrecv
    exact absurd (h.symm.trans hrecv) (by simp)
  · rename_i hchunk _ _ hrecv
    exact (hchunk bytes (Prod.mk.inj (Except.ok.inj (h.symm.trans hrecv))).1.symm).elim

/-- The same, on the end. -/
theorem collectBody_end {content : Option String}
    (h : recv json s = .ok (.fetchEnd content, s')) :
    collectBody json limit head body s = .ok { head with body := body, content := content } := by
  rw [collectBody]
  split
  · rename_i hrecv
    exact absurd (h.symm.trans hrecv) (by simp)
  · rename_i hrecv
    exact absurd (h.symm.trans hrecv) (by simp)
  · rename_i hrecv
    rw [NetResponse.fetchEnd.inj (Prod.mk.inj (Except.ok.inj (h.symm.trans hrecv))).1]
  · rename_i hrecv
    exact absurd (h.symm.trans hrecv) (by simp)
  · rename_i _ hend _ hrecv
    exact (hend content (Prod.mk.inj (Except.ok.inj (h.symm.trans hrecv))).1.symm).elim

/-- **A body that has arrived, and is not too long, is returned.** -/
theorem collectBody_transcript {chunks : List Bytes} {content : Option String}
    {failure : Option String}
    (hchunks : ∀ c ∈ chunks, json.Reads (.fetchChunk c) ∧ json.Fits (.fetchChunk c))
    (hend : json.Reads (.fetchEnd content) ∧ json.Fits (.fetchEnd content))
    (hlimit : (body ++ chunks.flatten).length ≤ limit) :
    collectBody json limit head body
        ⟨transcript json (chunks.map .fetchChunk ++ [.fetchEnd content]), failure⟩ =
      .ok { head with body := body ++ chunks.flatten, content := content } := by
  induction chunks generalizing body with
  | nil =>
    rw [List.flatten_nil, List.append_nil]
    exact collectBody_end (recv_transcript hend.1 hend.2)
  | cons c chunks ih =>
    obtain ⟨hreads, hfits⟩ := hchunks c List.mem_cons_self
    rw [List.flatten_cons, ← List.append_assoc] at hlimit ⊢
    refine (collectBody_chunk (recv_transcript hreads hfits)).trans ?_
    rw [if_neg]
    · exact ih (fun c hc => hchunks c (List.mem_cons_of_mem _ hc)) hlimit
    · rw [List.length_append, List.length_append] at hlimit
      omega

/-- **What a fetch returns is what was written for it**, and all of it. -/
theorem fetchWithin_of_prefix {out : Outgoing} {request : NetRequest}
    (hreads : ∀ m ∈ ms, json.Reads m) (hs : s.bytes <+: transcript json ms)
    (h : fetchWithin json out s request limit = .ok fetched) :
    ∃ (chunks : List Bytes) (rest : List (NetResponse Value)),
      ms = .fetchBegin fetched.status fetched.headers fetched.source fetched.protocol
          fetched.elapsedMs :: (chunks.map .fetchChunk ++ .fetchEnd fetched.content :: rest) ∧
        fetched.body = chunks.flatten ∧ fetched.body.length ≤ limit := by
  rw [fetchWithin] at h
  split at h
  · exact absurd h (by simp)
  · split at h
    · exact absurd h (by simp)
    · rename_i hrecv
      rcases ms with _ | ⟨m, ms⟩
      · exact absurd (List.prefix_nil.mp hs) (ne_nil_of_recv hrecv)
      · obtain ⟨rfl, hrest⟩ := recv_of_prefix (hreads m List.mem_cons_self) hs hrecv
        split at h
        · exact absurd h (by simp)
        · obtain ⟨chunks, content, rest, rfl, rfl, hlimit⟩ := collectBody_of_prefix
            (fun m hm => hreads m (List.mem_cons_of_mem _ hm)) hrest (Nat.zero_le _) h
          exact ⟨chunks, rest, rfl, rfl, hlimit⟩
    · exact absurd h (by simp)
    · exact absurd h (by simp)

end Framed

end Syndeo
