import Syndeo.Data.BufRead
import Syndeo.Ipc.Frame
import Syndeo.Peer.Ledgers

/-!
# What goes over the wire

A message between peers is the bytes `bincode` writes of it, behind their length in four
bytes. The length is the sender's word, so it is held against a ceiling before there is room
made for what it announces: a request names a hash and is small, and a response is no longer
than a body may be, with a little room.

The loop answers no body that is longer (`Syndeo.Swarm.Balanced.fits`), so the ceiling is in
nobody's way: whatever a node answers, another reads as it was sent, however the bytes come
(`Syndeo.Swarm.wire_of_runs`). And whatever comes, no more of it is taken than the ceiling says
(`Syndeo.BlobCodec.frugal_of_readFrame`).
-/

namespace Syndeo

open BufRead Reader Framed

namespace BlobCodec

variable {V : Type}

/-- `bincode`, of one kind of message. -/
structure Bincode (V : Type) where
  serialize : V → Except String Bytes
  deserialize : Bytes → Except String V

/-- **What is written reads back**, and is so long. -/
structure Bincode.Writes (bincode : Bincode V) (size : V → ℕ) (v : V) (bytes : Bytes) : Prop where
  writes : bincode.serialize v = .ok bytes
  reads : bincode.deserialize bytes = .ok v
  length : bytes.length = size v

/-- It is so with every message there can be. -/
def Bincode.WritesAll (bincode : Bincode V) (size : V → ℕ) : Prop :=
  ∀ v, size v < 2 ^ 64 → ∃ bytes, bincode.Writes size v bytes

/-- What `bincode` writes of a request: which of them it is in four bytes; 32 bytes, or one and
a list, of which the length is written in eight. -/
def requestSize : BlobRequest → ℕ
  | .content _ => 4 + 32
  | .integrity _ digest => 4 + 1 + (8 + digest.length)

/-- And of a response. -/
def responseSize : BlobResponse → ℕ
  | .«have» body => 4 + (8 + body.length)
  | .missing => 4
  | .throttled => 4

/-- `MAX_REQUEST`. -/
def maxRequest : ℕ := 1024

/-- The ceiling of `read_response`. -/
def maxResponse : ℕ := maxBody + 1024

theorem maxBody_eq : maxBody = 2 ^ 25 := by decide

theorem maxResponse_eq : maxResponse = 2 ^ 25 + 1024 := congrArg (· + 1024) maxBody_eq

/-- The errors of `read_frame`: of the stream, or of what came. -/
inductive ReadError
  | io
  | invalidData (message : String)
  deriving DecidableEq

/-- `read_frame`. -/
def readFrame (bincode : Bincode V) (limit : ℕ) (io : Reader UInt8) :
    Except ReadError V × Reader UInt8 :=
  match readExact 4 [] io with
  | (none, io) => (.error .io, io)
  | (some length, io) =>
    if limit < ofBeBytes length then
      (.error (.invalidData ("frame of " ++ toString (ofBeBytes length) ++ " bytes exceeds the " ++
        toString limit ++ " byte ceiling")), io)
    else
      match readExact (ofBeBytes length) [] io with
      | (none, io) => (.error .io, io)
      | (some body, io) =>
        match bincode.deserialize body with
        | .ok v => (.ok v, io)
        | .error e => (.error (.invalidData e), io)

/-- `write_frame`: the bytes that are written. -/
def writeFrame (bincode : Bincode V) (v : V) : Except String Bytes :=
  (bincode.serialize v).map fun body => beBytes 4 body.length ++ body

/-- `read_request`. -/
def readRequest (bincode : Bincode BlobRequest) (io : Reader UInt8) :
    Except ReadError BlobRequest × Reader UInt8 := readFrame bincode maxRequest io

/-- `read_response`. -/
def readResponse (bincode : Bincode BlobResponse) (io : Reader UInt8) :
    Except ReadError BlobResponse × Reader UInt8 := readFrame bincode maxResponse io

/-- **A message comes over**: what is written of it is read as that message, however it is cut,
and what is behind it is left. -/
def Carries (bincode : Bincode V) (limit : ℕ) (v : V) : Prop :=
  ∃ frame, writeFrame bincode v = .ok frame ∧ ∀ rest fills, .failed ∉ fills →
    ∃ io, readFrame bincode limit ⟨frame ++ rest, fills, none⟩ = (.ok v, io) ∧ io.rest = rest

section Frames

variable {bincode : Bincode V} {limit : ℕ} {v : V}

/-- So many bytes are read that are in front. -/
theorem exists_readExact_front {front rest : Bytes} {io : Reader UInt8} (hsound : io.Sound)
    (hlimit : io.limit = none) (hrest : io.rest = front ++ rest) :
    ∃ io', readExact front.length [] io = (some front, io') ∧ io'.rest = rest ∧ io'.Sound ∧
      io'.limit = none := by
  have hvisible : io.visible = front ++ rest := by rw [visible, hlimit, hrest]
  have htake : io.visible.take front.length = front := by rw [hvisible, List.take_left' rfl]
  have hlong : front.length ≤ io.visible.length := by
    rw [hvisible, List.length_append]
    exact Nat.le_add_right _ _
  obtain ⟨io', hread, huses⟩ := readExact_of_sound hsound hlong
  rw [htake] at hread huses
  refine ⟨io', hread, List.append_cancel_left (huses.rest.symm.trans hrest), huses.sound hsound, ?_⟩
  rw [huses.limit, hlimit]
  rfl

/-- **A message that fits comes over.** -/
theorem carries_of_le {size : V → ℕ} {bytes : Bytes} (h : bincode.Writes size v bytes)
    (hsize : size v ≤ limit) (hlimit : limit < 2 ^ 32) : Carries bincode limit v := by
  refine ⟨beBytes 4 bytes.length ++ bytes, by rw [writeFrame, h.writes]; rfl, ?_⟩
  intro rest fills hfills
  have hlength : ofBeBytes (beBytes 4 bytes.length) = bytes.length := by
    rw [ofBeBytes_beBytes]
    exact Nat.mod_eq_of_lt (by rw [h.length]; omega)
  let whole : Reader UInt8 := ⟨beBytes 4 bytes.length ++ bytes ++ rest, fills, none⟩
  have hfront : whole.rest = beBytes 4 bytes.length ++ (bytes ++ rest) := List.append_assoc _ _ _
  obtain ⟨io, hread, hrest, hsound, hnone⟩ := exists_readExact_front (show whole.Sound from hfills)
    rfl hfront
  rw [length_beBytes] at hread
  obtain ⟨io', hread', hrest', -, -⟩ := exists_readExact_front hsound hnone hrest
  refine ⟨io', ?_, hrest'⟩
  have hfits : ¬limit < bytes.length := by rw [h.length]; omega
  rw [readFrame, hread]
  dsimp only
  rw [hlength, if_neg hfits, hread']
  dsimp only
  rw [h.reads]

/-- So many bytes are taken of a stream at most, to read so many. -/
theorem exists_uses_of_readExact (n : ℕ) (io : Reader UInt8) :
    ∃ used, Uses used io (readExact n [] io).2 ∧ used.length ≤ n := by
  have hspec := exactSpec n [] io
  generalize readExact n [] io = out at hspec
  cases hspec with
  | @full bytes io' huses hlen => exact ⟨bytes, huses, hlen.le⟩
  | @short part io' huses hlen hend => exact ⟨part, huses, hlen.le⟩

/-- **No more is taken than the ceiling says**, and the four bytes of a length, whatever a peer
sends. -/
theorem frugal_of_readFrame (bincode : Bincode V) (limit : ℕ) (io : Reader UInt8) :
    ∃ used, Uses used io (readFrame bincode limit io).2 ∧ used.length ≤ 4 + limit := by
  obtain ⟨used, huses, hlen⟩ := exists_uses_of_readExact 4 io
  rw [readFrame]
  rcases hread : readExact 4 [] io with ⟨_ | length, io'⟩
  · rw [hread] at huses
    exact ⟨used, huses, by omega⟩
  · rw [hread] at huses
    dsimp only
    split_ifs with hlong
    · exact ⟨used, huses, by omega⟩
    · obtain ⟨more, hmore, hmorelen⟩ := exists_uses_of_readExact (ofBeBytes length) io'
      have hboth : (used ++ more).length ≤ 4 + limit := by
        rw [List.length_append]
        omega
      rcases hbody : readExact (ofBeBytes length) [] io' with ⟨_ | body, io''⟩
      · rw [hbody] at hmore
        exact ⟨used ++ more, huses.trans hmore, hboth⟩
      · rw [hbody] at hmore
        dsimp only
        split
        · exact ⟨used ++ more, huses.trans hmore, hboth⟩
        · exact ⟨used ++ more, huses.trans hmore, hboth⟩

end Frames

end BlobCodec

namespace Swarm

open BlobCodec

variable {Peer : Type} [DecidableEq Peer]

/-- **What a node says, another hears**, in every run of its loop: each answer it gives is read
as that answer, however it is cut, and so is each request that is short enough; and to read
whatever a peer sends, no more of it is taken than the ceilings say. -/
theorem wire_of_runs {requests : Bincode BlobRequest} {responses : Bincode BlobResponse}
    (hrequests : requests.WritesAll requestSize) (hresponses : responses.WritesAll responseSize)
    (P : Platform) (config : PeerConfig) (localPeer : Peer) (es : List (Event Peer)) :
    (∀ peer response, .answered peer response ∈ (Loop.run P config localPeer es).log →
        Carries responses maxResponse response) ∧
      (∀ request, requestSize request ≤ maxRequest → Carries requests maxRequest request) ∧
      ∀ io, (∃ used, Uses used io (readRequest requests io).2 ∧ used.length ≤ 4 + maxRequest) ∧
        ∃ used, Uses used io (readResponse responses io).2 ∧ used.length ≤ 4 + maxResponse := by
  refine ⟨fun peer response hmem => ?_, fun request hsize => ?_, fun io =>
    ⟨frugal_of_readFrame _ _ _, frugal_of_readFrame _ _ _⟩⟩
  · have hfits : responseSize response ≤ maxResponse := by
      cases response with
      | «have» body =>
        have hgiven : body ∈ given (Loop.run P config localPeer es).log peer :=
          List.mem_filterMap.mpr ⟨_, hmem, if_pos rfl⟩
        have hbody : body.length ≤ maxBody := (balanced_run es).fits body hgiven
        rw [maxResponse_eq]
        rw [maxBody_eq] at hbody
        simp only [responseSize]
        omega
      | missing => decide
      | throttled => decide
    obtain ⟨bytes, hwrites⟩ := hresponses response (hfits.trans_lt (by decide))
    exact carries_of_le hwrites hfits (by decide)
  · obtain ⟨bytes, hwrites⟩ := hrequests request (hsize.trans_lt (by decide))
    exact carries_of_le hwrites hsize (by decide)

/-! ### A sample -/

/-- A number as so many bytes, least significant first. -/
def leBytes (k n : ℕ) : Bytes := (beBytes k n).reverse

/-- The number that so many bytes in front are, and what is behind them. -/
def readLe (k : ℕ) (bytes : Bytes) : Option (ℕ × Bytes) :=
  if bytes.length < k then none else some (ofBeBytes (bytes.take k).reverse, bytes.drop k)

theorem readLe_append {k n : ℕ} (hn : n < 256 ^ k) (rest : Bytes) :
    readLe k (leBytes k n ++ rest) = some (n, rest) := by
  have hlen : (leBytes k n).length = k := by rw [leBytes, List.length_reverse, length_beBytes]
  rw [readLe, if_neg (by rw [List.length_append, hlen]; omega), List.take_left' hlen,
    List.drop_left' hlen, leBytes, List.reverse_reverse, ofBeBytes_beBytes, Nat.mod_eq_of_lt hn]

/-- A list of bytes, behind its length. -/
def readList (bytes : Bytes) : Option Bytes :=
  (readLe 8 bytes).bind fun r => if r.2.length < r.1 then none else some (r.2.take r.1)

theorem readList_append {body : Bytes} (h : body.length < 256 ^ 8) :
    readList (leBytes 8 body.length ++ body) = some body := by
  rw [readList, readLe_append h]
  simp

def sampleResponses : Bincode BlobResponse where
  serialize
    | .«have» body => .ok (leBytes 4 0 ++ (leBytes 8 body.length ++ body))
    | .missing => .ok (leBytes 4 1 ++ [])
    | .throttled => .ok (leBytes 4 2 ++ [])
  deserialize bytes :=
    match readLe 4 bytes with
    | some (0, rest) => ((readList rest).map fun body => .ok (.«have» body)).getD (.error "short")
    | some (1, _) => .ok .missing
    | some (2, _) => .ok .throttled
    | _ => .error "no such variant"

def sampleRequests : Bincode BlobRequest where
  serialize
    | .content id => .ok (leBytes 4 0 ++ beBytes 32 id.toNat)
    | .integrity algorithm digest =>
      .ok (leBytes 4 1 ++ (algorithm :: (leBytes 8 digest.length ++ digest)))
  deserialize bytes :=
    match readLe 4 bytes with
    | some (0, rest) =>
      if rest.length < 32 then .error "short"
      else .ok (.content (.ofNat _ (ofBeBytes (rest.take 32))))
    | some (1, algorithm :: rest) =>
      ((readList rest).map fun digest => .ok (.integrity algorithm digest)).getD (.error "short")
    | _ => .error "no such variant"

theorem writesAll_sampleResponses : sampleResponses.WritesAll responseSize := by
  intro response hsize
  cases response with
  | «have» body =>
    have hbody : body.length < 256 ^ 8 := by
      rw [responseSize] at hsize
      omega
    refine ⟨_, rfl, ?_, ?_⟩
    · simp [sampleResponses, readLe_append (show 0 < 256 ^ 4 by decide), readList_append hbody]
    · simp [responseSize, leBytes]
  | missing => exact ⟨_, rfl, rfl, rfl⟩
  | throttled => exact ⟨_, rfl, rfl, rfl⟩

theorem writesAll_sampleRequests : sampleRequests.WritesAll requestSize := by
  intro request hsize
  cases request with
  | content id =>
    have hid : ofBeBytes (beBytes 32 id.toNat) = id.toNat := by
      rw [ofBeBytes_beBytes]
      exact Nat.mod_eq_of_lt id.isLt
    refine ⟨_, rfl, ?_, ?_⟩
    · have htake : (beBytes 32 id.toNat).take 32 = beBytes 32 id.toNat :=
        List.take_of_length_le (length_beBytes 32 _).le
      simp [sampleRequests, readLe_append (show 0 < 256 ^ 4 by decide), htake, hid]
    · simp [requestSize, leBytes]
  | integrity algorithm digest =>
    have hdigest : digest.length < 256 ^ 8 := by
      rw [requestSize] at hsize
      omega
    refine ⟨_, rfl, ?_, ?_⟩
    · simp [sampleRequests, readLe_append (show 1 < 256 ^ 4 by decide), readList_append hdigest]
    · simp [requestSize, leBytes]
      omega

/-- A peer asks for three bytes. -/
def asksOnce : List (Event Unit) := [.request () (.integrity 1 []) (some [1, 2, 3])]

theorem wire_of_runs_answer : Carries sampleResponses maxResponse (.«have» [1, 2, 3]) ∧
    Carries sampleRequests maxRequest (.integrity 1 [1, 2, 3]) := by
  have hwire := wire_of_runs writesAll_sampleRequests writesAll_sampleResponses .sample
    ⟨true, true, true, 20⟩ () asksOnce
  have hanswered : .answered () (.«have» [1, 2, 3]) ∈
      (Loop.run .sample ⟨true, true, true, 20⟩ () asksOnce).log :=
    List.mem_cons_of_mem _ List.mem_cons_self
  exact ⟨hwire.1 () _ hanswered, hwire.2.1 _ (by decide)⟩

end Swarm

end Syndeo
