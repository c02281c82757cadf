import Syndeo.Cache.Sri
import Syndeo.Data.Hex
import Syndeo.Http.HeaderMap
import Syndeo.Ipc.Base64
import Syndeo.Proxy.Commands

/-!
# The credential

A proxy that was started for one browser takes requests from that browser alone. The browser
makes a token and writes it once, as one frame, into the proxy's input, in front of its
commands. The proxy reads the frame and nothing past it, as the commands are read by another
loop, and what it takes from then on is one value of `Proxy-Authorization`, the one a client
sends whose password is the token. What says where the password begins is a colon, and there
is none in it.

So the proxy that has read a frame answers the commands behind it and admits that browser, and
without a frame it does not start (`Syndeo.Proxy.credential_handshake`).
-/

namespace Syndeo

namespace Proxy

open BufRead Reader Separated Syndeo.Text

/-! ### The frame -/

/-- `MAGIC`. -/
def magic : Bytes := utf8 "SYA1"

/-- `FRAME`. -/
def frameLen : ℕ := 4 + 32 + 1

/-- `USER`. -/
def user : String := "syndeo"

/-- `FrameRefusal`. -/
inductive FrameRefusal
  | short
  | badMagic
  | noNewline
  deriving DecidableEq, Repr

/-- What is said of it. -/
def FrameRefusal.text : FrameRefusal → String
  | short => "the credential frame on stdin ended early"
  | badMagic => "stdin did not start with a credential frame"
  | noNewline => "the credential frame on stdin was not terminated"

/-- `ProxyAuth`: the one value that is accepted. -/
structure ProxyAuth where
  expected : Bytes
  deriving DecidableEq

/-- `ProxyCredential::generate`, of a token: the password of the browser's web views. -/
def ProxyCredential.password (token : Bytes) : String := hexEncode token

/-- And the frame that is written to the proxy. -/
def ProxyCredential.frame (token : Bytes) : Bytes := magic ++ token ++ [newline]

variable (encode : Bytes → String)

/-- What a client sends that has a name and a password: the `Basic` scheme. -/
def basic (name password : String) : String := "Basic " ++ encode (utf8 (name ++ ":" ++ password))

namespace ProxyAuth

/-- `ProxyAuth::for_token`. -/
def forToken (token : Bytes) : ProxyAuth := ⟨utf8 (basic encode user (hexEncode token))⟩

/-- `ProxyAuth::read_frame`. -/
def readFrame (reader : Reader UInt8) : Except FrameRefusal ProxyAuth × Reader UInt8 :=
  match readExact frameLen [] reader with
  | (none, reader) => (.error .short, reader)
  | (some frame, reader) =>
    if frame.take 4 ≠ magic then (.error .badMagic, reader)
    else if frame[frameLen - 1]? ≠ some newline then (.error .noNewline, reader)
    else (.ok (forToken encode ((frame.take (frameLen - 1)).drop 4)), reader)

/-- `ProxyAuth::admits`. -/
def admits (self : ProxyAuth) (headers : HeaderMap) : Bool :=
  match headers.getAll header.proxyAuthorization with
  | [value] => constantTimeEq value.bytes self.expected
  | _ => false

end ProxyAuth

/-- What `run` does with its input: the frame is read, if there is to be one, and then the
commands. -/
def serveInput (authStdin : Bool) (clear : ℕ → Clear) (written : ℕ → Bool)
    (stdin : Reader UInt8) : Except FrameRefusal (Option ProxyAuth × Finished × Answered) :=
  if authStdin then
    match ProxyAuth.readFrame encode stdin with
    | (.ok auth, stdin) => .ok (some auth, answerCommands clear written ⟨[], 0⟩ stdin)
    | (.error refusal, _) => .error refusal
  else .ok (none, answerCommands clear written ⟨[], 0⟩ stdin)

/-! ### What is admitted -/

/-- **A client presents a name and a password**, once. -/
def Presents (headers : HeaderMap) (name password : String) : Prop :=
  ∃ value, headers.getAll header.proxyAuthorization = [value] ∧
    value.bytes = utf8 (basic encode name password)

/-- **The proxy admits one token**, from a client of that name, and nothing else. -/
structure AdmitsOnly (auth : ProxyAuth) (token : Bytes) : Prop where
  admits : ∀ headers, Presents encode headers user (ProxyCredential.password token) →
    auth.admits headers = true
  only : ∀ headers, auth.admits headers = true →
    Presents encode headers user (ProxyCredential.password token)
  others : ∀ headers name password, Presents encode headers name password →
    auth.admits headers = true → name = user ∧ password = ProxyCredential.password token

variable {encode}

theorem ProxyAuth.admits_forToken_iff {token : Bytes} {headers : HeaderMap} :
    (ProxyAuth.forToken encode token).admits headers = true ↔
      Presents encode headers user (hexEncode token) := by
  rw [ProxyAuth.admits, Presents]
  split
  · rename_i value hvalue
    rw [constantTimeEq_iff]
    constructor
    · intro hbytes
      exact ⟨value, hvalue, hbytes⟩
    · rintro ⟨other, hother, hbytes⟩
      obtain rfl := (List.cons.inj (hvalue.symm.trans hother)).1
      exact hbytes
  · rename_i hnone
    constructor
    · intro h
      cases h
    · rintro ⟨value, hvalue, -⟩
      exact absurd hvalue (hnone value)

/-- Where the name ends can be told, as there is a colon in neither. -/
theorem eq_of_basic_eq (hencode : Function.Injective encode) {name password : String}
    {token : Bytes} (h : basic encode name password = basic encode user (hexEncode token)) :
    name = user ∧ password = hexEncode token := by
  have hsame : name ++ ":" ++ password = user ++ ":" ++ hexEncode token :=
    utf8_inj (hencode ((String.append_right_inj "Basic ").mp h))
  have hlists : user.toList ++ ':' :: (hexEncode token).toList =
      name.toList ++ ':' :: password.toList := by
    have := congrArg String.toList hsame
    simpa using this.symm
  have hcolon : ':' ∉ (hexEncode token).toList := not_mem_hexEncode (by decide) token
  obtain ⟨hname, -, hpassword⟩ :=
    (List.append_cons_inj_of_notMem (by decide) hcolon).mp hlists
  exact ⟨String.toList_inj.mp hname.symm, String.toList_inj.mp hpassword.symm⟩

theorem admitsOnly_forToken (hencode : Function.Injective encode) (token : Bytes) :
    AdmitsOnly encode (ProxyAuth.forToken encode token) token where
  admits _ h := ProxyAuth.admits_forToken_iff.mpr h
  only _ h := ProxyAuth.admits_forToken_iff.mp h
  others headers name password := by
    rintro ⟨value, hvalue, hbytes⟩ h
    obtain ⟨other, hother, hexpected⟩ := ProxyAuth.admits_forToken_iff.mp h
    obtain rfl := (List.cons.inj (hvalue.symm.trans hother)).1
    exact eq_of_basic_eq hencode (utf8_inj (hbytes.symm.trans hexpected))

/-! ### What is read -/

theorem length_frame {token : Bytes} (h : token.length = 32) :
    (ProxyCredential.frame token).length = frameLen := by
  have hmagic : magic.length = 4 := by decide
  rw [ProxyCredential.frame, List.length_append, List.length_append, hmagic, h]
  rfl

theorem take_drop_frame {token : Bytes} (h : token.length = 32) :
    ((ProxyCredential.frame token).take (frameLen - 1)).drop 4 = token := by
  have hmagic : magic.length = 4 := by decide
  have hlen : (magic ++ token).length = frameLen - 1 := by
    rw [List.length_append, hmagic, h]
    rfl
  rw [ProxyCredential.frame, List.take_left' hlen, List.drop_left' hmagic]

/-- The frame of a token is taken apart again. -/
theorem readFrame_of_frame {token : Bytes} (h : token.length = 32) {reader reader' : Reader UInt8}
    (hread : readExact frameLen [] reader = (some (ProxyCredential.frame token), reader')) :
    ProxyAuth.readFrame encode reader = (.ok (ProxyAuth.forToken encode token), reader') := by
  have hmagic : magic.length = 4 := by decide
  have hbegins : (magic ++ token ++ [newline]).take 4 = magic := by
    rw [List.append_assoc]
    exact List.take_left' hmagic
  have hlen : (magic ++ token).length = frameLen - 1 := by
    rw [List.length_append, hmagic, h]
    rfl
  have hends : (magic ++ token ++ [newline])[frameLen - 1]? = some newline := by
    rw [List.getElem?_append_right hlen.le, hlen, Nat.sub_self]
    rfl
  have htoken := take_drop_frame h
  rw [ProxyCredential.frame] at hread htoken
  rw [ProxyAuth.readFrame, hread]
  dsimp only
  rw [if_neg (not_not.mpr hbegins), if_neg (not_not.mpr hends), htoken]

/-- What is taken for a frame is one. -/
theorem exists_token {frame : Bytes} (hlen : frame.length = frameLen)
    (hmagic : frame.take 4 = magic) (hnewline : frame[frameLen - 1]? = some newline) :
    ∃ token : Bytes, token.length = 32 ∧ frame = ProxyCredential.frame token := by
  refine ⟨(frame.take (frameLen - 1)).drop 4, ?_, ?_⟩
  · rw [List.length_drop, List.length_take, hlen]
    rfl
  · have hlast : frame.drop (frameLen - 1) = [newline] := by
      obtain ⟨hlt, hget⟩ := List.getElem?_eq_some_iff.mp hnewline
      rw [List.drop_eq_getElem_cons hlt, hget, List.drop_eq_nil_of_le (by rw [hlen]; rfl)]
    have hfront : magic ++ (frame.take (frameLen - 1)).drop 4 = frame.take (frameLen - 1) := by
      have htake : (frame.take (frameLen - 1)).take 4 = magic := by
        rw [List.take_take]
        exact hmagic
      rw [← htake, List.take_append_drop]
    rw [ProxyCredential.frame, hfront, ← hlast, List.take_append_drop]

/-- **What is read is a frame**, and the proxy takes its token. -/
theorem exists_token_of_readFrame {stdin stdin' : Reader UInt8} {auth : ProxyAuth}
    (h : ProxyAuth.readFrame encode stdin = (.ok auth, stdin')) :
    ∃ token : Bytes, token.length = 32 ∧ auth = ProxyAuth.forToken encode token ∧
      stdin.rest = ProxyCredential.frame token ++ stdin'.rest := by
  have hspec := exactSpec frameLen [] stdin
  rw [ProxyAuth.readFrame] at h
  generalize readExact frameLen [] stdin = out at hspec h
  cases hspec with
  | short => cases h
  | @full frame behind huses hlen =>
    dsimp only at h
    rw [List.nil_append] at h
    split_ifs at h with hmagic hnewline
    · cases h
    · cases h
    · obtain ⟨token, htoken, rfl⟩ := exists_token hlen (not_not.mp hmagic) (not_not.mp hnewline)
      have hread := congrArg Prod.fst h
      obtain rfl := congrArg Prod.snd h
      rw [take_drop_frame htoken] at hread
      exact ⟨token, htoken, (Except.ok.inj hread).symm, huses.rest⟩

/-- **A frame is read**, however it comes, and nothing behind it. -/
theorem readFrame_of_rest {stdin : Reader UInt8} (hsound : stdin.Sound) (hlimit : stdin.limit = none)
    {token rest : Bytes} (htoken : token.length = 32)
    (hrest : stdin.rest = ProxyCredential.frame token ++ rest) :
    ∃ stdin', ProxyAuth.readFrame encode stdin = (.ok (ProxyAuth.forToken encode token), stdin') ∧
      stdin'.rest = rest ∧ stdin'.Sound := by
  have hvisible : stdin.visible = stdin.rest := by rw [visible, hlimit]
  have htake : stdin.visible.take frameLen = ProxyCredential.frame token := by
    rw [hvisible, hrest, List.take_left' (length_frame htoken)]
  have hlong : frameLen ≤ stdin.visible.length := by
    rw [hvisible, hrest, List.length_append, length_frame htoken]
    exact Nat.le_add_right _ _
  obtain ⟨stdin', hread, huses⟩ := readExact_of_sound hsound hlong
  rw [htake] at hread huses
  exact ⟨stdin', readFrame_of_frame htoken hread,
    List.append_cancel_left (huses.rest.symm.trans hrest), huses.sound hsound⟩

/-- **The credential is handed over.** However the input comes: where it begins with a frame,
the proxy admits that token alone, and answers every command behind the frame; and where it
does not, the proxy does not start. -/
theorem credential_handshake (hencode : Function.Injective encode) {stdin : Reader UInt8}
    (hsound : stdin.Sound) (hlimit : stdin.limit = none) {clear : ℕ → Clear} {written : ℕ → Bool}
    (hwritten : ∀ n, written n = true) :
    (∀ token rest, token.length = 32 → stdin.rest = ProxyCredential.frame token ++ rest →
      ∃ auth, serveInput encode true clear written stdin = .ok (some auth, .ok,
        ⟨answersTo clear 0 (wholeLines newline rest),
          (wholeLines newline rest).count clearCommand⟩) ∧ AdmitsOnly encode auth token) ∧
      ((∀ token rest, token.length = 32 → stdin.rest ≠ ProxyCredential.frame token ++ rest) →
        ∃ refusal, serveInput encode true clear written stdin = .error refusal) := by
  constructor
  · intro token rest hlen hrest
    obtain ⟨stdin', hread, hleft, hsound'⟩ := readFrame_of_rest hsound hlimit hlen hrest
    refine ⟨ProxyAuth.forToken encode token, ?_, admitsOnly_forToken hencode token⟩
    rw [serveInput, if_pos rfl, hread]
    dsimp only
    -- what is left is what was behind the frame
    rw [answerCommands_of_sound hwritten _ stdin' hsound', hleft, Nat.zero_add]
    rfl
  · intro hnone
    rw [serveInput, if_pos rfl]
    generalize hread : ProxyAuth.readFrame encode stdin = out
    rcases out with ⟨refusal | auth, stdin'⟩
    · exact ⟨refusal, rfl⟩
    · obtain ⟨token, htoken, -, hrest⟩ := exists_token_of_readFrame hread
      exact absurd hrest (hnone token stdin'.rest htoken)

/-- A token, and one command behind its frame, through a pipe that gives a byte at first. -/
def sampleToken : Bytes := List.replicate 32 7

theorem injective_base64 : Function.Injective Base64Bytes.encode := by
  intro a b h
  have hdecode := congrArg Base64Bytes.decode h
  rw [Base64Bytes.decode_encode, Base64Bytes.decode_encode] at hdecode
  exact Except.ok.inj hdecode

theorem credential_handshake_clears : ∃ auth,
    serveInput Base64Bytes.encode true (fun _ => .ok 7) (fun _ => true)
        ⟨ProxyCredential.frame sampleToken ++ (clearCommand ++ [newline]),
          [.interrupted, .bytes 0, .bytes 3], none⟩ =
      .ok (some auth, .ok, ⟨["SYNDEO-PROXY-CLEARED 1 7".toList], 1⟩) ∧
      AdmitsOnly Base64Bytes.encode auth sampleToken := by
  have hsound : Reader.Sound ⟨ProxyCredential.frame sampleToken ++ (clearCommand ++ [newline]),
      [.interrupted, .bytes 0, .bytes 3], none⟩ := by simp [Reader.Sound]
  have hanswers : (⟨answersTo (fun _ => .ok 7) 0 (wholeLines newline (clearCommand ++ [newline])),
      (wholeLines newline (clearCommand ++ [newline])).count clearCommand⟩ : Answered) =
      ⟨["SYNDEO-PROXY-CLEARED 1 7".toList], 1⟩ := by decide +kernel
  obtain ⟨auth, hserve, hadmits⟩ := (credential_handshake injective_base64 hsound rfl
    (fun _ => rfl)).1 sampleToken (clearCommand ++ [newline]) (by decide) rfl
  exact ⟨auth, hserve.trans (by rw [hanswers]), hadmits⟩

end Proxy

end Syndeo
