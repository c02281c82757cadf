import Syndeo.Http.Text

/-!
# Header maps

The part of the `http` crate the cache is written against: field names, field
values, and the multimap from one to the other.

A name is a token in lower case – the crate folds the case of whatever it is
given – and a value is a string of bytes that holds no control other than the
tab. Both carry that as a field, so neither can be built otherwise. A value need
not be text: `Syndeo.HeaderValue.toStr` fails on the bytes from 0x80 up, and the
source's `to_str().ok()` then sees no value at all.

A map is kept as the list of its fields. Fields of one name stay in the order
they were added, which is all the crate promises; the order between names is
arbitrary there, and here the order of addition.
-/

namespace Syndeo

/-! ### Names -/

/-- The characters of a token that are neither letters nor digits. -/
def isTokenMark (c : Char) : Bool :=
  "!#$%&'*+-.^_|~".toList.contains c || c.toNat == 96

/-- A field name as the crate keeps it: a token, with its letters in lower
case. -/
def isHeaderName (s : String) : Bool :=
  !s.toList.isEmpty &&
    s.toList.all fun c => ('a' ≤ c && c ≤ 'z') || ('0' ≤ c && c ≤ '9') || isTokenMark c

/-- `http::HeaderName`. -/
structure HeaderName where
  text : String
  ok : isHeaderName text = true
  deriving DecidableEq

namespace HeaderName

/-- `HeaderName::from_bytes`: the name in lower case, if it is a token. -/
def fromBytes (s : String) : Option HeaderName :=
  if h : isHeaderName (Text.toAsciiLowercase s) = true then some ⟨_, h⟩ else none

theorem lowerChar_of_ok {c : Char}
    (h : (('a' ≤ c && c ≤ 'z') || ('0' ≤ c && c ≤ '9') || isTokenMark c) = true) :
    Text.lowerChar c = c := by
  rw [Text.lowerChar, if_neg]
  rintro ⟨h1, h2⟩
  have h1' : 65 ≤ c.toNat := h1
  have h2' : c.toNat ≤ 90 := h2
  simp only [Bool.or_eq_true, Bool.and_eq_true, decide_eq_true_eq, isTokenMark, beq_iff_eq,
    List.contains_iff_mem] at h
  rcases h with (⟨h3, -⟩ | ⟨-, h3⟩) | h3 | h3
  · have h3' : 97 ≤ c.toNat := h3
    omega
  · have h3' : c.toNat ≤ 57 := h3
    omega
  · have hmem : ∀ d ∈ "!#$%&'*+-.^_|~".toList, d.toNat < 65 ∨ 90 < d.toNat := by decide
    rcases hmem c h3 with h4 | h4 <;> omega
  · omega

/-- **A name is its own spelling**: reading the text of a name gives it back. -/
theorem fromBytes_text (n : HeaderName) : fromBytes n.text = some n := by
  have hlow : Text.toAsciiLowercase n.text = n.text := by
    have hall := (Bool.and_eq_true_iff.mp n.ok).2
    have hmap : n.text.toList.map Text.lowerChar = n.text.toList.map id :=
      List.map_congr_left fun c hc => lowerChar_of_ok (List.all_eq_true.mp hall c hc)
    rw [Text.toAsciiLowercase, hmap, List.map_id, String.ofList_toList]
  rw [fromBytes, dif_pos (by rw [hlow]; exact n.ok)]
  exact congrArg some (by cases n; simp only [mk.injEq]; exact hlow)

end HeaderName

/-! ### Values -/

/-- A byte a field value may hold. -/
def isFieldByte (b : UInt8) : Bool := (32 ≤ b.toNat && b.toNat != 127) || b.toNat == 9

/-- A visible ASCII character, a space or a tab. -/
def isVisibleAscii (n : ℕ) : Bool := (32 ≤ n && n < 127) || n == 9

/-- `http::HeaderValue`. -/
structure HeaderValue where
  bytes : List UInt8
  ok : bytes.all isFieldByte = true
  deriving DecidableEq

namespace HeaderValue

/-- `HeaderValue::to_str`, which fails unless every byte is visible ASCII. -/
def toStr (v : HeaderValue) : Option String :=
  if v.bytes.all fun b => isVisibleAscii b.toNat then
    some (String.ofList (v.bytes.map fun b => Char.ofNat b.toNat))
  else none

theorem isFieldByte_of_visible {c : Char} (h : isVisibleAscii c.toNat = true) :
    isFieldByte (UInt8.ofNat c.toNat) = true := by
  simp only [isVisibleAscii, isFieldByte, Bool.or_eq_true, Bool.and_eq_true, decide_eq_true_eq,
    beq_iff_eq, bne_iff_ne, UInt8.toNat_ofNat'] at h ⊢
  omega

/-- `HeaderValue::from_str`, which takes visible ASCII and nothing else. -/
def fromStr (s : String) : Option HeaderValue :=
  if h : s.toList.all (fun c => isVisibleAscii c.toNat) = true then
    some ⟨s.toList.map fun c => UInt8.ofNat c.toNat, by
      rw [List.all_map, List.all_eq_true]
      exact fun c hc => isFieldByte_of_visible (List.all_eq_true.mp h c hc)⟩
  else none

theorem fromStr_eq_some {s : String} {v : HeaderValue} :
    fromStr s = some v ↔ (s.toList.all fun c => isVisibleAscii c.toNat) = true ∧
      v.bytes = s.toList.map fun c => UInt8.ofNat c.toNat := by
  rw [fromStr]
  split
  · rename_i h
    rw [Option.some.injEq]
    refine ⟨fun hv => ⟨h, by rw [← hv]⟩, fun hv => ?_⟩
    cases v
    simp only [mk.injEq]
    exact hv.2.symm
  · rename_i h
    exact ⟨fun hv => absurd hv (by simp), fun hv => absurd hv.1 h⟩

private theorem toNat_ofNat_of_visible {c : Char} (h : isVisibleAscii c.toNat = true) :
    (UInt8.ofNat c.toNat).toNat = c.toNat := by
  simp only [isVisibleAscii, Bool.or_eq_true, Bool.and_eq_true, decide_eq_true_eq,
    beq_iff_eq] at h
  rw [UInt8.toNat_ofNat', Nat.mod_eq_of_lt (by omega)]

/-- **Text read back**: a value made from a string has that string. -/
theorem toStr_of_fromStr {s : String} {v : HeaderValue} (h : fromStr s = some v) :
    v.toStr = some s := by
  obtain ⟨hall, hbytes⟩ := fromStr_eq_some.mp h
  have hvis := List.all_eq_true.mp hall
  rw [toStr, if_pos, hbytes]
  · congr 1
    have hmap : s.toList.map ((fun b : UInt8 => Char.ofNat b.toNat) ∘ fun c =>
        UInt8.ofNat c.toNat) = s.toList.map id := List.map_congr_left fun c hc => by
      simp only [Function.comp_apply, toNat_ofNat_of_visible (hvis c hc), id_eq, Char.ofNat_toNat]
    rw [List.map_map, hmap, List.map_id, String.ofList_toList]
  · rw [hbytes, List.all_map, List.all_eq_true]
    intro c hc
    simp only [Function.comp_apply, toNat_ofNat_of_visible (hvis c hc)]
    exact hvis c hc

theorem toNat_ofNat_of_lt {n : ℕ} (h : n < 256) : (Char.ofNat n).toNat = n := by
  have hv : n.isValidChar := Or.inl (by omega)
  rw [Char.ofNat, dif_pos hv]
  rfl

/-- **A value that is text is made from its text.** -/
theorem fromStr_of_toStr {s : String} {v : HeaderValue} (h : v.toStr = some s) :
    fromStr s = some v := by
  rw [toStr] at h
  split at h
  · rename_i hall
    obtain rfl := Option.some.inj h
    have hvis := List.all_eq_true.mp hall
    refine fromStr_eq_some.mpr ⟨?_, ?_⟩
    · rw [String.toList_ofList, List.all_map, List.all_eq_true]
      intro b hb
      simp only [Function.comp_apply, toNat_ofNat_of_lt b.toNat_lt]
      exact hvis b hb
    · have hmap : v.bytes.map ((fun c : Char => UInt8.ofNat c.toNat) ∘ fun b : UInt8 =>
          Char.ofNat b.toNat) = v.bytes.map id := List.map_congr_left fun b _ => by
        simp only [Function.comp_apply, toNat_ofNat_of_lt b.toNat_lt, id_eq, UInt8.ofNat_toNat]
      rw [String.toList_ofList, List.map_map, hmap, List.map_id]
  · exact absurd h (by simp)

end HeaderValue

/-! ### Maps -/

/-- `http::HeaderMap`. -/
structure HeaderMap where
  fields : List (HeaderName × HeaderValue)
  deriving DecidableEq

namespace HeaderMap

instance : EmptyCollection HeaderMap := ⟨⟨[]⟩⟩

/-- The values of a field, in order. -/
def getAll (h : HeaderMap) (n : HeaderName) : List HeaderValue :=
  (h.fields.filter fun f => f.1 = n).map Prod.snd

/-- The first value of a field. -/
def get (h : HeaderMap) (n : HeaderName) : Option HeaderValue := (h.getAll n).head?

/-- The first value of a field, where it is text: `get(n).and_then(|v|
v.to_str().ok())`. -/
def getStr (h : HeaderMap) (n : HeaderName) : Option String := (h.get n).bind HeaderValue.toStr

def containsKey (h : HeaderMap) (n : HeaderName) : Bool := h.fields.any fun f => f.1 = n

def remove (h : HeaderMap) (n : HeaderName) : HeaderMap := ⟨h.fields.filter fun f => f.1 ≠ n⟩

def append (h : HeaderMap) (n : HeaderName) (v : HeaderValue) : HeaderMap :=
  ⟨h.fields ++ [(n, v)]⟩

/-- Replace every value of a field by one. -/
def insert (h : HeaderMap) (n : HeaderName) (v : HeaderValue) : HeaderMap :=
  (h.remove n).append n v

section

variable {h : HeaderMap} {n m : HeaderName} {v : HeaderValue}

@[simp] theorem getAll_remove_self : (h.remove n).getAll n = [] := by
  simp [getAll, remove, List.filter_filter]

theorem getAll_remove_of_ne (hne : m ≠ n) : (h.remove n).getAll m = h.getAll m := by
  rw [getAll, getAll, remove, List.filter_filter]
  refine congrArg _ (List.filter_congr fun f _ => ?_)
  by_cases hf : f.1 = m
  · simp [hf, hne]
  · simp [hf]

theorem getAll_append : (h.append n v).getAll m =
    h.getAll m ++ if n = m then [v] else [] := by
  by_cases hnm : n = m <;> simp [getAll, append, List.filter_append, hnm]

@[simp] theorem getAll_insert_self : (h.insert n v).getAll n = [v] := by
  rw [insert, getAll_append, getAll_remove_self, if_pos rfl]
  rfl

theorem getAll_insert_of_ne (hne : m ≠ n) : (h.insert n v).getAll m = h.getAll m := by
  rw [insert, getAll_append, getAll_remove_of_ne hne, if_neg (Ne.symm hne), List.append_nil]

/-- A field is kept or left out by its name. -/
theorem getAll_filter (p : HeaderName → Bool) :
    (HeaderMap.mk (h.fields.filter fun f => p f.1)).getAll n = if p n then h.getAll n else [] := by
  have hkeep : ∀ f ∈ h.fields, (decide (f.1 = n) && p f.1) = (decide (f.1 = n) && p n) := by
    intro f _
    by_cases hf : f.1 = n
    · rw [hf]
    · simp only [hf, decide_false, Bool.false_and]
  rw [getAll, getAll, List.filter_filter, List.filter_congr hkeep]
  cases p n with
  | true => simp
  | false => simp

theorem containsKey_eq_false_iff : h.containsKey n = false ↔ h.getAll n = [] := by
  rw [containsKey, List.any_eq_false, getAll, List.map_eq_nil_iff, List.filter_eq_nil_iff]

theorem get_remove_of_ne (hne : m ≠ n) : (h.remove n).get m = h.get m := by
  rw [get, get, getAll_remove_of_ne hne]

@[simp] theorem get_remove_self : (h.remove n).get n = none := by
  rw [get, getAll_remove_self]
  rfl

@[simp] theorem get_insert_self : (h.insert n v).get n = some v := by
  rw [get, getAll_insert_self]
  rfl

theorem get_insert_of_ne (hne : m ≠ n) : (h.insert n v).get m = h.get m := by
  rw [get, get, getAll_insert_of_ne hne]

end

end HeaderMap

/-! ### The fields the source names -/

namespace header

def cacheControl : HeaderName := ⟨"cache-control", by decide⟩
def pragma : HeaderName := ⟨"pragma", by decide⟩
def host : HeaderName := ⟨"host", by decide⟩
def via : HeaderName := ⟨"via", by decide⟩
def connection : HeaderName := ⟨"connection", by decide⟩
def age : HeaderName := ⟨"age", by decide⟩
def date : HeaderName := ⟨"date", by decide⟩
def expires : HeaderName := ⟨"expires", by decide⟩
def lastModified : HeaderName := ⟨"last-modified", by decide⟩
def etag : HeaderName := ⟨"etag", by decide⟩
def vary : HeaderName := ⟨"vary", by decide⟩
def authorization : HeaderName := ⟨"authorization", by decide⟩
def setCookie : HeaderName := ⟨"set-cookie", by decide⟩
def setCookie2 : HeaderName := ⟨"set-cookie2", by decide⟩
def contentRange : HeaderName := ⟨"content-range", by decide⟩
def contentLength : HeaderName := ⟨"content-length", by decide⟩
def contentType : HeaderName := ⟨"content-type", by decide⟩
def contentEncoding : HeaderName := ⟨"content-encoding", by decide⟩
def contentLanguage : HeaderName := ⟨"content-language", by decide⟩
def contentLocation : HeaderName := ⟨"content-location", by decide⟩
def acceptEncoding : HeaderName := ⟨"accept-encoding", by decide⟩
def range : HeaderName := ⟨"range", by decide⟩
def ifRange : HeaderName := ⟨"if-range", by decide⟩
def ifNoneMatch : HeaderName := ⟨"if-none-match", by decide⟩
def ifModifiedSince : HeaderName := ⟨"if-modified-since", by decide⟩
def ifMatch : HeaderName := ⟨"if-match", by decide⟩
def ifUnmodifiedSince : HeaderName := ⟨"if-unmodified-since", by decide⟩
def upgrade : HeaderName := ⟨"upgrade", by decide⟩
def transferEncoding : HeaderName := ⟨"transfer-encoding", by decide⟩
def secWebsocketKey : HeaderName := ⟨"sec-websocket-key", by decide⟩
def secWebsocketVersion : HeaderName := ⟨"sec-websocket-version", by decide⟩
def secWebsocketAccept : HeaderName := ⟨"sec-websocket-accept", by decide⟩
def altSvc : HeaderName := ⟨"alt-svc", by decide⟩
def location : HeaderName := ⟨"location", by decide⟩
def cookie : HeaderName := ⟨"cookie", by decide⟩
def proxyAuthorization : HeaderName := ⟨"proxy-authorization", by decide⟩
def userAgent : HeaderName := ⟨"user-agent", by decide⟩

end header

end Syndeo
