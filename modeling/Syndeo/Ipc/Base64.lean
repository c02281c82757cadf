import Syndeo.Data.Wrap
import Syndeo.Http.HeaderMap
import Syndeo.Platform

/-!
# Bytes in a message

A message is JSON, so bytes travel in it as base64, by an encoder and a decoder
written for it. The decoder reads six bits at a time into a register of 32, and
takes a byte out whenever there are eight; what was read before stays in the high
bits, is pushed out at the top, and is never looked at again
(`Syndeo.Base64Bytes.decode_encode`).
-/

namespace Syndeo

namespace Base64Bytes

/-! ### The source -/

/-- `ALPHABET`. -/
def alphabet : List UInt8 :=
  [65, 66, 67, 68, 69, 70, 71, 72, 73, 74, 75, 76, 77, 78, 79, 80, 81, 82, 83, 84, 85, 86, 87, 88,
    89, 90, 97, 98, 99, 100, 101, 102, 103, 104, 105, 106, 107, 108, 109, 110, 111, 112, 113, 114,
    115, 116, 117, 118, 119, 120, 121, 122, 48, 49, 50, 51, 52, 53, 54, 55, 56, 57, 43, 47]

/-- What pads the last group. -/
def pad : UInt8 := 61

/-- One pass of the loop of `encode`: the text of up to three bytes. -/
def encodeChunk (chunk : Bytes) : List UInt8 :=
  let n := (chunk.getD 0 0).toNat * 65536 + (chunk.getD 1 0).toNat * 256 + (chunk.getD 2 0).toNat
  let indices := [n >>> 18 &&& 63, n >>> 12 &&& 63, n >>> 6 &&& 63, n &&& 63]
  indices.zipIdx.map fun (idx, i) => if i ≤ chunk.length then alphabet.getD idx pad else pad

/-- `encode`. -/
def encode (bytes : Bytes) : String :=
  String.ofList (((Wrap.chunks 3 bytes).flatMap encodeChunk).map fun b => Char.ofNat b.toNat)

/-- `u8::is_ascii_whitespace`. -/
def isAsciiWhitespace (b : UInt8) : Bool := b == 32 || b == 9 || b == 10 || b == 12 || b == 13

/-- The loop of `decode`. An error names the character that is none of base64. -/
def decodeFrom : Bytes → (acc bits : ℕ) → Bytes → Except UInt8 Bytes
  | [], _, _, out => .ok out
  | ch :: rest, acc, bits, out =>
    if ch = pad then .ok out
    else
      match alphabet.idxOf? ch with
      | none => if isAsciiWhitespace ch then decodeFrom rest acc bits out else .error ch
      | some value =>
        let acc := (acc <<< 6) % 2 ^ 32 ||| value
        let bits := bits + 6
        if 8 ≤ bits then
          decodeFrom rest acc (bits - 8) (out ++ [UInt8.ofNat (acc >>> (bits - 8))])
        else decodeFrom rest acc bits out

/-- `decode`. -/
def decode (text : String) : Except UInt8 Bytes := decodeFrom (Text.utf8 text) 0 0 []

/-! ### Letters -/

/-- A letter of the alphabet is read as its place in it. -/
theorem idxOf?_alphabet {v : ℕ} (hv : v < 64) :
    alphabet.idxOf? (alphabet.getD v pad) = some v ∧ alphabet.getD v pad ≠ pad ∧
      (alphabet.getD v pad).toNat < 128 := by
  revert v
  decide +kernel

/-- **One letter** is six bits. -/
theorem decodeFrom_letter {v acc bits : ℕ} {rest out : Bytes} (hv : v < 64) :
    decodeFrom (alphabet.getD v pad :: rest) acc bits out =
      if 8 ≤ bits + 6 then
        decodeFrom rest (acc * 64 % 2 ^ 32 + v) (bits + 6 - 8)
          (out ++ [UInt8.ofNat ((acc * 64 % 2 ^ 32 + v) >>> (bits + 6 - 8))])
      else decodeFrom rest (acc * 64 % 2 ^ 32 + v) (bits + 6) out := by
  obtain ⟨hidx, hpad, -⟩ := idxOf?_alphabet hv
  have hor : (acc <<< 6) % 2 ^ 32 ||| v = acc * 64 % 2 ^ 32 + v := by
    have hshift : (acc <<< 6) % 2 ^ 32 = (acc % 2 ^ 26) <<< 6 := by
      rw [Nat.shiftLeft_eq, Nat.shiftLeft_eq]
      omega
    rw [hshift, ← Nat.shiftLeft_add_eq_or_of_lt hv, ← hshift, Nat.shiftLeft_eq]
  rw [decodeFrom, if_neg hpad, hidx]
  dsimp only
  rw [hor]

/-! ### Groups -/

/-- The four letters of a number of 24 bits. -/
theorem sextets_eq (n : ℕ) : [n >>> 18 &&& 63, n >>> 12 &&& 63, n >>> 6 &&& 63, n &&& 63] =
    [n / 2 ^ 18 % 64, n / 2 ^ 12 % 64, n / 2 ^ 6 % 64, n % 64] := by
  have hand : ∀ m : ℕ, m &&& 63 = m % 64 := fun m => Nat.and_two_pow_sub_one_eq_mod m 6
  rw [hand, hand, hand, hand, Nat.shiftRight_eq_div_pow, Nat.shiftRight_eq_div_pow,
    Nat.shiftRight_eq_div_pow]

private theorem ofNat_eq {n : ℕ} {b : UInt8} (h : n % 256 = b.toNat) : UInt8.ofNat n = b := by
  refine UInt8.toNat_inj.mp ?_
  rw [UInt8.toNat_ofNat', h]

/-- **A whole group** is read back as its three bytes. -/
theorem decodeFrom_encodeChunk (a b c : UInt8) (acc : ℕ) (rest out : Bytes) : ∃ acc',
    decodeFrom (encodeChunk [a, b, c] ++ rest) acc 0 out =
      decodeFrom rest acc' 0 (out ++ [a, b, c]) := by
  have ha := a.toNat_lt
  have hb := b.toNat_lt
  have hc := c.toNat_lt
  have hchunk : encodeChunk [a, b, c] =
      [alphabet.getD ((a.toNat * 65536 + b.toNat * 256 + c.toNat) / 2 ^ 18 % 64) pad,
        alphabet.getD ((a.toNat * 65536 + b.toNat * 256 + c.toNat) / 2 ^ 12 % 64) pad,
        alphabet.getD ((a.toNat * 65536 + b.toNat * 256 + c.toNat) / 2 ^ 6 % 64) pad,
        alphabet.getD ((a.toNat * 65536 + b.toNat * 256 + c.toNat) % 64) pad] := by
    rw [encodeChunk]
    dsimp only [List.getD_cons_zero, List.getD_cons_succ]
    rw [sextets_eq]
    rfl
  rw [hchunk]
  generalize hn : a.toNat * 65536 + b.toNat * 256 + c.toNat = n
  have hlt : ∀ m : ℕ, m % 64 < 64 := fun m => Nat.mod_lt _ (by decide)
  simp only [List.cons_append, List.nil_append, decodeFrom_letter (hlt _)]
  simp only [Nat.reduceAdd, Nat.reduceLeDiff, if_false, if_true, Nat.reduceSub,
    Nat.shiftRight_eq_div_pow]
  refine ⟨_, congrArg₂ _ rfl ?_⟩
  rw [List.append_assoc, List.append_assoc, List.singleton_append, List.singleton_append]
  congr 3
  · exact ofNat_eq (by omega)
  · exact ofNat_eq (by omega)
  · rw [ofNat_eq (b := c) (by omega)]

/-- A last group of one byte is read back as it, and the padding ends the text. -/
theorem decodeFrom_encodeChunk_one (a : UInt8) (acc : ℕ) (out : Bytes) :
    decodeFrom (encodeChunk [a]) acc 0 out = .ok (out ++ [a]) := by
  have ha := a.toNat_lt
  have hchunk : encodeChunk [a] =
      [alphabet.getD ((a.toNat * 65536 + 0 * 256 + 0) / 2 ^ 18 % 64) pad,
        alphabet.getD ((a.toNat * 65536 + 0 * 256 + 0) / 2 ^ 12 % 64) pad, pad, pad] := by
    rw [encodeChunk]
    dsimp only [List.getD_cons_zero, List.getD_cons_succ]
    rw [sextets_eq]
    rfl
  rw [hchunk]
  generalize hn : a.toNat * 65536 + 0 * 256 + 0 = n
  have hlt : ∀ m : ℕ, m % 64 < 64 := fun m => Nat.mod_lt _ (by decide)
  simp only [decodeFrom_letter (hlt _)]
  simp only [Nat.reduceAdd, Nat.reduceLeDiff, if_false, if_true, Nat.reduceSub,
    Nat.shiftRight_eq_div_pow]
  rw [decodeFrom, if_pos rfl, ofNat_eq (b := a) (by omega)]

/-- The same, of two bytes. -/
theorem decodeFrom_encodeChunk_two (a b : UInt8) (acc : ℕ) (out : Bytes) :
    decodeFrom (encodeChunk [a, b]) acc 0 out = .ok (out ++ [a, b]) := by
  have ha := a.toNat_lt
  have hb := b.toNat_lt
  have hchunk : encodeChunk [a, b] =
      [alphabet.getD ((a.toNat * 65536 + b.toNat * 256 + 0) / 2 ^ 18 % 64) pad,
        alphabet.getD ((a.toNat * 65536 + b.toNat * 256 + 0) / 2 ^ 12 % 64) pad,
        alphabet.getD ((a.toNat * 65536 + b.toNat * 256 + 0) / 2 ^ 6 % 64) pad, pad] := by
    rw [encodeChunk]
    dsimp only [List.getD_cons_zero, List.getD_cons_succ]
    rw [sextets_eq]
    rfl
  rw [hchunk]
  generalize hn : a.toNat * 65536 + b.toNat * 256 + 0 = n
  have hlt : ∀ m : ℕ, m % 64 < 64 := fun m => Nat.mod_lt _ (by decide)
  simp only [decodeFrom_letter (hlt _)]
  simp only [Nat.reduceAdd, Nat.reduceLeDiff, if_false, if_true, Nat.reduceSub,
    Nat.shiftRight_eq_div_pow]
  rw [decodeFrom, if_pos rfl, ofNat_eq (b := a) (by omega), ofNat_eq (b := b) (by omega),
    List.append_assoc, List.singleton_append]

/-- **Groups are read back**, one after the other, whatever the register held. -/
theorem decodeFrom_flatMap (bytes : Bytes) (acc : ℕ) (out : Bytes) :
    decodeFrom ((Wrap.chunks 3 bytes).flatMap encodeChunk) acc 0 out = .ok (out ++ bytes) := by
  match bytes with
  | [] =>
    rw [Wrap.chunks, List.append_nil]
    rfl
  | [a] =>
    rw [Wrap.chunks_of_length_le (by simp) (by simp), List.flatMap_singleton]
    exact decodeFrom_encodeChunk_one a acc out
  | [a, b] =>
    rw [Wrap.chunks_of_length_le (by simp) (by simp), List.flatMap_singleton]
    exact decodeFrom_encodeChunk_two a b acc out
  | a :: b :: c :: rest =>
    rw [Wrap.chunks, List.flatMap_cons]
    obtain ⟨acc', hgroup⟩ := decodeFrom_encodeChunk a b c acc
      ((Wrap.chunks 3 rest).flatMap encodeChunk) out
    refine hgroup.trans ((decodeFrom_flatMap rest acc' _).trans ?_)
    rw [List.append_assoc]
    rfl

/-! ### Texts -/

/-- What is encoded is ASCII. -/
theorem toNat_lt_of_mem_encodeChunk {chunk : Bytes} {b : UInt8} (h : b ∈ encodeChunk chunk) :
    b.toNat < 128 := by
  have halphabet : ∀ idx, (alphabet.getD idx pad).toNat < 128 := by
    intro idx
    by_cases hidx : idx < 64
    · exact (idxOf?_alphabet hidx).2.2
    · rw [List.getD_eq_getElem?_getD, List.getElem?_eq_none (by simpa [alphabet] using hidx)]
      decide
  rw [encodeChunk] at h
  obtain ⟨⟨idx, i⟩, -, rfl⟩ := List.mem_map.mp h
  dsimp only
  split
  · exact halphabet idx
  · decide

/-- The bytes of an ASCII text. -/
theorem utf8_ofList_map {bytes : Bytes} (h : ∀ b ∈ bytes, b.toNat < 128) :
    Text.utf8 (String.ofList (bytes.map fun b => Char.ofNat b.toNat)) = bytes := by
  rw [Text.utf8, String.toList_ofList]
  induction bytes with
  | nil => rfl
  | cons b bytes ih =>
    have hb := h b List.mem_cons_self
    have hchar : (Char.ofNat b.toNat).toNat = b.toNat :=
      HeaderValue.toNat_ofNat_of_lt (by omega)
    rw [List.map_cons, ← List.singleton_append, Utf8.encode_append,
      ih fun b' hb' => h b' (List.mem_cons_of_mem _ hb'), Utf8.encode_singleton (by omega), hchar,
      UInt8.ofNat_toNat, List.singleton_append]

/-- **What is encoded is read back**, whatever the bytes are. -/
theorem decode_encode (bytes : Bytes) : decode (encode bytes) = .ok bytes := by
  rw [decode, encode, utf8_ofList_map, decodeFrom_flatMap, List.nil_append]
  intro b hb
  obtain ⟨chunk, -, hb⟩ := List.mem_flatMap.mp hb
  exact toNat_lt_of_mem_encodeChunk hb

end Base64Bytes

end Syndeo
