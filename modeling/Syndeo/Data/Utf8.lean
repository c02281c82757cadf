import Mathlib.Data.List.Basic
import Mathlib.Tactic.Common

/-!
# UTF-8, as lists

The bytes of a list of characters, and the characters of a list of bytes. Both
are Lean's own encoding, read as functions of lists; what is added is that one
undoes the other (`Utf8.decode_eq_some_iff`), and that an ASCII byte among the
bytes is an ASCII character among the characters (`Utf8.exists_mem_of_mem_encode`),
which is what makes such a byte a separator.
-/

namespace Utf8

/-- The bytes of some characters. -/
def encode (cs : List Char) : List UInt8 := cs.flatMap String.utf8EncodeChar

/-- The characters of some bytes, if the bytes are UTF-8. -/
def decode (bytes : List UInt8) : Option (List Char) :=
  (ByteArray.mk bytes.toArray).utf8Decode?.map Array.toList

@[simp] theorem encode_nil : encode [] = [] := rfl

@[simp] theorem encode_append (cs ds : List Char) : encode (cs ++ ds) = encode cs ++ encode ds :=
  List.flatMap_append

private theorem mk_encode (cs : List Char) :
    ByteArray.mk (encode cs).toArray = cs.utf8Encode := by
  rw [List.utf8Encode, encode]
  ext1
  simp

@[simp] theorem decode_encode (cs : List Char) : decode (encode cs) = some cs := by
  rw [decode, mk_encode, List.utf8Decode?_utf8Encode]
  rfl

/-- **Decoding undoes encoding, and nothing else decodes.** -/
theorem decode_eq_some_iff {bytes : List UInt8} {cs : List Char} :
    decode bytes = some cs ↔ bytes = encode cs := by
  constructor
  · intro h
    obtain ⟨a, ha, rfl⟩ := Option.map_eq_some_iff.mp h
    have hsome : (ByteArray.mk bytes.toArray).utf8Decode?.isSome := by simp [ha]
    have hbytes := ByteArray.utf8Encode_get_utf8Decode? (h := hsome)
    have hget : (ByteArray.mk bytes.toArray).utf8Decode?.get hsome = a := by simp [ha]
    rw [hget, ← mk_encode] at hbytes
    have hlists := congrArg (fun b => b.data.toList) hbytes
    simpa using hlists.symm
  · rintro rfl
    exact decode_encode cs

theorem encode_injective : Function.Injective encode := fun cs ds h => by
  have hdecode := congrArg decode h
  rw [decode_encode, decode_encode] at hdecode
  exact Option.some.inj hdecode

/-- An ASCII character is one byte. -/
theorem encode_singleton {c : Char} (hc : c.toNat < 128) :
    encode [c] = [UInt8.ofNat c.toNat] := by
  have hval : c.val.toNat = c.toNat := rfl
  rw [encode, List.flatMap_singleton, String.utf8EncodeChar]
  simp only [hval]
  rw [if_pos (by omega)]

/-- So ASCII text is as long as it has characters. -/
theorem length_encode_of_ascii {cs : List Char} (h : ∀ c ∈ cs, c.toNat < 128) :
    (encode cs).length = cs.length := by
  induction cs with
  | nil => rfl
  | cons c cs ih =>
    rw [← List.singleton_append, encode_append, List.length_append,
      ih fun d hd => h d (List.mem_cons_of_mem _ hd), encode_singleton (h c List.mem_cons_self),
      List.length_append]
    rfl

/-- A byte below 128 is a character of its own. -/
theorem toNat_of_mem_utf8EncodeChar {c : Char} {b : UInt8} (h : b ∈ String.utf8EncodeChar c)
    (hb : b.toNat < 128) : c.toNat = b.toNat := by
  have hc : c.val.toNat = c.toNat := rfl
  unfold String.utf8EncodeChar at h
  simp only [hc] at h
  split at h
  · obtain rfl := List.mem_singleton.mp h
    rw [UInt8.toNat_ofNat', Nat.mod_eq_of_lt (by omega)]
  · exfalso
    -- of a longer encoding every byte has its highest bit set
    split at h
    · simp only [List.mem_cons, List.not_mem_nil, or_false] at h
      rcases h with rfl | rfl <;> simp only [UInt8.toNat_ofNat'] at hb <;> omega
    · split at h
      · simp only [List.mem_cons, List.not_mem_nil, or_false] at h
        rcases h with rfl | rfl | rfl <;> simp only [UInt8.toNat_ofNat'] at hb <;> omega
      · simp only [List.mem_cons, List.not_mem_nil, or_false] at h
        rcases h with rfl | rfl | rfl | rfl <;> simp only [UInt8.toNat_ofNat'] at hb <;> omega

/-- **An ASCII byte of a text is one of its characters.** -/
theorem exists_mem_of_mem_encode {cs : List Char} {b : UInt8} (h : b ∈ encode cs)
    (hb : b.toNat < 128) : ∃ c ∈ cs, c.toNat = b.toNat := by
  obtain ⟨c, hc, hbc⟩ := List.mem_flatMap.mp h
  exact ⟨c, hc, toNat_of_mem_utf8EncodeChar hbc hb⟩

end Utf8
