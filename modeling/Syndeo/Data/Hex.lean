import Mathlib.Algebra.Order.Ring.Nat
import Mathlib.Data.List.Basic
import Mathlib.Tactic.Common

/-!
# Hexadecimal text

Bytes and numbers as lower-case hexadecimal digits, as the `hex` crate writes
them, and what it reads back: either case, two digits for a byte. What is written
reads back (`Syndeo.hexDecode_hexEncode`), the digits of a number determine it
(`Syndeo.hexDigits_inj`), and no digit is a control character.
-/

namespace Syndeo

/-- One hexadecimal digit. -/
def hexDigit (n : ℕ) : Char := if n < 10 then Char.ofNat (48 + n) else Char.ofNat (87 + n)

/-- The `k` lowest hexadecimal digits of a number, most significant first. -/
def hexDigits (n : ℕ) : ℕ → List Char
  | 0 => []
  | k + 1 => hexDigits (n / 16) k ++ [hexDigit (n % 16)]

/-- The value of a digit, in either case. -/
def hexValue (c : Char) : Option ℕ :=
  let n := c.toNat
  if 48 ≤ n ∧ n ≤ 57 then some (n - 48)
  else if 97 ≤ n ∧ n ≤ 102 then some (n - 87)
  else if 65 ≤ n ∧ n ≤ 70 then some (n - 55)
  else none

/-- `hex::encode`. -/
def hexEncode (bytes : List UInt8) : String :=
  String.ofList (bytes.flatMap fun b => hexDigits b.toNat 2)

/-- `hex::decode`, on the characters. -/
def hexDecodeChars : List Char → Option (List UInt8)
  | [] => some []
  | [_] => none
  | c :: d :: rest =>
    match hexValue c, hexValue d, hexDecodeChars rest with
    | some m, some n, some bytes => some (UInt8.ofNat (m * 16 + n) :: bytes)
    | _, _, _ => none

/-- `hex::decode`. -/
def hexDecode (text : String) : Option (List UInt8) := hexDecodeChars text.toList

/-! ### What is written reads back -/

/-- A digit has its value. -/
theorem hexValue_hexDigit : ∀ n < 16, hexValue (hexDigit n) = some n := by decide

/-- No digit is a control character. -/
theorem le_toNat_hexDigit : ∀ n < 16, 48 ≤ (hexDigit n).toNat := by decide

theorem hexDigit_inj {m n : ℕ} (hm : m < 16) (hn : n < 16) (h : hexDigit m = hexDigit n) :
    m = n := by
  have hvalue := congrArg hexValue h
  rw [hexValue_hexDigit m hm, hexValue_hexDigit n hn] at hvalue
  exact Option.some.inj hvalue

@[simp] theorem length_hexDigits (n k : ℕ) : (hexDigits n k).length = k := by
  induction k generalizing n with
  | zero => rfl
  | succ k ih => rw [hexDigits, List.length_append, ih, List.length_singleton]

theorem le_toNat_of_mem_hexDigits {n k : ℕ} {c : Char} (h : c ∈ hexDigits n k) :
    48 ≤ c.toNat := by
  induction k generalizing n with
  | zero => exact absurd h List.not_mem_nil
  | succ k ih =>
    rcases List.mem_append.mp h with h | h
    · exact ih h
    · obtain rfl := List.mem_singleton.mp h
      exact le_toNat_hexDigit _ (Nat.mod_lt _ (by decide))

/-- Nor one outside ASCII. -/
theorem toNat_lt_of_mem_hexDigits {n k : ℕ} {c : Char} (h : c ∈ hexDigits n k) :
    c.toNat < 127 := by
  have hdigit : ∀ n < 16, (hexDigit n).toNat < 127 := by decide
  induction k generalizing n with
  | zero => exact absurd h List.not_mem_nil
  | succ k ih =>
    rcases List.mem_append.mp h with h | h
    · exact ih h
    · obtain rfl := List.mem_singleton.mp h
      exact hdigit _ (Nat.mod_lt _ (by decide))

/-- **The digits of a number determine it**, as far as they reach. -/
theorem hexDigits_inj {m n k : ℕ} (hm : m < 16 ^ k) (hn : n < 16 ^ k)
    (h : hexDigits m k = hexDigits n k) : m = n := by
  induction k generalizing m n with
  | zero => omega
  | succ k ih =>
    obtain ⟨hhigh, hlow⟩ := List.append_inj' h rfl
    have hlow := hexDigit_inj (Nat.mod_lt m (by decide)) (Nat.mod_lt n (by decide))
      (List.cons.inj hlow).1
    have hhigh := ih (by rw [Nat.pow_succ] at hm; omega) (by rw [Nat.pow_succ] at hn; omega) hhigh
    omega

/-- The two digits of a byte. -/
theorem hexDigits_two (b : UInt8) :
    hexDigits b.toNat 2 = [hexDigit (b.toNat / 16), hexDigit (b.toNat % 16)] := by
  have hb : b.toNat / 16 % 16 = b.toNat / 16 :=
    Nat.mod_eq_of_lt (by have := b.toNat_lt; omega)
  simp [hexDigits, hb]

theorem hexDecodeChars_append (bytes : List UInt8) (b : UInt8) :
    hexDecodeChars (hexDigits b.toNat 2 ++ bytes.flatMap fun b => hexDigits b.toNat 2) =
      (hexDecodeChars (bytes.flatMap fun b => hexDigits b.toNat 2)).map (b :: ·) := by
  have hlow : b.toNat % 16 < 16 := Nat.mod_lt _ (by decide)
  have hhigh : b.toNat / 16 < 16 := by
    have := b.toNat_lt
    omega
  have hbyte : UInt8.ofNat (b.toNat / 16 * 16 + b.toNat % 16) = b := by
    rw [Nat.div_add_mod', UInt8.ofNat_toNat]
  rw [hexDigits_two, List.cons_append, List.cons_append, List.nil_append, hexDecodeChars,
    hexValue_hexDigit _ hhigh, hexValue_hexDigit _ hlow]
  cases hexDecodeChars (bytes.flatMap fun b => hexDigits b.toNat 2) with
  | none => rfl
  | some rest => exact congrArg (fun b => some (b :: rest)) hbyte

/-- **What is written reads back.** -/
@[simp] theorem hexDecode_hexEncode (bytes : List UInt8) :
    hexDecode (hexEncode bytes) = some bytes := by
  rw [hexDecode, hexEncode, String.toList_ofList]
  induction bytes with
  | nil => rfl
  | cons b bytes ih => rw [List.flatMap_cons, hexDecodeChars_append, ih, Option.map_some]

theorem le_toNat_of_mem_hexEncode {bytes : List UInt8} {c : Char}
    (h : c ∈ (hexEncode bytes).toList) : 48 ≤ c.toNat := by
  rw [hexEncode, String.toList_ofList] at h
  obtain ⟨b, -, hb⟩ := List.mem_flatMap.mp h
  exact le_toNat_of_mem_hexDigits hb

/-- A mark that is no digit is nowhere in it. -/
theorem not_mem_hexEncode {mark : Char} (hmark : ∀ n < 16, hexDigit n ≠ mark) (bytes : List UInt8) :
    mark ∉ (hexEncode bytes).toList := by
  rw [hexEncode, String.toList_ofList, List.mem_flatMap]
  rintro ⟨b, -, hb⟩
  have hhigh : b.toNat / 16 < 16 := by
    have := b.toNat_lt
    omega
  rw [hexDigits_two, List.mem_pair] at hb
  rcases hb with hb | hb
  · exact hmark _ hhigh hb.symm
  · exact hmark _ (Nat.mod_lt _ (by decide)) hb.symm

end Syndeo
