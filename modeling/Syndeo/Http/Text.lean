import Syndeo.Data.Separated
import Syndeo.Data.Utf8

/-!
# Strings as the source handles them

The standard library's string operations that the source calls, as functions of
Lean strings. Each is defined through the list of characters, under the name it
has there: `trim` takes off Unicode white space, `to_ascii_lowercase` changes
the letters A to Z and nothing else, `parse::<u64>` takes an optional `+` and
then digits, and fails on a number that does not fit.
-/

namespace Syndeo

namespace Text

/-- What is said of the characters of a text is decided for one after another, and not for all
the characters there are. -/
instance (priority := high) decidableForallMem {α : Type} (p : α → Prop) [DecidablePred p]
    (l : List α) : Decidable (∀ x ∈ l, p x) := List.decidableBAll p l

/-- The characters with the Unicode property `White_Space`, which is what
`char::is_whitespace` asks for. -/
def isWhitespace (c : Char) : Bool :=
  let n := c.toNat
  (9 ≤ n && n ≤ 13) || n == 0x20 || n == 0x85 || n == 0xA0 || n == 0x1680 ||
    (0x2000 ≤ n && n ≤ 0x200A) || n == 0x2028 || n == 0x2029 || n == 0x202F || n == 0x205F ||
    n == 0x3000

/-- `trim_start`, on the characters. -/
def trimStartChars (cs : List Char) : List Char := cs.dropWhile isWhitespace

/-- `trim_end`, on the characters. -/
def trimEndChars (cs : List Char) : List Char := (cs.reverse.dropWhile isWhitespace).reverse

/-- `trim`, on the characters. -/
def trimChars (cs : List Char) : List Char := trimEndChars (trimStartChars cs)

/-- `str::trim`. -/
def trim (s : String) : String := String.ofList (trimChars s.toList)

/-- One character of `to_ascii_lowercase`. -/
def lowerChar (c : Char) : Char :=
  if 'A' ≤ c ∧ c ≤ 'Z' then Char.ofNat (c.toNat + 32) else c

/-- One character of `to_ascii_uppercase`. -/
def upperChar (c : Char) : Char :=
  if 'a' ≤ c ∧ c ≤ 'z' then Char.ofNat (c.toNat - 32) else c

/-- `str::to_ascii_lowercase`. -/
def toAsciiLowercase (s : String) : String := String.ofList (s.toList.map lowerChar)

/-- `str::to_ascii_uppercase`. -/
def toAsciiUppercase (s : String) : String := String.ofList (s.toList.map upperChar)

/-- `str::eq_ignore_ascii_case`. -/
def eqIgnoreAsciiCase (s t : String) : Bool := s.toList.map lowerChar == t.toList.map lowerChar

/-- `str::starts_with`, on the characters. -/
def startsWith (s t : String) : Bool := t.toList.isPrefixOf s.toList

/-- The rest of the characters after a given beginning. -/
def stripStart : List Char → List Char → Option (List Char)
  | [], cs => some cs
  | p :: ps, c :: cs => if p = c then stripStart ps cs else none
  | _ :: _, [] => none

/-- `str::split_once` at a character: what is before its first occurrence, and
what is after it. -/
def splitOnce (sep : Char) : List Char → Option (List Char × List Char)
  | [] => none
  | c :: cs =>
    if c = sep then some ([], cs)
    else (splitOnce sep cs).map fun r => (c :: r.1, r.2)

/-- `str::split_once` at a string. -/
def splitOnceAt (sep : List Char) : List Char → Option (List Char × List Char)
  | [] => (stripStart sep []).map fun rest => ([], rest)
  | c :: cs =>
    match stripStart sep (c :: cs) with
    | some rest => some ([], rest)
    | none => (splitOnceAt sep cs).map fun r => (c :: r.1, r.2)

/-- `str::rsplit_once` at a character: what is before its last occurrence, and
what is after it. -/
def rsplitOnce (sep : Char) (cs : List Char) : Option (List Char × List Char) :=
  (splitOnce sep cs.reverse).map fun r => (r.2.reverse, r.1.reverse)

/-- The numbers below `2 ^ 64`, which is what a `u64` holds. -/
def u64Bound : ℕ := 2 ^ 64

/-- The value of a run of ASCII digits, most significant first. -/
def digitsValue (acc : ℕ) : List Char → Option ℕ
  | [] => some acc
  | c :: cs => if c.isDigit then digitsValue (acc * 10 + (c.toNat - 48)) cs else none

/-- `str::parse::<u64>`, on the characters: an optional `+`, at least one digit,
no more than fits. -/
def parseU64 (cs : List Char) : Option ℕ :=
  let digits := match cs with
    | '+' :: ds => ds
    | ds => ds
  match digits with
  | [] => none
  | d :: ds => (digitsValue 0 (d :: ds)).filter (· < u64Bound)

theorem parseU64_lt {cs : List Char} {n : ℕ} (h : parseU64 cs = some n) : n < u64Bound := by
  simp only [parseU64] at h
  split at h
  · exact absurd h (by simp)
  · exact of_decide_eq_true (Option.filter_eq_some_iff.mp h).2

/-- `str::as_bytes`. -/
def utf8 (s : String) : List UInt8 := Utf8.encode s.toList

/-- The decimal text of a number is digits, and at least one. -/
theorem toList_toString_nat (n : ℕ) :
    (toString n).toList ≠ [] ∧ ∀ c ∈ (toString n).toList, c.isDigit = true := by
  rw [Nat.toString_eq_ofList_toDigits, String.toList_ofList]
  exact ⟨Nat.toDigits_ne_nil, fun c => Nat.isDigit_of_mem_toDigits (by decide) (by decide)⟩

/-- The decimal text of a number determines it. -/
theorem toString_nat_inj {m n : ℕ} (h : toString m = toString n) : m = n := by
  rw [Nat.toString_eq_ofList_toDigits, Nat.toString_eq_ofList_toDigits] at h
  have hvalue := congrArg (fun cs => Nat.ofDigitChars 10 cs 0) (String.ofList_injective h)
  simpa only [Nat.ofDigitChars_ten_toDigits] using hvalue

theorem utf8_inj {s t : String} (h : utf8 s = utf8 t) : s = t :=
  String.toList_injective (Utf8.encode_injective h)

/-! ### Letters -/

theorem toNat_lowerChar (c : Char) :
    (lowerChar c).toNat = if 65 ≤ c.toNat ∧ c.toNat ≤ 90 then c.toNat + 32 else c.toNat := by
  have hle : ('A' ≤ c ∧ c ≤ 'Z') ↔ 65 ≤ c.toNat ∧ c.toNat ≤ 90 := by
    rw [Char.le_def, Char.le_def, UInt32.le_iff_toNat_le, UInt32.le_iff_toNat_le]
    rfl
  rw [lowerChar]
  split_ifs with h₁ h₂ h₂
  · rw [Char.ofNat, dif_pos (Or.inl (by omega))]
    rfl
  · exact absurd (hle.mp h₁) h₂
  · exact absurd (hle.mpr h₂) h₁
  · rfl

theorem isDigit_iff {c : Char} : c.isDigit = true ↔ 48 ≤ c.toNat ∧ c.toNat ≤ 57 := by
  rw [Char.isDigit, Bool.and_eq_true, decide_eq_true_iff, decide_eq_true_iff, ge_iff_le,
    UInt32.le_iff_toNat_le, UInt32.le_iff_toNat_le]
  rfl

theorem isAlpha_iff {c : Char} :
    c.isAlpha = true ↔ 65 ≤ c.toNat ∧ c.toNat ≤ 90 ∨ 97 ≤ c.toNat ∧ c.toNat ≤ 122 := by
  have hletter : c.isAlpha = (decide (c.val ≥ 'A'.val ∧ c.val ≤ 'Z'.val) ||
      (c.val ≥ 'a'.val && c.val ≤ 'z'.val)) := rfl
  simp only [hletter, Bool.or_eq_true, Bool.and_eq_true,
    decide_eq_true_eq, ge_iff_le, UInt32.le_iff_toNat_le]
  rfl

/-- What is no letter is not changed, and comes from nothing else. -/
theorem lowerChar_eq_iff {c d : Char} (hd : d.toNat < 65) : lowerChar c = d ↔ c = d := by
  rw [← Char.toNat_inj, ← Char.toNat_inj, toNat_lowerChar]
  split_ifs <;> omega

@[simp] theorem lowerChar_lowerChar (c : Char) : lowerChar (lowerChar c) = lowerChar c := by
  rw [← Char.toNat_inj, toNat_lowerChar (lowerChar c), toNat_lowerChar]
  split_ifs <;> omega

theorem toNat_upperChar (c : Char) :
    (upperChar c).toNat = if 97 ≤ c.toNat ∧ c.toNat ≤ 122 then c.toNat - 32 else c.toNat := by
  have hle : ('a' ≤ c ∧ c ≤ 'z') ↔ 97 ≤ c.toNat ∧ c.toNat ≤ 122 := by
    rw [Char.le_def, Char.le_def, UInt32.le_iff_toNat_le, UInt32.le_iff_toNat_le]
    rfl
  rw [upperChar]
  split_ifs with h₁ h₂ h₂
  · rw [Char.ofNat, dif_pos (Or.inl (by omega))]
    rfl
  · exact absurd (hle.mp h₁) h₂
  · exact absurd (hle.mpr h₂) h₁
  · rfl

theorem upperChar_eq_iff {c d : Char} (hd : d.toNat < 65) : upperChar c = d ↔ c = d := by
  rw [← Char.toNat_inj, ← Char.toNat_inj, toNat_upperChar]
  split_ifs <;> omega

@[simp] theorem upperChar_lowerChar (c : Char) : upperChar (lowerChar c) = upperChar c := by
  rw [← Char.toNat_inj, toNat_upperChar, toNat_upperChar, toNat_lowerChar]
  split_ifs <;> omega

@[simp] theorem lowerChar_upperChar (c : Char) : lowerChar (upperChar c) = lowerChar c := by
  rw [← Char.toNat_inj, toNat_lowerChar, toNat_lowerChar, toNat_upperChar]
  split_ifs <;> omega

@[simp] theorem upperChar_upperChar (c : Char) : upperChar (upperChar c) = upperChar c := by
  rw [← upperChar_lowerChar (upperChar c), lowerChar_upperChar, upperChar_lowerChar]

theorem toAsciiUppercase_toAsciiUppercase (s : String) :
    toAsciiUppercase (toAsciiUppercase s) = toAsciiUppercase s := by
  simp [toAsciiUppercase, Function.comp_def]

/-- Strings alike up to case have one upper case. -/
theorem eqIgnoreAsciiCase_iff {s t : String} :
    eqIgnoreAsciiCase s t = true ↔ toAsciiUppercase s = toAsciiUppercase t := by
  have hupper : ∀ s : String, (s.toList.map lowerChar).map upperChar = s.toList.map upperChar :=
    fun s => by simp [Function.comp_def]
  have hlower : ∀ s : String, (s.toList.map upperChar).map lowerChar = s.toList.map lowerChar :=
    fun s => by simp [Function.comp_def]
  rw [eqIgnoreAsciiCase, beq_iff_eq, toAsciiUppercase, toAsciiUppercase]
  constructor
  · intro h
    rw [← hupper s, ← hupper t, h]
  · intro h
    rw [← hlower s, ← hlower t, String.ofList_injective h]

@[simp] theorem isDigit_lowerChar (c : Char) : (lowerChar c).isDigit = c.isDigit := by
  rw [Bool.eq_iff_iff, isDigit_iff, isDigit_iff, toNat_lowerChar]
  split_ifs <;> omega

theorem lowerChar_of_isDigit {c : Char} (h : c.isDigit = true) : lowerChar c = c := by
  rw [isDigit_iff] at h
  rw [← Char.toNat_inj, toNat_lowerChar, if_neg (by omega)]

theorem isWhitespace_lowerChar (c : Char) : isWhitespace (lowerChar c) = isWhitespace c := by
  rw [Bool.eq_iff_iff]
  simp only [isWhitespace, toNat_lowerChar, Bool.or_eq_true, Bool.and_eq_true, decide_eq_true_eq,
    beq_iff_eq]
  split_ifs <;> omega


/-! ### Numbers -/

theorem digitsValue_eq {cs : List Char} (h : ∀ c ∈ cs, c.isDigit = true) (acc : ℕ) :
    digitsValue acc cs = some (Nat.ofDigitChars 10 cs acc) := by
  induction cs generalizing acc with
  | nil => rw [digitsValue, Nat.ofDigitChars_nil]
  | cons c cs ih =>
    rw [digitsValue, if_pos (h c List.mem_cons_self), Nat.ofDigitChars_cons,
      ih fun d hd => h d (List.mem_cons_of_mem _ hd), Nat.mul_comm]
    rfl

theorem parseU64_cons {d : Char} {ds : List Char} (hd : d ≠ '+') :
    parseU64 (d :: ds) = (digitsValue 0 (d :: ds)).filter (· < u64Bound) := by
  simp only [parseU64]
  split
  · rename_i heq
    split at heq
    · rename_i hplus
      exact absurd (List.cons.inj hplus).1 hd
    · exact nomatch heq
  · rename_i heq
    split at heq
    · rename_i hplus
      exact absurd (List.cons.inj hplus).1 hd
    · rw [heq]

theorem parseU64_plus (ds : List Char) : parseU64 ('+' :: ds) =
    if ds = [] then none else (digitsValue 0 ds).filter (· < u64Bound) := by
  rcases ds with _ | ⟨d, ds⟩
  · rfl
  · rfl

/-- What has a value is digits. -/
theorem isDigit_of_digitsValue {cs : List Char} {acc n : ℕ} (h : digitsValue acc cs = some n) :
    ∀ c ∈ cs, c.isDigit = true := by
  induction cs generalizing acc with
  | nil => exact fun _ hc => nomatch hc
  | cons c cs ih =>
    rw [digitsValue] at h
    split_ifs at h with hc
    intro d hd
    rcases List.mem_cons.mp hd with rfl | hd
    · exact hc
    · exact ih h d hd

/-- **Digits are read** where their value fits. -/
theorem parseU64_of_digits {cs : List Char} (hne : cs ≠ []) (h : ∀ c ∈ cs, c.isDigit = true) :
    parseU64 cs = (some (Nat.ofDigitChars 10 cs 0)).filter (· < u64Bound) := by
  rcases cs with _ | ⟨d, ds⟩
  · exact absurd rfl hne
  · have hd : d ≠ '+' := by
      rintro rfl
      exact absurd (h '+' List.mem_cons_self) (by decide)
    rw [parseU64_cons hd, digitsValue_eq h]

/-- A number is read where it fits. -/
theorem parseU64_toString_eq (n : ℕ) :
    parseU64 (toString n).toList = (some n).filter (· < u64Bound) := by
  obtain ⟨hne, hdigits⟩ := toList_toString_nat n
  rw [parseU64_of_digits hne hdigits, Nat.toString_eq_ofList_toDigits, String.toList_ofList,
    Nat.ofDigitChars_ten_toDigits]

/-- **A number is read as it was written.** -/
theorem parseU64_toString {n : ℕ} (h : n < u64Bound) : parseU64 (toString n).toList = some n := by
  rw [parseU64_toString_eq, Option.filter_some, if_pos (by simpa)]

theorem isWhitespace_of_isDigit {c : Char} (h : c.isDigit = true) : isWhitespace c = false := by
  rw [isDigit_iff] at h
  by_contra hspace
  simp only [Bool.not_eq_false, isWhitespace, Bool.or_eq_true, Bool.and_eq_true,
    decide_eq_true_eq, beq_iff_eq] at hspace
  omega

/-! ### Splitting -/

theorem stripStart_append (p cs : List Char) : stripStart p (p ++ cs) = some cs := by
  induction p with
  | nil => rfl
  | cons c p ih => rw [List.cons_append, stripStart, if_pos rfl, ih]

theorem eq_append_of_stripStart {p cs rest : List Char} (h : stripStart p cs = some rest) :
    cs = p ++ rest := by
  induction p generalizing cs with
  | nil => exact Option.some.inj h
  | cons c p ih =>
    rcases cs with _ | ⟨d, cs⟩
    · exact nomatch h
    · rw [stripStart] at h
      split_ifs at h with hc
      rw [hc, ih h, List.cons_append]

theorem eq_append_of_splitOnceAt {sep cs a b : List Char} (h : splitOnceAt sep cs = some (a, b)) :
    cs = a ++ sep ++ b := by
  induction cs generalizing a with
  | nil =>
    obtain ⟨rest, hrest, heq⟩ := Option.map_eq_some_iff.mp h
    obtain ⟨rfl, rfl⟩ := Prod.mk.inj heq
    exact eq_append_of_stripStart hrest
  | cons c cs ih =>
    rw [splitOnceAt] at h
    split at h
    · rename_i rest hrest
      obtain ⟨rfl, rfl⟩ := Prod.mk.inj (Option.some.inj h)
      exact eq_append_of_stripStart hrest
    · obtain ⟨⟨a', b'⟩, hrest, heq⟩ := Option.map_eq_some_iff.mp h
      obtain ⟨rfl, rfl⟩ := Prod.mk.inj heq
      rw [ih hrest]
      rfl

/-- The first occurrence is the one before which the separator's first character
does not occur. -/
theorem splitOnceAt_append {c : Char} {sep a : List Char} (ha : c ∉ a) (b : List Char) :
    splitOnceAt (c :: sep) (a ++ (c :: sep ++ b)) = some (a, b) := by
  induction a with
  | nil =>
    have hstrip := stripStart_append (c :: sep) b
    rw [List.nil_append, List.cons_append, splitOnceAt]
    rw [List.cons_append] at hstrip
    rw [hstrip]
  | cons d a ih =>
    have hd : c ≠ d := fun heq => ha (heq ▸ List.mem_cons_self)
    rw [List.cons_append, splitOnceAt, stripStart, if_neg hd,
      ih fun hm => ha (List.mem_cons_of_mem _ hm)]
    rfl

theorem splitOnce_append {sep : Char} {a : List Char} (ha : sep ∉ a) (b : List Char) :
    splitOnce sep (a ++ sep :: b) = some (a, b) := by
  induction a with
  | nil => rw [List.nil_append, splitOnce, if_pos rfl]
  | cons d a ih =>
    have hd : d ≠ sep := fun heq => ha (heq ▸ List.mem_cons_self)
    rw [List.cons_append, splitOnce, if_neg hd, ih fun hm => ha (List.mem_cons_of_mem _ hm)]
    rfl

theorem eq_append_of_splitOnce {sep : Char} {cs a b : List Char}
    (h : splitOnce sep cs = some (a, b)) : cs = a ++ sep :: b := by
  induction cs generalizing a with
  | nil => exact nomatch h
  | cons c cs ih =>
    rw [splitOnce] at h
    split_ifs at h with hc
    · obtain ⟨rfl, rfl⟩ := Prod.mk.inj (Option.some.inj h)
      rw [hc, List.nil_append]
    · obtain ⟨⟨a', b'⟩, hrest, heq⟩ := Option.map_eq_some_iff.mp h
      obtain ⟨rfl, rfl⟩ := Prod.mk.inj heq
      rw [ih hrest, List.cons_append]

/-- The first occurrence: there is none before it. -/
theorem not_mem_of_splitOnce {sep : Char} {cs a b : List Char}
    (h : splitOnce sep cs = some (a, b)) : sep ∉ a := by
  induction cs generalizing a with
  | nil => exact nomatch h
  | cons c cs ih =>
    rw [splitOnce] at h
    split_ifs at h with hc
    · obtain ⟨rfl, -⟩ := Prod.mk.inj (Option.some.inj h)
      exact List.not_mem_nil
    · obtain ⟨⟨a', b'⟩, hrest, heq⟩ := Option.map_eq_some_iff.mp h
      obtain ⟨rfl, rfl⟩ := Prod.mk.inj heq
      exact fun hm => (List.mem_cons.mp hm).elim (fun he => hc he.symm) (ih hrest)

theorem splitOnce_of_not_mem {sep : Char} {cs : List Char} (h : sep ∉ cs) :
    splitOnce sep cs = none := by
  induction cs with
  | nil => rfl
  | cons d cs ih =>
    have hd : d ≠ sep := fun heq => h (heq ▸ List.mem_cons_self)
    rw [splitOnce, if_neg hd, ih fun hm => h (List.mem_cons_of_mem _ hm)]
    rfl

theorem not_mem_of_splitOnce_eq_none {sep : Char} {cs : List Char} (h : splitOnce sep cs = none) :
    sep ∉ cs := by
  intro hm
  obtain ⟨a, b, rfl, ha⟩ := List.eq_append_cons_of_mem hm
  rw [splitOnce_append ha] at h
  exact nomatch h

theorem splitOnce_map {sep : Char} {f : Char → Char} (hf : ∀ c, f c = sep ↔ c = sep)
    (cs : List Char) :
    splitOnce sep (cs.map f) = (splitOnce sep cs).map fun r => (r.1.map f, r.2.map f) := by
  induction cs with
  | nil => rfl
  | cons c cs ih =>
    rw [List.map_cons, splitOnce, splitOnce, ih]
    by_cases hc : c = sep
    · rw [if_pos hc, if_pos ((hf c).mpr hc)]
      rfl
    · rw [if_neg hc, if_neg (mt (hf c).mp hc), Option.map_map, Option.map_map]
      rfl

theorem rsplitOnce_append {sep : Char} {b : List Char} (hb : sep ∉ b) (a : List Char) :
    rsplitOnce sep (a ++ sep :: b) = some (a, b) := by
  have hreverse : (a ++ sep :: b).reverse = b.reverse ++ sep :: a.reverse := by simp
  rw [rsplitOnce, hreverse, splitOnce_append (mt List.mem_reverse.mp hb)]
  simp

theorem eq_append_of_rsplitOnce {sep : Char} {cs a b : List Char}
    (h : rsplitOnce sep cs = some (a, b)) : cs = a ++ sep :: b := by
  obtain ⟨⟨b', a'⟩, hrest, heq⟩ := Option.map_eq_some_iff.mp h
  obtain ⟨rfl, rfl⟩ := Prod.mk.inj heq
  rw [← List.reverse_reverse cs, eq_append_of_splitOnce hrest]
  simp

/-- The last occurrence: there is none behind it. -/
theorem not_mem_of_rsplitOnce {sep : Char} {cs a b : List Char}
    (h : rsplitOnce sep cs = some (a, b)) : sep ∉ b := by
  obtain ⟨⟨b', a'⟩, hrest, heq⟩ := Option.map_eq_some_iff.mp h
  obtain ⟨rfl, rfl⟩ := Prod.mk.inj heq
  exact fun hm => not_mem_of_splitOnce hrest (List.mem_reverse.mp hm)

theorem rsplitOnce_of_not_mem {sep : Char} {cs : List Char} (h : sep ∉ cs) :
    rsplitOnce sep cs = none := by
  rw [rsplitOnce, splitOnce_of_not_mem (mt List.mem_reverse.mp h)]
  rfl

theorem not_mem_of_rsplitOnce_eq_none {sep : Char} {cs : List Char}
    (h : rsplitOnce sep cs = none) : sep ∉ cs := fun hm =>
  not_mem_of_splitOnce_eq_none (Option.map_eq_none_iff.mp h) (List.mem_reverse.mpr hm)

theorem rsplitOnce_map {sep : Char} {f : Char → Char} (hf : ∀ c, f c = sep ↔ c = sep)
    (cs : List Char) :
    rsplitOnce sep (cs.map f) = (rsplitOnce sep cs).map fun r => (r.1.map f, r.2.map f) := by
  rw [rsplitOnce, rsplitOnce, ← List.map_reverse, splitOnce_map hf, Option.map_map, Option.map_map]
  congr 1
  funext r
  simp

theorem trimChars_eq_self {cs : List Char} (hhead : ∀ c ∈ cs.head?, isWhitespace c = false)
    (hlast : ∀ c ∈ cs.getLast?, isWhitespace c = false) : trimChars cs = cs := by
  have hdrop : ∀ l : List Char, (∀ c ∈ l.head?, isWhitespace c = false) →
      l.dropWhile isWhitespace = l := by
    intro l hl
    rcases l with _ | ⟨c, l⟩
    · rfl
    · rw [List.dropWhile_cons, hl c rfl]
      rfl
  rw [trimChars, trimStartChars, hdrop cs hhead, trimEndChars, hdrop, List.reverse_reverse]
  rwa [List.head?_reverse]

/-! ### White space -/

/-- Nothing but white space. -/
def Blank (cs : List Char) : Prop := ∀ c ∈ cs, isWhitespace c = true

section Blank

variable {a b cs : List Char}

theorem blank_nil : Blank [] := fun _ h => nomatch h

theorem Blank.append (ha : Blank a) (hb : Blank b) : Blank (a ++ b) := fun c hc =>
  (List.mem_append.mp hc).elim (ha c) (hb c)

theorem Blank.not_mem {c : Char} (h : Blank cs) (hc : isWhitespace c = false) : c ∉ cs := by
  intro hmem
  exact absurd (h c hmem) (by simp [hc])

/-- What is trimmed off the front. -/
theorem exists_trimStartChars (cs : List Char) : ∃ a, Blank a ∧ cs = a ++ trimStartChars cs :=
  ⟨cs.takeWhile isWhitespace, fun c hc => List.all_eq_true.mp List.all_takeWhile c hc,
    (List.takeWhile_append_dropWhile).symm⟩

theorem trimStartChars_append (ha : Blank a) (cs : List Char) :
    trimStartChars (a ++ cs) = trimStartChars cs :=
  List.dropWhile_append_of_pos ha

theorem trimStartChars_cons {c : Char} (hc : isWhitespace c = false) (cs : List Char) :
    trimStartChars (c :: cs) = c :: cs := by
  rw [trimStartChars, List.dropWhile_cons_of_neg (by simp [hc])]

/-- What is trimmed off the end. -/
theorem exists_trimEndChars (cs : List Char) : ∃ b, Blank b ∧ cs = trimEndChars cs ++ b := by
  obtain ⟨a, ha, hcs⟩ := exists_trimStartChars cs.reverse
  refine ⟨a.reverse, fun c hc => ha c (List.mem_reverse.mp hc), ?_⟩
  rw [trimEndChars, ← List.reverse_append, ← trimStartChars, ← hcs, List.reverse_reverse]

theorem trimEndChars_append (hb : Blank b) (cs : List Char) :
    trimEndChars (cs ++ b) = trimEndChars cs := by
  have hreverse : Blank b.reverse := fun c hc => hb c (List.mem_reverse.mp hc)
  rw [trimEndChars, trimEndChars, List.reverse_append, ← trimStartChars,
    trimStartChars_append hreverse, trimStartChars]

/-- Only what follows the last character that is no white space is trimmed. -/
theorem trimEndChars_append_cons {c : Char} (hc : isWhitespace c = false) (a cs : List Char) :
    trimEndChars (a ++ c :: cs) = a ++ c :: trimEndChars cs := by
  obtain ⟨b, hb, hcs⟩ := exists_trimEndChars cs
  have hlast : ∀ l : List Char, l.reverse.head? = l.getLast? := fun _ => List.head?_reverse
  have hself : trimEndChars (a ++ c :: trimEndChars cs) = a ++ c :: trimEndChars cs := by
    have hdrop : ∀ l : List Char, (∀ d ∈ l.head?, isWhitespace d = false) →
        l.dropWhile isWhitespace = l := by
      intro l hl
      rcases l with _ | ⟨d, l⟩
      · rfl
      · exact List.dropWhile_cons_of_neg (by simp [hl d rfl])
    rw [trimEndChars, hdrop, List.reverse_reverse]
    intro d hd
    rw [hlast, List.getLast?_append_of_ne_nil _ (List.cons_ne_nil _ _)] at hd
    rcases hend : trimEndChars cs with _ | ⟨e, l⟩
    · rw [hend] at hd
      obtain rfl : c = d := Option.some.inj hd
      exact hc
    · rw [hend, List.getLast?_cons_of_ne_nil (List.cons_ne_nil _ _), ← hend, ← hlast, trimEndChars,
        List.reverse_reverse] at hd
      have hdropped := List.head?_dropWhile_not isWhitespace cs.reverse
      rw [Option.mem_def.mp hd] at hdropped
      simpa using hdropped
  rw [hcs, ← List.cons_append, ← List.append_assoc, trimEndChars_append hb, ← hcs, hself]

/-- What is trimmed off. -/
theorem exists_trimChars (cs : List Char) :
    ∃ a b, Blank a ∧ Blank b ∧ cs = a ++ (trimChars cs ++ b) := by
  obtain ⟨a, ha, hcs⟩ := exists_trimStartChars cs
  obtain ⟨b, hb, hend⟩ := exists_trimEndChars (trimStartChars cs)
  refine ⟨a, b, ha, hb, ?_⟩
  rw [trimChars, ← hend, ← hcs]

theorem trimChars_blank (h : Blank cs) : trimChars cs = [] := by
  have hstart : trimStartChars cs = [] := by
    rw [← List.append_nil cs, trimStartChars_append h]
    rfl
  rw [trimChars, hstart]
  rfl

/-- White space around a text is trimmed off. -/
theorem trimChars_append (ha : Blank a) (hb : Blank b) (cs : List Char) :
    trimChars (a ++ (cs ++ b)) = trimChars cs := by
  rw [trimChars, trimStartChars_append ha]
  obtain ⟨x, hx, hcs⟩ := exists_trimStartChars cs
  rcases hrest : trimStartChars cs with _ | ⟨c, l⟩
  · rw [hrest, List.append_nil] at hcs
    have hall : Blank (cs ++ b) := (hcs ▸ hx).append hb
    exact (trimChars_blank hall).trans (trimChars_blank (hcs ▸ hx)).symm
  · have hc : isWhitespace c = false := by
      have hhead := List.head?_dropWhile_not isWhitespace cs
      rw [← trimStartChars, hrest] at hhead
      simpa using hhead
    rw [hcs, hrest, List.append_assoc, trimStartChars_append hx, List.cons_append,
      trimStartChars_cons hc, ← List.cons_append, trimEndChars_append hb, trimChars,
      trimStartChars_append hx, trimStartChars_cons hc]

theorem trimChars_eq_nil_iff : trimChars cs = [] ↔ Blank cs := by
  refine ⟨fun h => ?_, trimChars_blank⟩
  obtain ⟨a, b, ha, hb, hcs⟩ := exists_trimChars cs
  rw [hcs, h, List.nil_append]
  exact ha.append hb

theorem trimChars_trimStartChars (cs : List Char) : trimChars (trimStartChars cs) = trimChars cs := by
  obtain ⟨a, ha, hcs⟩ := exists_trimStartChars cs
  have happend := trimChars_append ha blank_nil (trimStartChars cs)
  rw [List.append_nil, ← hcs] at happend
  exact happend.symm

theorem trimChars_trimEndChars (cs : List Char) : trimChars (trimEndChars cs) = trimChars cs := by
  obtain ⟨b, hb, hcs⟩ := exists_trimEndChars cs
  have happend := trimChars_append blank_nil hb (trimEndChars cs)
  rw [List.nil_append, ← hcs] at happend
  exact happend.symm

/-- White space before what is none is trimmed, and nothing else. -/
theorem trimStartChars_append_cons {c : Char} (hc : isWhitespace c = false) (a b : List Char) :
    trimStartChars (a ++ c :: b) = trimStartChars a ++ c :: b := by
  obtain ⟨x, hx, ha⟩ := exists_trimStartChars a
  rw [ha, List.append_assoc, trimStartChars_append hx, trimStartChars_append hx]
  rcases hrest : trimStartChars a with _ | ⟨d, l⟩
  · rw [List.nil_append, trimStartChars_cons hc]
    rfl
  · have hd : isWhitespace d = false := by
      have hhead := List.head?_dropWhile_not isWhitespace a
      rw [← trimStartChars, hrest] at hhead
      simpa using hhead
    rw [List.cons_append, trimStartChars_cons hd, trimStartChars_cons hd, List.cons_append]

/-- What is not white space keeps what is about it apart. -/
theorem trimChars_append_cons {c : Char} (hc : isWhitespace c = false) (a b : List Char) :
    trimChars (a ++ c :: b) = trimStartChars a ++ c :: trimEndChars b := by
  rw [trimChars, trimStartChars_append_cons hc, trimEndChars_append_cons hc]

end Blank

section Lines

open Separated

/-- `char::is_control`: the characters of the category `Cc`. -/
def isControl (c : Char) : Bool := c.toNat < 32 || (127 ≤ c.toNat && c.toNat < 160)

/-- A line without the carriage return before its end. -/
def stripCarriage (line : List Char) : List Char :=
  if line.getLast? = some '\r' then line.dropLast else line

/-- `str::lines`: what is after the last line feed is a line if it is not empty, and
keeps its carriage return. -/
def lines (text : List Char) : List (List Char) :=
  (wholeLines '\n' text).map stripCarriage ++
    ((text.splitOn '\n').getLast?.filter fun line => !line.isEmpty).toList

/-- Lines that were written one after another are read one after another. -/
theorem lines_terminated {parts : List (List Char)} (hline : ∀ part ∈ parts, '\n' ∉ part)
    (hreturn : ∀ part ∈ parts, '\r' ∉ part) : lines (terminated '\n' parts) = parts := by
  have hstrip : ∀ part ∈ parts, stripCarriage part = part := by
    intro part hpart
    exact if_neg fun hlast => hreturn part hpart (List.mem_of_getLast? hlast)
  rw [lines, wholeLines, splitOn_terminated hline, List.dropLast_concat, List.getLast?_concat,
    List.map_congr_left hstrip, List.map_id']
  exact List.append_nil parts

end Lines

end Text

/-! ### Unicode tables -/

/-- `GeneralCategory`, as far as it is looked at. -/
inductive GeneralCategory
  | control
  | format
  | other
  deriving DecidableEq

open Text

/-! ### `u64` arithmetic -/

/-- Wrapping `u64` arithmetic. -/
def wrap (n : ℕ) : ℕ := n % u64Bound

theorem wrap_of_lt {n : ℕ} (h : n < u64Bound) : wrap n = n := Nat.mod_eq_of_lt h

theorem wrap_le (n : ℕ) : wrap n ≤ n := Nat.mod_le _ _

/-- A wrapping `u64` difference. -/
def wrapSub (m n : ℕ) : ℕ := wrap (m + u64Bound - n)

theorem wrapSub_of_le {m n : ℕ} (h : n ≤ m) (hm : m < u64Bound) : wrapSub m n = m - n := by
  rw [wrapSub, Nat.sub_add_comm h, wrap, Nat.add_mod_right, Nat.mod_eq_of_lt (by omega)]

end Syndeo
