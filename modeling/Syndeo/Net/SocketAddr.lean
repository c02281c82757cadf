import Syndeo.Http.Text

/-!
# Socket addresses, as text

What a socket is bound to is told to another program as text, and read there by the standard
library: four numbers that fit a byte, with a dot between any two and no zero in front, a colon,
and a port. Its reader takes the digits there are, and refuses what is left over.

An address is read as it was written (`Syndeo.SocketAddrV4.ofText_text`).
-/

namespace Syndeo

open Text

/-- `std::net::SocketAddrV4`, octet by octet. -/
structure SocketAddrV4 where
  a : UInt8
  b : UInt8
  c : UInt8
  d : UInt8
  port : UInt16
  deriving DecidableEq, Repr

namespace SocketAddrV4

/-- The address's own text: `Ipv4Addr`'s `Display`. -/
def ipText (self : SocketAddrV4) : List Char :=
  (toString self.a.toNat).toList ++ '.' :: ((toString self.b.toNat).toList ++ '.' ::
    ((toString self.c.toNat).toList ++ '.' :: (toString self.d.toNat).toList))

/-- And the port's. -/
def portText (self : SocketAddrV4) : List Char := (toString self.port.toNat).toList

/-- `Display`. -/
def text (self : SocketAddrV4) : List Char := self.ipText ++ ':' :: self.portText

/-- `IpAddr::is_loopback`. -/
def isLoopback (self : SocketAddrV4) : Bool := self.a == 127

/-! ### The reader -/

/-- `Parser::read_number`, in base ten: as many digits as there are, no more than so many, and
a number below a bound. -/
def readNumber (maxDigits : Option ℕ) (allowZeroPrefix : Bool) (bound : ℕ) (text : List Char) :
    Option (ℕ × List Char) :=
  let digits := text.takeWhile Char.isDigit
  let value := Nat.ofDigitChars 10 digits 0
  if digits = [] ∨ maxDigits.any (· < digits.length) = true ∨
      (allowZeroPrefix = false ∧ digits.head? = some '0' ∧ 1 < digits.length) ∨ bound ≤ value then
    none
  else some (value, text.dropWhile Char.isDigit)

/-- `Parser::read_given_char`. -/
def readGivenChar (given : Char) : List Char → Option (List Char)
  | [] => none
  | c :: text => if c = given then some text else none

/-- One group of an address: `Parser::read_ipv4_addr`, once round its loop. -/
def readGroup (text : List Char) : Option (UInt8 × List Char) :=
  (readNumber (some 3) false 256 text).map fun read => (UInt8.ofNat read.1, read.2)

/-- A group behind a dot. -/
def readDotted (text : List Char) : Option (UInt8 × List Char) :=
  (readGivenChar '.' text).bind readGroup

/-- `Parser::read_socket_addr_v4`. -/
def readSocketAddrV4 (text : List Char) : Option (SocketAddrV4 × List Char) := do
  let (a, text) ← readGroup text
  let (b, text) ← readDotted text
  let (c, text) ← readDotted text
  let (d, text) ← readDotted text
  let text ← readGivenChar ':' text
  let (port, text) ← readNumber none true (2 ^ 16) text
  return (⟨a, b, c, d, UInt16.ofNat port⟩, text)

/-- What `SocketAddr::from_str` makes of a text that is an IPv4 address's: the whole of it. -/
def ofText (text : List Char) : Option SocketAddrV4 :=
  match readSocketAddrV4 text with
  | some (address, []) => some address
  | _ => none

/-! ### What is read -/

/-- What is behind a number does not begin with a digit. -/
def Ends (text : List Char) : Prop := text.head?.all (fun c => !c.isDigit) = true

theorem ends_cons {c : Char} (h : c.isDigit = false) (text : List Char) : Ends (c :: text) := by
  simp [Ends, h]

theorem ends_nil : Ends [] := rfl

variable {rest : List Char} {n : ℕ}

theorem takeWhile_number (h : Ends rest) :
    ((toString n).toList ++ rest).takeWhile Char.isDigit = (toString n).toList := by
  rw [List.takeWhile_append_of_pos (toList_toString_nat n).2]
  cases rest with
  | nil => simp
  | cons c rest =>
    have hc : c.isDigit = false := by simpa [Ends] using h
    rw [List.takeWhile_cons_of_neg (by simp [hc]), List.append_nil]

theorem dropWhile_number (h : Ends rest) :
    ((toString n).toList ++ rest).dropWhile Char.isDigit = rest := by
  rw [List.dropWhile_append_of_pos (toList_toString_nat n).2]
  cases rest with
  | nil => rfl
  | cons c rest =>
    have hc : c.isDigit = false := by simpa [Ends] using h
    rw [List.dropWhile_cons_of_neg (by simp [hc])]

/-- No number but zero begins with a zero. -/
theorem head_toDigits_ne (h : 0 < n) : (Nat.toDigits 10 n).head? ≠ some '0' := by
  have hdigit : ∀ m < 10, 0 < m → [Nat.digitChar m].head? ≠ some '0' := by decide
  induction n using Nat.strong_induction_on with
  | _ n ih =>
    rcases Nat.lt_or_ge n 10 with hlt | hge
    · rw [Nat.toDigits_of_lt_base hlt]
      exact hdigit n hlt h
    · rw [Nat.toDigits_of_base_le (by decide) hge, List.head?_append_of_ne_nil _ Nat.toDigits_ne_nil]
      exact ih (n / 10) (by omega) (by omega)

theorem length_of_head_zero (h : (toString n).toList.head? = some '0') :
    (toString n).toList.length = 1 := by
  rcases Nat.eq_zero_or_pos n with rfl | hn
  · rfl
  · rw [Nat.toString_eq_ofList_toDigits, String.toList_ofList] at h
    exact absurd h (head_toDigits_ne hn)

theorem length_number_le {k : ℕ} (hk : 0 < k) (h : n < 10 ^ k) : (toString n).toList.length ≤ k := by
  rwa [Nat.toString_eq_ofList_toDigits, String.toList_ofList,
    Nat.length_toDigits_le_iff (by decide) hk]

/-- **A number is read as it was written**, where it fits. -/
theorem readNumber_toString {maxDigits : Option ℕ} {zero : Bool} {bound : ℕ} (hbound : n < bound)
    (hdigits : ∀ k ∈ maxDigits, (toString n).toList.length ≤ k) (h : Ends rest) :
    readNumber maxDigits zero bound ((toString n).toList ++ rest) = some (n, rest) := by
  have hvalue : Nat.ofDigitChars 10 (toString n).toList 0 = n := by
    rw [Nat.toString_eq_ofList_toDigits, String.toList_ofList, Nat.ofDigitChars_ten_toDigits]
  have hmax : maxDigits.any (· < (toString n).toList.length) = false := by
    cases maxDigits with
    | none => rfl
    | some k => simpa using hdigits k rfl
  rw [readNumber, takeWhile_number h, dropWhile_number h, hvalue, if_neg]
  rintro (hnil | hlong | ⟨-, hzero, hlen⟩ | hbig)
  · exact (toList_toString_nat n).1 hnil
  · rw [hmax] at hlong
    cases hlong
  · rw [length_of_head_zero hzero] at hlen
    exact absurd hlen (Nat.lt_irrefl 1)
  · exact absurd hbound (Nat.not_lt.mpr hbig)

/-- A byte is written with three digits at most. -/
theorem length_byte_le (x : UInt8) : (toString x.toNat).toList.length ≤ 3 :=
  length_number_le (by decide) (Nat.lt_trans x.toNat_lt (by decide))

theorem readGroup_toString (x : UInt8) (h : Ends rest) :
    readGroup ((toString x.toNat).toList ++ rest) = some (x, rest) := by
  have hlen := length_byte_le x
  have hread : readNumber (some 3) false 256 ((toString x.toNat).toList ++ rest) =
      some (x.toNat, rest) :=
    readNumber_toString x.toNat_lt (fun k hk => by rwa [← Option.some.inj hk]) h
  rw [readGroup, hread, Option.map_some, UInt8.ofNat_toNat]

theorem readDotted_toString (x : UInt8) (h : Ends rest) :
    readDotted ('.' :: ((toString x.toNat).toList ++ rest)) = some (x, rest) := by
  rw [readDotted, readGivenChar, if_pos rfl, Option.bind_some, readGroup_toString x h]

theorem readPort_toString (x : UInt16) :
    readNumber none true (2 ^ 16) (toString x.toNat).toList = some (x.toNat, []) := by
  have hread : readNumber none true (2 ^ 16) ((toString x.toNat).toList ++ []) =
      some (x.toNat, []) := readNumber_toString x.toNat_lt (fun k hk => by cases hk) ends_nil
  rwa [List.append_nil] at hread

/-- **An address is read as it was written.** -/
theorem ofText_text (self : SocketAddrV4) : ofText self.text = some self := by
  have hdot : ∀ text, Ends ('.' :: text) := ends_cons (by decide)
  have hcolon : ∀ text, Ends (':' :: text) := ends_cons (by decide)
  rw [ofText, readSocketAddrV4, text, ipText, portText]
  simp only [List.append_assoc, List.cons_append, readGroup_toString _ (hdot _),
    readDotted_toString _ (hdot _), readDotted_toString _ (hcolon _), readGivenChar, if_pos,
    readPort_toString, Option.bind_eq_bind, Option.bind_some, UInt16.ofNat_toNat]
  rfl

/-! ### What is written -/

/-- Digits, dots and a colon. -/
theorem plain_text (self : SocketAddrV4) : ∀ c ∈ self.text, c.toNat < 128 ∧ c ≠ '\n' := by
  have hdigit : ∀ (k : ℕ) (c : Char), c ∈ (toString k).toList → c.toNat < 128 ∧ c ≠ '\n' := by
    intro k c hc
    have hc := (toList_toString_nat k).2 c hc
    rw [isDigit_iff] at hc
    refine ⟨by omega, ?_⟩
    rintro rfl
    exact absurd hc (by decide)
  intro c hc
  simp only [text, ipText, portText, List.mem_append, List.mem_cons] at hc
  rcases hc with (hc | rfl | hc | rfl | hc | rfl | hc) | rfl | hc
  all_goals first | exact hdigit _ c hc | decide

/-- And not many. -/
theorem length_text_le (self : SocketAddrV4) : self.text.length ≤ 21 := by
  have hport : (toString self.port.toNat).toList.length ≤ 5 :=
    length_number_le (by decide) (Nat.lt_trans self.port.toNat_lt (by decide))
  have ha := length_byte_le self.a
  have hb := length_byte_le self.b
  have hc := length_byte_le self.c
  have hd := length_byte_le self.d
  simp only [text, ipText, portText, List.length_append, List.length_cons]
  omega

end SocketAddrV4

end Syndeo
