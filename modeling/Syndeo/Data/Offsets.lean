import Mathlib.Data.List.Basic
import Mathlib.Algebra.BigOperators.Group.List.Basic
import Mathlib.Algebra.Order.Ring.Nat
import Mathlib.Tactic.Common

/-!
# Byte offsets into a text

A text is a list of characters, and a place in it is counted in the bytes of its
UTF-8. Not every number is a place: one that falls inside a character, or past
the end, is none, and asking for the text there fails (`Utf8.dropBytes`,
`Utf8.slice`) where a slice of a string would panic.

What a reader of a text has to keep is therefore a *boundary*
(`Utf8.IsBoundary`), and the one thing to know about two boundaries is that the
text between them is there (`Utf8.exists_slice`). Slices that follow one another
are put together again by `Utf8.takeBytes_append_slice`.
-/

namespace Utf8

/-- How many bytes some characters are. -/
def size (cs : List Char) : ℕ := (cs.map Char.utf8Size).sum

@[simp] theorem size_nil : size [] = 0 := rfl

@[simp] theorem size_cons (c : Char) (cs : List Char) :
    size (c :: cs) = c.utf8Size + size cs := by
  simp [size]

@[simp] theorem size_append (cs ds : List Char) : size (cs ++ ds) = size cs + size ds := by
  simp [size]

theorem size_eq_zero {cs : List Char} : size cs = 0 ↔ cs = [] := by
  constructor
  · intro h
    cases cs with
    | nil => rfl
    | cons c cs =>
      have hc := c.utf8Size_pos
      rw [size_cons] at h
      omega
  · rintro rfl
    rfl

/-- What a text holds from an offset on, if that is a place in it. -/
def dropBytes : List Char → ℕ → Option (List Char)
  | cs, 0 => some cs
  | [], _ + 1 => none
  | c :: cs, n + 1 => if c.utf8Size ≤ n + 1 then dropBytes cs (n + 1 - c.utf8Size) else none

/-- What a text holds up to an offset, if that is a place in it. -/
def takeBytes : List Char → ℕ → Option (List Char)
  | _, 0 => some []
  | [], _ + 1 => none
  | c :: cs, n + 1 =>
    if c.utf8Size ≤ n + 1 then (takeBytes cs (n + 1 - c.utf8Size)).map (c :: ·) else none

/-- What a text holds between two offsets, if they are places in it, and in
order. -/
def slice (cs : List Char) (i j : ℕ) : Option (List Char) :=
  if i ≤ j then (dropBytes cs i).bind fun rest => takeBytes rest (j - i) else none

theorem dropBytes_append (s t : List Char) : dropBytes (s ++ t) (size s) = some t := by
  induction s with
  | nil => cases t <;> rfl
  | cons c s ih =>
    obtain ⟨n, hn⟩ : ∃ n, size (c :: s) = n + 1 :=
      Nat.exists_eq_succ_of_ne_zero fun h => List.cons_ne_nil _ _ (size_eq_zero.mp h)
    rw [hn, List.cons_append, dropBytes, ← hn, size_cons, if_pos (Nat.le_add_right _ _),
      Nat.add_sub_cancel_left, ih]

theorem takeBytes_append (s t : List Char) : takeBytes (s ++ t) (size s) = some s := by
  induction s with
  | nil => cases t <;> rfl
  | cons c s ih =>
    obtain ⟨n, hn⟩ : ∃ n, size (c :: s) = n + 1 :=
      Nat.exists_eq_succ_of_ne_zero fun h => List.cons_ne_nil _ _ (size_eq_zero.mp h)
    rw [hn, List.cons_append, takeBytes, ← hn, size_cons, if_pos (Nat.le_add_right _ _),
      Nat.add_sub_cancel_left, ih, Option.map_some]

theorem dropBytes_eq_some_iff {cs t : List Char} {n : ℕ} :
    dropBytes cs n = some t ↔ ∃ s, cs = s ++ t ∧ size s = n := by
  constructor
  · intro h
    induction cs, n using dropBytes.induct with
    | case1 cs =>
      rw [dropBytes] at h
      exact ⟨[], Option.some.inj h, rfl⟩
    | case2 n => simp [dropBytes] at h
    | case3 c cs n hle ih =>
      rw [dropBytes, if_pos hle] at h
      obtain ⟨s, rfl, hs⟩ := ih h
      exact ⟨c :: s, rfl, by rw [size_cons, hs]; omega⟩
    | case4 c cs n hle =>
      rw [dropBytes, if_neg hle] at h
      exact nomatch h
  · rintro ⟨s, rfl, rfl⟩
    exact dropBytes_append s t

theorem takeBytes_eq_some_iff {cs s : List Char} {n : ℕ} :
    takeBytes cs n = some s ↔ ∃ t, cs = s ++ t ∧ size s = n := by
  constructor
  · intro h
    induction cs, n using takeBytes.induct generalizing s with
    | case1 cs =>
      obtain rfl : [] = s := by simpa [takeBytes] using h
      exact ⟨cs, rfl, rfl⟩
    | case2 n => simp [takeBytes] at h
    | case3 c cs n hle ih =>
      rw [takeBytes, if_pos hle, Option.map_eq_some_iff] at h
      obtain ⟨s, hs, rfl⟩ := h
      obtain ⟨t, rfl, hsize⟩ := ih hs
      exact ⟨t, rfl, by rw [size_cons, hsize]; omega⟩
    | case4 c cs n hle =>
      rw [takeBytes, if_neg hle] at h
      exact nomatch h
  · rintro ⟨t, rfl, rfl⟩
    exact takeBytes_append s t

/-- **A slice is what stands between what is before it and what is after.** -/
theorem slice_eq_some_iff {cs s : List Char} {i j : ℕ} :
    slice cs i j = some s ↔ ∃ a b, cs = a ++ (s ++ b) ∧ size a = i ∧ size a + size s = j := by
  rw [slice]
  constructor
  · intro h
    split at h
    · obtain ⟨rest, hdrop, htake⟩ := Option.bind_eq_some_iff.mp h
      obtain ⟨a, rfl, rfl⟩ := dropBytes_eq_some_iff.mp hdrop
      obtain ⟨b, rfl, hs⟩ := takeBytes_eq_some_iff.mp htake
      exact ⟨a, b, rfl, rfl, by omega⟩
    · exact nomatch h
  · rintro ⟨a, b, rfl, rfl, rfl⟩
    rw [if_pos (Nat.le_add_right _ _), dropBytes_append, Option.bind_some,
      Nat.add_sub_cancel_left, takeBytes_append]

/-- A place in a text: an offset between two of its characters, or at an end. -/
def IsBoundary (cs : List Char) (n : ℕ) : Prop := ∃ s t, cs = s ++ t ∧ size s = n

theorem isBoundary_zero (cs : List Char) : IsBoundary cs 0 := ⟨[], cs, rfl, rfl⟩

theorem isBoundary_size (cs : List Char) : IsBoundary cs (size cs) :=
  ⟨cs, [], (List.append_nil cs).symm, rfl⟩

theorem IsBoundary.le_size {cs : List Char} {n : ℕ} (h : IsBoundary cs n) : n ≤ size cs := by
  obtain ⟨s, t, rfl, rfl⟩ := h
  rw [size_append]
  exact Nat.le_add_right _ _

/-- From a place in a text there is text to read. -/
theorem IsBoundary.exists_dropBytes {cs : List Char} {n : ℕ} (h : IsBoundary cs n) :
    ∃ t, dropBytes cs n = some t := by
  obtain ⟨s, t, rfl, rfl⟩ := h
  exact ⟨t, dropBytes_append s t⟩

/-- **Between two places in a text there is text**: neither is inside a character,
so that the shorter of the two beginnings is a beginning of the longer. -/
theorem exists_slice {cs : List Char} {i j : ℕ} (hi : IsBoundary cs i) (hj : IsBoundary cs j)
    (hij : i ≤ j) : ∃ s, slice cs i j = some s := by
  obtain ⟨a, b, hcs, rfl⟩ := hi
  obtain ⟨c, d, hcd, rfl⟩ := hj
  rcases List.append_eq_append_iff.mp (hcs.symm.trans hcd) with ⟨s, rfl, rfl⟩ | ⟨s, rfl, rfl⟩
  · exact ⟨s, slice_eq_some_iff.mpr ⟨a, d, hcs, rfl, by rw [size_append]⟩⟩
  · have hs : s = [] := size_eq_zero.mp (by rw [size_append] at hij; omega)
    subst hs
    exact ⟨[], slice_eq_some_iff.mpr ⟨c, b, by simpa using hcs, by simp, by simp⟩⟩

/-- Reading past a character from one place leads to the next. -/
theorem IsBoundary.after {s t : List Char} {c : Char} :
    IsBoundary (s ++ c :: t) (size s + c.utf8Size) :=
  ⟨s ++ [c], t, by simp, by simp⟩

/-- **A slice that begins where a beginning of the text ends lengthens it.** -/
theorem takeBytes_append_slice {cs a s : List Char} {i j : ℕ} (ha : takeBytes cs i = some a)
    (hs : slice cs i j = some s) : takeBytes cs j = some (a ++ s) := by
  obtain ⟨b, d, rfl, rfl, rfl⟩ := slice_eq_some_iff.mp hs
  obtain rfl : b = a := by
    rw [takeBytes_append] at ha
    exact Option.some.inj ha
  rw [← List.append_assoc, ← size_append]
  exact takeBytes_append (b ++ s) d

theorem size_slice {cs s : List Char} {i j : ℕ} (hs : slice cs i j = some s) :
    i + size s = j := by
  obtain ⟨a, b, -, rfl, h⟩ := slice_eq_some_iff.mp hs
  exact h

end Utf8
