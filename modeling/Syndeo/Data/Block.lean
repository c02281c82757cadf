import Mathlib.Data.BitVec
import Mathlib.Tactic.Common

/-!
# Blocks of addresses

A block is a network and the number of leading bits an address shares with it:
all the words of a width that agree with the network there. Two blocks are never
partly in one another. The one with the longer network lies in the other or is
apart from it, and its network says which (`Block.contains_iff_of_contains`); so a
comparison of two lists of blocks is a comparison of their networks.
-/

/-- **A block of addresses**: a network, and how many of its leading bits count. -/
abbrev Block (w : ℕ) := BitVec w × ℕ

namespace Block

variable {w : ℕ} {a b : Block w} {ip : BitVec w}

/-- The bits that count. -/
def mask (w length : ℕ) : BitVec w := BitVec.allOnes w <<< (w - length)

/-- **The address is in the block.** -/
def contains (b : Block w) (ip : BitVec w) : Bool := ip &&& mask w b.2 = b.1 &&& mask w b.2

theorem getLsbD_mask {length i : ℕ} :
    (mask w length).getLsbD i = (decide (i < w) && decide (w - length ≤ i)) := by
  rw [mask, BitVec.getLsbD_shiftLeft, BitVec.getLsbD_allOnes]
  by_cases hi : i < w <;> by_cases hlow : i < w - length <;> simp [hi, hlow] <;> omega

/-- Bit by bit. -/
theorem contains_iff : b.contains ip = true ↔
    ∀ i, i < w → w - b.2 ≤ i → ip.getLsbD i = b.1.getLsbD i := by
  rw [contains, decide_eq_true_iff]
  constructor
  · intro h i hi hlow
    have hbit := congrArg (BitVec.getLsbD · i) h
    simpa only [BitVec.getLsbD_and, getLsbD_mask, hi, hlow, decide_true, Bool.and_true] using hbit
  · refine fun h => BitVec.eq_of_getLsbD_eq fun i hi => ?_
    rw [BitVec.getLsbD_and, BitVec.getLsbD_and, getLsbD_mask]
    by_cases hlow : w - b.2 ≤ i
    · rw [h i hi hlow]
    · simp [hlow]

/-- By the leading bits as a word. -/
theorem contains_iff_ushiftRight : b.contains ip = true ↔
    ip >>> (w - b.2) = b.1 >>> (w - b.2) := by
  rw [contains_iff]
  constructor
  · refine fun h => BitVec.eq_of_getLsbD_eq fun i hi => ?_
    rw [BitVec.getLsbD_ushiftRight, BitVec.getLsbD_ushiftRight]
    by_cases hin : w - b.2 + i < w
    · exact h _ hin (Nat.le_add_right _ _)
    · rw [BitVec.getLsbD_of_ge _ _ (not_lt.mp hin), BitVec.getLsbD_of_ge _ _ (not_lt.mp hin)]
  · intro h i hi hlow
    have hbit := congrArg (BitVec.getLsbD · (i - (w - b.2))) h
    simpa only [BitVec.getLsbD_ushiftRight, Nat.add_sub_cancel' hlow] using hbit

/-- **A block in or apart from another**, that has no longer a network. -/
theorem contains_iff_of_contains (hlength : b.2 ≤ a.2) (h : a.contains ip = true) :
    b.contains ip = true ↔ b.contains a.1 = true := by
  rw [contains_iff, contains_iff]
  refine forall_congr' fun i => forall_congr' fun hi => forall_congr' fun hlow => ?_
  rw [contains_iff.mp h i hi (le_trans (Nat.sub_le_sub_left hlength w) hlow)]

/-- The blocks of one list lie in blocks of another. -/
def Covers (wide narrow : List (Block w)) : Prop :=
  ∀ a ∈ narrow, ∃ b ∈ wide, b.2 ≤ a.2 ∧ b.contains a.1 = true

instance {wide narrow : List (Block w)} : Decidable (Covers wide narrow) :=
  inferInstanceAs (Decidable (∀ a ∈ narrow, ∃ b ∈ wide, b.2 ≤ a.2 ∧ b.contains a.1 = true))

/-- So an address of the second list is one of the first. -/
theorem Covers.any {wide narrow : List (Block w)} (h : Covers wide narrow)
    (hip : (narrow.any fun b => b.contains ip) = true) :
    (wide.any fun b => b.contains ip) = true := by
  obtain ⟨a, ha, hcontains⟩ := List.any_eq_true.mp hip
  obtain ⟨b, hb, hlength, hnetwork⟩ := h a ha
  exact List.any_eq_true.mpr ⟨b, hb, (contains_iff_of_contains hlength hcontains).mpr hnetwork⟩

/-- The blocks of a list are apart from a block, whichever of the two is longer. -/
def Apart (b : Block w) (others : List (Block w)) : Prop :=
  ∀ a ∈ others, b.2 ≤ a.2 ∧ b.contains a.1 = false ∨ a.2 ≤ b.2 ∧ a.contains b.1 = false

instance {others : List (Block w)} : Decidable (Apart b others) :=
  inferInstanceAs (Decidable (∀ a ∈ others,
    b.2 ≤ a.2 ∧ b.contains a.1 = false ∨ a.2 ≤ b.2 ∧ a.contains b.1 = false))

/-- So an address of the list is not in the block. -/
theorem Apart.not_contains {others : List (Block w)} (h : Apart b others)
    (hip : (others.any fun a => a.contains ip) = true) : b.contains ip = false := by
  obtain ⟨a, ha, hcontains⟩ := List.any_eq_true.mp hip
  by_contra hin
  rw [Bool.not_eq_false] at hin
  rcases h a ha with ⟨hlength, hnot⟩ | ⟨hlength, hnot⟩
  · rw [(contains_iff_of_contains hlength hcontains).mp hin] at hnot
    exact Bool.noConfusion hnot
  · rw [(contains_iff_of_contains hlength hin).mp hcontains] at hnot
    exact Bool.noConfusion hnot

end Block
