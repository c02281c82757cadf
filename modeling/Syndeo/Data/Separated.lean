import Mathlib.Data.List.Basic
import Mathlib.Algebra.Order.BigOperators.Group.List
import Mathlib.Algebra.Order.Ring.Nat
import Mathlib.Tactic.Common

/-!
# Parts ended by a separator

Several lists written one after another, each followed by a separator, can be
told apart again exactly as far as the separator does not occur in them. Two
readings are kept: where neither side's parts hold it
(`Separated.terminated_inj`), and where one side's do not and there are as many
parts on the other, whose parts then cannot hold it either
(`Separated.terminated_inj_of_length`).

Of several lists written with a separator between, what is in the whole is in one
of the parts or in the separator (`Separated.mem_intercalate`).
-/

namespace Separated

variable {α : Type} [DecidableEq α] {sep : α} {p q : List α} {l m : List (List α)}

/-- The parts, each followed by the separator. -/
def terminated (sep : α) (parts : List (List α)) : List α := parts.flatMap fun p => p ++ [sep]

omit [DecidableEq α] in
@[simp] theorem terminated_nil : terminated sep [] = [] := rfl

omit [DecidableEq α] in
@[simp] theorem terminated_cons : terminated sep (p :: l) = p ++ sep :: terminated sep l := by
  rw [terminated, List.flatMap_cons, List.append_assoc, List.singleton_append, terminated]

omit [DecidableEq α] in
/-- The first separator ends the first part. -/
theorem append_cons_inj {rest rest' : List α} (hp : sep ∉ p) (hq : sep ∉ q)
    (h : p ++ sep :: rest = q ++ sep :: rest') : p = q ∧ rest = rest' := by
  induction p generalizing q with
  | nil =>
    rcases q with _ | ⟨b, q⟩
    · exact ⟨rfl, (List.cons.inj h).2⟩
    · obtain ⟨rfl, -⟩ := List.cons.inj h
      exact absurd List.mem_cons_self hq
  | cons a p ih =>
    rcases q with _ | ⟨b, q⟩
    · obtain ⟨rfl, -⟩ := List.cons.inj h
      exact absurd List.mem_cons_self hp
    · obtain ⟨rfl, hrest⟩ := List.cons.inj h
      obtain ⟨rfl, rfl⟩ := ih (fun hm => hp (List.mem_cons_of_mem _ hm))
        (fun hm => hq (List.mem_cons_of_mem _ hm)) hrest
      exact ⟨rfl, rfl⟩

omit [DecidableEq α] in
/-- And the last one begins the last part. -/
theorem append_cons_inj_last {rest rest' : List α} (hrest : sep ∉ rest) (hrest' : sep ∉ rest')
    (h : p ++ sep :: rest = q ++ sep :: rest') : p = q ∧ rest = rest' := by
  have hreverse := congrArg List.reverse h
  simp only [List.reverse_append, List.reverse_cons, List.append_assoc,
    List.singleton_append] at hreverse
  obtain ⟨hends, hbegins⟩ := append_cons_inj (by rwa [List.mem_reverse])
    (by rwa [List.mem_reverse]) hreverse
  exact ⟨List.reverse_inj.mp hbegins, List.reverse_inj.mp hends⟩

omit [DecidableEq α] in
/-- **Parts without the separator can be told apart.** -/
theorem terminated_inj (hl : ∀ p ∈ l, sep ∉ p) (hm : ∀ p ∈ m, sep ∉ p)
    (h : terminated sep l = terminated sep m) : l = m := by
  induction l generalizing m with
  | nil =>
    rcases m with _ | ⟨q, m⟩
    · rfl
    · simp at h
  | cons p l ih =>
    rcases m with _ | ⟨q, m⟩
    · simp at h
    · rw [terminated_cons, terminated_cons] at h
      obtain ⟨rfl, hrest⟩ := append_cons_inj (hl p List.mem_cons_self) (hm q List.mem_cons_self) h
      rw [ih (fun p hp => hl p (List.mem_cons_of_mem _ hp))
        (fun p hp => hm p (List.mem_cons_of_mem _ hp)) hrest]

/-- There are as many separators as parts, and those the parts hold. -/
theorem count_terminated :
    (terminated sep l).count sep = l.length + (l.map fun p => p.count sep).sum := by
  induction l with
  | nil => rfl
  | cons p l ih =>
    rw [terminated_cons, List.count_append, List.count_cons_self, ih, List.length_cons,
      List.map_cons, List.sum_cons]
    omega

/-- **As many parts on both sides**: where one side's do not hold the separator,
the other's do not, and they are the same. -/
theorem terminated_inj_of_length (hl : ∀ p ∈ l, sep ∉ p) (hlen : l.length = m.length)
    (h : terminated sep l = terminated sep m) : l = m := by
  refine terminated_inj hl (fun p hp hsep => ?_) h
  have hnone : (l.map fun p => p.count sep).sum = 0 := by
    refine List.sum_eq_zero fun n hn => ?_
    obtain ⟨p, hp, rfl⟩ := List.mem_map.mp hn
    exact List.count_eq_zero.mpr (hl p hp)
  have hcount := congrArg (List.count sep) h
  rw [count_terminated, count_terminated, hnone, hlen] at hcount
  have hle : p.count sep ≤ (m.map fun p => p.count sep).sum :=
    List.le_sum_of_mem (List.mem_map.mpr ⟨p, hp, rfl⟩)
  have hpos : 0 < p.count sep := List.count_pos_iff.mpr hsep
  omega

/-! ### Parts with a separator between -/

section Intercalated

variable {β : Type} {between : List β} {parts : List (List β)} {part : List β}

/-- A part is a part of the whole. -/
theorem isInfix_intercalate (h : part ∈ parts) : part <:+: between.intercalate parts := by
  induction parts with
  | nil => exact nomatch h
  | cons first rest ih =>
    rcases rest with _ | ⟨second, rest⟩
    · obtain rfl := List.mem_singleton.mp h
      simp
    · rw [List.intercalate_cons_cons]
      rcases List.mem_cons.mp h with rfl | h
      · exact ⟨[], between ++ between.intercalate (second :: rest), by simp⟩
      · exact (ih h).trans ⟨first ++ between, [], by simp⟩

theorem mem_intercalate {b : β} (h : b ∈ between.intercalate parts) :
    (∃ part ∈ parts, b ∈ part) ∨ b ∈ between := by
  induction parts with
  | nil => exact absurd h (by simp)
  | cons first rest ih =>
    rcases rest with _ | ⟨second, rest⟩
    · exact Or.inl ⟨first, List.mem_cons_self, by simpa using h⟩
    · rw [List.intercalate_cons_cons] at h
      rcases List.mem_append.mp h with h | h
      · rcases List.mem_append.mp h with h | h
        · exact Or.inl ⟨first, List.mem_cons_self, h⟩
        · exact Or.inr h
      · rcases ih h with ⟨part, hpart, hmem⟩ | hbetween
        · exact Or.inl ⟨part, List.mem_cons_of_mem _ hpart, hmem⟩
        · exact Or.inr hbetween

/-- What follows the last part is part of it. -/
theorem intercalate_append {init : List (List β)} {last b : List β} :
    between.intercalate (init ++ [last ++ b]) = between.intercalate (init ++ [last]) ++ b := by
  induction init with
  | nil => simp
  | cons first rest ih =>
    rw [List.cons_append, List.cons_append, List.intercalate_cons_of_ne_nil (by simp),
      List.intercalate_cons_of_ne_nil (by simp), ih]
    simp

variable {sep : β} {a b : List β}

/-- What is joined by a separator and ended by one is parts that are each ended by one. -/
theorem intercalate_append_sep (first : List β) (rest : List (List β)) :
    [sep].intercalate (first :: rest) ++ [sep] = terminated sep (first :: rest) := by
  induction rest generalizing first with
  | nil => simp
  | cons second rest ih =>
    rw [List.intercalate_cons_cons, List.append_assoc, ih, terminated_cons, List.append_assoc,
      List.singleton_append, terminated_cons, terminated_cons]

/-- **Parts can be told apart** by what is between them, where they do not hold it; but a
single empty part reads like none. -/
theorem intercalate_inj {l m : List (List β)} (ha : sep ∉ a) (hl : ∀ p ∈ l, sep ∉ p)
    (hm : ∀ p ∈ m, sep ∉ p) (hnil : l = [] ↔ m = [])
    (h : (a ++ sep :: b).intercalate l = (a ++ sep :: b).intercalate m) : l = m := by
  have hshort : ∀ {p : List β} (q : List β) (rest : List (List β)), sep ∉ p →
      p ≠ (a ++ sep :: b).intercalate (q :: rest) ∨ rest = [] := by
    intro p q rest hp
    rcases rest with _ | ⟨r, rest⟩
    · exact .inr rfl
    · refine .inl fun heq => hp ?_
      rw [heq, List.intercalate_cons_cons]
      simp
  induction l generalizing m with
  | nil => exact (hnil.mp rfl).symm
  | cons p l ih =>
    rcases m with _ | ⟨q, m⟩
    · exact absurd (hnil.mpr rfl) (List.cons_ne_nil _ _)
    · have hp := hl p List.mem_cons_self
      have hq := hm q List.mem_cons_self
      rcases l with _ | ⟨p', l⟩
      · rw [List.intercalate_singleton] at h
        obtain hne | rfl := hshort q m hp
        · exact absurd h hne
        · simpa using h
      · rcases m with _ | ⟨q', m⟩
        · rw [List.intercalate_singleton] at h
          obtain hne | hnil := hshort p (p' :: l) hq
          · exact absurd h.symm hne
          · exact absurd hnil (List.cons_ne_nil _ _)
        · rw [List.intercalate_cons_cons, List.intercalate_cons_cons] at h
          have hpa : sep ∉ p ++ a := by simp [hp, ha]
          have hqa : sep ∉ q ++ a := by simp [hq, ha]
          obtain ⟨hfirst, hrest⟩ := append_cons_inj hpa hqa (by simpa using h)
          obtain rfl := List.append_cancel_right hfirst
          rw [ih (fun s hs => hl s (List.mem_cons_of_mem _ hs))
            (fun s hs => hm s (List.mem_cons_of_mem _ hs)) (by simp)
            (List.append_cancel_left hrest)]

end Intercalated

/-! ### Splitting at what is of a kind -/

/-- The parts of a list that is split hold nothing of the kind it is split at, and nothing but
what was in it. -/
theorem of_mem_splitOnP {β : Type} {f : β → Bool} (l : List β) :
    ∀ part ∈ l.splitOnP f, ∀ b ∈ part, f b = false ∧ b ∈ l := by
  induction l with
  | nil =>
    intro part hpart
    rw [List.splitOnP_nil, List.mem_singleton] at hpart
    subst hpart
    exact fun _ h => nomatch h
  | cons d l ih =>
    intro part hpart
    rw [List.splitOnP_cons_eq_if_modifyHead] at hpart
    split at hpart
    · rcases List.mem_cons.mp hpart with rfl | hpart
      · exact fun _ h => nomatch h
      · exact fun b hb => ⟨(ih part hpart b hb).1, List.mem_cons_of_mem _ (ih part hpart b hb).2⟩
    · rename_i hd
      rcases hsplit : l.splitOnP f with _ | ⟨first, rest⟩
      · exact absurd hsplit (List.splitOnP_ne_nil _ _)
      · rw [hsplit, List.modifyHead_cons] at hpart
        rw [hsplit] at ih
        intro b hb
        rcases List.mem_cons.mp hpart with rfl | hpart
        · rcases List.mem_cons.mp hb with rfl | hb
          · exact ⟨by simpa using hd, List.mem_cons_self⟩
          · obtain ⟨hkind, hmem⟩ := ih first List.mem_cons_self b hb
            exact ⟨hkind, List.mem_cons_of_mem _ hmem⟩
        · obtain ⟨hkind, hmem⟩ := ih part (List.mem_cons_of_mem _ hpart) b hb
          exact ⟨hkind, List.mem_cons_of_mem _ hmem⟩

/-! ### Lines -/

section Lines

/-- What is ended by a separator. -/
def wholeLines (sep : α) (l : List α) : List (List α) := (l.splitOn sep).dropLast

/-- The lines, with what is after the last separator, if it is not empty. -/
def lines (sep : α) (l : List α) : List (List α) :=
  wholeLines sep l ++ ((l.splitOn sep).getLast?.filter fun last => !last.isEmpty).toList

theorem wholeLines_append_cons (hp : sep ∉ p) (rest : List α) :
    wholeLines sep (p ++ sep :: rest) = p :: wholeLines sep rest := by
  rw [wholeLines, List.splitOn_append_cons_self_of_not_mem hp,
    List.dropLast_cons_of_ne_nil (List.splitOn_ne_nil _ _), wholeLines]

theorem wholeLines_of_not_mem (hp : sep ∉ p) : wholeLines sep p = [] := by
  rw [wholeLines, List.splitOn_eq_singleton hp]
  rfl

theorem lines_append_cons (hp : sep ∉ p) (rest : List α) :
    lines sep (p ++ sep :: rest) = p :: lines sep rest := by
  rw [lines, wholeLines_append_cons hp, List.splitOn_append_cons_self_of_not_mem hp,
    List.getLast?_cons_of_ne_nil (List.splitOn_ne_nil _ _), List.cons_append, lines]

theorem lines_of_not_mem (hp : sep ∉ p) (hne : p ≠ []) : lines sep p = [p] := by
  rw [lines, wholeLines_of_not_mem hp, List.splitOn_eq_singleton hp, List.getLast?_singleton,
    Option.filter_some, if_pos (by simpa using hne)]
  rfl

/-- Parts that were ended by the separator are split from one another by it. -/
theorem splitOn_terminated (hl : ∀ p ∈ l, sep ∉ p) : (terminated sep l).splitOn sep = l ++ [[]] := by
  induction l with
  | nil => rfl
  | cons p l ih =>
    rw [terminated_cons, List.splitOn_append_cons_self_of_not_mem (hl p List.mem_cons_self),
      ih fun q hq => hl q (List.mem_cons_of_mem _ hq), List.cons_append]

theorem lines_nil : lines sep ([] : List α) = [] := rfl

end Lines

end Separated
