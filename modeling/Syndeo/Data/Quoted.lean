import Mathlib.Data.List.Basic
import Mathlib.Tactic.Common

/-!
# Lists with quoted strings

A list whose items are kept apart by a separator, save where the separator stands
in a quoted string: a quotation mark opens one and the next closes it, and inside
it an escape takes away the meaning of whatever follows.

`Quoted.Item` says what an item is of the text alone: a part with no separator
outside quotes, that begins the text or follows a separator outside quotes, and
ends it or is followed by one. `Quoted.itemsFrom` finds them in one pass, and
`Quoted.mem_itemsFrom_iff` is that it does.
-/

namespace Quoted

universe u

/-- The marks of such a list. -/
structure Marks (α : Type u) where
  sep : α
  quote : α
  escape : α
  apart : sep ≠ quote

/-- Where a reader is. -/
inductive Place
  | outside
  | inside
  | escaped
  deriving DecidableEq

variable {α : Type u} [DecidableEq α] (m : Marks α)

/-- One mark further. -/
def Place.read : Place → α → Place
  | .outside, c => if c = m.quote then .inside else .outside
  | .inside, c => if c = m.quote then .outside else if c = m.escape then .escaped else .inside
  | .escaped, _ => .inside

/-- Where a reader is after some text. -/
def placeFrom (p : Place) (cs : List α) : Place := cs.foldl (Place.read m) p

/-- The text has balanced quotes. -/
def Balanced (cs : List α) : Prop := placeFrom m .outside cs = .outside

/-- **An item of a list**, for a reader that begins at `p`. -/
def ItemFrom (p : Place) (line item : List α) : Prop :=
  ∃ before after, line = before ++ item ++ after ∧
    (before = [] ∨ ∃ b, before = b ++ [m.sep] ∧ placeFrom m p b = .outside) ∧
    (after = [] ∨ ∃ a, after = m.sep :: a ∧ placeFrom m p (before ++ item) = .outside) ∧
    ∀ x y, item = x ++ m.sep :: y → placeFrom m p (before ++ x) ≠ .outside

/-- **An item of a list.** -/
abbrev Item (line item : List α) : Prop := ItemFrom m .outside line item

/-- The items, in order. -/
def itemsFrom : Place → List α → List (List α)
  | _, [] => [[]]
  | p, c :: cs =>
    if p = .outside ∧ c = m.sep then [] :: itemsFrom .outside cs
    else (itemsFrom (p.read m c) cs).modifyHead (c :: ·)

variable {m} {p : Place} {c : α} {cs line item rest : List α}

@[simp] theorem placeFrom_nil : placeFrom m p ([] : List α) = p := rfl

@[simp] theorem placeFrom_cons : placeFrom m p (c :: cs) = placeFrom m (p.read m c) cs := rfl

theorem read_sep : Place.outside.read m m.sep = .outside := if_neg m.apart

/-- The item that the text begins with. -/
def First (m : Marks α) (p : Place) (line item : List α) : Prop :=
  ∃ after, line = item ++ after ∧
    (after = [] ∨ ∃ a, after = m.sep :: a ∧ placeFrom m p item = .outside) ∧
    ∀ x y, item = x ++ m.sep :: y → placeFrom m p x ≠ .outside

/-- An item that follows a separator. -/
def Later (m : Marks α) (p : Place) (line item : List α) : Prop :=
  ∃ b rest, line = b ++ m.sep :: rest ∧ placeFrom m p b = .outside ∧ First m .outside rest item

theorem itemFrom_iff : ItemFrom m p line item ↔ First m p line item ∨ Later m p line item := by
  have happend : ∀ {b x : List α}, placeFrom m p b = .outside →
      placeFrom m p (b ++ [m.sep] ++ x) = placeFrom m .outside x := by
    intro b x hb
    rw [placeFrom, List.foldl_append, List.foldl_append]
    change placeFrom m ((placeFrom m p b).read m m.sep) x = _
    rw [hb, read_sep]
  constructor
  · rintro ⟨before, after, hline, hbefore, hafter, hitem⟩
    rcases hbefore with rfl | ⟨b, rfl, hb⟩
    · exact Or.inl ⟨after, hline, hafter, hitem⟩
    · refine Or.inr ⟨b, item ++ after, by rw [hline]; simp, hb, after, rfl, ?_, fun x y hxy => ?_⟩
      · rwa [happend hb] at hafter
      · rw [← happend hb]
        exact hitem x y hxy
  · rintro (⟨after, hline, hafter, hitem⟩ | ⟨b, rest, hline, hb, after, rfl, hafter, hitem⟩)
    · exact ⟨[], after, hline, Or.inl rfl, hafter, hitem⟩
    · refine ⟨b ++ [m.sep], after, by rw [hline]; simp, Or.inr ⟨b, rfl, hb⟩, ?_, fun x y hxy => ?_⟩
      · rwa [happend hb]
      · rw [happend hb]
        exact hitem x y hxy

/-! ### One mark further -/

theorem first_nil : First m p [] item ↔ item = [] := by
  constructor
  · rintro ⟨after, hline, -⟩
    exact (List.append_eq_nil_iff.mp hline.symm).1
  · rintro rfl
    exact ⟨[], rfl, Or.inl rfl, fun x y h => absurd h (by simp)⟩

theorem not_later_nil : ¬Later m p [] item := by
  rintro ⟨b, rest, hline, -⟩
  exact absurd hline (by simp)

/-- At a separator outside quotes. -/
theorem first_sep : First m .outside (m.sep :: cs) item ↔ item = [] := by
  constructor
  · rintro ⟨after, hline, -, hitem⟩
    rcases item with _ | ⟨c, item⟩
    · rfl
    · obtain ⟨rfl, -⟩ := List.cons.inj hline
      exact absurd rfl (hitem [] item rfl)
  · rintro rfl
    exact ⟨m.sep :: cs, rfl, Or.inr ⟨cs, rfl, rfl⟩, fun x y h => absurd h (by simp)⟩

theorem later_sep : Later m .outside (m.sep :: cs) item ↔
    First m .outside cs item ∨ Later m .outside cs item := by
  constructor
  · rintro ⟨b, rest, hline, hb, hfirst⟩
    rcases b with _ | ⟨c, b⟩
    · obtain ⟨-, rfl⟩ := List.cons.inj hline
      exact Or.inl hfirst
    · obtain ⟨rfl, rfl⟩ := List.cons.inj hline
      rw [placeFrom_cons, read_sep] at hb
      exact Or.inr ⟨b, rest, rfl, hb, hfirst⟩
  · rintro (hfirst | ⟨b, rest, rfl, hb, hfirst⟩)
    · exact ⟨[], cs, rfl, rfl, hfirst⟩
    · refine ⟨m.sep :: b, rest, rfl, ?_, hfirst⟩
      rwa [placeFrom_cons, read_sep]

/-- Anywhere else. -/
theorem first_cons (hc : ¬(p = .outside ∧ c = m.sep)) : First m p (c :: cs) item ↔
    ∃ item', item = c :: item' ∧ First m (p.read m c) cs item' := by
  constructor
  · rintro ⟨after, hline, hafter, hitem⟩
    rcases item with _ | ⟨d, item⟩
    · rcases hafter with rfl | ⟨a, rfl, hp⟩
      · exact absurd hline (by simp)
      · obtain ⟨rfl, -⟩ := List.cons.inj hline
        exact absurd ⟨hp, rfl⟩ hc
    · obtain ⟨rfl, rfl⟩ := List.cons.inj hline
      exact ⟨item, rfl, after, rfl, hafter, fun x y hxy => hitem (c :: x) y (by rw [hxy]; rfl)⟩
  · rintro ⟨item', rfl, after, rfl, hafter, hitem⟩
    refine ⟨after, rfl, hafter, fun x y hxy => ?_⟩
    rcases x with _ | ⟨d, x⟩
    · obtain ⟨rfl, -⟩ := List.cons.inj hxy
      exact fun hp => hc ⟨hp, rfl⟩
    · obtain ⟨rfl, hrest⟩ := List.cons.inj hxy
      exact hitem x y hrest

theorem later_cons (hc : ¬(p = .outside ∧ c = m.sep)) : Later m p (c :: cs) item ↔
    Later m (p.read m c) cs item := by
  constructor
  · rintro ⟨b, rest, hline, hb, hfirst⟩
    rcases b with _ | ⟨d, b⟩
    · obtain ⟨rfl, -⟩ := List.cons.inj hline
      exact absurd ⟨hb, rfl⟩ hc
    · obtain ⟨rfl, rfl⟩ := List.cons.inj hline
      exact ⟨b, rest, rfl, hb, hfirst⟩
  · rintro ⟨b, rest, rfl, hb, hfirst⟩
    exact ⟨c :: b, rest, rfl, hb, hfirst⟩

/-- **What the pass finds**: first the item the text begins with, then the others. -/
theorem itemsFrom_spec (p : Place) (line : List α) : ∃ first others,
    itemsFrom m p line = first :: others ∧ (∀ item, First m p line item ↔ item = first) ∧
      ∀ item, Later m p line item ↔ item ∈ others := by
  induction line generalizing p with
  | nil =>
    exact ⟨[], [], rfl, fun _ => first_nil, fun _ => iff_of_false not_later_nil List.not_mem_nil⟩
  | cons c cs ih =>
    rw [itemsFrom]
    by_cases hc : p = .outside ∧ c = m.sep
    · obtain ⟨rfl, rfl⟩ := hc
      obtain ⟨first, others, heq, hfirst, hothers⟩ := ih .outside
      rw [if_pos ⟨rfl, rfl⟩]
      refine ⟨[], _, rfl, fun _ => first_sep, fun item => ?_⟩
      rw [later_sep, heq, hfirst, hothers, List.mem_cons]
    · obtain ⟨first, others, heq, hfirst, hothers⟩ := ih (p.read m c)
      rw [if_neg hc, heq]
      refine ⟨c :: first, others, rfl, fun item => ?_, fun item => ?_⟩
      · rw [first_cons hc]
        constructor
        · rintro ⟨item', rfl, hitem'⟩
          rw [(hfirst item').mp hitem']
        · rintro rfl
          exact ⟨first, rfl, (hfirst first).mpr rfl⟩
      · rw [later_cons hc, hothers]

/-- **The pass finds the items, and nothing else.** -/
theorem mem_itemsFrom_iff : item ∈ itemsFrom m p line ↔ ItemFrom m p line item := by
  obtain ⟨first, others, heq, hfirst, hothers⟩ := itemsFrom_spec (m := m) p line
  rw [heq, List.mem_cons, itemFrom_iff, hfirst, hothers]

end Quoted
