import Mathlib.Data.List.Basic
import Mathlib.Data.List.Nodup
import Mathlib.Data.List.Perm.Basic
import Mathlib.Tactic.Common

/-!
# Each class once

A list whose elements fall into classes is walked from its front, and the class of an element
is written down where one of its elements is met for the first time. What has been met is
remembered as the elements of the classes so far.

Where the classes divide the list, everything in it is written down once
(`Classes.flatten_gather_perm`).
-/

namespace Classes

universe u

variable {α : Type u} [DecidableEq α]

/-- The classes of the elements that have not been seen. -/
def gather (classOf : α → List α) : List α → List α → List (List α)
  | _, [] => []
  | seen, a :: l =>
    if a ∈ seen then gather classOf seen l
    else classOf a :: gather classOf (seen ++ classOf a) l

/-- **The classes divide the list.** -/
structure Divides (classOf : α → List α) (l : List α) : Prop where
  self : ∀ a ∈ l, a ∈ classOf a
  sub : ∀ a ∈ l, ∀ b ∈ classOf a, b ∈ l
  same : ∀ a ∈ l, ∀ b ∈ classOf a, classOf b = classOf a
  nodup : ∀ a ∈ l, (classOf a).Nodup

variable {classOf : α → List α} {l m seen : List α}

/-- What is written down from here on: each element once, and those of a class that has not been
seen. -/
theorem gather_spec (h : Divides classOf l) (hm : m ⊆ l) (hseen : seen ⊆ l)
    (hclosed : ∀ b ∈ seen, classOf b ⊆ seen) :
    (gather classOf seen m).flatten.Nodup ∧
      ∀ x, x ∈ (gather classOf seen m).flatten ↔ x ∉ seen ∧ ∃ a ∈ m, x ∈ classOf a := by
  induction m generalizing seen with
  | nil => exact ⟨List.nodup_nil, fun x => by simp [gather]⟩
  | cons a m ih =>
    have ha : a ∈ l := hm List.mem_cons_self
    have hm' : m ⊆ l := fun b hb => hm (List.mem_cons_of_mem _ hb)
    rw [gather]
    split_ifs with hmem
    · obtain ⟨hnodup, hiff⟩ := ih hm' hseen hclosed
      refine ⟨hnodup, fun x => ?_⟩
      rw [hiff, List.exists_mem_cons_iff]
      constructor
      · rintro ⟨hx, hrest⟩
        exact ⟨hx, Or.inr hrest⟩
      · rintro ⟨hx, hfirst | hrest⟩
        · exact absurd (hclosed a hmem hfirst) hx
        · exact ⟨hx, hrest⟩
    · -- nothing of the class has been seen
      have hfresh : ∀ x ∈ classOf a, x ∉ seen := fun x hx hxs =>
        hmem (hclosed x hxs (by rw [h.same a ha x hx]; exact h.self a ha))
      have hseen' : seen ++ classOf a ⊆ l := fun x hx =>
        (List.mem_append.mp hx).elim (fun hx => hseen hx) (h.sub a ha x)
      have hclosed' : ∀ b ∈ seen ++ classOf a, classOf b ⊆ seen ++ classOf a := by
        intro b hb x hx
        rcases List.mem_append.mp hb with hb | hb
        · exact List.mem_append_left _ (hclosed b hb hx)
        · rw [h.same a ha b hb] at hx
          exact List.mem_append_right _ hx
      obtain ⟨hnodup, hiff⟩ := ih hm' hseen' hclosed'
      rw [List.flatten_cons]
      constructor
      · refine List.nodup_append.mpr ⟨h.nodup a ha, hnodup, ?_⟩
        rintro x hx y hy rfl
        exact ((hiff x).mp hy).1 (List.mem_append_right _ hx)
      · intro x
        rw [List.mem_append, hiff, List.exists_mem_cons_iff, List.mem_append, not_or]
        constructor
        · rintro (hx | ⟨⟨hx, -⟩, hrest⟩)
          · exact ⟨hfresh x hx, Or.inl hx⟩
          · exact ⟨hx, Or.inr hrest⟩
        · rintro ⟨hx, hfirst | hrest⟩
          · exact Or.inl hfirst
          · by_cases hfirst : x ∈ classOf a
            · exact Or.inl hfirst
            · exact Or.inr ⟨⟨hx, hfirst⟩, hrest⟩

/-- **Everything is written down once.** -/
theorem flatten_gather_perm (h : Divides classOf l) (hl : l.Nodup) :
    (gather classOf [] l).flatten.Perm l := by
  obtain ⟨hnodup, hiff⟩ := gather_spec h (List.Subset.refl l) (List.nil_subset l)
    (fun b hb => absurd hb List.not_mem_nil)
  refine (List.perm_ext_iff_of_nodup hnodup hl).mpr fun x => ?_
  rw [hiff]
  constructor
  · rintro ⟨-, a, ha, hx⟩
    exact h.sub a ha x hx
  · exact fun hx => ⟨List.not_mem_nil, x, hx, h.self x hx⟩

end Classes
