import Mathlib.Order.CompletePartialOrder
import Mathlib.Order.Interval.Set.Disjoint
import Mathlib.Data.List.Pairwise

/-!
# Lists of half-open intervals

A set that is kept as a list of half-open intervals `[a, b)`, over any linear
order. The list says more than the set: which interval a point is in, and in
what order the intervals come. Four properties matter to code that keeps such
a list.

* `Intervals.Proper`: no interval is empty.
* `Intervals.Separate`: no two of them share a point, in whatever order.
* `Intervals.Ascending`: each interval ends before the next begins, or where it
  begins. A proper list is ascending exactly when it is separate and sorted.
* `Intervals.Apart`: each ends *strictly* before the next begins. Then a whole
  interval is inside the set exactly when it is inside one of the list
  (`Intervals.Ico_subset_points_iff`), so that containment can be decided by
  looking at the list.

The list that lies apart is the list of the set's **runs**, the greatest intervals
inside it, and being apart is what makes it so (`Intervals.isRuns_iff`).
-/

namespace Intervals

variable {α : Type} [LinearOrder α] {l l' : List (α × α)} {p q : α × α} {a b x : α}

/-- The points that lie in one of the intervals. -/
def points (l : List (α × α)) : Set α := {x | ∃ p ∈ l, p.1 ≤ x ∧ x < p.2}

/-- No interval is empty. -/
def Proper (l : List (α × α)) : Prop := ∀ p ∈ l, p.1 < p.2

/-- No two intervals share a point. -/
def Separate (l : List (α × α)) : Prop :=
  l.Pairwise fun p q => Disjoint (Set.Ico p.1 p.2) (Set.Ico q.1 q.2)

/-- Each interval ends before the next begins, or where it begins. -/
def Ascending (l : List (α × α)) : Prop := l.Pairwise fun p q => p.2 ≤ q.1

/-- Each interval ends strictly before the next begins. -/
def Apart (l : List (α × α)) : Prop := l.Pairwise fun p q => p.2 < q.1

/-! ### The points -/

theorem mem_points : x ∈ points l ↔ ∃ p ∈ l, p.1 ≤ x ∧ x < p.2 := Iff.rfl

@[simp] theorem points_nil : points ([] : List (α × α)) = ∅ := by
  ext x
  simp [mem_points]

@[simp] theorem points_cons : points (p :: l) = Set.Ico p.1 p.2 ∪ points l := by
  ext x
  simp [mem_points]

@[simp] theorem points_append : points (l ++ l') = points l ∪ points l' := by
  ext x
  simp [mem_points, or_and_right, exists_or]

/-- The set does not depend on the order of the list. -/
theorem points_perm (h : l.Perm l') : points l = points l' := by
  ext x
  simp only [mem_points, h.mem_iff]

theorem Ico_subset_points (hp : p ∈ l) : Set.Ico p.1 p.2 ⊆ points l :=
  fun _ hx => ⟨p, hp, hx⟩

/-! ### Orders -/

theorem Apart.ascending (h : Apart l) : Ascending l := h.imp le_of_lt

theorem Ascending.separate (h : Ascending l) : Separate l := h.imp fun hpq =>
  Set.disjoint_left.mpr fun _ hx hy => absurd hx.2 (not_lt.mpr (hpq.trans hy.1))

theorem Separate.perm (h : Separate l) (hl : l.Perm l') : Separate l' :=
  (hl.pairwise_iff fun hpq => hpq.symm).mp h

theorem separate_append : Separate (l ++ l') ↔
    Separate l ∧ Separate l' ∧ Disjoint (points l) (points l') := by
  rw [Separate, List.pairwise_append]
  refine and_congr_right fun _ => and_congr_right fun _ => ?_
  rw [Set.disjoint_left]
  constructor
  · rintro h x ⟨p, hp, hx⟩ ⟨q, hq, hy⟩
    exact Set.disjoint_left.mp (h p hp q hq) hx hy
  · exact fun h p hp q hq => Set.disjoint_left.mpr fun x hx hy => h ⟨p, hp, hx⟩ ⟨q, hq, hy⟩

/-- **Sorting a separate list** puts it in ascending order. -/
theorem Separate.ascending (hs : Separate l) (hp : Proper l)
    (hsorted : l.Pairwise fun p q => p.1 ≤ q.1) : Ascending l := by
  refine (hs.and hsorted).imp_of_mem fun {_ q} _ hq h => not_lt.mp fun hlt => ?_
  exact Set.disjoint_left.mp h.1 ⟨h.2, hlt⟩ ⟨le_refl _, hp q hq⟩

/-- Two different intervals of a list that is apart are on one side of each
other. -/
theorem Apart.or (h : Apart l) (hp : p ∈ l) (hq : q ∈ l) (hne : p ≠ q) :
    p.2 < q.1 ∨ q.2 < p.1 := by
  have hor : l.Pairwise fun p q => p.2 < q.1 ∨ q.2 < p.1 := h.imp Or.inl
  have : Std.Symm fun p q : α × α => p.2 < q.1 ∨ q.2 < p.1 := ⟨fun _ _ => Or.symm⟩
  exact hor.forall hp hq hne

/-- Of things laid out in ascending order, no two share a point. -/
theorem Ascending.eq_of_mem {β : Type} {f : β → α × α} {things : List β}
    (h : Ascending (things.map f)) {i j : β} (hi : i ∈ things) (hj : j ∈ things)
    (hxi : x ∈ Set.Ico (f i).1 (f i).2) (hxj : x ∈ Set.Ico (f j).1 (f j).2) : i = j := by
  by_contra hne
  have hor : things.Pairwise fun i j => (f i).2 ≤ (f j).1 ∨ (f j).2 ≤ (f i).1 :=
    (List.pairwise_map.mp h).imp Or.inl
  have : Std.Symm fun i j : β => (f i).2 ≤ (f j).1 ∨ (f j).2 ≤ (f i).1 := ⟨fun _ _ => Or.symm⟩
  rcases hor.forall hi hj hne with hle | hle
  · exact absurd (hxi.2.trans_le hle) (not_lt.mpr hxj.1)
  · exact absurd (hxj.2.trans_le hle) (not_lt.mpr hxi.1)

/-- **Containment read off the list**: where the intervals are apart, an interval
is inside the set exactly when it is inside one of them. -/
theorem Ico_subset_points_iff (h : Apart l) (hab : a < b) :
    Set.Ico a b ⊆ points l ↔ ∃ p ∈ l, p.1 ≤ a ∧ b ≤ p.2 := by
  constructor
  · intro hsub
    obtain ⟨p, hp, hpa, hap⟩ := hsub ⟨le_refl a, hab⟩
    refine ⟨p, hp, hpa, not_lt.mp fun hlt => ?_⟩
    -- the end of `p` would be a point of the set, in an interval on neither side of `p`
    obtain ⟨q, hq, hqp, hpq⟩ := hsub ⟨hap.le, hlt⟩
    rcases eq_or_ne p q with rfl | hne
    · exact absurd hpq (lt_irrefl _)
    · rcases h.or hp hq hne with hlt' | hlt'
      · exact absurd (lt_of_lt_of_le hlt' hqp) (lt_irrefl _)
      · exact absurd ((hlt'.trans_le hpa).trans hap) (not_lt.mpr hpq.le)
  · rintro ⟨p, hp, hpa, hbp⟩ x ⟨hax, hxb⟩
    exact ⟨p, hp, hpa.trans hax, lt_of_lt_of_le hxb hbp⟩

/-! ### Runs -/

/-- The list holds the runs of a set in order: intervals that are not empty, that share
no point, that cannot be made longer, and that are all of the set. -/
structure IsRuns (S : Set α) (l : List (α × α)) : Prop where
  proper : Proper l
  ascending : Ascending l
  maximal : ∀ p ∈ l, ∀ a b, Set.Ico p.1 p.2 ⊆ Set.Ico a b → Set.Ico a b ⊆ S → p = (a, b)
  points : points l = S

/-- **The runs of a set lie apart**: two that touched would be one. -/
theorem IsRuns.apart {S : Set α} (h : IsRuns S l) : Apart l := by
  refine h.ascending.imp_of_mem fun {p q} hp hq hle => lt_of_le_of_ne hle fun heq => ?_
  have hpp := h.proper p hp
  have hqq := h.proper q hq
  have hsub : Set.Ico p.1 q.2 ⊆ S := by
    rw [← h.points]
    rintro x ⟨hpx, hxq⟩
    rcases lt_or_ge x p.2 with hlt | hge
    · exact ⟨p, hp, hpx, hlt⟩
    · exact ⟨q, hq, heq ▸ hge, hxq⟩
  have hend : p.2 < q.2 := heq ▸ hqq
  have hlong := h.maximal p hp p.1 q.2 (Set.Ico_subset_Ico_right hend.le) hsub
  exact absurd (congrArg Prod.snd hlong) hend.ne

/-- **Intervals that lie apart are the runs** of what they hold. -/
theorem isRuns_iff {S : Set α} : IsRuns S l ↔ Proper l ∧ Apart l ∧ points l = S := by
  refine ⟨fun h => ⟨h.proper, h.apart, h.points⟩, ?_⟩
  rintro ⟨hproper, hapart, hpoints⟩
  refine ⟨hproper, hapart.ascending, fun p hp a b hin hsub => ?_, hpoints⟩
  have hpp := hproper p hp
  obtain ⟨hap, hbp⟩ := (Set.Ico_subset_Ico_iff hpp).mp hin
  obtain ⟨q, hq, hqa, hbq⟩ := (Ico_subset_points_iff hapart
    (hap.trans_lt (hpp.trans_le hbp))).mp (hpoints ▸ hsub)
  rcases eq_or_ne p q with rfl | hne
  · exact Prod.ext (le_antisymm hqa hap) (le_antisymm hbp hbq)
  · rcases hapart.or hp hq hne with hlt | hlt
    · exact absurd (hlt.trans_le (hqa.trans hap)) (not_lt.mpr hpp.le)
    · exact absurd (hlt.trans_le hpp.le) (not_lt.mpr (hbp.trans hbq))

end Intervals
