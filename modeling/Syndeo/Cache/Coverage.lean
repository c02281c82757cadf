import Syndeo.Cache.Range

/-!
# What a coverage holds, of any list of intervals

`Coverage::from_sorted` takes any list of pairs: unsorted, overlapping, and with
pairs that hold no byte, `[5, 5)` or `[5, 3)`. Merging keeps the bytes and puts
what it keeps apart, whatever it is given (`Syndeo.Coverage.apart_normalize`), and
`covers` is right about them.

A pair that holds no byte is merged away only if it touches another. One that is
left, strictly inside what is asked of `missing`, **stands in the way**
(`Syndeo.Coverage.InTheWay`): the walk ends a missing run before it and begins the
next one at it. Where nothing stands in the way, what is missing is the list of the
runs of what is not held, and only there (`Syndeo.Coverage.exact_missing_iff`).
`Coverage::add` drops such a pair; `from_sorted` does not.
-/

namespace Syndeo.Coverage

open Intervals

/-! ### What is kept of a list -/

section Merging

variable {l merged : List (ℕ × ℕ)} {p run : ℕ × ℕ}

/-- What has been merged, the last first: each begins after the next has ended. -/
def Stacked (merged : List (ℕ × ℕ)) : Prop :=
  merged.Pairwise fun p q => q.2 < p.1 ∧ q.1 ≤ p.1

theorem stacked_mergeOne (hm : Stacked merged) (h : ∀ last ∈ merged.head?, last.1 ≤ run.1) :
    Stacked (mergeOne merged run) := by
  rcases merged with _ | ⟨last, rest⟩
  · simp [mergeOne, Stacked]
  · have hle : last.1 ≤ run.1 := h last rfl
    obtain ⟨hlast, hrest⟩ := List.pairwise_cons.mp hm
    rw [mergeOne]
    split
    · exact List.pairwise_cons.mpr ⟨hlast, hrest⟩
    · rename_i hout
      refine List.pairwise_cons.mpr ⟨fun q hq => ?_, hm⟩
      rcases List.mem_cons.mp hq with rfl | hq
      · exact ⟨not_le.mp hout, hle⟩
      · exact ⟨(hlast q hq).1.trans_le hle, (hlast q hq).2.trans hle⟩

/-- **What one step of merging keeps**: a pair that holds no byte was there before. -/
theorem empty_mergeOne (h : ∀ last ∈ merged.head?, last.1 ≤ run.1)
    (hp : p ∈ mergeOne merged run) (hempty : p.2 ≤ p.1) : p ∈ merged ∨ p = run := by
  rcases merged with _ | ⟨last, rest⟩
  · exact Or.inr (by simpa [mergeOne] using hp)
  · have hle : last.1 ≤ run.1 := h last rfl
    rw [mergeOne] at hp
    split at hp
    · rename_i hin
      rcases List.mem_cons.mp hp with rfl | hp
      · -- nothing was added to it
        refine Or.inl (List.mem_cons.mpr (Or.inl (Prod.ext rfl ?_)))
        simp only at hempty ⊢
        omega
      · exact Or.inl (List.mem_cons_of_mem _ hp)
    · rcases List.mem_cons.mp hp with rfl | hp
      · exact Or.inr rfl
      · exact Or.inl hp

/-- **And what it takes in**: each pair is inside one that is kept. -/
theorem within_mergeOne (h : ∀ last ∈ merged.head?, last.1 ≤ run.1)
    (hp : p = run ∨ ∃ k ∈ merged, k.1 ≤ p.1 ∧ p.2 ≤ k.2) :
    ∃ k ∈ mergeOne merged run, k.1 ≤ p.1 ∧ p.2 ≤ k.2 := by
  rcases merged with _ | ⟨last, rest⟩
  · rcases hp with rfl | ⟨k, hk, -⟩
    · exact ⟨p, by simp [mergeOne], le_refl _, le_refl _⟩
    · exact absurd hk List.not_mem_nil
  · have hle : last.1 ≤ run.1 := h last rfl
    rw [mergeOne]
    split
    · rcases hp with rfl | ⟨k, hk, hkp, hpk⟩
      · exact ⟨_, List.mem_cons_self, hle, le_max_right _ _⟩
      · rcases List.mem_cons.mp hk with rfl | hk
        · exact ⟨_, List.mem_cons_self, hkp, hpk.trans (le_max_left _ _)⟩
        · exact ⟨k, List.mem_cons_of_mem _ hk, hkp, hpk⟩
    · rcases hp with rfl | ⟨k, hk, hkp, hpk⟩
      · exact ⟨p, List.mem_cons_self, le_refl _, le_refl _⟩
      · exact ⟨k, List.mem_cons_of_mem _ hk, hkp, hpk⟩

/-- What merging a sorted list does, from what has been merged before. -/
structure Merges (merged l kept : List (ℕ × ℕ)) : Prop where
  stacked : Stacked kept
  empty : ∀ p ∈ kept, p.2 ≤ p.1 → p ∈ merged ∨ p ∈ l
  within : ∀ p, p ∈ l ∨ (∃ k ∈ merged, k.1 ≤ p.1 ∧ p.2 ≤ k.2) →
    ∃ k ∈ kept, k.1 ≤ p.1 ∧ p.2 ≤ k.2

theorem merges_foldl (hl : l.Pairwise fun p q => p.1 ≤ q.1) (hm : Stacked merged)
    (h : ∀ p ∈ l, ∀ last ∈ merged.head?, last.1 ≤ p.1) :
    Merges merged l (l.foldl mergeOne merged) := by
  induction l generalizing merged with
  | nil => exact ⟨hm, fun p hp _ => Or.inl hp, by simp⟩
  | cons run l ih =>
    have hrun := h run List.mem_cons_self
    obtain ⟨hfirst, hl'⟩ := List.pairwise_cons.mp hl
    obtain ⟨hstacked, hempty, hwithin⟩ := ih hl' (stacked_mergeOne hm hrun)
      fun q hq last hlast => (head_mergeOne hrun last hlast).trans (hfirst q hq)
    refine ⟨hstacked, fun p hp hnone => ?_, fun p hp => hwithin p ?_⟩
    · rcases hempty p hp hnone with hp | hp
      · rcases empty_mergeOne hrun hp hnone with hp | rfl
        · exact Or.inl hp
        · exact Or.inr List.mem_cons_self
      · exact Or.inr (List.mem_cons_of_mem _ hp)
    · rcases hp with hp | hp
      · rcases List.mem_cons.mp hp with rfl | hp
        · exact Or.inr (within_mergeOne hrun (Or.inl rfl))
        · exact Or.inl hp
      · exact Or.inr (within_mergeOne hrun (Or.inr hp))

end Merging

section Normal

variable {l : List (ℕ × ℕ)} {p q : ℕ × ℕ} {start stop cursor : ℕ}

theorem merges_normalize (l : List (ℕ × ℕ)) :
    Merges [] (l.insertionSort pairLe) (normalize l).reverse := by
  rw [normalize, List.reverse_reverse]
  exact merges_foldl (pairwise_fst_insertionSort l) List.Pairwise.nil (by simp)

/-- **Merging puts the pairs in order and apart**, whatever they are. -/
theorem apart_normalize (l : List (ℕ × ℕ)) :
    (normalize l).Pairwise fun p q => p.2 < q.1 ∧ p.1 ≤ q.1 :=
  List.pairwise_reverse.mp (merges_normalize l).stacked

theorem mem_of_empty (hp : p ∈ normalize l) (hempty : p.2 ≤ p.1) : p ∈ l := by
  rcases (merges_normalize l).empty p (List.mem_reverse.mpr hp) hempty with hnone | hp
  · exact absurd hnone List.not_mem_nil
  · exact (List.mem_insertionSort pairLe).mp hp

theorem exists_within (hq : q ∈ l) : ∃ k ∈ normalize l, k.1 ≤ q.1 ∧ q.2 ≤ k.2 := by
  obtain ⟨k, hk, hin⟩ := (merges_normalize l).within q
    (Or.inl ((List.mem_insertionSort pairLe).mpr hq))
  exact ⟨k, List.mem_reverse.mp hk, hin⟩

/-! ### The walk over what is kept -/

/-- A pair of the list that holds no byte, before which the walk to `stop` stops. -/
def Halts (stop cursor : ℕ) (l : List (ℕ × ℕ)) : Prop :=
  ∃ before p after, l = before ++ p :: after ∧ p.2 ≤ p.1 ∧ cursor < p.2 ∧ p.1 < stop ∧
    ∀ q ∈ before, q.2 < p.2

theorem Halts.cons (h : Halts stop cursor l) (hp : p.2 ≤ cursor) : Halts stop cursor (p :: l) := by
  obtain ⟨before, q, after, rfl, hempty, hcursor, hstop, hbefore⟩ := h
  refine ⟨p :: before, q, after, rfl, hempty, hcursor, hstop, fun r hr => ?_⟩
  rcases List.mem_cons.mp hr with rfl | hr
  · omega
  · exact hbefore r hr

/-- What lies beyond is not looked at. -/
theorem missingFrom_of_beyond (h : ∀ p ∈ l, stop ≤ p.1) :
    missingFrom stop cursor l = if cursor < stop then [(cursor, stop)] else [] := by
  induction l generalizing cursor with
  | nil => rw [missingFrom]
  | cons p l ih =>
    have hp := h p List.mem_cons_self
    rw [missingFrom]
    split
    · exact ih fun q hq => h q (List.mem_cons_of_mem _ hq)
    · rfl

/-- **Where the walk is not stopped**, the pairs that hold no byte do not matter. -/
theorem missingFrom_filter (hl : l.Pairwise fun p q => p.1 ≤ q.1) (h : ¬Halts stop cursor l) :
    missingFrom stop cursor l = missingFrom stop cursor (l.filter fun p => p.1 < p.2) := by
  induction l generalizing cursor with
  | nil => rfl
  | cons p l ih =>
    obtain ⟨hfirst, hl'⟩ := List.pairwise_cons.mp hl
    rcases lt_or_ge p.1 p.2 with hproper | hempty
    · rw [List.filter_cons_of_pos (by simpa using hproper), missingFrom, missingFrom]
      rcases le_or_gt p.2 cursor with hbehind | hahead
      · rw [if_pos hbehind, if_pos hbehind]
        exact ih hl' fun hhalts => h (hhalts.cons hbehind)
      · have hmax : max cursor p.2 = p.2 := by omega
        have hrec : ¬Halts stop p.2 l := by
          intro hhalts
          refine h ?_
          obtain ⟨before, q, after, rfl, hempty, hcursor, hstop, hbefore⟩ := hhalts
          refine ⟨p :: before, q, after, rfl, hempty, hahead.trans hcursor, hstop, fun r hr => ?_⟩
          rcases List.mem_cons.mp hr with rfl | hr
          · exact hcursor
          · exact hbefore r hr
        rw [if_neg (not_le.mpr hahead), if_neg (not_le.mpr hahead), hmax, ih hl' hrec]
    · rw [List.filter_cons_of_neg (by simpa using hempty), missingFrom]
      rcases le_or_gt p.2 cursor with hbehind | hahead
      · rw [if_pos hbehind]
        exact ih hl' fun hhalts => h (hhalts.cons hbehind)
      · have hbeyond : stop ≤ p.1 := by
          refine not_lt.mp fun hlt => h ⟨[], p, l, rfl, hempty, hahead, hlt, by simp⟩
        rw [if_neg (not_le.mpr hahead), if_pos hbeyond, missingFrom_of_beyond]
        exact fun q hq => hbeyond.trans (hfirst q (List.mem_of_mem_filter hq))

/-- A walk that has not come to its end misses what is at the cursor. -/
theorem head_missingFrom (hl : ∀ p ∈ l, cursor < p.1) (hcursor : cursor < stop) :
    ∃ b rest, missingFrom stop cursor l = (cursor, b) :: rest := by
  induction l with
  | nil => exact ⟨stop, [], by rw [missingFrom, if_pos hcursor]⟩
  | cons p l ih =>
    have hp := hl p List.mem_cons_self
    rw [missingFrom]
    split
    · exact ih fun q hq => hl q (List.mem_cons_of_mem _ hq)
    · split
      · exact ⟨stop, [], rfl⟩
      · exact ⟨_, _, rfl⟩

/-- **Where it is stopped**, it reports two runs that are not apart. -/
theorem not_apart_missingFrom (hl : l.Pairwise fun p q => p.2 < q.1 ∧ p.1 ≤ q.1)
    (h : Halts stop cursor l) : ¬Apart (missingFrom stop cursor l) := by
  obtain ⟨before, p, after, rfl, hempty, hcursor, hstop, hbefore⟩ := h
  induction before generalizing cursor with
  | nil =>
    obtain ⟨hfirst, -⟩ := List.pairwise_cons.mp hl
    have hmax : max cursor p.2 = p.2 := by omega
    obtain ⟨b, rest, hrest⟩ := head_missingFrom (fun q hq => (hfirst q hq).1)
      (hempty.trans_lt hstop)
    rw [List.nil_append, missingFrom, if_neg (by omega), if_neg (by omega), if_pos (by omega),
      if_neg (by omega), hmax, hrest]
    intro hapart
    have hlt := (List.pairwise_cons.mp hapart).1 _ List.mem_cons_self
    simp only at hlt
    omega
  | cons q before ih =>
    obtain ⟨hfirst, hl'⟩ := List.pairwise_cons.mp hl
    have hqp := hbefore q List.mem_cons_self
    have hle := (hfirst p (List.mem_append_right _ List.mem_cons_self)).2
    have hrec : ∀ c, c < p.2 → ¬Apart (missingFrom stop c (before ++ p :: after)) := fun c hc =>
      ih hl' hc fun r hr => hbefore r (List.mem_cons_of_mem _ hr)
    rw [List.cons_append, missingFrom]
    split
    · exact hrec _ hcursor
    · rw [if_neg (show ¬stop ≤ q.1 by omega), if_neg (show ¬stop ≤ max cursor q.2 by omega)]
      exact fun hapart => hrec _ (by omega) (List.pairwise_append.mp hapart).2.1

/-! ### What stands in the way -/

/-- **A pair that stands in the way** of what is asked for: it holds no byte, lies
strictly inside, and is not merged away, as the pairs that begin before it end before it
too, and if it is empty no other begins at it. -/
def InTheWay (l : List (ℕ × ℕ)) (start stop : ℕ) (p : ℕ × ℕ) : Prop :=
  p ∈ l ∧ p.2 ≤ p.1 ∧ start < p.2 ∧ p.1 < stop ∧ (∀ q ∈ l, q.1 < p.1 → q.2 < p.2) ∧
    (p.1 = p.2 → ∀ q ∈ l, q.1 = p.1 → q.2 ≤ p.2)

theorem exists_inTheWay (h : Halts stop start (normalize l)) : ∃ p, InTheWay l start stop p := by
  obtain ⟨before, p, after, heq, hempty, hstart, hstop, hbefore⟩ := h
  have hp : p ∈ normalize l := heq ▸ List.mem_append_right _ List.mem_cons_self
  have hapart := apart_normalize l
  rw [heq, List.pairwise_append] at hapart
  obtain ⟨-, hafter, -⟩ := hapart
  have hbeyond : ∀ k ∈ after, p.2 < k.1 ∧ p.1 ≤ k.1 := (List.pairwise_cons.mp hafter).1
  -- each pair of the list is inside one that is kept, on one side of `p`
  have hside : ∀ q ∈ l, q.2 < p.2 ∨ (p.1 ≤ q.1 ∧ (p.1 = p.2 → q.1 = p.1 → q.2 ≤ p.2)) := by
    intro q hq
    obtain ⟨k, hk, hkq, hqk⟩ := exists_within hq
    rw [heq] at hk
    rcases List.mem_append.mp hk with hk | hk
    · exact Or.inl (hqk.trans_lt (hbefore k hk))
    · rcases List.mem_cons.mp hk with rfl | hk
      · exact Or.inr ⟨hkq, fun _ _ => hqk⟩
      · have := hbeyond k hk
        exact Or.inr ⟨by omega, fun _ _ => by omega⟩
  refine ⟨p, mem_of_empty hp hempty, hempty, hstart, hstop, fun q hq hlt => ?_, fun hpp q hq hqp => ?_⟩
  · exact (hside q hq).resolve_right fun h => absurd h.1 (not_le.mpr hlt)
  · rcases hside q hq with hlt | h
    · exact hlt.le
    · exact h.2 hpp hqp

/-- Merging ends where the pairs end. -/
theorem ends_foldl {merged : List (ℕ × ℕ)} {n : ℕ} (hm : ∀ k ∈ merged, k.2 < n)
    (h : ∀ q ∈ l, q.2 < n) : ∀ k ∈ l.foldl mergeOne merged, k.2 < n := by
  induction l generalizing merged with
  | nil => exact hm
  | cons q l ih =>
    refine ih (fun k hk => ?_) fun r hr => h r (List.mem_cons_of_mem _ hr)
    have hq := h q List.mem_cons_self
    rcases merged with _ | ⟨last, rest⟩
    · obtain rfl : k = q := by simpa [mergeOne] using hk
      exact hq
    · have hlast := hm last List.mem_cons_self
      rw [mergeOne] at hk
      split at hk
      · rcases List.mem_cons.mp hk with rfl | hk
        · exact max_lt hlast hq
        · exact hm k (List.mem_cons_of_mem _ hk)
      · rcases List.mem_cons.mp hk with rfl | hk
        · exact hq
        · exact hm k hk

/-- What begins after the pair leaves it alone. -/
theorem exists_foldl_append {above below : List (ℕ × ℕ)}
    (h : ∀ q ∈ l, p.2 < q.1 ∨ (q.1 = p.2 ∧ q.2 ≤ p.2)) :
    ∃ above', l.foldl mergeOne (above ++ p :: below) = above' ++ p :: below := by
  induction l generalizing above with
  | nil => exact ⟨above, rfl⟩
  | cons q l ih =>
    have hrest : ∀ r ∈ l, p.2 < r.1 ∨ (r.1 = p.2 ∧ r.2 ≤ p.2) := fun r hr =>
      h r (List.mem_cons_of_mem _ hr)
    rw [List.foldl_cons]
    rcases above with _ | ⟨last, above⟩
    · rw [List.nil_append, mergeOne]
      split
      · rename_i hin
        obtain ⟨-, hq⟩ := (h q List.mem_cons_self).resolve_left (not_lt.mpr hin)
        rw [max_eq_left hq]
        exact @ih [] hrest
      · exact @ih [q] hrest
    · rw [List.cons_append, mergeOne]
      split
      · exact @ih (_ :: above) hrest
      · exact @ih (q :: last :: above) hrest

theorem halts_of_inTheWay (h : InTheWay l start stop p) : Halts stop start (normalize l) := by
  obtain ⟨hp, hempty, hstart, hstop, hends, hsame⟩ := h
  have : Std.Total pairLe := ⟨fun p q => by simp only [pairLe]; omega⟩
  have : IsTrans (ℕ × ℕ) pairLe := ⟨fun p q r => by simp only [pairLe]; omega⟩
  -- the list is merged in order: what comes before the pair, the pair, what comes after
  obtain ⟨before, after, hsplit, hnot⟩ :=
    List.eq_append_cons_of_mem ((List.mem_insertionSort pairLe).mpr hp)
  have hsorted := List.pairwise_insertionSort pairLe l
  have hmem : ∀ q ∈ before ++ p :: after, q ∈ l := fun q hq =>
    (List.mem_insertionSort pairLe).mp (hsplit ▸ hq)
  rw [hsplit, List.pairwise_append] at hsorted
  obtain ⟨-, hpafter, hcross⟩ := hsorted
  have hbefore : ∀ q ∈ before, q.2 < p.2 := by
    intro q hq
    have hmemq := hmem q (List.mem_append_left _ hq)
    rcases hcross q hq p List.mem_cons_self with hlt | ⟨heq, hle⟩
    · exact hends q hmemq hlt
    · exact lt_of_le_of_ne hle fun hsnd => hnot (Prod.ext heq hsnd ▸ hq)
  have hafter : ∀ q ∈ after, p.2 < q.1 ∨ (q.1 = p.2 ∧ q.2 ≤ p.2) := by
    intro q hq
    have hmemq := hmem q (List.mem_append_right _ (List.mem_cons_of_mem _ hq))
    rcases (List.pairwise_cons.mp hpafter).1 q hq with hlt | ⟨heq, hle⟩
    · exact Or.inl (hempty.trans_lt hlt)
    · rcases hempty.lt_or_eq with hlt | hpp
      · exact Or.inl (hlt.trans_eq heq)
      · exact Or.inr ⟨heq.symm.trans hpp.symm, hsame hpp.symm q hmemq heq.symm⟩
  have hkept := @ends_foldl before [] p.2 (by simp) hbefore
  have hone : mergeOne (before.foldl mergeOne []) p = p :: before.foldl mergeOne [] := by
    rcases hfold : before.foldl mergeOne [] with _ | ⟨last, rest⟩
    · rfl
    · have := hkept last (hfold ▸ List.mem_cons_self)
      rw [mergeOne, if_neg (by omega)]
  obtain ⟨above, habove⟩ := @exists_foldl_append after p [] (before.foldl mergeOne []) hafter
  rw [List.nil_append] at habove
  refine ⟨(before.foldl mergeOne []).reverse, p, above.reverse, ?_, hempty, hstart, hstop,
    fun q hq => hkept q (List.mem_reverse.mp hq)⟩
  rw [normalize, hsplit, List.foldl_append, List.foldl_cons, hone, habove]
  simp

end Normal

/-! ### The coverage -/

variable {l : List (ℕ × ℕ)} {start stop : ℕ}

/-- The pairs of the merged list that hold a byte hold all of them. -/
theorem points_filter (l : List (ℕ × ℕ)) : points (l.filter fun p => p.1 < p.2) = points l := by
  ext x
  simp only [mem_points, List.mem_filter, decide_eq_true_eq]
  constructor
  · rintro ⟨p, ⟨hp, -⟩, hx⟩
    exact ⟨p, hp, hx⟩
  · rintro ⟨p, hp, hx⟩
    exact ⟨p, ⟨hp, hx.1.trans_lt hx.2⟩, hx⟩

/-- **Where nothing stands in the way**, what is missing is a list of runs. -/
theorem isRuns_missing (h : ¬Halts stop start (normalize l)) :
    IsRuns (Set.Ico start stop \ points l) ((fromSorted l).missing start stop) := by
  have hsorted := apart_normalize l
  have hfilter := missingFrom_filter (hsorted.imp And.right) h
  have hapart : Apart ((normalize l).filter fun p => p.1 < p.2) :=
    (hsorted.imp And.left).filter _
  have hproper : Proper ((normalize l).filter fun p => p.1 < p.2) := fun p hp => by
    simpa using List.of_mem_filter hp
  rw [missing, fromSorted, hfilter]
  refine isRuns_iff.mpr ⟨fun p hp => (bounds_missingFrom p hp).2.1, ?_, ?_⟩
  · exact apart_missingFrom hproper
  · rw [points_missingFrom hapart.ascending hproper, points_filter, ← points_fromSorted l,
      fromSorted]

/-- **What a coverage is for**, of a list of pairs and of what is asked of it: the bytes
are those of the list; the intervals are in order, and apart; `covers` says whether every
byte is held; and `missing` is the list of the runs of what is not. -/
def Exact (l : List (ℕ × ℕ)) (start stop : ℕ) : Prop :=
  points (fromSorted l).intervals = points l ∧
    (fromSorted l).intervals.Pairwise (fun p q => p.1 ≤ q.1) ∧ Apart (fromSorted l).intervals ∧
    ((fromSorted l).covers start stop = true ↔ Set.Ico start stop ⊆ points l) ∧
    IsRuns (Set.Ico start stop \ points l) ((fromSorted l).missing start stop)

/-- **A coverage is exact** where no pair without a byte stands in the way. -/
theorem exact_missing_iff (l : List (ℕ × ℕ)) (start stop : ℕ) :
    Exact l start stop ↔ ∀ p, ¬InTheWay l start stop p := by
  constructor
  · rintro ⟨-, -, -, -, hruns⟩ p hp
    exact not_apart_missingFrom (apart_normalize l) (halts_of_inTheWay hp) hruns.apart
  · intro h
    have hapart : Apart (fromSorted l).intervals := (apart_normalize l).imp And.left
    refine ⟨points_fromSorted l, (apart_normalize l).imp And.right, hapart, ?_, ?_⟩
    · rw [covers_iff hapart, points_fromSorted]
    · exact isRuns_missing fun hhalts => (exists_inTheWay hhalts).elim h

/-- An empty pair cuts what is missing in two. -/
theorem not_exact : ¬∀ (l : List (ℕ × ℕ)) (start stop : ℕ), Exact l start stop := by
  intro h
  have hruns := (h [(5, 5)] 0 10).2.2.2.2
  have hmissing : (fromSorted [(5, 5)]).missing 0 10 = [(0, 5), (5, 10)] := by decide
  rw [hmissing] at hruns
  exact absurd ((List.pairwise_cons.mp hruns.apart).1 _ List.mem_cons_self) (by decide)

end Syndeo.Coverage
