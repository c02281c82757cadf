import Mathlib.Data.List.Induction
import Mathlib.Tactic.Common

/-!
# Runs of events

A component that is driven from outside – by calls, by messages, by the clock –
is a labelled relation: an event happens in a state and leaves another one. A run
is a list of events, so that a statement can speak of what happened as well as of
where it led.

`Events.Runs.invariant` is the invariant rule; `Events.Runs.of_append` cuts a run
where its list of events is cut. Where events are functions of the state, runs
are computed by `Events.follow`.
-/

namespace Events

universe u v

variable {σ : Type u} {ε : Type v} {step : σ → ε → σ → Prop} {s s' s'' : σ} {e : ε} {l l' : List ε}

/-- **The run of a list of events.** -/
inductive Runs (step : σ → ε → σ → Prop) : σ → List ε → σ → Prop
  | nil (s : σ) : Runs step s [] s
  | cons {s u s' : σ} {e : ε} {rest : List ε} (first : step s e u) (others : Runs step u rest s') :
    Runs step s (e :: rest) s'

namespace Runs

theorem append (h : Runs step s l s') (h' : Runs step s' l' s'') :
    Runs step s (l ++ l') s'' := by
  induction h with
  | nil s => exact h'
  | cons hfirst _ ih => exact .cons hfirst (ih h')

/-- A run that is cut in two. -/
theorem of_append (h : Runs step s (l ++ l') s'') :
    ∃ s', Runs step s l s' ∧ Runs step s' l' s'' := by
  induction l generalizing s with
  | nil => exact ⟨s, .nil s, h⟩
  | cons e l ih =>
    rcases h with _ | ⟨hfirst, hrest⟩
    obtain ⟨s', hl, hl'⟩ := ih hrest
    exact ⟨s', .cons hfirst hl, hl'⟩

/-- **The invariant rule.** -/
theorem invariant {I : σ → Prop} (hstep : ∀ s e s', I s → step s e s' → I s')
    (h : Runs step s l s') (hs : I s) : I s' := by
  induction h with
  | nil s => exact hs
  | cons hfirst _ ih => exact ih (hstep _ _ _ hs hfirst)

/-- The same, where each event keeps the invariant only if it is of a kind. -/
theorem invariant_of_forall {I : σ → Prop} {K : ε → Prop}
    (hstep : ∀ s e s', K e → I s → step s e s' → I s') (h : Runs step s l s')
    (hl : ∀ e ∈ l, K e) (hs : I s) : I s' := by
  induction h with
  | nil s => exact hs
  | cons hfirst _ ih =>
    exact ih (fun e he => hl e (List.mem_cons_of_mem _ he))
      (hstep _ _ _ (hl _ List.mem_cons_self) hs hfirst)

theorem mono {step' : σ → ε → σ → Prop} (hstep : ∀ s e s', step s e s' → step' s e s')
    (h : Runs step s l s') : Runs step' s l s' := by
  induction h with
  | nil s => exact .nil s
  | cons hfirst _ ih => exact .cons (hstep _ _ _ hfirst) ih

end Runs

/-! ### Events that are functions -/

/-- The relation of events that are functions of the state, where they are allowed. -/
def stepOf (ok : σ → ε → Prop) (after : σ → ε → Option σ) (s : σ) (e : ε) (s' : σ) : Prop :=
  ok s e ∧ after s e = some s'

/-- Let a list of events happen, if each of them is allowed when it is its turn. -/
def follow (ok : σ → ε → Prop) [∀ s e, Decidable (ok s e)] (after : σ → ε → Option σ) :
    σ → List ε → Option σ
  | s, [] => some s
  | s, e :: rest => if ok s e then (after s e).bind fun u => follow ok after u rest else none

/-- **What can be followed is a run.** -/
theorem runs_of_follow {ok : σ → ε → Prop} [∀ s e, Decidable (ok s e)]
    {after : σ → ε → Option σ} (h : follow ok after s l = some s') :
    Runs (stepOf ok after) s l s' := by
  induction l generalizing s with
  | nil =>
    obtain rfl : s = s' := Option.some.inj h
    exact .nil s
  | cons e l ih =>
    rw [follow] at h
    split at h
    · rename_i hok
      obtain ⟨u, hu, hrest⟩ := Option.bind_eq_some_iff.mp h
      exact .cons ⟨hok, hu⟩ (ih hrest)
    · exact absurd h (by simp)

/-- A list of events that ends as it should: there is such a run. -/
theorem exists_runs_of_follow {ok : σ → ε → Prop} [∀ s e, Decidable (ok s e)]
    {after : σ → ε → Option σ} {p : σ → Bool} (h : (follow ok after s l).any p = true) :
    ∃ s', Runs (stepOf ok after) s l s' ∧ p s' = true := by
  obtain ⟨s', hs', hp⟩ := (Option.any_eq_true _ _).mp h
  exact ⟨s', runs_of_follow hs', hp⟩

/-! ### Histories

A history is what has happened so far, oldest first. What can be said of something
that happens is said of it and of what had happened before.
-/

/-- **Whatever happened, happened after what it calls for.** -/
def EachAfter (G : List ε → ε → Prop) (history : List ε) : Prop :=
  ∀ before e rest, history = before ++ e :: rest → G before e

variable {G : List ε → ε → Prop} {history : List ε}

theorem eachAfter_nil : EachAfter G [] := fun before e rest h => by simp at h

/-- One thing more happens. -/
theorem eachAfter_concat : EachAfter G (history ++ [e]) ↔ EachAfter G history ∧ G history e := by
  constructor
  · refine fun h => ⟨fun before e' rest heq => h before e' (rest ++ [e]) ?_, h history e [] rfl⟩
    rw [heq, List.append_assoc, List.cons_append]
  · rintro ⟨hhistory, he⟩ before e' rest heq
    rcases List.eq_nil_or_concat rest with rfl | ⟨rest, e'', rfl⟩
    · obtain ⟨rfl, hlast⟩ := List.append_inj' heq rfl
      rwa [← (List.cons.inj hlast).1]
    · have hsplit : history ++ [e] = (before ++ e' :: rest) ++ [e''] := by
        rw [heq]
        simp
      exact hhistory before e' rest (List.append_inj' hsplit rfl).1

/-- Things happen that call for nothing. -/
theorem eachAfter_append {more : List ε} (h : EachAfter G history)
    (hmore : ∀ e ∈ more, ∀ before, G before e) : EachAfter G (history ++ more) := by
  induction more using List.reverseRecOn with
  | nil => rwa [List.append_nil]
  | append_singleton more e ih =>
    rw [← List.append_assoc, eachAfter_concat]
    exact ⟨ih fun e' he' => hmore e' (List.mem_append_left _ he'),
      hmore e (List.mem_append_right _ List.mem_cons_self) _⟩

theorem EachAfter.imp {H : List ε → ε → Prop} (h : EachAfter G history)
    (himp : ∀ before e, G before e → H before e) : EachAfter H history :=
  fun before e rest heq => himp before e (h before e rest heq)

/-- What is said of a history is said of its beginning. -/
theorem EachAfter.of_append {rest : List ε} (h : EachAfter G (history ++ rest)) :
    EachAfter G history := fun before e rest' heq => by
  refine h before e (rest' ++ rest) ?_
  rw [heq, List.append_assoc, List.cons_append]

/-- **Something of a kind has happened, and nothing since that undoes it.** -/
def Since (p undone : ε → Prop) (history : List ε) : Prop :=
  ∃ before e rest, history = before ++ e :: rest ∧ p e ∧ ∀ e' ∈ rest, ¬undone e'

section Since

variable {p undone : ε → Prop}

theorem since_concat (he : p e) : Since p undone (history ++ [e]) :=
  ⟨history, e, [], rfl, he, fun _ he' => absurd he' List.not_mem_nil⟩

theorem Since.concat (h : Since p undone history) (he : ¬undone e) :
    Since p undone (history ++ [e]) := by
  obtain ⟨before, e', rest, rfl, he', hrest⟩ := h
  refine ⟨before, e', rest ++ [e], by simp, he', fun e'' hmem => ?_⟩
  rcases List.mem_append.mp hmem with hmem | hmem
  · exact hrest e'' hmem
  · exact List.mem_singleton.mp hmem ▸ he

theorem since_concat_iff :
    Since p undone (history ++ [e]) ↔ p e ∨ Since p undone history ∧ ¬undone e := by
  constructor
  · rintro ⟨before, e', rest, heq, he', hrest⟩
    rcases List.eq_nil_or_concat rest with rfl | ⟨rest, e'', rfl⟩
    · obtain ⟨-, heq⟩ := List.append_inj' heq rfl
      obtain rfl := List.singleton_inj.mp heq
      exact .inl he'
    · rw [List.concat_eq_append] at heq hrest
      rw [← List.cons_append, ← List.append_assoc] at heq
      obtain ⟨rfl, hlast⟩ := List.append_inj' heq rfl
      obtain rfl := List.singleton_inj.mp hlast
      have hkept : ∀ e'' ∈ rest, ¬undone e'' := fun e'' he'' =>
        hrest e'' (List.mem_append_left _ he'')
      exact .inr ⟨⟨before, e', rest, rfl, he', hkept⟩,
        hrest e (List.mem_append_right _ List.mem_cons_self)⟩
  · rintro (he | ⟨h, he⟩)
    · exact since_concat he
    · exact h.concat he

/-- What has nothing to do with it changes nothing. -/
theorem since_append {more : List ε} (hmore : ∀ e ∈ more, ¬p e ∧ ¬undone e) :
    Since p undone (history ++ more) ↔ Since p undone history := by
  induction more using List.reverseRecOn with
  | nil => rw [List.append_nil]
  | append_singleton more e ih =>
    obtain ⟨hp, hundone⟩ := hmore e (List.mem_append_right _ List.mem_cons_self)
    rw [← List.append_assoc, since_concat_iff,
      ih fun e' he' => hmore e' (List.mem_append_left _ he')]
    exact ⟨fun h => (h.resolve_left hp).1, fun h => .inr ⟨h, hundone⟩⟩

end Since

/-- **A name that is given once** names one thing. -/
theorem EachAfter.eq_of_key {κ : Type} {key : ε → Option κ} {k : κ}
    (h : EachAfter (fun before e => ∀ k, key e = some k → ∀ e' ∈ before, key e' ≠ some k) history)
    {e e' : ε} (he : e ∈ history) (he' : e' ∈ history) (hk : key e = some k)
    (hk' : key e' = some k) : e = e' := by
  induction history using List.reverseRecOn with
  | nil => exact absurd he List.not_mem_nil
  | append_singleton history last ih =>
    obtain ⟨hhistory, hlast⟩ := eachAfter_concat.mp h
    rcases List.mem_append.mp he with hm | hm <;> rcases List.mem_append.mp he' with hm' | hm'
    · exact ih hhistory hm hm'
    · obtain rfl := List.mem_singleton.mp hm'
      exact absurd hk (hlast k hk' e hm)
    · obtain rfl := List.mem_singleton.mp hm
      exact absurd hk' (hlast k hk e' hm')
    · rw [List.mem_singleton.mp hm, List.mem_singleton.mp hm']

/-- What happens once: the things of a kind, none of which happens after another. -/
theorem length_filterMap_le_one {α : Type} {f : ε → Option α}
    (h : EachAfter (fun before e => (f e).isSome → ∀ e' ∈ before, f e' = none) history) :
    (history.filterMap f).length ≤ 1 := by
  induction history using List.reverseRecOn with
  | nil => exact Nat.zero_le _
  | append_singleton history e ih =>
    obtain ⟨hhistory, he⟩ := eachAfter_concat.mp h
    rw [List.filterMap_append, List.length_append]
    rcases hfe : f e with _ | a
    · simpa [hfe] using ih hhistory
    · have hnone : history.filterMap f = [] :=
        List.filterMap_eq_nil_iff.mpr (he (by rw [hfe]; rfl))
      simp [hnone, hfe]

end Events
