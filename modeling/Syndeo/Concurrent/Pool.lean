import Syndeo.Concurrent.Run

/-!
# Pools of disciplined threads

What a program knows of itself – which lock it holds, what it has written and
not yet announced – is no part of the shared state, and an invariant of the
shared state that the programs keep up is nearly always about both. So each
thread of a pool is given a *local* state, told from its own actions alone as a
`Concurrent.Discipline` does it, and the invariant ranges over the shared state
and all of the local ones.

The proof then splits in two. That the programs obey the discipline is read off
their trees, one program at a time and with no interference in sight. That an
action the discipline allows keeps the invariant is settled once for each
action, whoever performs it (`Concurrent.Governs`). `Concurrent.Kept.runs` puts
the two together: no local state appears in a run, so none is part of what is
concluded, and every run is covered.
-/

namespace Concurrent

universe u

variable {A : Type → Type u} {σ ρ τ : Type}

/-- The local states after thread `i`, in a pool of `n`, performed `a` and was
answered `b`: its own moves on, and a thread that was started has its first. -/
def Discipline.advance (D : Discipline A τ) (starts : Bool) (t : ℕ → τ) (i n : ℕ) {β : Type}
    (a : A β) (b : β) (j : ℕ) : τ :=
  if j = i then D.next (t i) a b else if starts && j = n then D.born (t i) a else t j

section Advance

variable {D : Discipline A τ} {starts : Bool} {t : ℕ → τ} {i j n : ℕ} {β : Type} {a : A β} {b : β}

@[simp] theorem Discipline.advance_self : D.advance starts t i n a b i = D.next (t i) a b :=
  if_pos rfl

theorem Discipline.advance_of_lt (hj : j ≠ i) (hn : j < n) :
    D.advance starts t i n a b j = t j := by
  rw [advance, if_neg hj, if_neg]
  simp only [Bool.and_eq_true, decide_eq_true_eq, not_and]
  omega

/-- Where no thread is started, only the local state of the one that moved changes. -/
theorem Discipline.advance_false :
    D.advance false t i n a b = Function.update t i (D.next (t i) a b) := by
  funext j
  rw [advance, Bool.false_and, if_neg Bool.false_ne_true]
  by_cases hj : j = i
  · rw [if_pos hj, hj, Function.update_self]
  · rw [if_neg hj, Function.update_of_ne hj]

theorem Discipline.advance_born (hn : n ≠ i) : D.advance true t i n a b n = D.born (t i) a := by
  rw [advance, if_neg hn, if_pos (by simp)]

end Advance

/-- **The discipline governs the system**: an allowed action is answered as the
discipline foresees and keeps the invariant, and a program that is started obeys
in its turn. -/
structure Governs (S : System A σ ρ) (D : Discipline A τ) (Inv : σ → (ℕ → τ) → Prop)
    (Q : ℕ → ρ → τ → Prop) : Prop where
  step : ∀ i n {β : Type} (a : A β) s b s' t, i < n → Inv s t → D.may (t i) a →
    S.step i n a s b s' → D.sees (t i) a b ∧ Inv s' (D.advance (S.child a).isSome t i n a b)
  child : ∀ n {β : Type} (a : A β) (p : Prog A ρ) u, D.may u a → S.child a = some p →
    p.Obeys D (Q n) (D.born u a)

/-- The local states fit the pool: the invariant holds, and every thread obeys
from its own local state on. -/
def Kept (D : Discipline A τ) (Inv : σ → (ℕ → τ) → Prop) (Q : ℕ → ρ → τ → Prop)
    (c : Config A σ ρ) : Prop :=
  ∃ t : ℕ → τ, Inv c.shared t ∧ ∀ i (p : Prog A ρ), c.pool[i]? = some p → p.Obeys D (Q i) (t i)

variable {S : System A σ ρ} {D : Discipline A τ} {Inv : σ → (ℕ → τ) → Prop}
  {Q : ℕ → ρ → τ → Prop} {c c' : Config A σ ρ}

/-- One step of a governed pool. -/
theorem Kept.step (hg : Governs S D Inv Q) (h : Kept D Inv Q c) (hstep : S.Step c c') :
    Kept D Inv Q c' := by
  obtain ⟨t, hinv, hobeys⟩ := h
  obtain @⟨i, β, a, k, b, s', hi, hs⟩ := hstep
  obtain ⟨hin, -⟩ := List.getElem?_eq_some_iff.mp hi
  obtain ⟨hmay, hrest⟩ := hobeys i _ hi
  obtain ⟨hsees, hinv'⟩ := hg.step i _ a _ b s' t hin hinv hmay hs
  refine ⟨D.advance (S.child a).isSome t i c.pool.length a b, hinv', fun j p hj => ?_⟩
  rcases Nat.lt_or_ge j c.pool.length with hlt | hge
  · rw [List.getElem?_append_left (by simpa using hlt)] at hj
    rcases eq_or_ne i j with rfl | hne
    · -- the thread that moved
      rw [List.getElem?_set_self hin] at hj
      obtain rfl : k b = p := Option.some.inj hj
      rw [Discipline.advance_self]
      exact hrest b hsees
    · -- another thread, whose local state is as it was
      rw [List.getElem?_set_ne hne] at hj
      rw [Discipline.advance_of_lt (Ne.symm hne) hlt]
      exact hobeys j p hj
  · -- the thread the action started
    rw [List.getElem?_append_right (by simpa using hge), List.length_set] at hj
    rcases hc : S.child a with _ | d
    · simp [hc] at hj
    · obtain ⟨hj0, rfl⟩ : j - c.pool.length = 0 ∧ d = p := by
        rw [hc] at hj
        obtain ⟨hlt, hd⟩ := List.getElem?_eq_some_iff.mp hj
        simp only [Option.toList_some, List.length_singleton] at hlt
        exact ⟨by omega, by simpa using hd⟩
      obtain rfl : j = c.pool.length := by omega
      rw [Option.isSome_some, Discipline.advance_born (by omega)]
      exact hg.child _ a d _ hmay hc

/-- **Every run of a governed pool.** -/
theorem Kept.runs (hg : Governs S D Inv Q) (h : Kept D Inv Q c) (hrun : S.Runs c c') :
    Kept D Inv Q c' := by
  induction hrun with
  | refl => exact h
  | tail _ hlast ih => exact ih.step hg hlast

/-- What every program gives whatever it is answered, it gives in every run of a pool
in which no program is started. -/
theorem Kept.runs_free {Q : ℕ → ρ → Prop} (hchild : ∀ {β : Type} (a : A β), S.child a = none)
    (h : ∀ i (p : Prog A ρ), c.pool[i]? = some p → p.Obeys (.free A) (fun r _ => Q i r) ())
    (hrun : S.Runs c c') {i : ℕ} {r : ρ} (hi : c'.pool[i]? = some (.pure r)) : Q i r := by
  have hg : Governs S (.free A) (fun _ _ => True) (fun i r _ => Q i r) :=
    ⟨fun _ _ _ _ _ _ _ _ _ _ _ _ => ⟨trivial, trivial⟩,
      fun _ _ a _ _ _ hsome => absurd (hchild a) (by rw [hsome]; exact Option.some_ne_none _)⟩
  obtain ⟨t, -, hobeys⟩ := Kept.runs hg ⟨fun _ => (), trivial, h⟩ hrun
  exact hobeys i _ hi

/-- What a thread that has returned knows. -/
theorem Kept.returned (h : Kept D Inv Q c) {i : ℕ} {r : ρ}
    (hi : c.pool[i]? = some (.pure r)) : ∃ t : ℕ → τ, Inv c.shared t ∧ Q i r (t i) := by
  obtain ⟨t, hinv, hobeys⟩ := h
  exact ⟨t, hinv, hobeys i _ hi⟩

/-! ### What the threads have to tell

A discipline that forbids nothing and foresees nothing is a story each thread tells of
itself: its local state is made of what it did and was answered. A run in which the
stories are written down is a run as any other, and what is read off a program is
true of the story its thread ends with. -/

/-- The stories, one for each thread, after one of them went on with its own. -/
def Discipline.tell (D : Discipline A τ) (starts : Bool) (i : ℕ) {β : Type} (a : A β) (b : β)
    (stories : List τ) : List τ :=
  match stories[i]? with
  | some t => stories.set i (D.next t a b) ++ if starts then [D.born t a] else []
  | none => stories

/-- **The same system, with the stories of its threads.** -/
def System.telling (S : System A σ ρ) (D : Discipline A τ) : System A (σ × List τ) ρ :=
  S.recording fun i _ {_} a _ b _ stories => D.tell (S.child a).isSome i a b stories

/-- There is a story for each thread, and the thread goes on with it as it should. -/
def Told (D : Discipline A τ) (Q : ℕ → ρ → τ → Prop) (c : Config A (σ × List τ) ρ) : Prop :=
  c.shared.2.length = c.pool.length ∧ ∀ i (p : Prog A ρ) t, c.pool[i]? = some p →
    c.shared.2[i]? = some t → p.Obeys D (Q i) t

section Telling

variable {c c' : Config A (σ × List τ) ρ}

/-- What the programs are free to do, they tell. -/
structure Tells (S : System A σ ρ) (D : Discipline A τ) (Q : ℕ → ρ → τ → Prop) : Prop where
  sees : ∀ t {β : Type} (a : A β) b, D.sees t a b
  child : ∀ n {β : Type} (a : A β) (p : Prog A ρ) t, S.child a = some p →
    p.Obeys D (Q n) (D.born t a)

theorem Told.step (hD : Tells S D Q) (h : Told D Q c) (hstep : (S.telling D).Step c c') :
    Told D Q c' := by
  obtain ⟨hlength, hobeys⟩ := h
  obtain @⟨i, β, a, k, b, ⟨s', stories⟩, hi, -, htells⟩ := hstep
  obtain rfl : stories = D.tell (S.child a).isSome i a b c.shared.2 := htells
  obtain ⟨hin, -⟩ := List.getElem?_eq_some_iff.mp hi
  obtain ⟨t, ht⟩ : ∃ t, c.shared.2[i]? = some t :=
    ⟨_, List.getElem?_eq_getElem (hlength ▸ hin)⟩
  have htold : D.tell (S.child a).isSome i a b c.shared.2 = c.shared.2.set i (D.next t a b) ++
      if (S.child a).isSome then [D.born t a] else [] := by
    rw [Discipline.tell, ht]
  have hnext := (hobeys i _ t hi ht).2 b (hD.sees t a b)
  have hchild : ((S.telling D).child a).toList = (S.child a).toList := rfl
  rw [Told, htold, hchild]
  constructor
  · rcases S.child a with _ | p
    · simp [hlength]
    · simp [hlength]
  · intro j p u hp hu
    rcases Nat.lt_or_ge j c.pool.length with hlt | hge
    · rw [List.getElem?_append_left (by simpa using hlt)] at hp
      rw [List.getElem?_append_left (by simpa [hlength] using hlt)] at hu
      rcases eq_or_ne i j with rfl | hne
      · -- the thread that moved
        rw [List.getElem?_set_self hin] at hp
        rw [List.getElem?_set_self (by omega)] at hu
        obtain rfl := Option.some.inj hp
        obtain rfl := Option.some.inj hu
        exact hnext
      · -- another thread, whose story is as it was
        rw [List.getElem?_set_ne hne] at hp hu
        exact hobeys j p u hp hu
    · -- the thread the action started
      rw [List.getElem?_append_right (by simpa using hge), List.length_set] at hp
      rw [List.getElem?_append_right (by simpa [hlength] using hge), List.length_set, hlength] at hu
      rcases hc : S.child a with _ | d
      · rw [hc] at hp
        exact nomatch hp
      · rw [hc] at hp hu
        obtain ⟨hlt, hd⟩ := List.getElem?_eq_some_iff.mp hp
        have hzero : j - c.pool.length = 0 := by simpa using hlt
        rw [hzero] at hp hu
        obtain rfl : d = p := by simpa using hp
        obtain rfl : D.born t a = u := by simpa using hu
        exact hD.child j a d t hc

/-- **What a thread returns fits its story**, in every run. -/
theorem Told.returned (hD : Tells S D Q) (h : Told D Q c) (hrun : (S.telling D).Runs c c') {i : ℕ}
    {r : ρ} {t : τ} (hi : c'.result i = some r) (ht : c'.shared.2[i]? = some t) : Q i r t := by
  have htold : Told D Q c' := by
    clear hi ht
    induction hrun with
    | refl => exact h
    | tail _ hlast ih => exact ih.step hD hlast
  exact htold.2 i _ t (Config.result_eq_some.mp hi) ht

end Telling

end Concurrent
