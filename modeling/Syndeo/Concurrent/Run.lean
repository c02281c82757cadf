import Syndeo.Concurrent.Program

/-!
# Interleaved runs

A *system* says what each atomic action does to the shared state when a given
thread performs it, and which program, if any, that action starts beside the
ones already running. A configuration is the shared state together with the pool
of threads, each a program that is part way through. One step picks any thread
whose next action is enabled and performs that action; a run is any number of
steps. So a run is an arbitrary interleaving, and what a statement about all
runs quantifies over is every schedule, every number of threads and every point
at which one thread cuts into another.

A thread is named by its place in the pool, and a started one goes to the end of
it, so a name is never reused.

A statement about what *has happened* needs a history beside the state.
`Concurrent.System.recording` writes one: the steps are the same, and each leaves
its note. Where the notes make a log, a run can be looked at in the light of what
its log says in the end (`Concurrent.System.Runs.within_log`).
-/

namespace Concurrent

open Relation

universe u

variable {A : Type → Type u} {σ ρ η ω : Type}

/-- **What the actions do**: `step i n a s b s'` when thread `i`, in a pool of
`n` threads, may perform `a` in the shared state `s`, be answered `b` and leave
`s'`; and the program an action starts. -/
structure System (A : Type → Type u) (σ ρ : Type) : Type (max 1 u) where
  /-- One action of one thread. -/
  step : ℕ → ℕ → ∀ {β : Type}, A β → σ → β → σ → Prop
  /-- The program an action starts beside the ones that are running. -/
  child : ∀ {β : Type}, A β → Option (Prog A ρ)

/-- A shared state, and the threads that are part way through their programs. -/
structure Config (A : Type → Type u) (σ ρ : Type) : Type (max 1 u) where
  shared : σ
  pool : List (Prog A ρ)

/-- What thread `i` has returned, if it has. -/
def Config.result (c : Config A σ ρ) (i : ℕ) : Option ρ :=
  match c.pool[i]? with
  | some (.pure r) => some r
  | _ => none

theorem Config.result_eq_some {c : Config A σ ρ} {i : ℕ} {r : ρ} :
    c.result i = some r ↔ c.pool[i]? = some (.pure r) := by
  rw [result]
  split
  · rename_i r' h
    rw [h]
    simp
  · rename_i h
    exact ⟨fun hr => absurd hr (by simp), fun hr => absurd hr (h r)⟩

namespace System

variable {S : System A σ ρ}

/-- **One step of a run**: one thread performs its next action. -/
inductive Step (S : System A σ ρ) : Config A σ ρ → Config A σ ρ → Prop
  | act {c : Config A σ ρ} {i : ℕ} {β : Type} {a : A β} {k : β → Prog A ρ} {b : β} {s' : σ}
      (hi : c.pool[i]? = some (.act a k)) (hs : S.step i c.pool.length a c.shared b s') :
      Step S c ⟨s', c.pool.set i (k b) ++ (S.child a).toList⟩

/-- Any number of steps. -/
abbrev Runs (S : System A σ ρ) : Config A σ ρ → Config A σ ρ → Prop := ReflTransGen (Step S)

/-- The system whose steps are those of `S` that meet `ok`. -/
def when (S : System A σ ρ) (ok : ℕ → ∀ {β : Type}, A β → σ → Prop) : System A σ ρ where
  step := fun i n {_} a s b s' => ok i a s ∧ S.step i n a s b s'
  child := S.child

/-- **The invariant rule**: what no action of any thread breaks holds along every
run. -/
theorem Runs.invariant {I : σ → Prop}
    (hstep : ∀ i n {β : Type} (a : A β) s b s', I s → S.step i n a s b s' → I s')
    {c c' : Config A σ ρ} (h : S.Runs c c') (hc : I c.shared) : I c'.shared := by
  induction h with
  | refl => exact hc
  | tail _ hlast ih =>
    obtain ⟨_, hs⟩ := hlast
    exact hstep _ _ _ _ _ _ ih hs

/-- **The same system, with its history written down**: each step leaves a note
of what was done, by whom, in which state, and what was answered. -/
def recording (S : System A σ ρ)
    (note : ℕ → ℕ → ∀ {β : Type}, A β → σ → β → σ → η → η) : System A (σ × η) ρ where
  step := fun i n {_} a s b s' => S.step i n a s.1 b s'.1 ∧ s'.2 = note i n a s.1 b s'.1 s.2
  child := S.child

/-! A log is a history to which each step adds. -/

variable {ev : ℕ → ∀ {β : Type}, A β → σ → β → List ω}

/-- **The same system, with a log**: each step adds what there is to say of it. -/
def logging (S : System A σ ρ) (ev : ℕ → ∀ {β : Type}, A β → σ → β → List ω) :
    System A (σ × List ω) ρ :=
  S.recording fun i _ {_} a s b _ history => history ++ ev i a s b

/-- The system with a log, in which nothing happens that is not in `W`. -/
def loggingWithin (S : System A σ ρ) (ev : ℕ → ∀ {β : Type}, A β → σ → β → List ω)
    (W : ω → Prop) : System A (σ × List ω) ρ where
  step := fun i n {_} a s b s' => (S.logging ev).step i n a s b s' ∧ ∀ e ∈ ev i a s.1 b, W e
  child := S.child

theorem Runs.within_mono {W W' : ω → Prop} (hW : ∀ e, W e → W' e)
    {c c' : Config A (σ × List ω) ρ} (h : (S.loggingWithin ev W).Runs c c') :
    (S.loggingWithin ev W').Runs c c' := by
  induction h with
  | refl => exact ReflTransGen.refl
  | tail _ hlast ih =>
    obtain ⟨hi, hs, hwithin⟩ := hlast
    exact ReflTransGen.tail ih (Step.act (S := S.loggingWithin ev W') hi
      ⟨hs, fun e he => hW e (hwithin e he)⟩)

/-- **A run keeps to what its log says in the end.** -/
theorem Runs.within_log {c c' : Config A (σ × List ω) ρ} (h : (S.logging ev).Runs c c') :
    (S.loggingWithin ev (· ∈ c'.shared.2)).Runs c c' := by
  induction h with
  | refl => exact ReflTransGen.refl
  | @tail d _ _ hlast ih =>
    obtain @⟨i, β, a, k, b, ⟨u, log⟩, hi, hs⟩ := hlast
    obtain rfl : log = d.shared.2 ++ ev i a d.shared.1 b := hs.2
    refine ReflTransGen.tail (ih.within_mono fun e he => List.mem_append_left _ he) ?_
    exact Step.act (S := S.loggingWithin ev _) hi ⟨hs, fun e he => List.mem_append_right _ he⟩

/-- **A thread that asks only for quiet actions leaves no trace**: no event of a
kind that those do not have, and the other threads cannot have. -/
theorem Runs.not_mem_log {H : ∀ {β : Type}, A β → Prop} {W : ω → Prop} {i : ℕ}
    (hchild : ∀ {β : Type} (a : A β), S.child a = none)
    (hquiet : ∀ {β : Type} (a : A β) s b, H a → ∀ e ∈ ev i a s b, ¬W e)
    (hothers : ∀ j, j ≠ i → ∀ {β : Type} (a : A β) s b, ∀ e ∈ ev j a s b, ¬W e)
    {c c' : Config A (σ × List ω) ρ} (h : (S.logging ev).Runs c c')
    (hstart : ∀ e ∈ c.shared.2, ¬W e) (hi : ∀ p : Prog A ρ, c.pool[i]? = some p → p.Asks H)
    (hlt : i < c.pool.length) : ∀ e ∈ c'.shared.2, ¬W e := by
  suffices hkept : (∀ e ∈ c'.shared.2, ¬W e) ∧ i < c'.pool.length ∧
      ∀ p : Prog A ρ, c'.pool[i]? = some p → p.Asks H from hkept.1
  induction h with
  | refl => exact ⟨hstart, hlt, hi⟩
  | @tail d _ _ hlast ih =>
    obtain ⟨hlog, hlt, hi⟩ := ih
    obtain @⟨j, β, a, k, b, ⟨u, log⟩, hj, hs⟩ := hlast
    obtain rfl : log = d.shared.2 ++ ev j a d.shared.1 b := hs.2
    have hnone : (S.logging ev).child a = none := hchild a
    rw [hnone, Option.toList_none, List.append_nil, List.length_set]
    rcases eq_or_ne j i with rfl | hne
    · obtain ⟨ha, hk⟩ := hi _ hj
      refine ⟨fun e he => ?_, hlt, fun p hp => ?_⟩
      · rcases List.mem_append.mp he with hold | hnew
        · exact hlog e hold
        · exact hquiet a _ b ha e hnew
      · rw [List.getElem?_set_self hlt] at hp
        rw [← Option.some.inj hp]
        exact hk b
    · refine ⟨fun e he => ?_, hlt, fun p hp => ?_⟩
      · rcases List.mem_append.mp he with hold | hnew
        · exact hlog e hold
        · exact hothers j hne a _ b e hnew
      · rw [List.getElem?_set_ne hne] at hp
        exact hi p hp

end System

/-! ### One thread after another

A program that runs through by itself is a run of the pool in which only it
moves, so threads that run one after another are a run, too. -/

namespace System

variable {S : System A σ ρ} {T : ℕ → ∀ {β : Type}, A β → σ → β → σ → Prop}

/-- **One thread runs through.** -/
theorem runs_of_returns (hchild : ∀ {β : Type} (a : A β), S.child a = none)
    (hstep : ∀ i n {β : Type} (a : A β) s b s', T i a s b s' → S.step i n a s b s')
    {i : ℕ} {p : Prog A ρ} {pool : List (Prog A ρ)} {s s' : σ} {r : ρ} (hi : pool[i]? = some p)
    (h : p.Returns (T i) s r s') : S.Runs ⟨s, pool⟩ ⟨s', pool.set i (.pure r)⟩ := by
  induction p generalizing s pool with
  | pure a =>
    obtain ⟨rfl, rfl⟩ := h
    obtain ⟨hlt, hget⟩ := List.getElem?_eq_some_iff.mp hi
    rw [← hget, List.set_getElem_self hlt]
  | act a k ih =>
    obtain ⟨b, u, hb, hk⟩ := h
    obtain ⟨hlt, -⟩ := List.getElem?_eq_some_iff.mp hi
    have hfirst : S.Step ⟨s, pool⟩ ⟨u, pool.set i (k b)⟩ := by
      have hact := Step.act (c := ⟨s, pool⟩) hi (hstep i pool.length a s b u hb)
      rwa [hchild, Option.toList_none, List.append_nil] at hact
    have hrest := ih b (List.getElem?_set_self hlt) hk
    rw [List.set_set] at hrest
    exact ReflTransGen.head hfirst hrest

/-- **Threads run through in turn**: where each leaves what the next one needs,
there is a run that ends as the last one leaves it. -/
theorem exists_runs_in_turn (hchild : ∀ {β : Type} (a : A β), S.child a = none)
    (hstep : ∀ i n {β : Type} (a : A β) s b s', T i a s b s' → S.step i n a s b s')
    {J : ℕ → σ → Prop} {pool : List (Prog A ρ)} {s : σ} (hs : J 0 s)
    (hturn : ∀ i p, pool[i]? = some p → ∀ s, J i s →
      ∃ r s', p.Returns (T i) s r s' ∧ J (i + 1) s') :
    ∃ c : Config A σ ρ, S.Runs ⟨s, pool⟩ c ∧ J pool.length c.shared := by
  have hsome : ∀ n ≤ pool.length, ∃ c : Config A σ ρ, S.Runs ⟨s, pool⟩ c ∧ J n c.shared ∧
      ∀ i, n ≤ i → c.pool[i]? = pool[i]? := by
    intro n
    induction n with
    | zero => exact fun _ => ⟨⟨s, pool⟩, ReflTransGen.refl, hs, fun _ _ => rfl⟩
    | succ n ih =>
      intro hn
      obtain ⟨⟨u, pool'⟩, hruns, hJ, hpool⟩ := ih (Nat.le_of_succ_le hn)
      have hi : pool'[n]? = some pool[n] := (hpool n (Nat.le_refl n)).trans (List.getElem?_eq_getElem hn)
      obtain ⟨r, u', hreturns, hJ'⟩ := hturn n _ (List.getElem?_eq_getElem hn) u hJ
      refine ⟨_, hruns.trans (runs_of_returns hchild hstep hi hreturns), hJ', fun i hi => ?_⟩
      rw [List.getElem?_set_ne (Nat.ne_of_lt hi)]
      exact hpool i (Nat.le_of_succ_le hi)
  obtain ⟨c, hruns, hJ, -⟩ := hsome _ (Nat.le_refl _)
  exact ⟨c, hruns, hJ⟩

end System

/-! ### Schedules

Where the answer of an action is a function of the state and of what the world
contributes, a run is named by the sequence of threads that move, each with its
contribution, and can be computed. -/

/-- The system of such an interpretation of the actions, over the contributions
that can occur. -/
def System.ofPerform (perform : ω → ℕ → ∀ {β : Type}, A β → σ → Option (β × σ)) (world : ω → Prop)
    (child : ∀ {β : Type}, A β → Option (Prog A ρ)) : System A σ ρ where
  step := fun i _ {_} a s b s' => ∃ w, world w ∧ perform w i a s = some (b, s')
  child := child

/-- The interpretation in which an action that is not allowed cannot be performed. -/
def allowing (ok : ℕ → ∀ {β : Type}, A β → σ → Prop)
    [∀ i β (a : A β) s, Decidable (ok i a s)]
    (perform : ω → ℕ → ∀ {β : Type}, A β → σ → Option (β × σ)) :
    ω → ℕ → ∀ {β : Type}, A β → σ → Option (β × σ) :=
  fun w i {_} a s => if ok i a s then perform w i a s else none

/-- The runs of it are those whose steps are allowed. -/
theorem System.ofPerform_allowing (ok : ℕ → ∀ {β : Type}, A β → σ → Prop)
    [∀ i β (a : A β) s, Decidable (ok i a s)]
    (perform : ω → ℕ → ∀ {β : Type}, A β → σ → Option (β × σ)) (world : ω → Prop)
    (child : ∀ {β : Type}, A β → Option (Prog A ρ)) :
    System.ofPerform (allowing ok perform) world child =
      (System.ofPerform perform world child).when ok := by
  rw [System.ofPerform, System.when]
  congr 1
  funext i n β a s b s'
  refine propext ⟨?_, ?_⟩
  · rintro ⟨w, hw, hp⟩
    rw [allowing] at hp
    split at hp
    · exact ⟨‹_›, w, hw, hp⟩
    · exact absurd hp (by simp)
  · rintro ⟨hok, w, hw, hp⟩
    exact ⟨w, hw, by rw [allowing, if_pos hok, hp]⟩

/-- The interpretation that writes the history down. -/
def noting (note : ℕ → ∀ {β : Type}, A β → σ → β → σ → η → η)
    (perform : ω → ℕ → ∀ {β : Type}, A β → σ → Option (β × σ)) :
    ω → ℕ → ∀ {β : Type}, A β → σ × η → Option (β × (σ × η)) :=
  fun w i {_} a s => (perform w i a s.1).map fun r => (r.1, r.2, note i a s.1 r.1 r.2 s.2)

/-- The runs of it are those of the recording system. -/
theorem System.ofPerform_noting (note : ℕ → ∀ {β : Type}, A β → σ → β → σ → η → η)
    (perform : ω → ℕ → ∀ {β : Type}, A β → σ → Option (β × σ)) (world : ω → Prop)
    (child : ∀ {β : Type}, A β → Option (Prog A ρ)) :
    System.ofPerform (noting note perform) world child =
      (System.ofPerform perform world child).recording fun i _ => note i := by
  rw [System.ofPerform, System.recording]
  congr 1
  funext i n β a s b s'
  obtain ⟨s', h'⟩ := s'
  refine propext ⟨?_, ?_⟩
  · rintro ⟨w, hw, hp⟩
    rw [noting] at hp
    obtain ⟨⟨b', u⟩, hmoves, hr⟩ := Option.map_eq_some_iff.mp hp
    obtain ⟨rfl, rfl, rfl⟩ : b' = b ∧ u = s' ∧ note i a s.1 b' u s.2 = h' := by simpa using hr
    exact ⟨⟨w, hw, hmoves⟩, rfl⟩
  · rintro ⟨⟨w, hw, hmoves⟩, hnoted⟩
    obtain rfl : h' = note i a s.1 b s' s.2 := hnoted
    exact ⟨w, hw, by rw [noting, hmoves]; rfl⟩

namespace Config

variable (perform : ω → ℕ → ∀ {β : Type}, A β → σ → Option (β × σ))
  (child : ∀ {β : Type}, A β → Option (Prog A ρ))

/-- Let thread `i` perform its next action. -/
def advance (c : Config A σ ρ) (w : ω) (i : ℕ) : Option (Config A σ ρ) :=
  match c.pool[i]? with
  | some (.act a k) =>
    match perform w i a c.shared with
    | some (b, s') => some ⟨s', c.pool.set i (k b) ++ (child a).toList⟩
    | none => none
  | _ => none

/-- Let the threads of a schedule move, one after another. -/
def follow (c : Config A σ ρ) : List (ω × ℕ) → Option (Config A σ ρ)
  | [] => some c
  | (w, i) :: rest => (c.advance perform child w i).bind fun c' => c'.follow rest

variable {perform child}

theorem step_of_advance {world : ω → Prop} {c c' : Config A σ ρ} {w : ω} {i : ℕ} (hw : world w)
    (h : c.advance perform child w i = some c') :
    (System.ofPerform perform world child).Step c c' := by
  rw [advance] at h
  rcases hi : c.pool[i]? with _ | (_ | ⟨a, k⟩)
  · simp [hi] at h
  · simp [hi] at h
  · rcases hp : perform w i a c.shared with _ | ⟨b, s'⟩
    · simp [hi, hp] at h
    · simp only [hi, hp, Option.some.injEq] at h
      rw [← h]
      exact System.Step.act (S := System.ofPerform perform world child) hi ⟨w, hw, hp⟩

/-- **A schedule that can be followed is a run.** -/
theorem runs_of_follow {world : ω → Prop} {rest : List (ω × ℕ)} {c c' : Config A σ ρ}
    (hw : ∀ m ∈ rest, world m.1) (h : c.follow perform child rest = some c') :
    (System.ofPerform perform world child).Runs c c' := by
  induction rest generalizing c with
  | nil =>
    obtain rfl : c = c' := Option.some.inj h
    exact ReflTransGen.refl
  | cons m rest ih =>
    obtain ⟨d, hd, hrest⟩ := Option.bind_eq_some_iff.mp h
    exact ReflTransGen.head (step_of_advance (hw m List.mem_cons_self) hd)
      (ih (fun m' hm' => hw m' (List.mem_cons_of_mem _ hm')) hrest)

/-- A schedule that ends as it should: there is such a run. -/
theorem exists_runs_of_follow {world : ω → Prop} {rest : List (ω × ℕ)} {c : Config A σ ρ}
    {p : Config A σ ρ → Bool} (hw : ∀ m ∈ rest, world m.1)
    (h : (c.follow perform child rest).any p = true) :
    ∃ c', (System.ofPerform perform world child).Runs c c' ∧ p c' = true := by
  obtain ⟨c', hc', hp⟩ := (Option.any_eq_true _ _).mp h
  exact ⟨c', runs_of_follow hw hc', hp⟩

end Config

end Concurrent
