import Mathlib.Logic.Relation
import Mathlib.Tactic.Common

/-!
# Programs over atomic actions

A program that runs beside others is a tree: it asks for an *atomic action*, is
given the action's result, and goes on. Nothing else of it can be seen from
outside, so a program is exactly the tree of what it would ask for next, and a
piece of sequential code over a store, a lock or a socket becomes a value of
`Concurrent.Prog`. What an action does to the shared state is not part of the
program; it is said by whoever runs it.

Two readings of a program are kept here.

* `Concurrent.Prog.Obeys` looks at the tree alone. A `Concurrent.Discipline`
  says what a program may ask for next and what it then knows, from what it has
  seen so far; a program obeys it when every path through its tree does. It is
  the local half of a proof about programs that run side by side, and by itself
  it proves what holds against every behaviour of the world.
* `Concurrent.Prog.Returns` runs a program by itself, with nobody interfering.

The interleaved reading is the subject of `Syndeo.Concurrent.Run`. Programs that
can fail are `ExceptT` over these, and the rules for sequencing are stated for
them too.
-/

namespace Concurrent

universe u v w

/-- **A program over the actions `A`**: either it has returned, or it asks for
an atomic action and goes on with what the action answers. -/
inductive Prog (A : Type → Type u) (α : Type) : Type (max 1 u)
  /-- The program has returned `a`. -/
  | pure (a : α) : Prog A α
  /-- The program asks for the action `a` and continues with its answer. -/
  | act {β : Type} (a : A β) (k : β → Prog A α) : Prog A α

namespace Prog

variable {A : Type → Type u} {B : Type → Type v} {α β γ σ τ ε : Type}

/-- Sequencing: the second program takes over where the first returns. -/
def bind : Prog A α → (α → Prog A β) → Prog A β
  | .pure a, f => f a
  | .act a k, f => .act a fun b => (k b).bind f

instance : Monad (Prog A) where
  pure := Prog.pure
  bind := Prog.bind

theorem bind_pure (p : Prog A α) : p.bind .pure = p := by
  induction p with
  | pure a => rfl
  | act a k ih => exact congrArg (Prog.act a) (funext ih)

theorem bind_assoc (p : Prog A α) (f : α → Prog A β) (g : β → Prog A γ) :
    (p.bind f).bind g = p.bind fun a => (f a).bind g := by
  induction p with
  | pure a => rfl
  | act a k ih => exact congrArg (Prog.act a) (funext ih)

instance : LawfulMonad (Prog A) :=
  LawfulMonad.mk' (Prog A) (fun p => bind_pure p) (fun _ _ => rfl) bind_assoc

/-- The program that asks for one action and returns its answer. -/
def call (a : A α) : Prog A α := .act a .pure

/-- Run the actions of one alphabet as actions of another. -/
def lift (f : ∀ {β : Type}, A β → B β) : Prog A α → Prog B α
  | .pure a => .pure a
  | .act a k => .act (f a) fun b => (k b).lift f

/-- The program goes on with an action of the kind `H`. -/
def Begins (H : ∀ {β : Type}, A β → Prop) : Prog A α → Prop
  | .pure _ => False
  | .act a _ => H a

end Prog

open Prog

/-! ### Disciplines -/

/-- **What a program keeps to**, told from what it has seen: which action it may
ask for, which answers that action can have, and what is known after one. The
last also says what a program started by the action begins with. -/
structure Discipline (A : Type → Type u) (τ : Type) : Type (max 1 u) where
  may : ∀ {β : Type}, τ → A β → Prop
  sees : ∀ {β : Type}, τ → A β → β → Prop
  next : ∀ {β : Type}, τ → A β → β → τ
  born : ∀ {β : Type}, τ → A β → τ

/-- The discipline of programs over `A`, read on the actions of `B` that stand
for them. -/
def Discipline.comap {A : Type → Type u} {B : Type → Type v} {τ : Type}
    (f : ∀ {β : Type}, A β → B β) (D : Discipline B τ) : Discipline A τ where
  may := fun {_} t a => D.may t (f a)
  sees := fun {_} t a b => D.sees t (f a) b
  next := fun {_} t a b => D.next t (f a) b
  born := fun {_} t a => D.born t (f a)

/-- No discipline at all: any action, any answer. -/
def Discipline.free (A : Type → Type u) : Discipline A Unit where
  may := fun {_} _ _ => True
  sees := fun {_} _ _ _ => True
  next := fun {_} _ _ _ => ()
  born := fun {_} _ _ => ()

namespace Prog

variable {A : Type → Type u} {B : Type → Type v} {α β γ σ τ ε : Type}

/-- **The program keeps to the discipline** from the knowledge `t` on, and
returns only where `Q` holds of the result and of what is known then. -/
def Obeys (D : Discipline A τ) (Q : α → τ → Prop) : Prog A α → τ → Prop
  | .pure a, t => Q a t
  | .act a k, t => D.may t a ∧ ∀ b, D.sees t a b → (k b).Obeys D Q (D.next t a b)

section Obeys

variable {D : Discipline A τ} {Q Q' : α → τ → Prop} {t : τ} {p : Prog A α}

@[simp] theorem obeys_pure {a : α} : (Prog.pure a : Prog A α).Obeys D Q t ↔ Q a t := Iff.rfl

theorem obeys_act {a : A γ} {k : γ → Prog A α} :
    (Prog.act a k).Obeys D Q t ↔
      D.may t a ∧ ∀ b, D.sees t a b → (k b).Obeys D Q (D.next t a b) := Iff.rfl

@[simp] theorem obeys_call {a : A α} :
    (call a).Obeys D Q t ↔ D.may t a ∧ ∀ b, D.sees t a b → Q b (D.next t a b) := Iff.rfl

theorem Obeys.mono (h : p.Obeys D Q t) (hQ : ∀ a t, Q a t → Q' a t) : p.Obeys D Q' t := by
  induction p generalizing t with
  | pure a => exact hQ a t h
  | act a k ih => exact ⟨h.1, fun b hb => ih b (h.2 b hb)⟩

/-- **Sequencing.** -/
theorem obeys_bind {f : α → Prog A β} {Q : β → τ → Prop} :
    (p >>= f).Obeys D Q t ↔ p.Obeys D (fun a u => (f a).Obeys D Q u) t := by
  induction p generalizing t with
  | pure a => exact Iff.rfl
  | act a k ih =>
    exact and_congr_right fun _ => forall_congr' fun b => imp_congr_right fun _ => ih b

theorem obeys_lift {f : ∀ {β : Type}, A β → B β} {D : Discipline B τ} :
    (p.lift f).Obeys D Q t ↔ p.Obeys (D.comap f) Q t := by
  induction p generalizing t with
  | pure a => exact Iff.rfl
  | act a k ih =>
    exact and_congr_right fun _ => forall_congr' fun b => imp_congr_right fun _ => ih b

/-- Where nothing is forbidden, a program gives what holds of every result. -/
theorem obeys_of_forall (hmay : ∀ t {β : Type} (a : A β), D.may t a) (hQ : ∀ a t, Q a t) :
    p.Obeys D Q t := by
  induction p generalizing t with
  | pure a => exact hQ a t
  | act a k ih => exact ⟨hmay t a, fun b _ => ih b⟩

/-- What is known of a result whatever the program is answered is known of it beside
what the discipline gives. -/
theorem Obeys.and_free {G : α → Prop} (h : p.Obeys D Q t)
    (hfree : p.Obeys (.free A) (fun a _ => G a) ()) : p.Obeys D (fun a t => Q a t ∧ G a) t := by
  induction p generalizing t with
  | pure a => exact ⟨h, hfree⟩
  | act a k ih => exact ⟨h.1, fun b hb => ih b (h.2 b hb) (hfree.2 b trivial)⟩

end Obeys

/-! ### Running alone -/

/-- **What the program may return by itself**, and the state it then leaves,
where each action behaves as `step` allows and nobody interferes. -/
def Returns {σ : Type w} (step : ∀ {β : Type}, A β → σ → β → σ → Prop) :
    Prog A α → σ → α → σ → Prop
  | .pure a, s, b, s' => b = a ∧ s' = s
  | .act a k, s, b, s' => ∃ c u, step a s c u ∧ (k c).Returns step u b s'

section Returns

variable {σ : Type w} {step : ∀ {β : Type}, A β → σ → β → σ → Prop} {s s' : σ}

@[simp] theorem returns_pure {a b : α} :
    (Prog.pure a : Prog A α).Returns step s b s' ↔ b = a ∧ s' = s := Iff.rfl

theorem returns_act {a : A γ} {k : γ → Prog A α} {b : α} :
    (Prog.act a k).Returns step s b s' ↔ ∃ c u, step a s c u ∧ (k c).Returns step u b s' := Iff.rfl

@[simp] theorem returns_call {a : A α} {b : α} :
    (call a).Returns step s b s' ↔ step a s b s' := by
  constructor
  · rintro ⟨c, u, h, rfl, rfl⟩
    exact h
  · exact fun h => ⟨b, s', h, rfl, rfl⟩

/-- **Sequencing.** -/
theorem returns_bind {p : Prog A α} {f : α → Prog A β} {b : β} :
    (p >>= f).Returns step s b s' ↔
      ∃ a u, p.Returns step s a u ∧ (f a).Returns step u b s' := by
  induction p generalizing s with
  | pure a =>
    constructor
    · exact fun h => ⟨a, s, ⟨rfl, rfl⟩, h⟩
    · rintro ⟨c, u, ⟨rfl, rfl⟩, h⟩
      exact h
  | act a k ih =>
    constructor
    · rintro ⟨c, u, hstep, h⟩
      obtain ⟨d, v, hk, hf⟩ := (ih c).mp h
      exact ⟨d, v, ⟨c, u, hstep, hk⟩, hf⟩
    · rintro ⟨d, v, ⟨c, u, hstep, hk⟩, hf⟩
      exact ⟨c, u, hstep, (ih c).mpr ⟨d, v, hk, hf⟩⟩

end Returns

/-- Running a program whose actions are deterministic. An action that is not
enabled stops the run, which then has no result. -/
def exec (perform : ∀ {β : Type}, A β → σ → Option (β × σ)) : Prog A α → σ → Option (α × σ)
  | .pure a, s => some (a, s)
  | .act a k, s =>
    match perform a s with
    | some (b, s') => (k b).exec perform s'
    | none => none

theorem returns_of_exec {perform : ∀ {β : Type}, A β → σ → Option (β × σ)}
    {step : ∀ {β : Type}, A β → σ → β → σ → Prop}
    (hstep : ∀ {β : Type} (a : A β) s b s', perform a s = some (b, s') → step a s b s')
    {p : Prog A α} {s s' : σ} {b : α} (h : p.exec perform s = some (b, s')) :
    p.Returns step s b s' := by
  induction p generalizing s with
  | pure a =>
    obtain ⟨rfl, rfl⟩ : a = b ∧ s = s' := by simpa [exec] using h
    exact ⟨rfl, rfl⟩
  | act a k ih =>
    rw [exec] at h
    split at h
    · rename_i c u hc
      exact ⟨c, u, hstep a s c u hc, ih c h⟩
    · exact absurd h (by simp)

/-- **Sequencing.** -/
theorem exec_bind {perform : ∀ {β : Type}, A β → σ → Option (β × σ)} {p : Prog A α}
    {f : α → Prog A β} {s : σ} : (p >>= f).exec perform s =
      (p.exec perform s).bind fun r => (f r.1).exec perform r.2 := by
  induction p generalizing s with
  | pure a => rfl
  | act a k ih =>
    change (Prog.act a fun b => k b >>= f).exec perform s = _
    rw [exec, exec]
    rcases perform a s with _ | ⟨b, u⟩
    · rfl
    · exact ih b

/-- **What obeys is carried out**, where what it may ask for can be performed. -/
theorem Obeys.exec {D : Discipline A σ} {Q : α → σ → Prop}
    {perform : ∀ {β : Type}, A β → σ → Option (β × σ)}
    (hperform : ∀ {β : Type} (a : A β) s, D.may s a →
      ∃ b, D.sees s a b ∧ perform a s = some (b, D.next s a b))
    {p : Prog A α} {s : σ} (h : p.Obeys D Q s) : ∃ b s', p.exec perform s = some (b, s') ∧ Q b s' := by
  induction p generalizing s with
  | pure a => exact ⟨a, s, rfl, h⟩
  | act a k ih =>
    obtain ⟨c, hsees, hc⟩ := hperform a s h.1
    obtain ⟨b, s', hk, hQ⟩ := ih c (h.2 c hsees)
    exact ⟨b, s', by rw [Prog.exec, hc]; exact hk, hQ⟩

/-- Running a program whose actions always answer. -/
def eval (perform : ∀ {β : Type}, A β → σ → β × σ) : Prog A α → σ → α × σ
  | .pure a, s => (a, s)
  | .act a k, s => (k (perform a s).1).eval perform (perform a s).2

section Eval

variable {perform : ∀ {β : Type}, A β → σ → β × σ} {s : σ}

@[simp] theorem eval_pure {a : α} : (Prog.pure a : Prog A α).eval perform s = (a, s) := rfl

@[simp] theorem eval_call {a : A α} : (call a).eval perform s = perform a s := rfl

/-- **Sequencing.** -/
theorem eval_bind {p : Prog A α} {f : α → Prog A β} :
    (p >>= f).eval perform s = (f (p.eval perform s).1).eval perform (p.eval perform s).2 := by
  induction p generalizing s with
  | pure a => rfl
  | act a k ih => exact ih _

end Eval

/-- **Running alone, as a discipline**: where the state is what is known, and what
is foreseen is what each action does to it, what a program that obeys can end in
is what it may return. -/
theorem Obeys.of_returns {D : Discipline A σ} {Q : α → σ → Prop}
    {step : ∀ {β : Type}, A β → σ → β → σ → Prop}
    (hstep : ∀ {β : Type} (a : A β) s b s', step a s b s' → D.sees s a b ∧ s' = D.next s a b)
    {p : Prog A α} {s s' : σ} {b : α} (h : p.Obeys D Q s) (hr : p.Returns step s b s') :
    Q b s' := by
  induction p generalizing s with
  | pure a =>
    obtain ⟨rfl, rfl⟩ := hr
    exact h
  | act a k ih =>
    obtain ⟨c, u, hc, hk⟩ := hr
    obtain ⟨hsees, rfl⟩ := hstep a s c u hc
    exact ih c (h.2 c hsees) hk

/-- **What the program comes by**, where each action behaves as `step` allows: the
states between its actions, and the one it ends in. -/
inductive Passes (step : ∀ {β : Type}, A β → σ → β → σ → Prop) : Prog A α → σ → σ → Prop
  /-- It is where it is. -/
  | here {p : Prog A α} {s : σ} : Passes step p s s
  /-- It is where it comes by after the next action. -/
  | next {β : Type} {a : A β} {k : β → Prog A α} {s u s' : σ} {b : β} :
      step a s b u → Passes step (k b) u s' → Passes step (.act a k) s s'

/-- What a run of the program ends in it comes by. -/
theorem passes_of_exec {perform : ∀ {β : Type}, A β → σ → Option (β × σ)}
    {step : ∀ {β : Type}, A β → σ → β → σ → Prop}
    (hstep : ∀ {β : Type} (a : A β) s b s', perform a s = some (b, s') → step a s b s')
    {p : Prog A α} {s s' : σ} {b : α} (h : p.exec perform s = some (b, s')) :
    p.Passes step s s' := by
  induction p generalizing s with
  | pure a =>
    obtain ⟨-, rfl⟩ : a = b ∧ s = s' := by simpa [exec] using h
    exact .here
  | act a k ih =>
    rw [exec] at h
    split at h
    · rename_i c u hc
      exact .next (hstep a s c u hc) (ih c h)
    · exact absurd h (by simp)

/-- **What is kept along the way**: where each action that the discipline allows keeps
the state and what is known of it together, they are together wherever a program
that obeys comes by. -/
theorem Obeys.passes {D : Discipline A τ} {Q : α → τ → Prop}
    {step : ∀ {β : Type}, A β → σ → β → σ → Prop} {I : σ → τ → Prop}
    (hstep : ∀ {β : Type} (a : A β) s t b s', I s t → D.may t a → step a s b s' →
      D.sees t a b ∧ I s' (D.next t a b))
    {p : Prog A α} {s s' : σ} {t : τ} (h : p.Obeys D Q t) (hI : I s t)
    (hp : p.Passes step s s') : ∃ t', I s' t' := by
  induction hp generalizing t with
  | here => exact ⟨t, hI⟩
  | next hact hrest ih =>
    obtain ⟨hsees, hI⟩ := hstep _ _ t _ _ hI h.1 hact
    exact ih (h.2 _ hsees) hI

/-- And where what it may ask for is what can be performed, it does return. -/
theorem Obeys.exists_returns {D : Discipline A σ} {Q : α → σ → Prop}
    {step : ∀ {β : Type}, A β → σ → β → σ → Prop}
    (hstep : ∀ {β : Type} (a : A β) s, D.may s a →
      ∃ b, D.sees s a b ∧ step a s b (D.next s a b))
    {p : Prog A α} {s : σ} (h : p.Obeys D Q s) : ∃ b s', p.Returns step s b s' ∧ Q b s' := by
  induction p generalizing s with
  | pure a => exact ⟨a, s, ⟨rfl, rfl⟩, h⟩
  | act a k ih =>
    obtain ⟨c, hsees, hc⟩ := hstep a s h.1
    obtain ⟨b, s', hk, hQ⟩ := ih c (h.2 c hsees)
    exact ⟨b, s', ⟨c, _, hc, hk⟩, hQ⟩

/-! ### Programs that can fail -/

section Fallible

variable {D : Discipline A τ} {Q : Except ε β → τ → Prop} {t : τ}
  {step : ∀ {β : Type}, A β → σ → β → σ → Prop} {s s' : σ}
  {x : ExceptT ε (Prog A) α} {f : α → ExceptT ε (Prog A) β}

/-- What is left to prove of the rest of a program that can fail. -/
def orElse (Q : Except ε β → τ → Prop) (P : α → τ → Prop) : Except ε α → τ → Prop
  | .ok a, t => P a t
  | .error e, t => Q (.error e) t

@[simp] theorem orElse_ok {P : α → τ → Prop} {a : α} :
    orElse Q P (.ok a : Except ε α) t ↔ P a t := Iff.rfl

@[simp] theorem orElse_error {P : α → τ → Prop} {e : ε} :
    orElse Q P (.error e : Except ε α) t ↔ Q (.error e) t := Iff.rfl

theorem obeys_run_bind : (x >>= f).run.Obeys D Q t ↔
    x.run.Obeys D (orElse Q fun a u => (f a).run.Obeys D Q u) t := by
  rw [ExceptT.run_bind, obeys_bind]
  exact ⟨fun h => h.mono fun r u => by cases r <;> exact id,
    fun h => h.mono fun r u => by cases r <;> exact id⟩

/-- What a piece of a program ends in: one of the states `T`, with a result out of
`G` or a failure out of `F`. -/
def Ends (T : τ → Prop) (F : ε → Prop) (G : α → Prop) : Except ε α → τ → Prop
  | .ok a, t => T t ∧ G a
  | .error e, t => T t ∧ F e

theorem obeys_bind_ends {T : τ → Prop} {F : ε → Prop} {G : α → Prop} {G' : β → Prop}
    (hx : x.run.Obeys D (Ends T F G) t)
    (hf : ∀ a u, G a → T u → (f a).run.Obeys D (Ends T F G') u) :
    (x >>= f).run.Obeys D (Ends T F G') t := by
  refine obeys_run_bind.mpr (hx.mono fun r u hu => ?_)
  rcases r with e | a
  · exact hu
  · exact hf a u hu.2 hu.1

/-- The piece of a program keeps to the discipline from any of the states `T` on,
and leaves one of them, however it ends. -/
def Stays (D : Discipline A τ) (T : τ → Prop) (x : ExceptT ε (Prog A) α) : Prop :=
  ∀ t, T t → x.run.Obeys D (fun _ u => T u) t

/-- There is a result, and `G` holds of it. -/
def yielding (G : α → τ → Prop) : Except ε α → τ → Prop
  | .ok a, t => G a t
  | .error _, _ => False

/-- The piece of a program keeps to the discipline, and does not fail: it ends with
a result and in a state of which `G` holds. -/
def Yields (D : Discipline A τ) (x : ExceptT ε (Prog A) α) (t : τ) (G : α → τ → Prop) : Prop :=
  x.run.Obeys D (yielding G) t

section Yields

variable {G G' : α → τ → Prop} {H : β → τ → Prop}

theorem yields_pure {a : α} : Yields D (Pure.pure a : ExceptT ε (Prog A) α) t G ↔ G a t := Iff.rfl

theorem Yields.mono (h : Yields D x t G) (hG : ∀ a u, G a u → G' a u) : Yields D x t G' :=
  Obeys.mono h fun r u hr => by
    rcases r with e | a
    · exact hr
    · exact hG a u hr

/-- **Sequencing.** -/
theorem yields_bind : Yields D (x >>= f) t H ↔ Yields D x t fun a u => Yields D (f a) u H := by
  refine obeys_run_bind.trans (iff_of_eq ?_)
  rw [Yields, show orElse (yielding H) (fun a u => (f a).run.Obeys D (yielding H) u) =
    yielding fun a u => Yields D (f a) u H from funext fun r => by cases r <;> rfl]

theorem Yields.bind (h : Yields D x t G) (hf : ∀ a u, G a u → Yields D (f a) u H) :
    Yields D (x >>= f) t H :=
  yields_bind.mpr (h.mono hf)

/-- A piece that does not fail ends in one of the states. -/
theorem Yields.ends {T : τ → Prop} {F : ε → Prop} {K : α → Prop}
    (h : Yields D x t fun a u => T u ∧ K a) : x.run.Obeys D (Ends T F K) t :=
  Obeys.mono h fun r u hr => by
    rcases r with e | a
    · exact hr.elim
    · exact hr

/-- And one that ends in one of the states, and in no failure, does not fail. -/
theorem yields_of_ends {T : τ → Prop} {K : α → Prop}
    (h : x.run.Obeys D (Ends T (fun _ => False) K) t) : Yields D x t fun a u => T u ∧ K a :=
  Obeys.mono h fun r u hr => by
    rcases r with e | a
    · exact hr.2
    · exact hr

/-- A piece that does not fail, where its failure would be looked at. -/
theorem Yields.lift_run (h : Yields D x t G) :
    Yields D (ExceptT.lift x.run : ExceptT ε (Prog A) (Except ε α)) t
      fun r u => ∃ a, r = .ok a ∧ G a u := by
  rw [Yields, ExceptT.run_lift, map_eq_pure_bind, obeys_bind]
  refine Obeys.mono h fun r u hr => ?_
  rcases r with e | a
  · exact hr.elim
  · exact ⟨a, rfl, hr⟩

end Yields

/-- The piece of a program keeps to the discipline, and where it does not fail it ends
with a result and in a state of which `G` holds. -/
def Leads (D : Discipline A τ) (x : ExceptT ε (Prog A) α) (t : τ) (G : α → τ → Prop) : Prop :=
  x.run.Obeys D (fun r u => ∀ a, r = .ok a → G a u) t

section Leads

variable {G G' : α → τ → Prop} {H : β → τ → Prop}

theorem leads_pure {a : α} (h : G a t) : Leads D (Pure.pure a : ExceptT ε (Prog A) α) t G :=
  fun _ hb => Except.ok.inj hb ▸ h

theorem leads_throw {e : ε} : Leads D (throw e : ExceptT ε (Prog A) α) t G :=
  fun _ ha => nomatch ha

theorem leads_return {r : Except ε α} (h : ∀ a, r = .ok a → G a t) :
    Leads D (ExceptT.mk (.pure r) : ExceptT ε (Prog A) α) t G := h

theorem Leads.mono (h : Leads D x t G) (hG : ∀ a u, G a u → G' a u) : Leads D x t G' :=
  Obeys.mono h fun _ u hr a ha => hG a u (hr a ha)

/-- **Sequencing.** -/
theorem Leads.bind (h : Leads D x t G) (hf : ∀ a u, G a u → Leads D (f a) u H) :
    Leads D (x >>= f) t H :=
  obeys_run_bind.mpr (Obeys.mono h fun r u hr => by
    rcases r with e | a
    · exact fun _ hb => nomatch hb
    · exact hf a u (hr a rfl))

end Leads

variable {T : τ → Prop}

/-- The piece of a program ends with a result of which `G` holds, or fails in one of the
states `T`. -/
def Settles (D : Discipline A τ) (T : τ → Prop) (x : ExceptT ε (Prog A) α) (t : τ)
    (G : α → τ → Prop) : Prop :=
  x.run.Obeys D (orElse (fun _ : Except ε α => T) G) t

section Settles

variable {G G' : α → τ → Prop} {H : β → τ → Prop}

theorem settles_throw {e : ε} (ht : T t) : Settles D T (throw e : ExceptT ε (Prog A) α) t G := ht

/-- What stays does nothing else. -/
theorem Stays.settles (hx : Stays D T x) (ht : T t) : Settles D T x t fun _ => T :=
  (hx t ht).mono fun r _ hu => by rcases r <;> exact hu

/-- **Sequencing.** -/
theorem Settles.bind (h : Settles D T x t G) (hf : ∀ a u, G a u → Settles D T (f a) u H) :
    Settles D T (x >>= f) t H :=
  obeys_run_bind.mpr (h.mono fun r u hr => by
    rcases r with e | a
    · exact hr
    · exact hf a u hr)

end Settles

theorem stays_pure {a : α} : Stays D T (Pure.pure a : ExceptT ε (Prog A) α) := fun _ h => h

theorem stays_throw {e : ε} : Stays D T (throw e : ExceptT ε (Prog A) α) := fun _ h => h

theorem stays_return {r : Except ε α} : Stays D T (ExceptT.mk (.pure r) : ExceptT ε (Prog A) α) :=
  fun _ h => h

theorem Stays.bind (hx : Stays D T x) (hf : ∀ a, Stays D T (f a)) : Stays D T (x >>= f) := by
  intro t ht
  refine obeys_run_bind.mpr ((hx t ht).mono fun r u hu => ?_)
  rcases r with e | a
  · exact hu
  · exact hf a u hu

/-- What comes after a piece that stays may leave. -/
theorem Stays.obeys_then (hx : Stays D T x)
    (hf : ∀ a t, T t → (f a).run.Obeys D (fun _ _ => True) t) (t : τ) (ht : T t) :
    (x >>= f).run.Obeys D (fun _ _ => True) t := by
  refine obeys_run_bind.mpr ((hx t ht).mono fun r u hu => ?_)
  rcases r with e | a
  · trivial
  · exact hf a u hu

/-- What an error would be is looked at, and the program goes on. -/
theorem Stays.lift_run (hx : Stays D T x) :
    Stays D T (ExceptT.lift x.run : ExceptT ε (Prog A) (Except ε α)) := by
  intro t ht
  rw [ExceptT.run_lift, map_eq_pure_bind, obeys_bind]
  exact hx t ht

/-- The piece stays, and its result, if it has one, is of the kind `G`. -/
def StaysWith (D : Discipline A τ) (T : τ → Prop) (G : α → Prop) (x : ExceptT ε (Prog A) α) :
    Prop :=
  ∀ t, T t → x.run.Obeys D (Ends T (fun _ => True) G) t

theorem Stays.with (hx : Stays D T x) : StaysWith D T (fun _ => True) x :=
  fun t ht => (hx t ht).mono fun r _ hu => by
    rcases r with e | a
    · exact ⟨hu, trivial⟩
    · exact ⟨hu, trivial⟩

theorem StaysWith.stays {G : α → Prop} (hx : StaysWith D T G x) : Stays D T x :=
  fun t ht => (hx t ht).mono fun r _ hu => by
    rcases r with e | a
    · exact hu.1
    · exact hu.1

theorem StaysWith.mono {G G' : α → Prop} (hx : StaysWith D T G x) (hG : ∀ a, G a → G' a) :
    StaysWith D T G' x :=
  fun t ht => (hx t ht).mono fun r _ hu => by
    rcases r with e | a
    · exact hu
    · exact ⟨hu.1, hG a hu.2⟩

theorem staysWith_pure {G : α → Prop} {a : α} (ha : G a) :
    StaysWith D T G (Pure.pure a : ExceptT ε (Prog A) α) := fun _ ht => ⟨ht, ha⟩

theorem staysWith_throw {G : α → Prop} {e : ε} :
    StaysWith D T G (throw e : ExceptT ε (Prog A) α) := fun _ ht => ⟨ht, trivial⟩

/-- **Sequencing.** -/
theorem StaysWith.bind {G : α → Prop} {G' : β → Prop} (hx : StaysWith D T G x)
    (hf : ∀ a, G a → StaysWith D T G' (f a)) : StaysWith D T G' (x >>= f) :=
  fun t ht => obeys_bind_ends (hx t ht) fun a u ha hu => hf a ha u hu

theorem StaysWith.then {G : α → Prop} (hx : StaysWith D T G x)
    (hf : ∀ a, G a → Stays D T (f a)) : Stays D T (x >>= f) :=
  (hx.bind fun a ha => (hf a ha).with).stays

theorem staysWith_return {G : α → Prop} {r : Except ε α} (hr : ∀ a, r = .ok a → G a) :
    StaysWith D T G (ExceptT.mk (.pure r) : ExceptT ε (Prog A) α) := fun _ ht => by
  rcases r with e | a
  · exact ⟨ht, trivial⟩
  · exact ⟨ht, hr a rfl⟩

/-- What an error would be is looked at, and the program goes on. -/
theorem StaysWith.lift_run {G : α → Prop} (hx : StaysWith D T G x) :
    StaysWith D T (fun r => ∀ a, r = .ok a → G a)
      (ExceptT.lift x.run : ExceptT ε (Prog A) (Except ε α)) := by
  intro t ht
  rw [ExceptT.run_lift, map_eq_pure_bind, obeys_bind]
  refine (hx t ht).mono fun r u hu => ?_
  rcases r with e | a
  · exact ⟨hu.1, fun a ha => absurd ha (by simp)⟩
  · refine ⟨hu.1, fun b hb => ?_⟩
    rw [← Except.ok.inj hb]
    exact hu.2

/-- Every piece stays where nothing is asked of it. -/
theorem stays_free : Stays (.free A) (fun _ => True) x := by
  have hgeneral : ∀ (p : Prog A (Except ε α)) (t : Unit),
      p.Obeys (.free A) (fun _ _ => True) t := by
    intro p
    induction p with
    | pure a => exact fun _ => trivial
    | act a k ih => exact fun _ => ⟨trivial, fun b _ => ih b _⟩
  exact fun t _ => hgeneral x.run t

/-! #### What a program can ask for at all -/

/-- Every action the program may ask for, whatever it is answered, is of the kind `H`. -/
def Asks (H : ∀ {β : Type}, A β → Prop) : Prog A α → Prop
  | .pure _ => True
  | .act a k => H a ∧ ∀ b, (k b).Asks H

variable {H H' : ∀ {β : Type}, A β → Prop}

theorem Asks.mono {p : Prog A α} (h : p.Asks H) (hH : ∀ {β : Type} (a : A β), H a → H' a) :
    p.Asks H' := by
  induction p with
  | pure a => trivial
  | act a k ih => exact ⟨hH a h.1, fun b => ih b (h.2 b)⟩

theorem Asks.bind {p : Prog A α} {f : α → Prog A β} (hp : p.Asks H) (hf : ∀ a, (f a).Asks H) :
    (p >>= f).Asks H := by
  induction p with
  | pure a => exact hf a
  | act a k ih => exact ⟨hp.1, fun b => ih b (hp.2 b)⟩

theorem asks_of_forall {p : Prog A α} (hH : ∀ {β : Type} (a : A β), H a) : p.Asks H := by
  induction p with
  | pure a => trivial
  | act a k ih => exact ⟨hH a, ih⟩

theorem asks_lift {f : ∀ {β : Type}, A β → B β} {H : ∀ {β : Type}, B β → Prop} {p : Prog A α}
    (hp : p.Asks fun {_} a => H (f a)) : (p.lift f).Asks H := by
  induction p with
  | pure a => trivial
  | act a k ih => exact ⟨hp.1, fun b => ih b (hp.2 b)⟩

/-- So when it runs by itself, its steps are of that kind. -/
theorem Returns.of_asks {step : ∀ {β : Type}, A β → σ → β → σ → Prop} {p : Prog A α} {s s' : σ}
    {b : α} (hp : p.Asks H) (h : p.Returns step s b s') :
    p.Returns (fun {_} a s b s' => H a ∧ step a s b s') s b s' := by
  induction p generalizing s with
  | pure a => exact h
  | act a k ih =>
    obtain ⟨c, u, hc, hk⟩ := h
    exact ⟨c, u, ⟨hp.1, hc⟩, ih c (hp.2 c) hk⟩

/-- **The invariant rule**: what every step keeps, the program keeps. -/
theorem Returns.invariant {step : ∀ {β : Type}, A β → σ → β → σ → Prop} {p : Prog A α} {s s' : σ}
    {b : α} {I : σ → Prop} (hstep : ∀ {β : Type} (a : A β) s c s', I s → step a s c s' → I s')
    (h : p.Returns step s b s') (hs : I s) : I s' := by
  induction p generalizing s with
  | pure a =>
    obtain ⟨-, rfl⟩ := returns_pure.mp h
    exact hs
  | act a k ih =>
    obtain ⟨c, u, hc, hk⟩ := h
    exact ih c hk (hstep a s c u hs hc)

/-- The same of a program that can fail. -/
theorem asks_run_bind (hx : x.run.Asks H) (hf : ∀ a, (f a).run.Asks H) :
    (x >>= f).run.Asks H := by
  rw [ExceptT.run_bind]
  refine hx.bind fun r => ?_
  rcases r with e | a
  · trivial
  · exact hf a

theorem asks_lift_run (hx : x.run.Asks H) :
    (ExceptT.lift x.run : ExceptT ε (Prog A) (Except ε α)).run.Asks H := by
  rw [ExceptT.run_lift, map_eq_pure_bind]
  exact hx.bind fun _ => trivial

/-- **What only asks for actions that change nothing** of what is looked at stays. -/
theorem stays_of_asks (hx : x.run.Asks H)
    (hH : ∀ {β : Type} (a : A β) t, H a → T t →
      D.may t a ∧ ∀ b, D.sees t a b → T (D.next t a b)) : Stays D T x := by
  have hgeneral : ∀ (p : Prog A (Except ε α)), p.Asks H → ∀ t, T t →
      p.Obeys D (fun _ u => T u) t := by
    intro p hp
    induction p with
    | pure a => exact fun t ht => ht
    | act a k ih =>
      intro t ht
      obtain ⟨hmay, hnext⟩ := hH a t hp.1 ht
      exact ⟨hmay, fun b hb => ih b (hp.2 b) _ (hnext b hb)⟩
  exact hgeneral _ hx

theorem returns_run_bind {σ : Type w} {step : ∀ {β : Type}, A β → σ → β → σ → Prop} {s s' : σ}
    {r : Except ε β} : (x >>= f).run.Returns step s r s' ↔
    (∃ a u, x.run.Returns step s (.ok a) u ∧ (f a).run.Returns step u r s') ∨
      ∃ e, x.run.Returns step s (.error e) s' ∧ r = .error e := by
  rw [ExceptT.run_bind, returns_bind]
  constructor
  · rintro ⟨a | a, u, hx, hf⟩
    · obtain ⟨rfl, rfl⟩ := returns_pure.mp hf
      exact Or.inr ⟨a, hx, rfl⟩
    · exact Or.inl ⟨a, u, hx, hf⟩
  · rintro (⟨a, u, hx, hf⟩ | ⟨e, hx, rfl⟩)
    · exact ⟨.ok a, u, hx, hf⟩
    · exact ⟨.error e, s', hx, rfl, rfl⟩

/-! #### Running one whose actions are deterministic -/

section Exec

variable {perform : ∀ {β : Type}, A β → σ → Option (β × σ)}

/-- **Sequencing.** -/
theorem exec_run_bind : (x >>= f).run.exec perform s =
    (x.run.exec perform s).bind fun r =>
      match r.1 with
      | .ok a => (f a).run.exec perform r.2
      | .error e => some (.error e, r.2) := by
  rw [ExceptT.run_bind, exec_bind]
  refine congrArg _ (funext fun r => ?_)
  rcases r with ⟨e | a, u⟩
  · rfl
  · rfl

theorem exec_run_bind_ok {a : α} {u : σ} (h : x.run.exec perform s = some (.ok a, u)) :
    (x >>= f).run.exec perform s = (f a).run.exec perform u := by
  rw [exec_run_bind, h]
  rfl

theorem exec_run_map {γ : Type} {g : α → γ} : (g <$> x).run.exec perform s =
    (x.run.exec perform s).map fun r => (r.1.map g, r.2) := by
  rw [← bind_pure_comp, exec_run_bind, Option.map_eq_bind]
  refine congrArg _ (funext fun r => ?_)
  rcases r with ⟨e | a, u⟩
  · rfl
  · rfl

theorem exec_run_bind_error {e : ε} {u : σ} (h : x.run.exec perform s = some (.error e, u)) :
    (x >>= f).run.exec perform s = some (.error e, u) := by
  rw [exec_run_bind, h]
  rfl

end Exec

/-! #### Running one whose actions always answer -/

section Eval

variable {perform : ∀ {β : Type}, A β → σ → β × σ}

/-- **Sequencing.** -/
theorem eval_run_bind : (x >>= f).run.eval perform s =
    match x.run.eval perform s with
    | (.ok a, u) => (f a).run.eval perform u
    | (.error e, u) => (.error e, u) := by
  rw [ExceptT.run_bind, eval_bind]
  rcases x.run.eval perform s with ⟨e | a, u⟩
  · rfl
  · rfl

theorem eval_run_bind_ok {a : α} {u : σ} (h : x.run.eval perform s = (.ok a, u)) :
    (x >>= f).run.eval perform s = (f a).run.eval perform u := by rw [eval_run_bind, h]

theorem eval_run_bind_error {e : ε} {u : σ} (h : x.run.eval perform s = (.error e, u)) :
    (x >>= f).run.eval perform s = (.error e, u) := by rw [eval_run_bind, h]

/-- **What only asks for actions that keep something** keeps it. -/
theorem Asks.eval {p : Prog A α} {I : σ → Prop} (hp : p.Asks H)
    (hH : ∀ {β : Type} (a : A β) s, H a → I s → I (perform a s).2) (hs : I s) :
    I (p.eval perform s).2 := by
  induction p generalizing s with
  | pure a => exact hs
  | act a k ih => exact ih _ (hp.2 _) (hH a s hp.1 hs)

end Eval

end Fallible

end Prog

end Concurrent
