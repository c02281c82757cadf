import Mathlib.Data.List.Induction
import Mathlib.Tactic.Common

/-!
# Incremental computation of a function of a list

A hash can be computed of a list that is not all there yet: a state is begun, the
pieces are worked into it as they come, and at the end the result is read off it.
`Incremental.Agrees` says that what comes out is a given function of the whole
list, however the list was cut into pieces.
-/

/-- **A computation that takes its input in pieces.** -/
structure Incremental (α β : Type) where
  /-- What is kept between two pieces. -/
  State : Type
  /-- Nothing has come yet. -/
  init : State
  /-- One more piece. -/
  update : State → List α → State
  /-- Of everything that has come. -/
  result : State → β

namespace Incremental

variable {α β : Type}

/-- The state after some pieces. -/
def after (c : Incremental α β) (chunks : List (List α)) : c.State :=
  chunks.foldl c.update c.init

@[simp] theorem after_nil (c : Incremental α β) : c.after [] = c.init := rfl

theorem after_append (c : Incremental α β) (chunks more : List (List α)) :
    c.after (chunks ++ more) = more.foldl c.update (c.after chunks) := List.foldl_append

theorem after_snoc (c : Incremental α β) (chunks : List (List α)) (chunk : List α) :
    c.after (chunks ++ [chunk]) = c.update (c.after chunks) chunk := by
  rw [after_append, List.foldl_cons, List.foldl_nil]

/-- **The pieces do not show**: what comes out is the function of the whole. -/
def Agrees (c : Incremental α β) (f : List α → β) : Prop :=
  ∀ chunks, c.result (c.after chunks) = f chunks.flatten

/-- The computation that keeps everything, and begins at the end. -/
def collecting (f : List α → β) : Incremental α β where
  State := List α
  init := []
  update := fun seen chunk => seen ++ chunk
  result := f

theorem after_collecting (f : List α → β) (chunks : List (List α)) :
    (collecting f).after chunks = chunks.flatten := by
  induction chunks using List.reverseRecOn with
  | nil => rfl
  | append_singleton chunks chunk ih =>
    rw [after_snoc, ih, List.flatten_append, List.flatten_singleton]
    rfl

theorem agrees_collecting (f : List α → β) : (collecting f).Agrees f := fun chunks =>
  congrArg f (after_collecting f chunks)

end Incremental
