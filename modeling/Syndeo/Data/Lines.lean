import Syndeo.Data.Separated

/-!
# Lines read a byte at a time

Lines are written one after another, each ended by a separator, and read back by
a reader that keeps at most so much of a line and then only remembers that it was
too long. What the reader holds after part of a line is a function of that part,
`Lines.Reader.after`, so it does not matter how the bytes were cut into reads.

`Lines.Reads` ties a reader to what is still to come: the lines that were written
and not yet read whole. A byte that arrives either goes on with the first of them
or ends it.
-/

namespace Lines

open Separated

variable {β : Type} [DecidableEq β] {sep : β} {limit : ℕ}

/-- The line that is being read: what is kept of it, and whether there was more. -/
structure Reader (β : Type) where
  line : List β
  tooLong : Bool
  deriving DecidableEq

namespace Reader

/-- The beginning of a line. -/
def start : Reader β := ⟨[], false⟩

/-- One more byte. At the end of a line: the line, unless it was too long. -/
def read (sep : β) (limit : ℕ) (r : Reader β) (b : β) : Reader β × Option (Option (List β)) :=
  if b = sep then (start, some (if r.tooLong then none else some r.line))
  else if r.line.length < limit then ({ r with line := r.line ++ [b] }, none)
  else ({ r with tooLong := true }, none)

/-- The reader after part of a line. -/
def after (limit : ℕ) (part : List β) : Reader β := ⟨part.take limit, limit < part.length⟩

omit [DecidableEq β] in
theorem after_nil : (after limit [] : Reader β) = start := by
  simp [after, start]

/-- A byte of the line goes to the part that was read. -/
theorem read_after {part : List β} {b : β} (hb : b ≠ sep) :
    (after limit part).read sep limit b = (after limit (part ++ [b]), none) := by
  rw [read, if_neg hb]
  rcases Nat.lt_or_ge part.length limit with h | h
  · have hlen : (part.take limit).length < limit := by simpa using h
    rw [if_pos (show (after limit part).line.length < limit from hlen), after, after,
      List.take_of_length_le (Nat.le_of_lt h), List.take_of_length_le (by simpa using Nat.succ_le_of_lt h)]
    simp only [List.length_append, List.length_singleton, Prod.mk.injEq, Reader.mk.injEq, and_true,
      true_and, decide_eq_decide]
    omega
  · have hlen : ¬(part.take limit).length < limit := by simp [h]
    rw [if_neg (show ¬(after limit part).line.length < limit from hlen), after, after,
      List.take_append_of_le_length h]
    simp only [List.length_append, List.length_singleton, Prod.mk.injEq, Reader.mk.injEq, and_true,
      true_and]
    exact (decide_eq_true (by omega)).symm

/-- The separator ends it. -/
theorem read_sep {part : List β} :
    (after limit part).read sep limit sep =
      (start, some (if part.length ≤ limit then some part else none)) := by
  rw [read, if_pos rfl, after]
  rcases Nat.lt_or_ge limit part.length with h | h
  · simp [h, Nat.not_le.mpr h]
  · simp [h, Nat.not_lt.mpr h]

end Reader

/-- **What a reader will read**: it has read part of the first of the lines, and the
rest of them is to come. -/
def Reads (sep : β) (limit : ℕ) (r : Reader β) (pending : List (List β)) (bytes : List β) : Prop :=
  ∃ part, r = .after limit part ∧ sep ∉ part ∧ part ++ bytes = terminated sep pending

section Reads

variable {r : Reader β} {pending : List (List β)} {bytes : List β} {b : β} {l : List β}

omit [DecidableEq β] in
theorem reads_start : Reads sep limit .start ([] : List (List β)) [] :=
  ⟨[], Reader.after_nil.symm, List.not_mem_nil, rfl⟩

omit [DecidableEq β] in
/-- One more line is written. -/
theorem Reads.write (h : Reads sep limit r pending bytes) (l : List β) :
    Reads sep limit r (pending ++ [l]) (bytes ++ (l ++ [sep])) := by
  obtain ⟨part, hr, hsep, heq⟩ := h
  refine ⟨part, hr, hsep, ?_⟩
  rw [← List.append_assoc, heq, terminated, terminated, List.flatMap_append]
  simp

omit [DecidableEq β] in
/-- With nothing to come, nothing was pending. -/
theorem Reads.nil_of_nil (h : Reads sep limit r pending []) : pending = [] := by
  obtain ⟨part, -, hsep, heq⟩ := h
  rcases pending with _ | ⟨l, pending⟩
  · rfl
  · rw [List.append_nil, terminated_cons] at heq
    exact absurd (by rw [heq]; simp) hsep

/-- **A byte of a line.** -/
theorem Reads.read (h : Reads sep limit r pending (b :: bytes)) (hb : b ≠ sep) :
    (r.read sep limit b).2 = none ∧ Reads sep limit (r.read sep limit b).1 pending bytes := by
  obtain ⟨part, rfl, hsep, heq⟩ := h
  rw [Reader.read_after hb]
  refine ⟨rfl, part ++ [b], rfl, ?_, ?_⟩
  · simp only [List.mem_append, List.mem_singleton, not_or]
    exact ⟨hsep, Ne.symm hb⟩
  · rw [List.append_assoc]
    exact heq

/-- **The end of one.** -/
theorem Reads.read_sep (h : Reads sep limit r pending (sep :: bytes))
    (hlines : ∀ l ∈ pending, sep ∉ l) :
    ∃ l rest, pending = l :: rest ∧
      (r.read sep limit sep).2 = some (if l.length ≤ limit then some l else none) ∧
      Reads sep limit (r.read sep limit sep).1 rest bytes := by
  obtain ⟨part, rfl, hsep, heq⟩ := h
  rcases pending with _ | ⟨l, rest⟩
  · simp at heq
  · rw [terminated_cons] at heq
    obtain ⟨rfl, rfl⟩ := append_cons_inj hsep (hlines l List.mem_cons_self) heq
    rw [Reader.read_sep]
    exact ⟨part, rest, rfl, rfl, [], Reader.after_nil.symm, List.not_mem_nil, rfl⟩

end Reads

end Lines
