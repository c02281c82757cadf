import Mathlib.Data.List.Basic
import Mathlib.Tactic.Common

/-!
# S-expressions

Names, quoted texts and lists of these, as a reader that goes through a text once makes them
out: blanks keep names apart, a semicolon begins a comment that goes to the end of its line,
and in a quoted text an escape takes away the meaning of a quotation mark or of another escape.

`Sexp.readFrom_quote` says that a text that was quoted is read as that text, whatever is in
it and wherever it stands: it neither ends early nor takes in what is behind it.
-/

/-- An S-expression. -/
inductive Sexp
  | name (text : List Char)
  | text (content : List Char)
  | list (items : List Sexp)

namespace Sexp

/-- What a reader is in the middle of, read backwards. -/
inductive Mode
  | between
  | name (sofar : List Char)
  | text (sofar : List Char)
  | escaped (sofar : List Char)
  | comment

/-- Where a reader is: in these lists, the innermost one first and each backwards. -/
structure Reading where
  lists : List (List Sexp)
  mode : Mode

/-- An item of the innermost list. -/
def push (x : Sexp) : List (List Sexp) → List (List Sexp)
  | [] => []
  | items :: lists => (x :: items) :: lists

/-- The innermost list ends. -/
def close : List (List Sexp) → Option (List (List Sexp))
  | items :: lists@(_ :: _) => some (push (.list items.reverse) lists)
  | _ => none

def isBlank (c : Char) : Bool := c == ' ' || c == '\n' || c == '\t' || c == '\r'

/-- What ends a name. -/
def isMark (c : Char) : Bool := isBlank c || c == '(' || c == ')' || c == '"' || c == ';'

/-- One character further, between two items. -/
def next (lists : List (List Sexp)) (c : Char) : Option Reading :=
  if isBlank c then some ⟨lists, .between⟩
  else if c = '(' then some ⟨[] :: lists, .between⟩
  else if c = ')' then (close lists).map fun lists => ⟨lists, .between⟩
  else if c = '"' then some ⟨lists, .text []⟩
  else if c = ';' then some ⟨lists, .comment⟩
  else some ⟨lists, .name [c]⟩

/-- One character further. -/
def step : Reading → Char → Option Reading
  | ⟨lists, .between⟩, c => next lists c
  | ⟨lists, .name sofar⟩, c =>
    if isMark c then next (push (.name sofar.reverse) lists) c else some ⟨lists, .name (c :: sofar)⟩
  | ⟨lists, .text sofar⟩, c =>
    if c = '"' then some ⟨push (.text sofar.reverse) lists, .between⟩
    else if c = '\\' then some ⟨lists, .escaped sofar⟩
    else some ⟨lists, .text (c :: sofar)⟩
  | ⟨lists, .escaped sofar⟩, c =>
    if c = '"' ∨ c = '\\' then some ⟨lists, .text (c :: sofar)⟩ else none
  | ⟨lists, .comment⟩, c => some ⟨lists, if c = '\n' then .between else .comment⟩

/-- Some text further. -/
def readFrom (r : Reading) (cs : List Char) : Option Reading := cs.foldlM step r

/-- What a text reads as: items one behind the other. -/
def read (cs : List Char) : Option (List Sexp) :=
  match readFrom ⟨[[]], .between⟩ (cs ++ ['\n']) with
  | some ⟨[items], .between⟩ => some items.reverse
  | _ => none

/-- What a character is written as, in a quoted text. -/
def escape (c : Char) : List Char := if c = '"' ∨ c = '\\' then ['\\', c] else [c]

/-- A quoted text. -/
def quote (cs : List Char) : List Char := '"' :: (cs.flatMap escape ++ ['"'])

variable {r : Reading} {lists : List (List Sexp)} {cs : List Char}

theorem readFrom_cons (c : Char) : readFrom r (c :: cs) = (step r c).bind fun r => readFrom r cs :=
  rfl

theorem readFrom_append (more : List Char) :
    readFrom r (cs ++ more) = (readFrom r cs).bind fun r => readFrom r more :=
  List.foldlM_append

theorem next_of_not_isMark {c : Char} (h : isMark c = false) :
    next lists c = some ⟨lists, .name [c]⟩ := by
  simp only [isMark, Bool.or_eq_false_iff, beq_eq_false_iff_ne] at h
  obtain ⟨⟨⟨⟨hblank, hopens⟩, hcloses⟩, hquote⟩, hcomment⟩ := h
  rw [next, if_neg (by rw [hblank]; exact Bool.false_ne_true), if_neg hopens, if_neg hcloses,
    if_neg hquote, if_neg hcomment]

/-- What is in a name. -/
theorem readFrom_marks {sofar : List Char} (h : ∀ c ∈ cs, isMark c = false) :
    readFrom ⟨lists, .name sofar⟩ cs = some ⟨lists, .name (cs.reverse ++ sofar)⟩ := by
  induction cs generalizing sofar with
  | nil => rfl
  | cons c cs ih =>
    rw [readFrom_cons, step, if_neg (by rw [h c List.mem_cons_self]; exact Bool.false_ne_true),
      Option.bind_some, ih fun d hd => h d (List.mem_cons_of_mem _ hd), List.reverse_cons,
      List.append_assoc]
    rfl

/-- **A name** that a blank ends. -/
theorem readFrom_name {rest : List Char} (hne : cs ≠ []) (hall : cs.all (!isMark ·) = true) :
    readFrom ⟨lists, .between⟩ (cs ++ ' ' :: rest) =
      readFrom ⟨push (.name cs) lists, .between⟩ rest := by
  have h : ∀ c ∈ cs, isMark c = false := by simpa using hall
  cases cs with
  | nil => exact absurd rfl hne
  | cons c cs =>
    rw [List.cons_append, readFrom_cons, step, next_of_not_isMark (h c List.mem_cons_self),
      Option.bind_some, readFrom_append, readFrom_marks fun d hd => h d (List.mem_cons_of_mem _ hd),
      Option.bind_some, readFrom_cons, step, if_pos (show isMark ' ' = true from rfl),
      List.reverse_append, List.reverse_reverse]
    rfl

/-- **What is in a quoted text** is read as it was. -/
theorem readFrom_escape (sofar : List Char) :
    readFrom ⟨lists, .text sofar⟩ (cs.flatMap escape) =
      some ⟨lists, .text (cs.reverse ++ sofar)⟩ := by
  induction cs generalizing sofar with
  | nil => rfl
  | cons c cs ih =>
    have hone : readFrom ⟨lists, .text sofar⟩ (escape c) = some ⟨lists, .text (c :: sofar)⟩ := by
      rw [escape]
      split_ifs with hmark
      · rw [readFrom_cons, step, if_neg (by decide), if_pos rfl, Option.bind_some, readFrom_cons,
          step, if_pos hmark, Option.bind_some]
        rfl
      · rw [not_or] at hmark
        rw [readFrom_cons, step, if_neg hmark.1, if_neg hmark.2, Option.bind_some]
        rfl
    rw [List.flatMap_cons, readFrom_append, hone, Option.bind_some, ih, List.reverse_cons,
      List.append_assoc]
    rfl

/-- **A quoted text is one item**, and reads as it was. -/
theorem readFrom_quote : readFrom ⟨lists, .between⟩ (quote cs) =
    some ⟨push (.text cs) lists, .between⟩ := by
  have hopens : step ⟨lists, .between⟩ '"' = some ⟨lists, .text []⟩ := rfl
  rw [quote, readFrom_cons, hopens, Option.bind_some, readFrom_append, readFrom_escape,
    Option.bind_some, readFrom_cons, step, if_pos rfl, Option.bind_some, List.append_nil,
    List.reverse_reverse]
  rfl

end Sexp
