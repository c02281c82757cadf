import Mathlib.Data.List.DropRight
import Syndeo.Data.BufRead
import Syndeo.Data.Separated
import Syndeo.Data.Utf8

/-!
# A line of the agent control

Every request of a program and every answer to one is a line, and a line is read with no
more of it kept than is allowed: a longer one is read to its end and refused. What is kept
of part of a line is a function of that part, `Syndeo.App.keptOf`, so the results do not
depend on how the bytes were cut into buffers, and after a line that was too long the next
one begins where it does (`Syndeo.App.readLines_eq`).
-/

namespace Syndeo

open BufRead Reader Separated

namespace App

/-- `Line`. -/
inductive Line
  | text (text : String)
  | tooLong
  | notText
  | «end»
  deriving DecidableEq

/-- `b'\n'`. -/
def newline : UInt8 := 10

/-- What `read_line` keeps of a line that it has not read to its end. -/
structure Held where
  line : List UInt8
  tooLong : Bool
  deriving DecidableEq

namespace Held

/-- Nothing of a line. -/
def start : Held := ⟨[], false⟩

/-- More of it. -/
def hold (max : ℕ) (held : Held) (part : List UInt8) : Held :=
  if held.tooLong then held
  else if max < held.line.length + part.length then ⟨[], true⟩
  else { held with line := held.line ++ part }

/-- At its end. -/
def finish (held : Held) : Line :=
  if held.tooLong then .tooLong
  else
    match Utf8.decode held.line with
    | some text => .text (String.ofList (text.rdropWhile (· == '\r')))
    | none => .notText

end Held

/-- `read_line`, with none where filling the buffer failed. -/
def readLine (max : ℕ) (reader : Reader UInt8) : Option Line × Reader UInt8 :=
  match scan newline (Held.hold max) .start reader with
  | (.separator, held, reader) => (some held.finish, reader)
  | (.input, held, reader) => (some (if held = .start then .end else held.finish), reader)
  | (.failed, _, reader) => (none, reader)

/-- What is read, by so many calls one after another. -/
def readLines (max : ℕ) : ℕ → Reader UInt8 → List (Option Line)
  | 0, _ => []
  | n + 1, reader => (readLine max reader).1 :: readLines max n (readLine max reader).2

/-- **What a line is read as.** -/
def lineOf (max : ℕ) (line : List UInt8) : Line :=
  if line.length ≤ max then
    match Utf8.decode line with
    | some text => .text (String.ofList (text.rdropWhile (· == '\r')))
    | none => .notText
  else .tooLong

/-- What is kept of part of a line. -/
def keptOf (max : ℕ) (part : List UInt8) : Held :=
  if part.length ≤ max then ⟨part, false⟩ else ⟨[], true⟩

variable {max : ℕ}

theorem keptOf_nil : keptOf max [] = .start := if_pos (Nat.zero_le _)

theorem hold_keptOf (seen part : List UInt8) :
    (keptOf max seen).hold max part = keptOf max (seen ++ part) := by
  rw [keptOf, keptOf, List.length_append]
  rcases Nat.lt_or_ge max seen.length with hlong | hfits
  · rw [if_neg (by omega), if_neg (by omega)]
    rfl
  · rw [if_pos hfits, Held.hold]
    dsimp only
    rw [if_neg Bool.false_ne_true]
    split_ifs with hover hroom
    · omega
    · rfl
    · rfl
    · omega

theorem finish_keptOf (line : List UInt8) : (keptOf max line).finish = lineOf max line := by
  rw [keptOf, lineOf]
  split_ifs <;> rfl

/-- Nothing is kept, and nothing was too long, only of nothing. -/
theorem keptOf_eq_start_iff {part : List UInt8} : keptOf max part = .start ↔ part = [] := by
  rw [keptOf]
  split_ifs with hfits
  · simp [Held.start]
  · constructor
    · intro h
      exact absurd (congrArg Held.tooLong h) (by decide)
    · rintro rfl
      exact absurd (Nat.zero_le _) hfits

theorem length_line_keptOf_le (part : List UInt8) : (keptOf max part).line.length ≤ max := by
  rw [keptOf]
  split_ifs with hfits
  · exact hfits
  · exact Nat.zero_le _

/-- **One line is read**: the first of what is left, or the end. -/
theorem readLine_eq (max : ℕ) {reader : Reader UInt8} (hsound : reader.Sound)
    (hlimit : reader.limit = none) : ∃ reader', readLine max reader =
        (some (((lines newline reader.rest)[0]?.map (lineOf max)).getD .end), reader') ∧
      reader'.Sound ∧ reader'.limit = none ∧
      lines newline reader'.rest = (lines newline reader.rest).drop 1 := by
  have hspec : ScanSpec newline (keptOf max) [] reader
      (scan newline (Held.hold max) (keptOf max []) reader) := scanSpec hold_keptOf [] reader
  rw [keptOf_nil] at hspec
  rw [readLine]
  generalize hscan : scan newline (Held.hold max) .start reader = out at hspec
  cases hspec with
  | @separator part reader' huses hsep =>
    refine ⟨reader', ?_, huses.sound hsound, by rw [huses.limit, hlimit]; rfl, ?_⟩
    · rw [huses.rest, List.append_assoc, List.singleton_append, lines_append_cons hsep]
      dsimp only
      rw [List.nil_append, finish_keptOf]
      rfl
    · rw [huses.rest, List.append_assoc, List.singleton_append, lines_append_cons hsep]
      rfl
  | @input part reader' huses hnil hsep =>
    have hlimit' : reader'.limit = none := by rw [huses.limit, hlimit]; rfl
    have hrest : reader'.rest = [] := by
      rw [visible, hlimit'] at hnil
      exact hnil
    refine ⟨reader', ?_, huses.sound hsound, hlimit', ?_⟩
    · rw [huses.rest, hrest, List.append_nil]
      dsimp only
      rw [List.nil_append, finish_keptOf]
      rcases eq_or_ne part [] with rfl | hne
      · rw [if_pos keptOf_nil]
        rfl
      · rw [if_neg (mt keptOf_eq_start_iff.mp hne), lines_of_not_mem hsep hne]
        rfl
    · rw [huses.rest, hrest, List.append_nil]
      rcases eq_or_ne part [] with rfl | hne
      · rfl
      · rw [lines_of_not_mem hsep hne]
        rfl
  | failed _ hfailed => exact absurd hfailed hsound

theorem readLines_of_sound : ∀ (n : ℕ) {reader : Reader UInt8}, reader.Sound → reader.limit = none →
    readLines max n reader = (List.range n).map fun i =>
      some (((lines newline reader.rest)[i]?.map (lineOf max)).getD .end)
  | 0, _, _, _ => rfl
  | n + 1, reader, hsound, hlimit => by
    obtain ⟨reader', hread, hsound', hlimit', hlines⟩ := readLine_eq max hsound hlimit
    rw [readLines, hread, List.range_succ_eq_map, List.map_cons, List.map_map]
    dsimp only
    rw [readLines_of_sound n hsound' hlimit', hlines]
    refine congrArg (_ :: ·) (List.map_congr_left fun i _ => ?_)
    rw [Function.comp_apply, List.getElem?_drop, Nat.add_comm]

end App

end Syndeo
