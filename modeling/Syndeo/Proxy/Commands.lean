import Syndeo.Data.BufRead
import Syndeo.Data.Separated
import Syndeo.Proxy.Control

/-!
# Reading the commands

The proxy reads its commands a line at a time and at most `MAX_COMMAND` bytes of a line
at once, through one limit that is set anew before each read. A piece ends at a line's
end, at the limit or where the input does, and only the first of these makes a line that
is answered. The rest of a line that goes past the limit is read piece by piece and is
no line of its own (`Syndeo.Proxy.skipSpec`), so what is answered are the lines of the
input, one by one, however it was cut (`Syndeo.Proxy.answerCommands_eq`).
-/

namespace Syndeo.Proxy

open BufRead Reader Separated

/-- `read_until` a line's end, with none where filling the buffer failed. -/
def readUntil (reader : Reader UInt8) : Option (List UInt8) × Reader UInt8 :=
  match scan newline (· ++ ·) [] reader with
  | (.separator, line, reader) => (some (line ++ [newline]), reader)
  | (.input, line, reader) => (some line, reader)
  | (.failed, _, reader) => (none, reader)

/-- Of no more than a command, and one more byte. -/
def readPiece (reader : Reader UInt8) : Option (List UInt8) × Reader UInt8 :=
  readUntil (reader.setLimit (maxCommand + 1))

/-- What a piece is. -/
inductive PieceSpec (reader : Reader UInt8) : Option (List UInt8) × Reader UInt8 → Prop
  | ended {part : List UInt8} {reader' : Reader UInt8} (hnot : newline ∉ part)
    (hrest : reader.rest = part ++ newline :: reader'.rest) (hlen : part.length ≤ maxCommand)
    (hfills : reader'.fills <:+ reader.fills) :
    PieceSpec reader (some (part ++ [newline]), reader')
  | cut {part : List UInt8} {reader' : Reader UInt8} (hnot : newline ∉ part)
    (hrest : reader.rest = part ++ reader'.rest)
    (hstop : part.length = maxCommand + 1 ∨ part.length ≤ maxCommand ∧ reader'.rest = [])
    (hfills : reader'.fills <:+ reader.fills) : PieceSpec reader (some part, reader')
  | failed {reader' : Reader UInt8} (hfailed : .failed ∈ reader.fills) :
    PieceSpec reader (none, reader')

theorem pieceSpec (reader : Reader UInt8) : PieceSpec reader (readPiece reader) := by
  have hspec : ScanSpec newline (fun l => l) [] (reader.setLimit (maxCommand + 1))
      (scan newline (· ++ ·) [] (reader.setLimit (maxCommand + 1))) :=
    scanSpec (fun _ _ => rfl) [] _
  have hvisible : (reader.setLimit (maxCommand + 1)).visible.length ≤ maxCommand + 1 := by
    rw [visible_setLimit]
    exact List.length_take_le _ _
  rw [readPiece, readUntil]
  generalize hscan : scan newline (· ++ ·) [] (reader.setLimit (maxCommand + 1)) = out at hspec
  cases hspec with
  | @separator part reader' huses hsep =>
    rw [huses.visible] at hvisible
    dsimp only
    rw [List.nil_append]
    refine .ended hsep ?_ ?_ huses.fills
    · exact huses.rest.trans (by rw [List.append_assoc]; rfl)
    · simp only [List.length_append, List.length_singleton] at hvisible
      omega
  | @input part reader' huses hnil hsep =>
    rw [huses.visible, hnil, List.append_nil] at hvisible
    have hlimit : reader'.limit = some (maxCommand + 1 - part.length) := huses.limit
    dsimp only
    rw [List.nil_append]
    refine .cut hsep huses.rest ?_ huses.fills
    rcases Nat.lt_or_ge maxCommand part.length with hlong | hfits
    · exact Or.inl (by omega)
    · rw [visible, hlimit] at hnil
      rcases List.take_eq_nil_iff.mp hnil with hzero | hrest
      · omega
      · exact Or.inr ⟨hfits, hrest⟩
  | failed _ hfailed => exact .failed hfailed

/-- A piece that is not empty leaves less to come. -/
theorem size_lt_of_readPiece {reader reader' : Reader UInt8} {piece : List UInt8}
    (h : readPiece reader = (some piece, reader')) (hne : piece ≠ []) :
    reader'.size < reader.size := by
  have hspec := pieceSpec reader
  have hpos : 0 < piece.length := List.length_pos_iff.mpr hne
  rw [h] at hspec
  cases hspec with
  | ended _ hrest _ hfills =>
    have := hfills.length_le
    simp only [size, hrest, List.length_append, List.length_cons]
    omega
  | cut _ hrest _ hfills =>
    have := hfills.length_le
    simp only [size, hrest, List.length_append]
    omega

/-! ### The loops -/

/-- What came of reading the rest of a line. -/
inductive Skipped
  | whole (reader : Reader UInt8)
  | ended
  | failed

/-- **The inner loop**: the rest of a line that is longer than a piece. -/
def skipRest (reader : Reader UInt8) : Skipped :=
  match _h : readPiece reader with
  | (none, _) => .failed
  | (some rest, reader) =>
    if _hnil : rest = [] then .ended
    else if rest.getLast? = some newline then .whole reader
    else skipRest reader
termination_by reader.size
decreasing_by exact size_lt_of_readPiece (by assumption) (by assumption)

/-- What came of reading a line: how it begins, and whether it is too long. -/
inductive Command
  | line (line : List UInt8) (tooLong : Bool) (reader : Reader UInt8)
  | ended
  | failed

/-- One line, to its end. -/
def readCommand (reader : Reader UInt8) : Command :=
  match readPiece reader with
  | (none, _) => .failed
  | (some line, reader) =>
    if line = [] then .ended
    else if line.getLast? = some newline then .line line (maxCommand < line.length) reader
    else
      match skipRest reader with
      | .whole reader => .line line true reader
      | .ended => .ended
      | .failed => .failed

/-- What has been answered, and how often the cache was cleared. -/
@[ext] structure Answered where
  answers : List (List Char)
  cleared : ℕ
  deriving DecidableEq

/-- One line is answered; `clear n` is what the next call of `clear` returns after `n`. -/
def Answered.answer (clear : ℕ → Clear) (line : List UInt8) (tooLong : Bool) (done : Answered) :
    Answered :=
  if tooLong = false ∧ line = clearCommand ++ [newline] then
    ⟨done.answers ++ [answerText (clear done.cleared)], done.cleared + 1⟩
  else { done with answers := done.answers ++ [unknownText] }

/-- How `answer_commands` returns. -/
inductive Finished
  | ok
  | unread
  | unwritten
  deriving DecidableEq

/-! ### What they do -/

/-- **The rest of a line**: all of it, and nothing behind it. -/
inductive SkipSpec (reader : Reader UInt8) : Skipped → Prop
  | whole {rest : List UInt8} {reader' : Reader UInt8} (hnot : newline ∉ rest)
    (hrest : reader.rest = rest ++ newline :: reader'.rest)
    (hfills : reader'.fills <:+ reader.fills) : SkipSpec reader (.whole reader')
  | ended (hnot : newline ∉ reader.rest) : SkipSpec reader .ended
  | failed (hfailed : .failed ∈ reader.fills) : SkipSpec reader .failed

theorem getLast?_eq_newline {part : List UInt8} (hnot : newline ∉ part) :
    part.getLast? ≠ some newline := fun h => hnot (List.mem_of_getLast? h)

/-- There was a piece before it. -/
theorem SkipSpec.cons {reader reader' : Reader UInt8} {part : List UInt8} {skipped : Skipped}
    (hnot : newline ∉ part) (hrest : reader.rest = part ++ reader'.rest)
    (hfills : reader'.fills <:+ reader.fills) (h : SkipSpec reader' skipped) :
    SkipSpec reader skipped := by
  cases h with
  | @whole rest reader'' hnot' hrest' hfills' =>
    refine @SkipSpec.whole _ (part ++ rest) _ ?_ ?_ (hfills'.trans hfills)
    · exact fun hmem => (List.mem_append.mp hmem).elim hnot hnot'
    · rw [hrest, hrest', List.append_assoc]
  | ended hnot' =>
    refine .ended fun hmem => ?_
    rw [hrest] at hmem
    exact (List.mem_append.mp hmem).elim hnot hnot'
  | failed hfailed => exact .failed (hfills.mem hfailed)

theorem skipSpec (reader : Reader UInt8) : SkipSpec reader (skipRest reader) := by
  induction hn : reader.size using Nat.strong_induction_on generalizing reader with
  | _ n ih =>
    rw [skipRest]
    split
    · next reader' hpiece =>
      have hspec := pieceSpec reader
      rw [hpiece] at hspec
      cases hspec with
      | failed hfailed => exact .failed hfailed
    · next piece reader' hpiece =>
      have hspec := pieceSpec reader
      rw [hpiece] at hspec
      split_ifs with hnil hlast
      · generalize hp : some piece = p at hspec
        cases hspec with
        | ended => exact absurd (hnil.symm.trans (Option.some.inj hp)) (by simp)
        | cut _ hrest hstop =>
          obtain rfl := Option.some.inj hp
          rw [hnil] at hstop hrest
          rcases hstop with hlen | ⟨-, hend⟩
          · exact nomatch hlen
          · exact .ended (by rw [hrest, hend]; exact List.not_mem_nil)
        | failed => exact nomatch hp
      · cases hspec with
        | ended hnot hrest _ hfills => exact .whole hnot hrest hfills
        | cut hnot => exact absurd hlast (getLast?_eq_newline hnot)
      · cases hspec with
        | ended => exact absurd (by simp) hlast
        | cut hnot hrest _ hfills =>
          exact .cons hnot hrest hfills (ih _ (hn ▸ size_lt_of_readPiece hpiece hnil) _ rfl)

/-- **One line**: the next one, and whether it may be a command; or there is none that is
ended. -/
inductive CommandSpec (reader : Reader UInt8) : Command → Prop
  | line {line begins : List UInt8} {tooLong : Bool} {reader' : Reader UInt8}
    (hnot : newline ∉ line) (hrest : reader.rest = line ++ newline :: reader'.rest)
    (hcommand : tooLong = false ∧ begins = clearCommand ++ [newline] ↔ line = clearCommand)
    (hfills : reader'.fills <:+ reader.fills) : CommandSpec reader (.line begins tooLong reader')
  | ended (hnot : newline ∉ reader.rest) : CommandSpec reader .ended
  | failed (hfailed : .failed ∈ reader.fills) : CommandSpec reader .failed

theorem length_clearCommand : clearCommand.length = 11 := by decide

theorem commandSpec (reader : Reader UInt8) : CommandSpec reader (readCommand reader) := by
  have hspec := pieceSpec reader
  rw [readCommand]
  generalize hpiece : readPiece reader = out at hspec
  cases hspec with
  | failed hfailed => exact .failed hfailed
  | @ended part reader' hnot hrest hlen hfills =>
    dsimp only
    rw [if_neg (by simp), if_pos (by simp)]
    refine .line hnot hrest ⟨fun h => (List.append_left_inj _).mp h.2, ?_⟩ hfills
    rintro rfl
    exact ⟨by decide, rfl⟩
  | @cut part reader' hnot hrest hstop hfills =>
    dsimp only
    split_ifs with hempty hlast
    · rcases hstop with hlen | ⟨-, hend⟩
      · exact absurd hlen (by rw [hempty]; exact nofun)
      · exact .ended (by rw [hrest, hempty, hend]; exact List.not_mem_nil)
    · exact absurd hlast (getLast?_eq_newline hnot)
    · have hskip := skipSpec reader'
      generalize hskipped : skipRest reader' = skipped at hskip
      cases hskip with
      | @whole rest reader'' hnot' hrest' hfills' =>
        have hcommand : part ++ rest ≠ clearCommand := by
          -- the command is shorter than the piece
          intro h
          have hlen := congrArg List.length h
          rw [List.length_append, length_clearCommand] at hlen
          rcases hstop with hfull | ⟨-, hend⟩
          · rw [hfull, maxCommand] at hlen
            omega
          · exact absurd (hend.symm.trans hrest') (by simp)
        refine @CommandSpec.line _ (part ++ rest) _ _ _ ?_ ?_ ?_ (hfills'.trans hfills)
        · exact fun hmem => (List.mem_append.mp hmem).elim hnot hnot'
        · rw [hrest, hrest', List.append_assoc]
        · exact ⟨fun h => (nomatch h.1), fun h => absurd h hcommand⟩
      | ended hnot' =>
        refine .ended fun hmem => ?_
        rw [hrest] at hmem
        exact (List.mem_append.mp hmem).elim hnot hnot'
      | failed hfailed => exact .failed (hfills.mem hfailed)

theorem size_lt_of_readCommand {reader reader' : Reader UInt8} {line : List UInt8} {tooLong : Bool}
    (h : readCommand reader = .line line tooLong reader') : reader'.size < reader.size := by
  have hspec := commandSpec reader
  rw [h] at hspec
  cases hspec with
  | line _ hrest _ hfills =>
    have := hfills.length_le
    simp only [size, hrest, List.length_append, List.length_cons]
    omega

/-- **`answer_commands`**: `written n` says whether the answer after `n` others can be
written. -/
def answerCommands (clear : ℕ → Clear) (written : ℕ → Bool) (done : Answered)
    (reader : Reader UInt8) : Finished × Answered :=
  match _h : readCommand reader with
  | .failed => (.unread, done)
  | .ended => (.ok, done)
  | .line line tooLong reader =>
    if written done.answers.length then
      answerCommands clear written (done.answer clear line tooLong) reader
    else (.unwritten, { done.answer clear line tooLong with answers := done.answers })
termination_by reader.size
decreasing_by exact size_lt_of_readCommand (by assumption)

/-- **What the lines are answered**, each one by itself, after `n` calls of `clear`. -/
def answersTo (clear : ℕ → Clear) (n : ℕ) (lines : List (List UInt8)) : List (List Char) :=
  lines.mapIdx fun i line =>
    if line = clearCommand then answerText (clear (n + (lines.take i).count clearCommand))
    else unknownText

variable {clear : ℕ → Clear} {written : ℕ → Bool}

theorem answersTo_cons (n : ℕ) (line : List UInt8) (lines : List (List UInt8)) :
    answersTo clear n (line :: lines) =
      (if line = clearCommand then answerText (clear n) else unknownText) ::
        answersTo clear (n + if line = clearCommand then 1 else 0) lines := by
  rw [answersTo, List.mapIdx_cons, answersTo]
  refine congrArg₂ List.cons (by simp) (congrArg (List.mapIdx · lines) ?_)
  funext i other
  rw [List.take_succ_cons, List.count_cons, Nat.add_assoc, Nat.add_comm (List.count _ _)]
  simp

/-- The lines of the input are answered, however it is cut. -/
theorem answerCommands_of_sound (hwritten : ∀ n, written n = true) (done : Answered)
    (reader : Reader UInt8) (hsound : reader.Sound) :
    answerCommands clear written done reader =
      (.ok, ⟨done.answers ++ answersTo clear done.cleared (wholeLines newline reader.rest),
        done.cleared + (wholeLines newline reader.rest).count clearCommand⟩) := by
  induction hn : reader.size using Nat.strong_induction_on generalizing reader done with
  | _ n ih =>
    have hspec := commandSpec reader
    rw [answerCommands]
    split
    · next hread =>
      rw [hread] at hspec
      cases hspec with
      | failed hfailed => exact absurd hfailed hsound
    · next hread =>
      rw [hread] at hspec
      cases hspec with
      | ended hnot =>
        rw [wholeLines_of_not_mem hnot]
        exact congrArg _ (Answered.ext (List.append_nil _).symm rfl)
    · next begins tooLong reader' hread =>
      rw [hread] at hspec
      cases hspec with
      | @line line _ _ _ hnot hrest hcommand hfills =>
        have hsound' : reader'.Sound := fun hmem => hsound (hfills.mem hmem)
        rw [if_pos (hwritten _), ih _ (hn ▸ size_lt_of_readCommand hread) _ _ hsound' rfl, hrest,
          wholeLines_append_cons hnot, answersTo_cons, List.count_cons, Answered.answer]
        rcases eq_or_ne line clearCommand with hline | hline
        · rw [if_pos (hcommand.mpr hline), if_pos hline, if_pos hline, if_pos (beq_iff_eq.mpr hline)]
          refine congrArg _ (Answered.ext ?_ ?_)
          · exact List.append_assoc _ _ _
          · dsimp only
            omega
        · rw [if_neg (mt hcommand.mp hline), if_neg hline, if_neg hline,
            if_neg (mt beq_iff_eq.mp hline)]
          exact congrArg _ (Answered.ext (List.append_assoc _ _ _) rfl)

end Syndeo.Proxy
