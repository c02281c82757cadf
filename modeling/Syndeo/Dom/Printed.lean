import Syndeo.Dom.Reading
import Syndeo.Dom.Terminal

/-!
# Lines on a terminal

A report is written a line at a time. What is in a line is made printable, and then it
may be cut or filled up to the width of a column: a line stays one
(`Syndeo.Dom.Terminal.Line`), whatever a page supplied. So a report has the lines that
were written, and no others (`Syndeo.Dom.Terminal.Report`).

The lines of the readable text of a page are lines too. There is no white space in it but
spaces and newlines, so making it printable takes characters away and does nothing else
(`Syndeo.Dom.Terminal.multiline_readable`).
-/

namespace Syndeo.Dom

open Text Separated

/-! ### White space of the readable text -/

theorem whitespace_of_mem_collapsed {line : List Char} {c : Char}
    (h : c ∈ [' '].intercalate (splitWhitespace line)) (hspace : isWhitespace c = true) :
    c = ' ' := by
  rcases mem_intercalate h with ⟨word, hword, hc⟩ | hc
  · rw [(Words.mem_words hword).2 c hc] at hspace
    cases hspace
  · exact List.mem_singleton.mp hc

theorem whitespace_of_mem_normalize {raw : List Char} {c : Char} (h : c ∈ normalize raw)
    (hspace : isWhitespace c = true) : c = ' ' ∨ c = '\n' := by
  have hfold : ∀ (raw lines : List (List Char)),
      (∀ line ∈ lines, ∀ c ∈ line, isWhitespace c = true → c = ' ') →
      ∀ line ∈ raw.foldl normalizeLine lines, ∀ c ∈ line, isWhitespace c = true → c = ' ' := by
    intro raw
    induction raw with
    | nil => exact fun _ h => h
    | cons line raw ih =>
      refine fun lines h => ih _ ?_
      rw [normalizeLine]
      split_ifs
      · exact h
      · intro line hline
        rcases List.mem_append.mp hline with hline | hline
        · exact h line hline
        · rw [List.mem_singleton.mp hline]
          exact fun c hc => absurd hc List.not_mem_nil
      · intro line hline
        rcases List.mem_append.mp hline with hline | hline
        · exact h line hline
        · rw [List.mem_singleton.mp hline]
          exact fun c => whitespace_of_mem_collapsed
  rcases mem_intercalate h with ⟨line, hline, hc⟩ | hc
  · have hline := (List.rdropWhile_prefix _ _).subset hline
    refine Or.inl (hfold _ [] ?_ line hline c hc hspace)
    exact fun line hline => absurd hline List.not_mem_nil
  · exact Or.inr (List.mem_singleton.mp hc)

namespace Terminal

variable (category : Char → GeneralCategory)

/-! ### Lines and reports -/

/-- A character that a terminal shows and does not obey, and that ends no line. -/
def Harmless (c : Char) : Prop :=
  unprintable category c = false ∧ c ≠ lineSeparator ∧ c ≠ paragraphSeparator

/-- **A line**: nothing in it is obeyed, and nothing in it ends it. -/
structure Line (line : List Char) : Prop where
  harmless : ∀ c ∈ line, Harmless category c
  one : '\n' ∉ line

/-- **A report**: so many lines of its own, the lines of a text, and so many of its own
again. -/
structure Report (report : List Char) (before : ℕ) (text : List (List Char)) (after : ℕ) :
    Prop where
  harmless : ∀ c ∈ report, c = '\n' ∨ Harmless category c
  lines : ∃ front back, front.length = before ∧ back.length = after ∧
    report = terminated '\n' (front ++ text ++ back) ∧ ∀ line ∈ front ++ text ++ back, '\n' ∉ line

/-- What goes into a column: made printable first, and then cut. -/
def fit (value : List Char) (width : ℕ) : List Char :=
  let value := singleLine category value
  if value.length ≤ width then value else value.take (width - 1) ++ ['…']

/-- `{:<width}`: filled up with spaces. -/
def padTo (width : ℕ) (value : List Char) : List Char :=
  value ++ List.replicate (width - value.length) ' '

/-- A number, as it is written. -/
def number (n : ℕ) : List Char := (toString n).toList

/-- What the program itself writes with: what ASCII has to show, an ellipsis and a dash. -/
def isOwn (c : Char) : Bool := (32 ≤ c.toNat && c.toNat < 127) || c = '…' || c = '—'

/-- **What is known of the tables**: that is no control, and no format character. -/
def ShowsOwn : Prop := ∀ c, isOwn c = true → category c = .other

variable {category} {c : Char} {line a b : List Char} {front text back : List (List Char)}

theorem report_terminated (hfront : ∀ line ∈ front, Line category line)
    (htext : ∀ line ∈ text, Line category line) (hback : ∀ line ∈ back, Line category line) :
    Report category (terminated '\n' (front ++ text ++ back)) front.length text back.length := by
  have hall : ∀ line ∈ front ++ text ++ back, Line category line := by
    intro line hline
    rcases List.mem_append.mp hline with hline | hline
    · exact (List.mem_append.mp hline).elim (hfront line) (htext line)
    · exact hback line hline
  refine ⟨fun c hc => ?_, front, back, rfl, rfl, rfl, fun line hline => (hall line hline).one⟩
  obtain ⟨line, hline, hc⟩ := List.mem_flatMap.mp hc
  rcases List.mem_append.mp hc with hc | hc
  · exact Or.inr ((hall line hline).harmless c hc)
  · exact Or.inl (List.mem_singleton.mp hc)

/-- **A report has as many newlines as lines.** -/
theorem Report.count_eq {report : List Char} {before after : ℕ}
    (h : Report category report before text after) :
    report.count '\n' = before + text.length + after := by
  obtain ⟨front, back, rfl, rfl, rfl, hone⟩ := h.lines
  have hnone : ((front ++ text ++ back).map fun line => line.count '\n').sum = 0 := by
    refine List.sum_eq_zero fun n hn => ?_
    obtain ⟨line, hline, rfl⟩ := List.mem_map.mp hn
    exact List.count_eq_zero.mpr (hone line hline)
  rw [count_terminated, hnone, List.length_append, List.length_append, Nat.add_zero]

/-! ### What a line is made of -/

theorem line_nil : Line category [] :=
  ⟨fun _ h => absurd h List.not_mem_nil, List.not_mem_nil⟩

theorem line_append_iff : Line category (a ++ b) ↔ Line category a ∧ Line category b := by
  constructor
  · intro h
    exact ⟨⟨fun c hc => h.harmless c (List.mem_append_left _ hc),
        fun hc => h.one (List.mem_append_left _ hc)⟩,
      ⟨fun c hc => h.harmless c (List.mem_append_right _ hc),
        fun hc => h.one (List.mem_append_right _ hc)⟩⟩
  · rintro ⟨ha, hb⟩
    refine ⟨fun c hc => ?_, fun hc => ?_⟩
    · exact (List.mem_append.mp hc).elim (ha.harmless c) (hb.harmless c)
    · exact (List.mem_append.mp hc).elim ha.one hb.one

theorem Line.take (h : Line category line) (n : ℕ) : Line category (line.take n) :=
  ⟨fun c hc => h.harmless c (List.mem_of_mem_take hc), fun hc => h.one (List.mem_of_mem_take hc)⟩

/-- What the program writes is a line. -/
theorem line_own (hown : ShowsOwn category) (h : ∀ c ∈ line, isOwn c = true) :
    Line category line := by
  refine ⟨fun c hc => ⟨?_, ?_, ?_⟩, fun hc => ?_⟩
  · rw [unprintable, hown c (h c hc)]
  · rintro rfl
    exact absurd (h _ hc) (by decide)
  · rintro rfl
    exact absurd (h _ hc) (by decide)
  · exact absurd (h _ hc) (by decide)

theorem line_literal (hown : ShowsOwn category) (s : String) (h : s.toList.all isOwn = true) :
    Line category s.toList :=
  line_own hown (List.all_eq_true.mp h)

theorem line_number (hown : ShowsOwn category) (n : ℕ) : Line category (number n) := by
  refine line_own hown fun c hc => ?_
  have hdigit := (toList_toString_nat n).2 c hc
  rw [Char.isDigit, Bool.and_eq_true, decide_eq_true_iff, decide_eq_true_iff] at hdigit
  obtain ⟨hlow, hhigh⟩ := hdigit
  have hlow : 48 ≤ c.toNat := hlow
  have hhigh : c.toNat ≤ 57 := hhigh
  simp only [isOwn, Bool.or_eq_true, Bool.and_eq_true, decide_eq_true_eq]
  omega

/-- **What goes on one line is a line.** -/
theorem line_singleLine (hown : ShowsOwn category) (value : List Char) :
    Line category (singleLine category value) := by
  have hblank : unprintable category ' ' = false := by
    rw [unprintable, hown ' ' (by decide)]
  have hone := oneLine_singleLine hblank value
  have hspace : ∀ c ∈ singleLine category value, isWhitespace c = true → c = ' ' := hone.spaces
  refine ⟨fun c hc => ⟨hone.printable c hc, ?_, ?_⟩, fun hc => ?_⟩
  · rintro rfl
    exact absurd (hspace _ hc (by decide)) (by decide)
  · rintro rfl
    exact absurd (hspace _ hc (by decide)) (by decide)
  · exact absurd (hspace _ hc (by decide)) (by decide)

theorem line_fit (hown : ShowsOwn category) (value : List Char) (width : ℕ) :
    Line category (fit category value width) := by
  have hline := line_singleLine hown value
  rw [fit]
  split
  · exact hline
  · exact line_append_iff.mpr ⟨hline.take _, line_own hown (by decide)⟩

theorem Line.padTo (hown : ShowsOwn category) (h : Line category line) (width : ℕ) :
    Line category (padTo width line) := by
  refine line_append_iff.mpr ⟨h, line_own hown fun c hc => ?_⟩
  rw [List.eq_of_mem_replicate hc]
  decide

/-- **What is fitted is no wider than its column.** -/
theorem length_fit_le {width : ℕ} (hwidth : 0 < width) (value : List Char) :
    (fit category value width).length ≤ width := by
  rw [fit]
  split
  · assumption
  · rw [List.length_append, List.length_take, List.length_singleton]
    omega

/-- And a column of them is straight. -/
theorem length_padTo_fit {width : ℕ} (hwidth : 0 < width) (value : List Char) :
    (padTo width (fit category value width)).length = width := by
  rw [padTo, List.length_append, List.length_replicate]
  exact Nat.add_sub_cancel' (length_fit_le hwidth value)

/-! ### The readable text -/

/-- **Making the readable text printable takes away what is not**, and its lines stay. -/
theorem multiline_readable (category : Char → GeneralCategory) (root : Node) :
    multiline category (readable root) =
      (readable root).filter fun c => c = '\n' || !unprintable category c := by
  have hspace : ∀ c ∈ readable root, isWhitespace c = true → c = ' ' ∨ c = '\n' := fun c hc =>
    whitespace_of_mem_normalize hc
  have hnot : ∀ c ∈ readable root, c ≠ '\t' ∧ c ≠ lineSeparator ∧ c ≠ paragraphSeparator := by
    refine fun c hc => ⟨?_, ?_, ?_⟩
    · rintro rfl
      exact absurd (hspace _ hc (by decide)) (by decide)
    · rintro rfl
      exact absurd (hspace _ hc (by decide)) (by decide)
    · rintro rfl
      exact absurd (hspace _ hc (by decide)) (by decide)
  have hkeeps : (readable root).filter (keeps category) =
      (readable root).filter fun c => c = '\n' || !unprintable category c := by
    refine List.filter_congr fun c hc => ?_
    obtain ⟨htab, hline, hparagraph⟩ := hnot c hc
    rw [keeps, decide_eq_false htab, decide_eq_false hline, decide_eq_false hparagraph,
      Bool.or_false, Bool.or_false, Bool.or_false]
  have hsame : ∀ c ∈ (readable root).filter (keeps category), asNewline c = c := fun c hc => by
    have hnot := (hnot c (List.mem_of_mem_filter hc)).2
    rw [asNewline, if_neg (not_or.mpr hnot)]
  rw [(manyLines_multiline (readable root)).kept, List.map_congr_left hsame, List.map_id', hkeeps]

/-- A line of a text has no newline, and nothing that the text has not. -/
theorem of_mem_lines {text line : List Char} (h : line ∈ Text.lines text) :
    '\n' ∉ line ∧ ∀ c ∈ line, c ∈ text := by
  have hpart : ∀ part ∈ text.splitOn '\n', '\n' ∉ part ∧ ∀ c ∈ part, c ∈ text := by
    intro part hpart
    have hof := of_mem_splitOnP text part hpart
    exact ⟨fun hc => absurd (hof _ hc).1 (by decide), fun c hc => (hof c hc).2⟩
  rcases List.mem_append.mp h with h | h
  · obtain ⟨whole, hwhole, rfl⟩ := List.mem_map.mp h
    obtain ⟨hone, hmem⟩ := hpart whole ((List.dropLast_subset _) hwhole)
    have hsub : stripCarriage whole <+: whole := by
      rw [stripCarriage]
      split
      · exact List.dropLast_prefix whole
      · exact List.prefix_rfl
    exact ⟨fun hc => hone (hsub.subset hc), fun c hc => hmem c (hsub.subset hc)⟩
  · obtain ⟨hlast, -⟩ := Option.filter_eq_some_iff.mp (Option.mem_toList.mp h)
    exact hpart line (List.mem_of_getLast? hlast)

theorem line_of_mem_lines {root : Node}
    (h : line ∈ Text.lines (multiline category (readable root))) :
    Line category line := by
  obtain ⟨hone, hmem⟩ := of_mem_lines h
  refine ⟨fun c hc => ?_, hone⟩
  have hc' := hmem c hc
  have hseparators := (@manyLines_multiline category (readable root)).separators
  refine ⟨?_, fun heq => hseparators.1 (heq ▸ hc'), fun heq => hseparators.2 (heq ▸ hc')⟩
  rw [multiline_readable, List.mem_filter, Bool.or_eq_true, decide_eq_true_iff,
    Bool.not_eq_true'] at hc'
  exact hc'.2.resolve_left fun heq => hone (heq ▸ hc)

end Terminal

end Syndeo.Dom
