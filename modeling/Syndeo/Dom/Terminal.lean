import Syndeo.Http.Text

/-!
# What a page may put on a terminal

Everything a page supplies goes through one of two filters before it is printed:
`Syndeo.Dom.Terminal.multiline` for prose, which keeps its lines, and
`Syndeo.Dom.Terminal.singleLine` for what has to stay on one. Both look first
whether there is anything to change, with a scan of their own, and hand the text
back if there is not. The scan for one line has a state, and has to agree with a
loop that has another (`Syndeo.Dom.Terminal.collapse_of_clean`).

What comes out is described without the scans: `Syndeo.Dom.Terminal.OneLine` and
`Syndeo.Dom.Terminal.ManyLines`.
-/

namespace Syndeo.Dom.Terminal

open Text

variable (category : Char → GeneralCategory)

/-- `U+2028`. -/
def lineSeparator : Char := Char.ofNat 0x2028

/-- `U+2029`. -/
def paragraphSeparator : Char := Char.ofNat 0x2029

/-- `unprintable`: a control or a format character, as `get_general_category` has it. -/
def unprintable (c : Char) : Bool :=
  match category c with
  | .control | .format => true
  | .other => false

/-- Whether `multiline` has to change the character. -/
def changed (c : Char) : Bool :=
  (unprintable category c && c != '\n' && c != '\t') || c == lineSeparator || c == paragraphSeparator

/-- What `multiline` makes of a character. -/
def multilineChar (c : Char) : Option Char :=
  if c = '\n' ∨ c = '\t' then some c
  else if c = lineSeparator ∨ c = paragraphSeparator then some '\n'
  else if unprintable category c then none
  else some c

/-- `multiline`: prose, with its newlines and tabs. -/
def multiline (text : List Char) : List Char :=
  if !text.any (changed category) then text else text.filterMap (multilineChar category)

/-- The scan of `single_line`: whether there is nothing to change, after a space or not. -/
def clean (previousSpace : Bool) : List Char → Bool
  | [] => true
  | c :: cs =>
    (if c = ' ' then !previousSpace else !isWhitespace c && !unprintable category c) &&
      clean (c = ' ') cs

/-- A character as one line has it: white space is an ordinary space. -/
def asSpace (c : Char) : Char := if isWhitespace c then ' ' else c

/-- The loop of `single_line`, after a space or not. -/
def collapse (space : Bool) : List Char → List Char
  | [] => []
  | c :: cs =>
    if !isWhitespace c && unprintable category c then collapse space cs
    else if asSpace c = ' ' then
      if space then collapse space cs else asSpace c :: collapse true cs
    else asSpace c :: collapse false cs

/-- `single_line`: text that has to stay on one line. -/
def singleLine (text : List Char) : List Char :=
  if clean category false text then text else collapse category false text

/-- The characters that `multiline` has a place for. -/
def keeps (c : Char) : Bool :=
  c = '\n' || c = '\t' || c = lineSeparator || c = paragraphSeparator || !unprintable category c

/-- A character as prose has it: the separators are newlines. -/
def asNewline (c : Char) : Char := if c = lineSeparator ∨ c = paragraphSeparator then '\n' else c

/-- The characters that show: neither white space nor unprintable. -/
def shows (c : Char) : Bool := !isWhitespace c && !unprintable category c

/-- **What prose comes to**: the separators of lines and paragraphs are newlines, other
controls are gone, and the rest is as it was. -/
structure ManyLines (text out : List Char) : Prop where
  printable : ∀ c ∈ out, unprintable category c = true → c = '\n' ∨ c = '\t'
  separators : lineSeparator ∉ out ∧ paragraphSeparator ∉ out
  kept : out = (text.filter (keeps category)).map asNewline

/-- **What one line comes to**: what shows, in order, with one space between two
characters that had white space between them, and none between others. -/
structure OneLine (text out : List Char) : Prop where
  spaces : ∀ c ∈ out, isWhitespace c = true → c = ' '
  single : ¬[' ', ' '] <:+: out
  printable : ∀ c ∈ out, unprintable category c = false
  kept : out.filter (· != ' ') = text.filter (shows category)
  between : ∀ before a gap b after, text = before ++ a :: (gap ++ b :: after) →
    shows category a = true → shows category b = true → (∀ c ∈ gap, shows category c = false) →
      ∃ front back,
        out = front ++ a :: ((if gap.any isWhitespace then [' '] else []) ++ b :: back) ∧
        front.filter (· != ' ') = before.filter (shows category) ∧
        back.filter (· != ' ') = after.filter (shows category)

variable {category} {c d : Char} {cs text : List Char} {space : Bool}

/-! ### Prose -/

theorem multilineChar_of_not_changed (h : changed category c = false) :
    multilineChar category c = some c := by
  simp only [changed, Bool.or_eq_false_iff, Bool.and_eq_false_iff, bne_eq_false_iff_eq,
    beq_eq_false_iff_ne] at h
  obtain ⟨⟨hprintable, hline⟩, hparagraph⟩ := h
  rw [multilineChar]
  split_ifs with hlayout hseparator hun
  · rfl
  · exact absurd hseparator (not_or.mpr ⟨hline, hparagraph⟩)
  · rcases hprintable with (hprintable | rfl) | rfl
    · rw [hprintable] at hun
      cases hun
    · exact absurd (Or.inl rfl) hlayout
    · exact absurd (Or.inr rfl) hlayout
  · rfl

theorem changed_of_multilineChar (h : multilineChar category c = some d) :
    changed category d = false := by
  rw [multilineChar] at h
  split_ifs at h with hlayout hseparator hun
  · obtain rfl := Option.some.inj h
    have hsame : c ≠ lineSeparator ∧ c ≠ paragraphSeparator := by
      rcases hlayout with rfl | rfl <;> decide
    rcases hlayout with rfl | rfl <;> simp [changed, hsame]
  · obtain rfl := Option.some.inj h
    have hsame : '\n' ≠ lineSeparator ∧ '\n' ≠ paragraphSeparator := by decide
    simp [changed, hsame]
  · obtain rfl := Option.some.inj h
    have hnot : unprintable category c = false := by simpa using hun
    simp [changed, hnot, (not_or.mp hseparator).1, (not_or.mp hseparator).2]

/-- **The scan of `multiline` is right**: it does what its loop does. -/
theorem multiline_eq (text : List Char) :
    multiline category text = text.filterMap (multilineChar category) := by
  rw [multiline]
  split
  · rename_i h
    rw [Bool.not_eq_true', List.any_eq_false] at h
    have hsame : text.filterMap (multilineChar category) = text.filterMap some :=
      List.filterMap_congr fun c hc => multilineChar_of_not_changed (by simpa using h c hc)
    rw [hsame, List.filterMap_some]
  · rfl

theorem not_changed_of_mem_multiline (h : c ∈ multiline category text) :
    changed category c = false := by
  rw [multiline_eq] at h
  obtain ⟨d, -, hd⟩ := List.mem_filterMap.mp h
  exact changed_of_multilineChar hd

theorem multiline_multiline (text : List Char) :
    multiline category (multiline category text) = multiline category text := by
  have hsame : (multiline category text).filterMap (multilineChar category) =
      (multiline category text).filterMap some :=
    List.filterMap_congr fun c hc => multilineChar_of_not_changed (not_changed_of_mem_multiline hc)
  rw [multiline_eq (multiline category text), hsame, List.filterMap_some]

theorem multilineChar_eq (c : Char) :
    multilineChar category c = if keeps category c then some (asNewline c) else none := by
  rw [multilineChar, keeps, asNewline]
  by_cases hlayout : c = '\n' ∨ c = '\t'
  · rcases hlayout with rfl | rfl <;> rfl
  · obtain ⟨hnewline, htab⟩ := not_or.mp hlayout
    by_cases hseparator : c = lineSeparator ∨ c = paragraphSeparator
    · rcases hseparator with rfl | rfl <;> rfl
    · obtain ⟨hline, hparagraph⟩ := not_or.mp hseparator
      by_cases hun : unprintable category c = true <;> simp [*]

theorem manyLines_multiline (text : List Char) :
    ManyLines category text (multiline category text) := by
  have hmem : ∀ c ∈ multiline category text, changed category c = false := fun c hc =>
    not_changed_of_mem_multiline hc
  refine ⟨fun c hc hun => ?_, ⟨fun hc => ?_, fun hc => ?_⟩, ?_⟩
  · have h := hmem c hc
    simp only [changed, hun, Bool.true_and, Bool.or_eq_false_iff, Bool.and_eq_false_iff,
      bne_eq_false_iff_eq] at h
    exact h.1.1
  · exact absurd (hmem _ hc) (by simp [changed])
  · exact absurd (hmem _ hc) (by simp [changed])
  · rw [multiline_eq]
    induction text with
    | nil => rfl
    | cons c text ih =>
      have ih := ih fun c hc => not_changed_of_mem_multiline hc
      have hc := @multilineChar_eq category c
      by_cases hkeeps : keeps category c = true
      · rw [if_pos hkeeps] at hc
        rw [List.filterMap_cons_some hc, List.filter_cons_of_pos hkeeps, List.map_cons, ih]
      · rw [if_neg hkeeps] at hc
        rw [List.filterMap_cons_none hc, List.filter_cons_of_neg hkeeps, ih]

/-! ### One line -/

theorem collapse_whitespace (h : isWhitespace c = true) (cs : List Char) :
    collapse category space (c :: cs) =
      if space then collapse category true cs else ' ' :: collapse category true cs := by
  rw [collapse, h, asSpace, if_pos h]
  cases space <;> rfl

theorem collapse_unprintable (h : isWhitespace c = false) (hun : unprintable category c = true)
    (cs : List Char) : collapse category space (c :: cs) = collapse category space cs := by
  rw [collapse, h, hun, Bool.not_false, Bool.true_and, if_pos rfl]

theorem shows_iff : shows category c = true ↔
    isWhitespace c = false ∧ unprintable category c = false := by
  rw [shows, Bool.and_eq_true, Bool.not_eq_true', Bool.not_eq_true']

theorem ne_space_of_shows (h : shows category c = true) : c ≠ ' ' := by
  rintro rfl
  exact absurd (shows_iff.mp h).1 (by decide)

theorem collapse_shows (h : shows category c = true) (cs : List Char) :
    collapse category space (c :: cs) = c :: collapse category false cs := by
  obtain ⟨hspace, hprintable⟩ := shows_iff.mp h
  have hsame : asSpace c = c := if_neg (by rw [hspace]; exact Bool.false_ne_true)
  rw [collapse, hprintable, Bool.and_false, if_neg Bool.false_ne_true, hsame,
    if_neg (ne_space_of_shows h)]

/-- **The scan of `single_line` is right**: where it finds nothing to change, the loop
changes nothing. -/
theorem collapse_of_clean (h : clean category space text = true) :
    collapse category space text = text := by
  induction text generalizing space with
  | nil => rfl
  | cons c cs ih =>
    rw [clean, Bool.and_eq_true] at h
    obtain ⟨hc, hcs⟩ := h
    by_cases hspace : c = ' '
    · rw [if_pos hspace, Bool.not_eq_true'] at hc
      have hcs := ih hcs
      rw [decide_eq_true hspace] at hcs
      rw [hspace, collapse_whitespace (by decide), hc, if_neg Bool.false_ne_true, hcs]
    · rw [if_neg hspace] at hc
      have hcs := ih hcs
      rw [decide_eq_false hspace] at hcs
      rw [collapse_shows hc, hcs]

theorem singleLine_eq (text : List Char) :
    singleLine category text = collapse category false text := by
  rw [singleLine]
  split
  · rename_i h
    exact (collapse_of_clean h).symm
  · rfl

/-- What comes out of the loop is what its scan calls clean. -/
theorem clean_collapse : clean category space (collapse category space text) = true := by
  induction text generalizing space with
  | nil => rfl
  | cons c cs ih =>
    by_cases hspace : isWhitespace c = true
    · rw [collapse_whitespace hspace]
      cases space with
      | true => exact ih
      | false =>
        rw [if_neg Bool.false_ne_true, clean, if_pos rfl]
        exact ih
    · have hspace : isWhitespace c = false := by simpa using hspace
      by_cases hun : unprintable category c = true
      · rw [collapse_unprintable hspace hun]
        exact ih
      · have hshows : shows category c = true := shows_iff.mpr ⟨hspace, by simpa using hun⟩
        rw [collapse_shows hshows, clean, if_neg (ne_space_of_shows hshows),
          decide_eq_false (ne_space_of_shows hshows), ih, Bool.and_true]
        exact hshows

theorem singleLine_singleLine (text : List Char) :
    singleLine category (singleLine category text) = singleLine category text := by
  rw [singleLine_eq text, singleLine, if_pos clean_collapse]

/-- What a clean text is made of. -/
theorem mem_of_clean (h : clean category space text = true) (hc : c ∈ text) :
    c = ' ' ∨ shows category c = true := by
  induction text generalizing space with
  | nil => exact absurd hc List.not_mem_nil
  | cons d cs ih =>
    rw [clean, Bool.and_eq_true] at h
    rcases List.mem_cons.mp hc with rfl | hc
    · by_cases hspace : c = ' '
      · exact Or.inl hspace
      · rw [if_neg hspace] at h
        exact Or.inr h.1
    · exact ih h.2 hc

theorem single_of_clean (h : clean category space text = true) : ¬[' ', ' '] <:+: text := by
  rintro ⟨front, back, rfl⟩
  induction front generalizing space with
  | nil => simp [clean] at h
  | cons c front ih =>
    rw [List.cons_append, List.cons_append, clean, Bool.and_eq_true] at h
    exact ih h.2

/-- **What has been read decides what came of it, and whether it ended in a space.** -/
theorem exists_collapse_append (space : Bool) (cs : List Char) :
    ∃ front space', (∀ rest, collapse category space (cs ++ rest) =
      front ++ collapse category space' rest) ∧
        front.filter (· != ' ') = cs.filter (shows category) := by
  induction cs generalizing space with
  | nil => exact ⟨[], space, fun _ => rfl, rfl⟩
  | cons c cs ih =>
    by_cases hspace : isWhitespace c = true
    · have hnot : shows category c = false := by simp [shows, hspace]
      obtain ⟨front, space', hfront, hkept⟩ := ih true
      cases space with
      | true =>
        refine ⟨front, space', fun rest => ?_, by rw [hkept, List.filter_cons_of_neg (by simp [hnot])]⟩
        rw [List.cons_append, collapse_whitespace hspace, if_pos rfl, hfront]
      | false =>
        refine ⟨' ' :: front, space', fun rest => ?_, by simp [hkept, hnot]⟩
        rw [List.cons_append, collapse_whitespace hspace,
          if_neg Bool.false_ne_true, hfront, List.cons_append]
    · have hspace : isWhitespace c = false := by simpa using hspace
      by_cases hun : unprintable category c = true
      · obtain ⟨front, space', hfront, hkept⟩ := ih space
        refine ⟨front, space', fun rest => ?_, by simp [hkept, shows, hun]⟩
        rw [List.cons_append, collapse_unprintable hspace hun, hfront]
      · have hshows : shows category c = true := shows_iff.mpr ⟨hspace, by simpa using hun⟩
        obtain ⟨front, space', hfront, hkept⟩ := ih false
        refine ⟨c :: front, space', fun rest => ?_, ?_⟩
        · rw [List.cons_append, collapse_shows hshows, hfront, List.cons_append]
        · rw [List.filter_cons_of_pos (by simpa using ne_space_of_shows hshows), hkept,
            List.filter_cons_of_pos hshows]

/-- **A gap comes to one space**, or to none. -/
theorem collapse_gap {gap : List Char} (h : ∀ c ∈ gap, shows category c = false)
    (hd : shows category d = true) (rest : List Char) :
    collapse category space (gap ++ d :: rest) =
      (if !space && gap.any isWhitespace then [' '] else []) ++
        d :: collapse category false rest := by
  induction gap generalizing space with
  | nil => simp [collapse_shows hd]
  | cons c gap ih =>
    have hgap : ∀ c ∈ gap, shows category c = false := fun c hc => h c (List.mem_cons_of_mem _ hc)
    have hc := h c List.mem_cons_self
    rw [List.cons_append, List.any_cons]
    by_cases hspace : isWhitespace c = true
    · rw [collapse_whitespace hspace, ih hgap, hspace]
      cases space <;> rfl
    · have hspace : isWhitespace c = false := by simpa using hspace
      have hun : unprintable category c = true := by simpa [shows, hspace] using hc
      rw [collapse_unprintable hspace hun, ih hgap, hspace, Bool.false_or]

theorem oneLine_singleLine (hblank : unprintable category ' ' = false) (text : List Char) :
    OneLine category text (singleLine category text) := by
  have hclean : clean category false (singleLine category text) = true := by
    rw [singleLine_eq]
    exact clean_collapse
  refine ⟨fun c hc hspace => ?_, single_of_clean hclean, fun c hc => ?_, ?_, ?_⟩
  · refine (mem_of_clean hclean hc).resolve_right fun hshows => ?_
    rw [(shows_iff.mp hshows).1] at hspace
    cases hspace
  · rcases mem_of_clean hclean hc with rfl | hshows
    · exact hblank
    · exact (shows_iff.mp hshows).2
  · obtain ⟨front, space', hfront, hkept⟩ := @exists_collapse_append category false text
    have hwhole := hfront []
    rw [List.append_nil, collapse, List.append_nil] at hwhole
    rw [singleLine_eq, hwhole, hkept]
  · rintro before a gap b after rfl ha hb hgap
    obtain ⟨front, space', hfront, hbefore⟩ := @exists_collapse_append category false before
    obtain ⟨back, space'', hback, hafter⟩ := @exists_collapse_append category false after
    refine ⟨front, back, ?_, hbefore, hafter⟩
    have hrest := hback []
    rw [List.append_nil, collapse, List.append_nil] at hrest
    rw [singleLine_eq, hfront, collapse_shows ha, collapse_gap hgap hb, hrest, Bool.not_false,
      Bool.true_and]

/-- **What the two filters are for**: their scans agree with their loops, filtering again
changes nothing, and what comes out is prose, or one line, with nothing in it that a
terminal would obey. -/
theorem filters_lawful (category : Char → GeneralCategory) (hblank : category ' ' = .other)
    (text : List Char) :
    (multiline category text = text.filterMap (multilineChar category) ∧
      (text.any (changed category) = false →
        text.filterMap (multilineChar category) = text)) ∧
    (singleLine category text = collapse category false text ∧
      (clean category false text = true → collapse category false text = text)) ∧
    multiline category (multiline category text) = multiline category text ∧
    singleLine category (singleLine category text) = singleLine category text ∧
    ManyLines category text (multiline category text) ∧
    OneLine category text (singleLine category text) := by
  refine ⟨⟨multiline_eq text, fun h => ?_⟩, ⟨singleLine_eq text, collapse_of_clean⟩,
    multiline_multiline text, singleLine_singleLine text, manyLines_multiline text,
    oneLine_singleLine ?_ text⟩
  · rw [← multiline_eq, multiline, h]
    rfl
  · rw [unprintable, hblank]

/-- The controls, and some of the format characters. -/
def sampleCategory (c : Char) : GeneralCategory :=
  if isControl c then .control
  else if 0x200B ≤ c.toNat && c.toNat ≤ 0x200F || 0x202A ≤ c.toNat && c.toNat ≤ 0x202E then .format
  else .other

/-- An escape sequence between two words, and an invisible character between two spaces. -/
def hostileTitle : List Char :=
  ['a', Char.ofNat 0x1B, '[', ' ', Char.ofNat 0x200B, '\t', 'b']

theorem filters_lawful_hostile :
    singleLine sampleCategory hostileTitle = ['a', '[', ' ', 'b'] ∧
      multiline sampleCategory hostileTitle = ['a', '[', ' ', '\t', 'b'] ∧
      OneLine sampleCategory hostileTitle ['a', '[', ' ', 'b'] := by
  have hone : singleLine sampleCategory hostileTitle = ['a', '[', ' ', 'b'] := by decide
  have hlawful := filters_lawful sampleCategory (by decide) hostileTitle
  exact ⟨hone, by decide, hone ▸ hlawful.2.2.2.2.2⟩

end Syndeo.Dom.Terminal
