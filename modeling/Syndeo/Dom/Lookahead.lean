import Syndeo.Data.Offsets
import Syndeo.Data.Utf8
import Syndeo.Http.Text
import Mathlib.Tactic.Common

/-!
# The look-ahead

What a page costs has to be known before the tokenizer is given it, so that the
tokenizer's own states are followed through the input ahead of it, to the end of
the next tag: where it begins and ends, and how many attributes it has. One turn
of that loop reads one character (`Syndeo.Dom.Lookahead.turn`); it may hold the
character back, to be read again in the state it leads to.

Offsets into the input are bytes, and taking the input apart anywhere but between
two characters panics, as does going back before its start. Both are failures
here (`none`). That neither happens is the work of
`Syndeo.Dom.Lookahead.Fits`, which says where a tag being read began, and of what
one turn can do to it (`Syndeo.Dom.exists_turn`).
-/

namespace Syndeo.Dom

open Utf8 (size dropBytes IsBoundary)

/-! ### The tokenizer's states -/

inductive ScriptEscapeKind
  | escaped
  | doubleEscaped
  deriving DecidableEq, Repr

inductive RawKind
  | rcdata
  | rawtext
  | scriptData
  | scriptDataEscaped (escape : ScriptEscapeKind)
  deriving DecidableEq, Repr

inductive TagKind
  | startTag
  | endTag
  deriving DecidableEq, Repr

inductive State
  | data
  | tagOpen
  | endTagOpen
  | tagName
  | beforeAttributeName
  | attributeName
  | afterAttributeName
  | beforeAttributeValue
  | doubleQuoted
  | singleQuoted
  | unquoted
  | afterAttributeValueQuoted
  | selfClosingStartTag
  | markupDeclarationOpen
  | commentStart
  | commentStartDash
  | comment
  | commentLessThanSign
  | commentLessThanSignBang
  | commentLessThanSignBangDash
  | commentLessThanSignBangDashDash
  | commentEndDash
  | commentEnd
  | commentEndBang
  | bogusComment
  | doctype
  | cdataSection
  | cdataSectionBracket
  | cdataSectionEnd
  | raw (kind : RawKind)
  | rawLessThanSign (kind : RawKind)
  | rawEndTagOpen (kind : RawKind)
  | rawEndTagName (kind : RawKind)
  | scriptDataEscapeStart
  | scriptDataEscapeStartDash
  | scriptDataDoubleEscapeStart
  | scriptDataEscapedDash (escape : ScriptEscapeKind)
  | scriptDataEscapedDashDash (escape : ScriptEscapeKind)
  | scriptDataDoubleEscapeEnd
  | plaintext
  deriving DecidableEq, Repr

/-- Whether the tokenizer is reading what is or may yet become a tag. -/
def readingATag : State → Bool
  | .tagOpen | .endTagOpen | .tagName | .beforeAttributeName | .attributeName
  | .afterAttributeName | .beforeAttributeValue | .doubleQuoted | .singleQuoted | .unquoted
  | .afterAttributeValueQuoted | .selfClosingStartTag | .rawLessThanSign _ | .rawEndTagOpen _
  | .rawEndTagName _ => true
  | _ => false

/-- A tag, found ahead of the tokenizer: the offset of its opening bracket, the
one just past its closing one, and how many attributes the tokenizer will create
for it, duplicates included. -/
structure Found where
  start : ℕ
  stop : ℕ
  attributes : ℕ
  deriving DecidableEq, Repr

/-- How far the look-ahead got. -/
inductive Scan
  | tag (found : Found)
  | ended
  | limit
  deriving DecidableEq, Repr

/-- What the tree builder did with a tag: the state it left the tokenizer in. -/
inductive Next
  | data
  | raw (kind : RawKind)
  | plaintext

structure Emitted where
  kind : TagKind
  name : List Char
  next : Next

/-- The look-ahead. Its count of attributes is a natural number: an input has
fewer characters than the counter of the source has values. -/
structure Lookahead where
  input : List Char
  position : ℕ
  state : State
  /-- Where the tag being read began. -/
  openTagStart : Option ℕ
  kind : TagKind
  attributes : ℕ
  /-- The tag name being read, lowercased. -/
  name : List Char
  /-- The name of the last start tag, whose end tag closes raw text. -/
  lastStart : List Char
  /-- The tokenizer's temporary buffer, in the script data states. -/
  temp : List Char
  /-- Whether the tree builder is in foreign content, where CDATA sections are. -/
  «foreign» : Bool

def whitespace (c : Char) : Bool :=
  c = '\t' || c = '\n' || c = '\x0c' || c = ' ' || c = '\r'

namespace Lookahead

def new (input : List Char) : Lookahead :=
  ⟨input, 0, .data, none, .startTag, 0, [], [], [], false⟩

/-- Carrying on from where the tree builder left the tokenizer after a tag. -/
def follow (a : Lookahead) (emitted : Emitted) : Lookahead :=
  { a with
    lastStart := if emitted.kind = .startTag then emitted.name else a.lastStart
    state := match emitted.next with
      | .data => .data
      | .raw kind => .raw kind
      | .plaintext => .plaintext }

def beginTag (a : Lookahead) (kind : TagKind) (start : ℕ) (first : Char) : Lookahead :=
  { a with openTagStart := some start, kind, attributes := 0, name := [Text.lowerChar first] }

def beginAttribute (a : Lookahead) : Lookahead := { a with attributes := a.attributes + 1 }

/-- The tag that ends at an offset, and the look-ahead after it. -/
def emit (a : Lookahead) (stop : ℕ) : Lookahead × Found :=
  ({ a with
      openTagStart := none
      lastStart := if a.kind = .startTag then a.name else a.lastStart
      attributes := 0
      state := .data },
    ⟨a.openTagStart.getD stop, stop, a.attributes⟩)

/-- Whether the end tag being read is the one that closes raw text. -/
def appropriate (a : Lookahead) : Bool := a.kind = .endTag && a.name = a.lastStart

/-- The look-ahead in another state. -/
def into (a : Lookahead) (state : State) : Lookahead := { a with state }

def pushName (a : Lookahead) (c : Char) : Lookahead :=
  { a with name := a.name ++ [Text.lowerChar c] }

def pushTemp (a : Lookahead) (c : Char) : Lookahead :=
  { a with temp := a.temp ++ [Text.lowerChar c] }

/-- The look-ahead with no tag begun. -/
def dropTag (a : Lookahead) : Lookahead := { a with openTagStart := none }

end Lookahead

/-! ### One turn -/

/-- What a turn of the loop decides: to go on, past some more characters; to read
the character again; or that it ends a tag. -/
inductive Move
  | on (a : Lookahead) (skipped : ℕ)
  | again (a : Lookahead)
  | tag (a : Lookahead) (found : Found)

namespace Lookahead

/-- A character that ends a tag. -/
def close (a : Lookahead) (after : ℕ) : Move := .tag (a.emit after).1 (a.emit after).2

/-- The seven bytes of a doctype's keyword, in any case. -/
def isDoctype (rest : List Char) : Bool :=
  ((Utf8.encode rest).take 7).map (fun b => if 65 ≤ b ∧ b ≤ 90 then b + 32 else b) =
    Utf8.encode "doctype".toList

/-- What is decided on what follows an opening bracket and a bang, all at once. -/
def markupDeclaration (a : Lookahead) (here : ℕ) : Option Move :=
  (dropBytes a.input here).map fun rest =>
    let a := a.dropTag
    if "--".toList.isPrefixOf rest then .on (a.into .commentStart) 1
    else if isDoctype rest then .on (a.into .doctype) 6
    else if "[CDATA[".toList.isPrefixOf rest && a.«foreign» then .on (a.into .cdataSection) 6
    else .again (a.into .bogusComment)

/-- The first character of a tag's name, which looks back for where the tag began. -/
def openAt (a : Lookahead) (here back : ℕ) (kind : TagKind) (c : Char) : Option Move :=
  if back ≤ here then some (.on ((a.beginTag kind (here - back) c).into .tagName) 0) else none

/-- The loop's body, at the character at an offset, state by state. -/
def step (a : Lookahead) (here : ℕ) (c : Char) : Option Move :=
  let after := here + c.utf8Size
  match a.state with
  | .data =>
    some (if c = '<' then .on { a with state := .tagOpen, openTagStart := some here } 0
      else .on a 0)
  | .plaintext => some (.on a 0)
  | .tagOpen =>
    if c = '!' then some (.on (a.into .markupDeclarationOpen) 0)
    else if c = '/' then some (.on (a.into .endTagOpen) 0)
    else if c = '?' then some (.on (a.into .bogusComment) 0)
    else if c.isAlpha then a.openAt here 1 .startTag c
    else some (.again (a.dropTag.into .data))
  | .endTagOpen =>
    if c = '>' then some (.on (a.dropTag.into .data) 0)
    else if c.isAlpha then a.openAt here 2 .endTag c
    else some (.again (a.dropTag.into .bogusComment))
  | .tagName => some <|
    if whitespace c then .on (a.into .beforeAttributeName) 0
    else if c = '/' then .on (a.into .selfClosingStartTag) 0
    else if c = '>' then a.close after
    else .on (a.pushName c) 0
  | .beforeAttributeName => some <|
    if whitespace c then .on a 0
    else if c = '/' then .on (a.into .selfClosingStartTag) 0
    else if c = '>' then a.close after
    else .on (a.beginAttribute.into .attributeName) 0
  | .attributeName => some <|
    if whitespace c then .on (a.into .afterAttributeName) 0
    else if c = '/' then .on (a.into .selfClosingStartTag) 0
    else if c = '=' then .on (a.into .beforeAttributeValue) 0
    else if c = '>' then a.close after
    else .on a 0
  | .afterAttributeName => some <|
    if whitespace c then .on a 0
    else if c = '/' then .on (a.into .selfClosingStartTag) 0
    else if c = '=' then .on (a.into .beforeAttributeValue) 0
    else if c = '>' then a.close after
    else .on (a.beginAttribute.into .attributeName) 0
  | .beforeAttributeValue => some <|
    if whitespace c then .on a 0
    else if c = '"' then .on (a.into .doubleQuoted) 0
    else if c = '\'' then .on (a.into .singleQuoted) 0
    else if c = '>' then a.close after
    else .again (a.into .unquoted)
  | .doubleQuoted =>
    some (if c = '"' then .on (a.into .afterAttributeValueQuoted) 0 else .on a 0)
  | .singleQuoted =>
    some (if c = '\'' then .on (a.into .afterAttributeValueQuoted) 0 else .on a 0)
  | .unquoted => some <|
    if whitespace c then .on (a.into .beforeAttributeName) 0
    else if c = '>' then a.close after
    else .on a 0
  | .afterAttributeValueQuoted => some <|
    if whitespace c then .on (a.into .beforeAttributeName) 0
    else if c = '/' then .on (a.into .selfClosingStartTag) 0
    else if c = '>' then a.close after
    else .again (a.into .beforeAttributeName)
  | .selfClosingStartTag =>
    some (if c = '>' then a.close after else .again (a.into .beforeAttributeName))
  | .markupDeclarationOpen => a.markupDeclaration here
  | .commentStart => some <|
    if c = '-' then .on (a.into .commentStartDash) 0
    else if c = '>' then .on (a.into .data) 0
    else .on (a.into .comment) 0
  | .commentStartDash => some <|
    if c = '-' then .on (a.into .commentEnd) 0
    else if c = '>' then .on (a.into .data) 0
    else .on (a.into .comment) 0
  | .comment => some <|
    if c = '<' then .on (a.into .commentLessThanSign) 0
    else if c = '-' then .on (a.into .commentEndDash) 0
    else .on a 0
  | .commentLessThanSign => some <|
    if c = '!' then .on (a.into .commentLessThanSignBang) 0
    else if c = '<' then .on a 0
    else .again (a.into .comment)
  | .commentLessThanSignBang => some <|
    if c = '-' then .on (a.into .commentLessThanSignBangDash) 0 else .again (a.into .comment)
  | .commentLessThanSignBangDash => some <|
    if c = '-' then .on (a.into .commentLessThanSignBangDashDash) 0
    else .again (a.into .commentEndDash)
  | .commentLessThanSignBangDashDash => some (.again (a.into .commentEnd))
  | .commentEndDash =>
    some (if c = '-' then .on (a.into .commentEnd) 0 else .on (a.into .comment) 0)
  | .commentEnd => some <|
    if c = '>' then .on (a.into .data) 0
    else if c = '!' then .on (a.into .commentEndBang) 0
    else if c = '-' then .on a 0
    else .again (a.into .comment)
  | .commentEndBang => some <|
    if c = '-' then .on (a.into .commentEndDash) 0
    else if c = '>' then .on (a.into .data) 0
    else .on (a.into .comment) 0
  | .bogusComment | .doctype => some (if c = '>' then .on (a.into .data) 0 else .on a 0)
  | .cdataSection => some (if c = ']' then .on (a.into .cdataSectionBracket) 0 else .on a 0)
  | .cdataSectionBracket =>
    some (if c = ']' then .on (a.into .cdataSectionEnd) 0 else .again (a.into .cdataSection))
  | .cdataSectionEnd => some <|
    if c = ']' then .on a 0
    else if c = '>' then .on (a.into .data) 0
    else .again (a.into .cdataSection)
  | .raw (.scriptDataEscaped escape) => some <|
    if c = '-' then .on (a.into (.scriptDataEscapedDash escape)) 0
    else if c = '<' then
      .on { a with
        openTagStart := some here, state := .rawLessThanSign (.scriptDataEscaped escape) } 0
    else .on a 0
  | .raw kind =>
    some (if c = '<' then
        .on { a with openTagStart := some here, state := .rawLessThanSign kind } 0
      else .on a 0)
  | .rawLessThanSign (.scriptDataEscaped .escaped) => some <|
    if c = '/' then .on (a.into (.rawEndTagOpen (.scriptDataEscaped .escaped))) 0
    else if c.isAlpha then
      .on ({ a with temp := [Text.lowerChar c] }.into .scriptDataDoubleEscapeStart) 0
    else .again (a.into (.raw (.scriptDataEscaped .escaped)))
  | .rawLessThanSign (.scriptDataEscaped .doubleEscaped) => some <|
    if c = '/' then .on ({ a with temp := [] }.into .scriptDataDoubleEscapeEnd) 0
    else .again (a.into (.raw (.scriptDataEscaped .doubleEscaped)))
  | .rawLessThanSign kind => some <|
    if c = '/' then .on (a.into (.rawEndTagOpen kind)) 0
    else if c = '!' ∧ kind = .scriptData then .on (a.into .scriptDataEscapeStart) 0
    else .again (a.into (.raw kind))
  | .rawEndTagOpen kind => some <|
    if c.isAlpha then
      .on ((a.beginTag .endTag (a.openTagStart.getD here) c).into (.rawEndTagName kind)) 0
    else .again (a.into (.raw kind))
  | .rawEndTagName kind => some <|
    if a.appropriate && whitespace c then .on (a.into .beforeAttributeName) 0
    else if a.appropriate && c = '/' then .on (a.into .selfClosingStartTag) 0
    else if a.appropriate && c = '>' then a.close after
    else if c.isAlpha then .on (a.pushName c) 0
    else .again (a.dropTag.into (.raw kind))
  | .scriptDataEscapeStart => some <|
    if c = '-' then .on (a.into .scriptDataEscapeStartDash) 0
    else .again (a.into (.raw .scriptData))
  | .scriptDataEscapeStartDash => some <|
    if c = '-' then .on (a.into (.scriptDataEscapedDashDash .escaped)) 0
    else .again (a.into (.raw .scriptData))
  | .scriptDataEscapedDash escape => some <|
    if c = '-' then .on (a.into (.scriptDataEscapedDashDash escape)) 0
    else if c = '<' then
      .on { a with
        openTagStart := some here, state := .rawLessThanSign (.scriptDataEscaped escape) } 0
    else .on (a.into (.raw (.scriptDataEscaped escape))) 0
  | .scriptDataEscapedDashDash escape => some <|
    if c = '-' then .on a 0
    else if c = '<' then
      .on { a with
        openTagStart := some here, state := .rawLessThanSign (.scriptDataEscaped escape) } 0
    else if c = '>' then .on (a.into (.raw .scriptData)) 0
    else .on (a.into (.raw (.scriptDataEscaped escape))) 0
  | .scriptDataDoubleEscapeStart => some <|
    if whitespace c || c = '/' || c = '>' then
      let escape := if a.temp = "script".toList then .doubleEscaped else .escaped
      .on (a.into (.raw (.scriptDataEscaped escape))) 0
    else if c.isAlpha then .on (a.pushTemp c) 0
    else .again (a.into (.raw (.scriptDataEscaped .escaped)))
  | .scriptDataDoubleEscapeEnd => some <|
    if whitespace c || c = '/' || c = '>' then
      let escape := if a.temp = "script".toList then .escaped else .doubleEscaped
      .on (a.into (.raw (.scriptDataEscaped escape))) 0
    else if c.isAlpha then .on (a.pushTemp c) 0
    else .again (a.into (.raw (.scriptDataEscaped .doubleEscaped)))

/-- Only the states that may still become a tag keep its start. -/
def kept (a : Lookahead) : Lookahead := if readingATag a.state then a else a.dropTag

/-- One turn of the loop. A turn that ends a tag returns before the start would
be kept or dropped. -/
def turn (a : Lookahead) (here : ℕ) (c : Char) : Option Move :=
  match { a with position := here + c.utf8Size }.step here c with
  | none => none
  | some (.on a skipped) => some (.on a.kept skipped)
  | some (.again a) => some (.again a.kept)
  | some (.tag a found) => some (.tag a found)

/-- The characters still to be read, and the offset of the first of them. -/
structure Chars where
  offset : ℕ
  rest : List Char

def Chars.skip (chars : Chars) (n : ℕ) : Chars :=
  ⟨chars.offset + size (chars.rest.take n), chars.rest.drop n⟩

/-- The loop. A character held back is read before those that are left, and
without a look at the limit. -/
def read (limit : ℕ) : ℕ → Lookahead → Chars → Option (ℕ × Char) → Option (Lookahead × Scan)
  | 0, _, _, _ => none
  | fuel + 1, a, chars, reconsume =>
    let turned (here : ℕ) (c : Char) (chars : Chars) : Option (Lookahead × Scan) :=
      match a.turn here c with
      | none => none
      | some (.on a skipped) => read limit fuel a (chars.skip skipped) none
      | some (.again a) => read limit fuel a chars (some (here, c))
      | some (.tag a found) => some (a, .tag found)
    match reconsume, chars.rest with
    | some (here, c), _ => turned here c chars
    | none, [] => some ({ a with position := size a.input }, .ended)
    | none, c :: rest =>
      if limit ≤ chars.offset then some ({ a with position := chars.offset }, .limit)
      else turned chars.offset c ⟨chars.offset + c.utf8Size, rest⟩

/-- Reading on to the end of the next tag, and no character that starts at or past
the limit. A character is read at most three times. -/
def nextTag (a : Lookahead) (limit : ℕ) : Option (Lookahead × Scan) :=
  (dropBytes a.input a.position).bind fun rest =>
    a.read limit (3 * rest.length + 1) ⟨a.position, rest⟩ none

end Lookahead

/-! ### What one turn can do -/

/-- How often a character may still be held back, in a state. -/
def State.rank : State → ℕ
  | .commentLessThanSignBangDashDash => 2
  | .tagOpen | .endTagOpen | .beforeAttributeValue | .afterAttributeValueQuoted
  | .selfClosingStartTag | .markupDeclarationOpen | .commentLessThanSign
  | .commentLessThanSignBang | .commentLessThanSignBangDash | .commentEnd
  | .cdataSectionBracket | .cdataSectionEnd | .rawLessThanSign _ | .rawEndTagOpen _
  | .rawEndTagName _ | .scriptDataEscapeStart | .scriptDataEscapeStartDash
  | .scriptDataDoubleEscapeStart | .scriptDataDoubleEscapeEnd => 1
  | _ => 0

namespace Lookahead

/-- **What a turn at an offset can do.** It keeps the start of a tag, drops it, or
begins one here; the two states before a tag's name are entered behind an opening
bracket and behind the slash that follows it; and a character held back is held
for a state that holds back less. -/
def Goes (a : Lookahead) (here : ℕ) (c : Char) : Move → Prop
  | .on b skipped => b.input = a.input ∧
      (b.openTagStart = none ∨ b.openTagStart = a.openTagStart ∨ b.openTagStart = some here) ∧
      (b.state = .tagOpen → b.openTagStart = some here ∧ c = '<' ∧ skipped = 0) ∧
      (b.state = .endTagOpen →
        a.state = .tagOpen ∧ b.openTagStart = a.openTagStart ∧ c = '/' ∧ skipped = 0)
  | .again b => b.input = a.input ∧
      (b.openTagStart = none ∨ b.openTagStart = a.openTagStart) ∧
      b.state ≠ .tagOpen ∧ b.state ≠ .endTagOpen ∧ b.state.rank < a.state.rank
  | .tag b found => b.input = a.input ∧ b.openTagStart = none ∧ b.state = .data ∧
      b.position = a.position ∧ found.stop = here + c.utf8Size ∧
      found.start = a.openTagStart.getD found.stop

/-- The tag begun is the one the two states before its name look back for. -/
structure Looks (a : Lookahead) (here : ℕ) : Prop where
  tagOpen : a.state = .tagOpen → ∃ s, a.openTagStart = some s ∧ here = s + 1
  endTagOpen : a.state = .endTagOpen → ∃ s, a.openTagStart = some s ∧ here = s + 2

theorem exists_step {a : Lookahead} {here : ℕ} (c : Char) (ha : a.Looks here)
    (hhere : IsBoundary a.input here) : ∃ m, a.step here c = some m ∧ a.Goes here c m := by
  obtain ⟨rest, hrest⟩ := hhere.exists_dropBytes
  cases hs : a.state with
  | data =>
    simp only [step, hs]
    split_ifs with hc
    · exact ⟨_, rfl, by simp [Goes, hc]⟩
    · exact ⟨_, rfl, by simp [Goes, hs]⟩
  | tagOpen =>
    obtain ⟨s, hopen, rfl⟩ := ha.tagOpen hs
    simp only [step, hs, openAt, Nat.le_add_left, if_true]
    split_ifs <;> exact ⟨_, rfl, by simp [Goes, into, dropTag, beginTag, State.rank, *]⟩
  | endTagOpen =>
    obtain ⟨s, hopen, rfl⟩ := ha.endTagOpen hs
    simp only [step, hs, openAt, Nat.le_add_left, if_true]
    split_ifs <;> exact ⟨_, rfl, by simp [Goes, into, dropTag, beginTag, hs, hopen, State.rank]⟩
  | markupDeclarationOpen =>
    simp only [step, hs, markupDeclaration, hrest, Option.map_some]
    split_ifs <;> exact ⟨_, rfl, by simp [Goes, into, dropTag, hs, State.rank]⟩
  | raw kind =>
    cases kind <;> simp only [step, hs] <;> split_ifs <;>
      exact ⟨_, rfl, by simp [Goes, into, hs]⟩
  | rawLessThanSign kind =>
    rcases kind with _ | _ | _ | ⟨_ | _⟩ <;> simp only [step, hs] <;> split_ifs <;>
      exact ⟨_, rfl, by simp [Goes, into, hs, State.rank]⟩
  | rawEndTagOpen kind =>
    simp only [step, hs]
    split_ifs
    · refine ⟨_, rfl, rfl, ?_, by simp [into], by simp [into]⟩
      cases hopen : a.openTagStart <;> simp [into, beginTag]
    · exact ⟨_, rfl, by simp [Goes, into, hs, State.rank]⟩
  | _ =>
    simp only [step, hs]
    try split_ifs
    all_goals
      exact ⟨_, rfl, by
        simp [Goes, into, dropTag, close, emit, pushName, pushTemp, beginAttribute, hs, State.rank]⟩

@[simp] theorem kept_input (a : Lookahead) : a.kept.input = a.input := by
  rw [kept]
  split <;> rfl

@[simp] theorem kept_state (a : Lookahead) : a.kept.state = a.state := by
  rw [kept]
  split <;> rfl

theorem kept_openTagStart (a : Lookahead) :
    a.kept.openTagStart = none ∨ a.kept.openTagStart = a.openTagStart := by
  rw [kept]
  split
  · exact Or.inr rfl
  · exact Or.inl rfl

theorem kept_of_readingATag {a : Lookahead} (h : readingATag a.state) : a.kept = a := if_pos h

/-- **One turn does not fail, and does no more than that.** -/
theorem exists_turn {a : Lookahead} {here : ℕ} (c : Char) (ha : a.Looks here)
    (hhere : IsBoundary a.input here) :
    ∃ m, a.turn here c = some m ∧ { a with position := here + c.utf8Size }.Goes here c m := by
  have hlooks : { a with position := here + c.utf8Size }.Looks here := ⟨ha.1, ha.2⟩
  obtain ⟨m, hstep, hgoes⟩ := exists_step c hlooks hhere
  rw [turn, hstep]
  cases m with
  | on b skipped =>
    obtain ⟨hinput, hopen, htag, hend⟩ := hgoes
    refine ⟨_, rfl, by rw [kept_input, hinput], ?_, ?_, ?_⟩
    · rcases b.kept_openTagStart with h | h
      · exact Or.inl h
      · rwa [h]
    · intro hb
      rw [kept_state] at hb
      rw [kept_of_readingATag (by rw [hb]; rfl)]
      exact htag hb
    · intro hb
      rw [kept_state] at hb
      rw [kept_of_readingATag (by rw [hb]; rfl)]
      exact hend hb
  | again b =>
    obtain ⟨hinput, hopen, htag, hend, hrank⟩ := hgoes
    refine ⟨_, rfl, by rw [kept_input, hinput], ?_, ?_, ?_, ?_⟩
    · rcases b.kept_openTagStart with h | h
      · exact Or.inl h
      · rwa [h]
    all_goals rwa [kept_state]
  | tag b found => exact ⟨_, rfl, hgoes⟩

/-! ### What the loop can do -/

/-- What holds of the look-ahead between two turns, at an offset from which the
loop goes on: a tag being read began at a place in the input, after the loop did. -/
structure Fits (input : List Char) (base : ℕ) (a : Lookahead) (here : ℕ) : Prop
    extends a.Looks here where
  input_eq : a.input = input
  began : ∀ s, a.openTagStart = some s → IsBoundary input s ∧ base ≤ s ∧ s ≤ here

/-- What the loop leaves: everything it names is a place in the input, where the
loop began or after it. -/
def Leaves (input : List Char) (base : ℕ) (a : Lookahead) : Scan → Prop
  | .tag found => IsBoundary input found.start ∧ IsBoundary input found.stop ∧
      base ≤ found.start ∧ found.start ≤ found.stop ∧ base < found.stop ∧
      a.position = found.stop ∧ a.openTagStart = none ∧ a.state = .data
  | .ended => a.position = size input ∧ ∀ s, a.openTagStart = some s →
      IsBoundary input s ∧ base ≤ s
  | .limit => IsBoundary input a.position ∧ base ≤ a.position ∧ ∀ s, a.openTagStart = some s →
      IsBoundary input s ∧ base ≤ s

/-- The characters left are those of the input from an offset on. -/
structure Chars.From (input : List Char) (chars : Chars) : Prop where
  split : ∃ before, input = before ++ chars.rest ∧ size before = chars.offset

theorem Chars.From.isBoundary {input : List Char} {chars : Chars} (h : chars.From input) :
    IsBoundary input chars.offset := by
  obtain ⟨before, rfl, hsize⟩ := h.split
  exact ⟨before, chars.rest, rfl, hsize⟩

theorem Chars.From.skip {input : List Char} {chars : Chars} (h : chars.From input) (n : ℕ) :
    (chars.skip n).From input := by
  obtain ⟨before, rfl, hsize⟩ := h.split
  refine ⟨before ++ chars.rest.take n, ?_, ?_⟩
  · rw [Chars.skip, List.append_assoc, List.take_append_drop]
  · rw [Utf8.size_append, hsize, Chars.skip]

theorem Chars.offset_le_skip (chars : Chars) (n : ℕ) : chars.offset ≤ (chars.skip n).offset :=
  Nat.le_add_right _ _

theorem Chars.length_skip_le (chars : Chars) (n : ℕ) :
    (chars.skip n).rest.length ≤ chars.rest.length := by
  rw [Chars.skip, List.length_drop]
  exact Nat.sub_le _ _

section Turns

variable {input : List Char} {base : ℕ} {a : Lookahead} {here : ℕ} {c : Char}

/-- Going on, the loop reads on where the character ends, or further. -/
theorem Fits.on {b : Lookahead} {skipped : ℕ} {chars : Chars} (ha : a.Fits input base here)
    (hhere : IsBoundary input here) (hbase : base ≤ here)
    (hchars : chars.offset = here + c.utf8Size)
    (h : { a with position := here + c.utf8Size }.Goes here c (.on b skipped)) :
    b.Fits input base (chars.skip skipped).offset := by
  obtain ⟨hinput, hopen, htag, hend⟩ := h
  have hle := chars.offset_le_skip skipped
  have hskip (h0 : skipped = 0) : (chars.skip skipped).offset = here + c.utf8Size := by
    rw [h0, ← hchars]
    simp [Chars.skip]
  refine ⟨⟨fun hb => ?_, fun hb => ?_⟩, hinput.trans ha.input_eq, fun s hs => ?_⟩
  · obtain ⟨hstart, rfl, h0⟩ := htag hb
    exact ⟨here, hstart, hskip h0⟩
  · obtain ⟨hastate, hstart, rfl, h0⟩ := hend hb
    obtain ⟨s, hs, rfl⟩ := ha.tagOpen hastate
    exact ⟨s, hstart.trans hs, hskip h0⟩
  · rcases hopen with h0 | h0 | h0
    · rw [h0] at hs
      exact nomatch hs
    · obtain ⟨hplace, hfrom, hto⟩ := ha.began s (h0.symm.trans hs)
      exact ⟨hplace, hfrom, by omega⟩
    · rw [h0] at hs
      obtain rfl := Option.some.inj hs
      exact ⟨hhere, hbase, by omega⟩

/-- Reading a character again, the loop is where it was. -/
theorem Fits.again {b : Lookahead} (ha : a.Fits input base here)
    (h : { a with position := here + c.utf8Size }.Goes here c (.again b)) :
    b.Fits input base here := by
  obtain ⟨hinput, hopen, htag, hend, -⟩ := h
  refine ⟨⟨fun hb => absurd hb htag, fun hb => absurd hb hend⟩,
    hinput.trans ha.input_eq, fun s hs => ?_⟩
  rcases hopen with h0 | h0
  · rw [h0] at hs
    exact nomatch hs
  · exact ha.began s (h0.symm.trans hs)

/-- A tag that ends here began at a place in the input, or is nothing. -/
theorem Fits.leaves {b : Lookahead} {found : Found} (ha : a.Fits input base here)
    (hafter : IsBoundary input (here + c.utf8Size)) (hbase : base ≤ here)
    (h : { a with position := here + c.utf8Size }.Goes here c (.tag b found)) :
    b.Leaves input base (.tag found) := by
  obtain ⟨-, hopen, hstate, hposition, hstop, hstart⟩ := h
  have hc := c.utf8Size_pos
  have hplaces : IsBoundary input found.start ∧ base ≤ found.start ∧
      found.start ≤ found.stop := by
    rw [hstart, hstop]
    cases hs : a.openTagStart with
    | none => exact ⟨hafter, Nat.le_add_right_of_le hbase, Nat.le_refl _⟩
    | some s =>
      obtain ⟨hplace, hfrom, hto⟩ := ha.began s hs
      exact ⟨hplace, hfrom, Nat.le_add_right_of_le hto⟩
  exact ⟨hplaces.1, hstop ▸ hafter, hplaces.2.1, hplaces.2.2, by omega,
    hposition.trans hstop.symm, hopen, hstate⟩

end Turns

/-- Where the loop stands: the characters left are those of the input, behind the
one held back if there is one. -/
structure Stands (input : List Char) (base : ℕ) (a : Lookahead) (chars : Chars)
    (reconsume : Option (ℕ × Char)) : Prop where
  chars_from : chars.From input
  fresh : reconsume = none → a.Fits input base chars.offset ∧ base ≤ chars.offset
  held : ∀ here c, reconsume = some (here, c) → a.Fits input base here ∧ base ≤ here ∧
    IsBoundary input here ∧ chars.offset = here + c.utf8Size

/-- How many turns the loop has left at most. -/
def turnsLeft (a : Lookahead) (chars : Chars) : Option (ℕ × Char) → ℕ
  | none => 3 * chars.rest.length + 1
  | some _ => 3 * chars.rest.length + a.state.rank + 2

theorem rank_le (s : State) : s.rank ≤ 2 := by
  cases s <;> simp [State.rank]

/-- **The loop ends, and takes the input apart only between its characters**:
wherever it stands, with the turns that are left. -/
theorem exists_read {input : List Char} {base : ℕ} (limit fuel : ℕ) {a : Lookahead}
    {chars : Chars} {reconsume : Option (ℕ × Char)} (h : a.Stands input base chars reconsume)
    (hfuel : a.turnsLeft chars reconsume ≤ fuel) :
    ∃ b scan, a.read limit fuel chars reconsume = some (b, scan) ∧ b.input = input ∧
      b.Leaves input base scan := by
  induction fuel generalizing a chars reconsume with
  | zero => cases reconsume <;> simp [turnsLeft] at hfuel
  | succ fuel ih =>
    -- one turn, at a character from either source
    have hturned {here : ℕ} {c : Char} {chars : Chars} (hchars : chars.From input)
        (ha : a.Fits input base here) (hbase : base ≤ here) (hhere : IsBoundary input here)
        (hoffset : chars.offset = here + c.utf8Size)
        (hleft : 3 * chars.rest.length + a.state.rank + 1 ≤ fuel) :
        ∃ b scan, (match a.turn here c with
          | none => none
          | some (.on a skipped) => a.read limit fuel (chars.skip skipped) none
          | some (.again a) => a.read limit fuel chars (some (here, c))
          | some (.tag a found) => some (a, .tag found)) = some (b, scan) ∧
          b.input = input ∧ b.Leaves input base scan := by
      obtain ⟨m, hturn, hgoes⟩ := exists_turn c ha.toLooks (ha.input_eq ▸ hhere)
      rw [hturn]
      cases m with
      | on b skipped =>
        have hfits := ha.on hhere hbase hoffset hgoes
        refine ih ⟨hchars.skip skipped, fun _ => ⟨hfits, ?_⟩, fun _ _ h => (nomatch h)⟩ ?_
        · have := chars.offset_le_skip skipped
          omega
        · have := chars.length_skip_le skipped
          simp only [turnsLeft]
          omega
      | again b =>
        refine ih ⟨hchars, fun h => (nomatch h), ?_⟩ ?_
        · rintro here c ⟨⟩
          exact ⟨ha.again hgoes, hbase, hhere, hoffset⟩
        · have hrank : b.state.rank < a.state.rank := hgoes.2.2.2.2
          simp only [turnsLeft]
          omega
      | tag b found =>
        exact ⟨b, _, rfl, hgoes.1.trans ha.input_eq,
          ha.leaves (hoffset ▸ hchars.isBoundary) hbase hgoes⟩
    cases reconsume with
    | some held =>
      obtain ⟨here, c⟩ := held
      obtain ⟨ha, hbase, hhere, hoffset⟩ := h.held here c rfl
      rw [read]
      exact hturned h.chars_from ha hbase hhere hoffset (by simp only [turnsLeft] at hfuel; omega)
    | none =>
      obtain ⟨ha, hbase⟩ := h.fresh rfl
      obtain ⟨offset, rest⟩ := chars
      cases rest with
      | nil =>
        exact ⟨_, _, rfl, ha.input_eq, by rw [ha.input_eq], fun s hs =>
          ⟨(ha.began s hs).1, (ha.began s hs).2.1⟩⟩
      | cons c rest =>
        have hplace := h.chars_from.isBoundary
        unfold read
        dsimp only
        split
        · exact ⟨_, _, rfl, ha.input_eq, hplace, hbase, fun s hs =>
            ⟨(ha.began s hs).1, (ha.began s hs).2.1⟩⟩
        · refine hturned ?_ ha hbase hplace rfl ?_
          · simpa [Chars.skip] using h.chars_from.skip 1
          · have := rank_le a.state
            simp only [turnsLeft, List.length_cons] at hfuel ⊢
            omega

/-- **The look-ahead finds the next tag, or how far it got**, from any place in the
input at which no tag is being read. -/
theorem exists_nextTag {a : Lookahead} (limit : ℕ) (hplace : IsBoundary a.input a.position)
    (hopen : a.openTagStart = none) (hstate : readingATag a.state = false) :
    ∃ b scan, a.nextTag limit = some (b, scan) ∧ b.input = a.input ∧
      b.Leaves a.input a.position scan := by
  obtain ⟨before, rest, hinput, hsize⟩ := hplace
  have hdrop : dropBytes a.input a.position = some rest := by
    rw [hinput, ← hsize, Utf8.dropBytes_append]
  rw [nextTag, hdrop, Option.bind_some]
  refine exists_read limit _ ⟨⟨before, hinput, hsize⟩, fun _ => ⟨?_, Nat.le_refl _⟩,
    fun _ _ h => nomatch h⟩ (Nat.le_refl _)
  refine ⟨⟨fun h => ?_, fun h => ?_⟩, rfl, fun s hs => ?_⟩
  · rw [h] at hstate
    exact nomatch hstate
  · rw [h] at hstate
    exact nomatch hstate
  · rw [hopen] at hs
    exact nomatch hs

-- a tag with two attributes, one of them quoting a closing bracket
example : ((new "x<p a='>' b>y".toList).nextTag 13).map (·.2) = some (.tag ⟨1, 12, 2⟩) := by
  decide

end Lookahead

end Syndeo.Dom
