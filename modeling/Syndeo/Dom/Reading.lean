import Syndeo.Data.Words
import Syndeo.Dom.Tree
import Mathlib.Data.List.DropRight

/-!
# The text of a page

`Syndeo.Dom.readable` writes down the text of a page, with a newline wherever a block
begins or ends, and puts the white space in order. `Syndeo.Dom.blocks` gathers the same
text block by block: what is between the beginning of a block and its end goes to it,
save for what goes to a block inside it. Each keeps what it is doing on a stack of its
own.

Each piece of text goes to the nearest block around it, and the blocks come in the order
they begin (`Syndeo.Dom.blocks_eq`). Whether they have the same words as the readable
text is another matter: what a block has before another inside it, and what it has after
it, are joined with nothing between, and so are the two sides of a line break. Where a
word comes before and a word comes after, they are one word in the block and two in the
readable text (`Syndeo.Dom.blocks_agree_iff`).
-/

namespace Syndeo.Dom

open Text Rose Words

/-! ### The source -/

/-- `SKIPPED`: elements whose contents are not prose. -/
def skippedTags : List String := ["script", "style", "noscript", "template", "svg", "head"]

/-- `BLOCK`: elements that end a line of prose. -/
def blockTags : List String :=
  ["p", "div", "section", "article", "header", "footer", "main", "aside", "nav", "h1", "h2", "h3",
    "h4", "h5", "h6", "li", "tr", "td", "th", "blockquote", "pre", "figcaption", "dt", "dd", "br",
    "hr", "form", "fieldset", "table", "ul", "ol"]

/-- `str::split_whitespace`. -/
def splitWhitespace (cs : List Char) : List (List Char) := words isWhitespace cs

/-- `normalize`, of one line: collapsed, or blank, and one blank line after another is none. -/
def normalizeLine (lines : List (List Char)) (line : List Char) : List (List Char) :=
  let collapsed := [' '].intercalate (splitWhitespace line)
  if collapsed.isEmpty then
    if (lines.getLast?.map List.isEmpty).getD true then lines else lines ++ [[]]
  else lines ++ [collapsed]

/-- `normalize`: white space runs are spaces, and blank runs are blank lines. -/
def normalize (raw : List Char) : List Char :=
  ['\n'].intercalate (((raw.splitOn '\n').foldl normalizeLine []).rdropWhile List.isEmpty)

namespace Node

/-- Whether what is under the node is not prose. -/
def isSkipped (node : Node) : Bool := (node.tag.map skippedTags.contains).getD false

/-- Whether the node is a block. -/
def isBlock (node : Node) : Bool := (node.tag.map blockTags.contains).getD false

end Node

/-- `render`, as a node is entered. What is known when it is left is whether it ends a
line. -/
def renderEnter (out : List Char) (node : Node) : List Char × Option Bool :=
  if node.isSkipped then (out, none)
  else
    let out := if node.isBlock then out ++ ['\n'] else out
    (out ++ node.text, some node.isBlock)

/-- `render`, as it is left. -/
def renderLeave (out : List Char) (newline : Bool) : List Char :=
  if newline then out ++ ['\n'] else out

/-- `render`. -/
def render (root : Node) : List Char := run renderEnter renderLeave [.enter root] []

/-- `readable`. -/
def readable (root : Node) : List Char := normalize (render root)

/-- `TextBlock`. -/
structure TextBlock where
  element : String
  text : List Char
  headingLevel : Option ℕ
  deriving DecidableEq

/-- `heading_level`. -/
def headingLevel (name : String) : Option ℕ :=
  match name.toList with
  | ['h', digit] =>
    if digit.isDigit then
      let level := digit.toNat - '0'.toNat
      if 1 ≤ level ∧ level ≤ 6 then some level else none
    else none
  | _ => none

/-- What `blocks` works on: the blocks so far, and for each that is open its place and
the text gathered for it, the innermost first. -/
structure Gathering where
  out : List TextBlock
  «open» : List (ℕ × List Char)

/-- Add to what the innermost block has. -/
def Gathering.push (g : Gathering) (text : List Char) : Gathering :=
  match g.open with
  | [] => g
  | (slot, own) :: rest => { g with «open» := (slot, own ++ text) :: rest }

/-- `blocks`, as a node is entered. What is known when it is left is whether it opened a
block. -/
def gatherEnter (g : Option Gathering) (node : Node) : Option Gathering × Option Bool :=
  match g with
  | none => (none, none)
  | some g =>
    if node.isSkipped then (some g, none)
    else
      let opened : Gathering := if node.isBlock then
        { out := g.out ++ [⟨node.tag.getD "", [], headingLevel (node.tag.getD "")⟩]
          «open» := (g.out.length, []) :: g.open }
        else g
      (some (opened.push node.text), some node.isBlock)

/-- `blocks`, as it is left: a failure if no block is open, or its place is not there. -/
def gatherLeave (g : Option Gathering) (block : Bool) : Option Gathering :=
  if block then
    g.bind fun g =>
      match g.open with
      | [] => none
      | (slot, own) :: rest => (g.out[slot]?).map fun entry =>
        ⟨g.out.set slot { entry with text := normalize own }, rest⟩
  else g

/-- `blocks`: the blocks that have text, or a failure. -/
def blocks (root : Node) : Option (List TextBlock) :=
  (run gatherEnter gatherLeave [.enter root] (some ⟨[], []⟩)).map fun g =>
    g.out.filter fun block => !block.text.isEmpty

/-! ### What the blocks are -/

namespace Node

/-- Where what belongs to a block ends: at what is not prose, and at the next block. -/
def endsBlock (node : Node) : Bool := node.isSkipped || node.isBlock

/-- The blocks of the page, in the order they begin. -/
def blocksUnder (root : Node) : List Node := (root.reach isSkipped).filter isBlock

/-- **The text that belongs to a block**: that of the text nodes whose nearest block it is. -/
def ownText (block : Node) : List Char := (block.near endsBlock).flatMap text

/-- The block, as it is reported. -/
def toTextBlock (block : Node) : TextBlock :=
  ⟨block.tag.getD "", normalize block.ownText, headingLevel (block.tag.getD "")⟩

mutual

/-- What a node adds to the block around it: its text, and a seam for a block inside. -/
def stream : Node → List (Option Char)
  | .node a ts =>
    if isSkipped (.node a ts) then []
    else if isBlock (.node a ts) then [none]
    else (text (.node a ts)).map some ++ streamAll ts

def streamAll : List Node → List (Option Char)
  | [] => []
  | t :: ts => stream t ++ streamAll ts

end

/-- What a block gathers, with a seam for each block inside it. -/
def own (block : Node) : List (Option Char) := block.text.map some ++ streamAll block.children

/-- **Every text is in a block**: none is outside, save in what is not prose. -/
def Covered (root : Node) : Prop := ∀ node ∈ root.reach endsBlock, isText node = false

@[simp] theorem streamAll_nil : streamAll [] = [] := by rw [streamAll]

@[simp] theorem streamAll_cons (t : Node) (ts : List Node) :
    streamAll (t :: ts) = stream t ++ streamAll ts := by rw [streamAll]

theorem stream_of_skipped {t : Node} (h : t.isSkipped = true) : t.stream = [] := by
  cases t
  rw [stream, if_pos h]

theorem stream_of_block {t : Node} (hskip : t.isSkipped = false) (h : t.isBlock = true) :
    t.stream = [none] := by
  cases t
  rw [stream, hskip, if_neg Bool.false_ne_true, if_pos h]

theorem stream_of_inline {t : Node} (hskip : t.isSkipped = false) (h : t.isBlock = false) :
    t.stream = t.own := by
  cases t
  rw [stream, hskip, h, if_neg Bool.false_ne_true, if_neg Bool.false_ne_true]
  rfl

theorem sewn_map_some (cs : List Char) : sewn (cs.map some) = cs := by
  rw [sewn, List.filterMap_map]
  exact List.filterMap_some

/-- **The stream without its seams is the text** that is met without going into a block. -/
theorem sewn_stream (t : Node) : sewn t.stream = (t.reach endsBlock).flatMap text := by
  induction t using Rose.induct with
  | node a ts ih =>
    have hchildren : sewn (streamAll ts) = (Rose.reachAll endsBlock ts).flatMap text := by
      induction ts with
      | nil => rw [streamAll_nil, Rose.reachAll_nil]; rfl
      | cons t ts ihs =>
        rw [streamAll_cons, sewn_append, Rose.reachAll_cons, List.flatMap_append,
          ih t List.mem_cons_self, ihs fun u hu => ih u (List.mem_cons_of_mem _ hu)]
    rcases hskip : isSkipped (.node a ts) with _ | _
    · rcases hblock : isBlock (.node a ts) with _ | _
      · have hends : endsBlock (.node a ts) = false := by rw [endsBlock, hskip, hblock]; rfl
        rw [stream_of_inline hskip hblock, own, sewn_append, sewn_map_some,
          Rose.reach_of_not_stop hends, Rose.near, List.flatMap_cons]
        exact congrArg _ hchildren
      · have hends : endsBlock (.node a ts) = true := by rw [endsBlock, hskip, hblock]; rfl
        rw [stream_of_block hskip hblock, Rose.reach_of_stop hends]
        rfl
    · have hends : endsBlock (.node a ts) = true := by rw [endsBlock, hskip]; rfl
      rw [stream_of_skipped hskip, Rose.reach_of_stop hends]
      rfl

theorem sewn_streamAll (ts : List Node) :
    sewn (streamAll ts) = (Rose.reachAll endsBlock ts).flatMap text := by
  induction ts with
  | nil => rw [streamAll_nil, Rose.reachAll_nil]; rfl
  | cons t ts ih =>
    rw [streamAll_cons, sewn_append, Rose.reachAll_cons, List.flatMap_append, sewn_stream, ih]

theorem sewn_own (t : Node) : sewn t.own = t.ownText := by
  rw [own, sewn_append, sewn_map_some, sewn_streamAll, ownText, Rose.near, List.flatMap_cons]

end Node

/-! ### Gathering -/

@[simp] theorem Gathering.push_push (g : Gathering) (a b : List Char) :
    (g.push a).push b = g.push (a ++ b) := by
  rcases g with ⟨out, _ | ⟨⟨slot, own⟩, rest⟩⟩
  · rfl
  · simp [Gathering.push]

@[simp] theorem Gathering.push_nil (g : Gathering) : g.push [] = g := by
  rcases g with ⟨out, _ | ⟨⟨slot, own⟩, rest⟩⟩
  · rfl
  · simp [Gathering.push]

/-- What has been gathered once a part of the page has been gone through: its blocks, and
its text for the block around it. -/
def Gathering.with (g : Gathering) (found : List TextBlock) (text : List Char) : Gathering :=
  { g.push text with out := g.out ++ found }

theorem Gathering.with_with (g : Gathering) (found found' : List TextBlock) (a b : List Char) :
    (g.with found a).with found' b = g.with (found ++ found') (a ++ b) := by
  rcases g with ⟨out, _ | ⟨⟨slot, own⟩, rest⟩⟩
  · simp [Gathering.with, Gathering.push]
  · simp [Gathering.with, Gathering.push]

/-- The blocks under a node, as they are reported. -/
def found (t : Node) : List TextBlock := t.blocksUnder.map Node.toTextBlock

def foundAll (ts : List Node) : List TextBlock :=
  ((Rose.reachAll Node.isSkipped ts).filter Node.isBlock).map Node.toTextBlock

theorem foundAll_cons (t : Node) (ts : List Node) :
    foundAll (t :: ts) = found t ++ foundAll ts := by
  rw [foundAll, Rose.reachAll_cons, List.filter_append, List.map_append]
  rfl

theorem found_of_skipped {t : Node} (h : t.isSkipped = true) : found t = [] := by
  rw [found, Node.blocksUnder, Rose.reach_of_stop h]
  rfl

theorem found_of_block {t : Node} (hskip : t.isSkipped = false) (h : t.isBlock = true) :
    found t = t.toTextBlock :: foundAll t.children := by
  rw [found, Node.blocksUnder, Rose.reach_of_not_stop hskip, Rose.near, List.filter_cons_of_pos h,
    List.map_cons, foundAll]

theorem found_of_inline {t : Node} (hskip : t.isSkipped = false) (h : t.isBlock = false) :
    found t = foundAll t.children := by
  rw [found, Node.blocksUnder, Rose.reach_of_not_stop hskip, Rose.near,
    List.filter_cons_of_neg (by rw [h]; exact Bool.false_ne_true), foundAll]

/-- **A block is closed** where it was opened, with what was gathered for it. -/
theorem gatherLeave_opened (g : Gathering) (entry : TextBlock) (own : List Char)
    (found : List TextBlock) :
    gatherLeave (some ⟨g.out ++ entry :: found, (g.out.length, own) :: g.open⟩) true =
      some { g with out := g.out ++ { entry with text := normalize own } :: found } := by
  rw [gatherLeave, if_pos rfl]
  simp

/-- **What `blocks` does at a node**: it puts the node's blocks after those it has, and its
text to that of the block around it. -/
theorem visit_gather (t : Node) (g : Gathering) :
    visit gatherEnter gatherLeave t (some g) = some (g.with (found t) (sewn t.stream)) := by
  induction t using Rose.induct generalizing g with
  | node a ts ih =>
    have hchildren : ∀ g : Gathering, visitAll gatherEnter gatherLeave ts (some g) =
        some (g.with (foundAll ts) (sewn (Node.streamAll ts))) := by
      induction ts with
      | nil =>
        intro g
        rw [visitAll, Gathering.with, Node.streamAll_nil, foundAll, Rose.reachAll_nil]
        simp [sewn]
      | cons t ts ihs =>
        intro g
        rw [visitAll, ih t List.mem_cons_self, ihs fun u hu => ih u (List.mem_cons_of_mem _ hu),
          Gathering.with_with, foundAll_cons, Node.streamAll_cons, sewn_append]
    rw [visit, gatherEnter]
    rcases hskip : Node.isSkipped (.node a ts) with _ | _
    · rcases hblock : Node.isBlock (.node a ts) with _ | _
      · -- the text goes to the block around it
        rw [if_neg Bool.false_ne_true, found_of_inline hskip hblock,
          Node.stream_of_inline hskip hblock, Node.own, sewn_append, Node.sewn_map_some]
        dsimp only
        rw [if_neg Bool.false_ne_true, hchildren, gatherLeave, if_neg Bool.false_ne_true]
        have hpush : g.push (Node.text (.node a ts)) = g.with [] (Node.text (.node a ts)) := by
          rcases g with ⟨out, _ | ⟨⟨slot, own⟩, rest⟩⟩ <;> simp [Gathering.with, Gathering.push]
        rw [hpush, Gathering.with_with, List.nil_append]
        rfl
      · -- a block of its own
        have hown : Node.ownText (.node a ts) =
            Node.text (.node a ts) ++ sewn (Node.streamAll ts) := by
          rw [← Node.sewn_own, Node.own, sewn_append, Node.sewn_map_some]
          rfl
        rw [if_neg Bool.false_ne_true, found_of_block hskip hblock,
          Node.stream_of_block hskip hblock]
        dsimp only
        rw [if_pos rfl, hchildren]
        have hafter : g.with (Node.toTextBlock (.node a ts) :: foundAll ts) (sewn [none]) =
            { g with out := g.out ++ Node.toTextBlock (.node a ts) :: foundAll ts } := by
          rw [Gathering.with, show sewn [none] = ([] : List Char) from rfl, Gathering.push_nil]
        rw [Rose.children, hafter]
        simp only [Gathering.push, Gathering.with, List.nil_append, List.append_assoc,
          List.singleton_append, ← hown]
        exact gatherLeave_opened g _ _ _
    · rw [if_pos rfl, found_of_skipped hskip, Node.stream_of_skipped hskip]
      simp [Gathering.with, sewn]

/-- **What `blocks` reports**: the blocks of the page that have text, in the order they
begin, each with the text whose nearest block it is. -/
theorem blocks_eq (root : Node) : blocks root =
    some ((root.blocksUnder.map Node.toTextBlock).filter fun block => !block.text.isEmpty) := by
  rw [blocks, run_eq, visit_gather, Option.map_some]
  simp [Gathering.with, found]

/-! ### Words -/

theorem splitWhitespace_normalizeLine (lines : List (List Char)) (line : List Char) :
    (normalizeLine lines line).flatMap splitWhitespace =
      lines.flatMap splitWhitespace ++ splitWhitespace line := by
  have hwords : splitWhitespace ([' '].intercalate (splitWhitespace line)) =
      splitWhitespace line := words_intercalate_words (by decide) line
  rw [normalizeLine]
  split
  · rename_i hempty
    rw [List.isEmpty_iff.mp hempty] at hwords
    rw [← hwords]
    split
    · exact (List.append_nil _).symm
    · simp [splitWhitespace]
  · rw [List.flatMap_append, List.flatMap_singleton, hwords]

theorem splitWhitespace_foldl_normalizeLine (raw : List (List Char)) (lines : List (List Char)) :
    (raw.foldl normalizeLine lines).flatMap splitWhitespace =
      lines.flatMap splitWhitespace ++ raw.flatMap splitWhitespace := by
  induction raw generalizing lines with
  | nil => rw [List.foldl_nil, List.flatMap_nil, List.append_nil]
  | cons line raw ih =>
    rw [List.foldl_cons, ih, splitWhitespace_normalizeLine, List.flatMap_cons, List.append_assoc]

/-- **Putting the white space in order changes no word.** -/
theorem splitWhitespace_normalize (raw : List Char) :
    splitWhitespace (normalize raw) = splitWhitespace raw := by
  have hblank : ∀ lines : List (List Char),
      (lines.rdropWhile List.isEmpty).flatMap splitWhitespace = lines.flatMap splitWhitespace := by
    intro lines
    induction lines using List.reverseRecOn with
    | nil => rfl
    | append_singleton lines line ih =>
      rw [List.rdropWhile_concat]
      split
      · rename_i hempty
        rw [ih, List.isEmpty_iff.mp hempty]
        simp [splitWhitespace]
      · rfl
  have hraw : splitWhitespace raw = (raw.splitOn '\n').flatMap splitWhitespace := by
    conv_lhs => rw [← @List.intercalate_splitOn Char raw _ _ '\n']
    exact words_intercalate (by decide) _
  rw [normalize, splitWhitespace, words_intercalate (by decide)]
  exact (hblank _).trans ((splitWhitespace_foldl_normalizeLine _ _).trans hraw.symm)

mutual

/-- What `render` writes at a node. -/
def rendered : Node → List Char
  | .node a ts =>
    if Node.isSkipped (.node a ts) then []
    else if Node.isBlock (.node a ts) then
      '\n' :: (Node.text (.node a ts) ++ renderedAll ts ++ ['\n'])
    else Node.text (.node a ts) ++ renderedAll ts

def renderedAll : List Node → List Char
  | [] => []
  | t :: ts => rendered t ++ renderedAll ts

end

theorem visit_render (t : Node) (out : List Char) :
    visit renderEnter renderLeave t out = out ++ rendered t := by
  induction t using Rose.induct generalizing out with
  | node a ts ih =>
    have hchildren : ∀ out, visitAll renderEnter renderLeave ts out = out ++ renderedAll ts := by
      induction ts with
      | nil => exact fun out => by rw [visitAll, renderedAll, List.append_nil]
      | cons t ts ihs =>
        intro out
        rw [visitAll, ih t List.mem_cons_self, ihs fun u hu => ih u (List.mem_cons_of_mem _ hu),
          renderedAll, List.append_assoc]
    rw [visit, renderEnter, rendered]
    rcases hskip : Node.isSkipped (.node a ts) with _ | _
    · rcases hblock : Node.isBlock (.node a ts) with _ | _
      · simp [hchildren, renderLeave]
      · simp [hchildren, renderLeave]
    · simp

/-- The words inside the blocks under a node, where a seam is a space. -/
def spacedWords (blocks : List Node) : List (List Char) :=
  blocks.flatMap fun block => splitWhitespace (spaced '\n' block.own)

/-- The same, under several nodes. -/
def innerWords (ts : List Node) : List (List Char) :=
  spacedWords ((Rose.reachAll Node.isSkipped ts).filter Node.isBlock)

theorem innerWords_cons (t : Node) (ts : List Node) :
    innerWords (t :: ts) = spacedWords t.blocksUnder ++ innerWords ts := by
  rw [innerWords, Rose.reachAll_cons, List.filter_append, spacedWords, List.flatMap_append]
  rfl

theorem spaced_map_some (cs : List Char) : spaced '\n' (cs.map some) = cs := by
  rw [spaced, List.map_map]
  exact List.map_id cs

/-- **The words of what is written at a node, in any surroundings**: those of what it adds
to the block around it, with a space for each block inside, and those of these blocks. -/
theorem words_rendered (t : Node) (before after : List Char) :
    (splitWhitespace (before ++ (rendered t ++ after))).Perm
      (splitWhitespace (before ++ (spaced '\n' t.stream ++ after)) ++
        spacedWords t.blocksUnder) := by
  induction t using Rose.induct generalizing before after with
  | node a ts ih =>
    have hchildren : ∀ before after, (splitWhitespace (before ++ (renderedAll ts ++ after))).Perm
        (splitWhitespace (before ++ (spaced '\n' (Node.streamAll ts) ++ after)) ++
          innerWords ts) := by
      induction ts with
      | nil =>
        intro before after
        rw [renderedAll, Node.streamAll_nil, innerWords, Rose.reachAll_nil]
        simp [spaced, spacedWords]
      | cons t ts ihs =>
        intro before after
        have hone := ih t List.mem_cons_self before (renderedAll ts ++ after)
        have hmore := ihs (fun u hu => ih u (List.mem_cons_of_mem _ hu))
          (before ++ spaced '\n' (Node.stream t)) after
        rw [renderedAll, Node.streamAll_cons, spaced_append, innerWords_cons, List.append_assoc,
          List.append_assoc]
        refine hone.trans ?_
        rw [List.append_assoc] at hmore
        refine (hmore.append_right _).trans ?_
        rw [List.append_assoc, List.append_assoc]
        exact (List.perm_append_comm).append_left _
    rcases hskip : Node.isSkipped (.node a ts) with _ | _
    · rcases hblock : Node.isBlock (.node a ts) with _ | _
      · have hblocks : Node.blocksUnder (.node a ts) =
            (Rose.reachAll Node.isSkipped ts).filter Node.isBlock := by
          rw [Node.blocksUnder, Rose.reach_of_not_stop hskip, Rose.near,
            List.filter_cons_of_neg (by rw [hblock]; exact Bool.false_ne_true)]
          rfl
        have hmore := hchildren (before ++ Node.text (.node a ts)) after
        rw [rendered, hskip, hblock, if_neg Bool.false_ne_true, if_neg Bool.false_ne_true,
          Node.stream_of_inline hskip hblock, Node.own, spaced_append, spaced_map_some, hblocks]
        rw [List.append_assoc, List.append_assoc] at hmore
        rw [List.append_assoc, List.append_assoc]
        exact hmore
      · -- a newline on either side of what is inside
        have hblocks : Node.blocksUnder (.node a ts) =
            .node a ts :: (Rose.reachAll Node.isSkipped ts).filter Node.isBlock := by
          rw [Node.blocksUnder, Rose.reach_of_not_stop hskip, Rose.near,
            List.filter_cons_of_pos hblock]
          rfl
        have hinside := hchildren (Node.text (.node a ts)) []
        rw [List.append_nil, List.append_nil] at hinside
        have hown : spaced '\n' (Node.own (.node a ts)) =
            Node.text (.node a ts) ++ spaced '\n' (Node.streamAll ts) := by
          rw [Node.own, spaced_append, spaced_map_some]
          rfl
        have hcut : ∀ a b : List Char, splitWhitespace (a ++ '\n' :: b) =
            splitWhitespace a ++ splitWhitespace b := words_append_cons (by decide)
        rw [rendered, hskip, hblock, if_neg Bool.false_ne_true, if_pos rfl,
          Node.stream_of_block hskip hblock, hblocks, spacedWords, List.flatMap_cons, hown]
        rw [List.cons_append, hcut, List.append_assoc, List.singleton_append, hcut]
        rw [show spaced '\n' [none] ++ after = '\n' :: after from rfl, hcut, List.append_assoc]
        refine List.Perm.append_left _ ?_
        refine (hinside.append_right _).trans ?_
        exact List.perm_append_comm
    · rw [rendered, hskip, if_pos rfl, Node.stream_of_skipped hskip, Node.blocksUnder,
        Rose.reach_of_stop hskip]
      simp [spaced, spacedWords]

/-- Where every text is in a block, nothing is added to a block around the page. -/
theorem splitWhitespace_stream {root : Node} (h : root.Covered) :
    splitWhitespace (spaced '\n' root.stream) = [] := by
  have hnone : sewn root.stream = [] := by
    rw [Node.sewn_stream]
    refine List.flatMap_eq_nil_iff.mpr fun node hnode => ?_
    rcases node with ⟨label, children⟩
    cases label with
    | text cs => exact absurd (h _ hnode) (by simp [Node.isText, Rose.label])
    | _ => rfl
  refine words_of_sep fun c hc => ?_
  obtain ⟨x, hx, rfl⟩ := List.mem_map.mp hc
  have hx : x = none := List.filterMap_eq_nil_iff.mp hnone x hx
  rw [hx]
  rfl

/-- **The words of the readable text** are those of the blocks, with a space wherever a
block has another inside it. -/
theorem words_readable {root : Node} (h : root.Covered) :
    (splitWhitespace (readable root)).Perm (spacedWords root.blocksUnder) := by
  have hrender : render root = rendered root := by
    rw [render, run_eq, visit_render, List.nil_append]
  have hperm := words_rendered root [] []
  rw [List.nil_append, List.append_nil, List.nil_append, List.append_nil,
    splitWhitespace_stream h, List.nil_append] at hperm
  rw [readable, splitWhitespace_normalize, hrender]
  exact hperm

/-! ### The two readings -/

/-- The words of the blocks, as they are reported. -/
def blockWords (blocks : List TextBlock) : List (List Char) :=
  blocks.flatMap fun block => splitWhitespace block.text

/-- The text nodes that belong to a block. -/
def Node.ownTexts (block : Node) : List Node := (block.near endsBlock).filter isText

/-- **The blocks agree with the readable text**: each text node is given to its nearest
block, and to no other, in the order the blocks begin, and the words are the same. -/
def BlocksAgree (root : Node) : Prop :=
  ((root.reach Node.isSkipped).filter Node.isText).Perm (root.blocksUnder.flatMap Node.ownTexts) ∧
    ∃ bs, blocks root = some bs ∧
      bs = (root.blocksUnder.map Node.toTextBlock).filter (fun block => !block.text.isEmpty) ∧
      (blockWords bs).Perm (splitWhitespace (readable root))

/-- **Two words of a block are glued**: nothing but blocks that begin and end there is
between the end of one and the start of the other. -/
def Node.Glued (block : Node) : Prop := Words.Glued isWhitespace block.own

theorem blockWords_filter (hs : List Node) :
    blockWords ((hs.map Node.toTextBlock).filter fun block => !block.text.isEmpty) =
      hs.flatMap fun block => splitWhitespace (sewn block.own) := by
  induction hs with
  | nil => rfl
  | cons block hs ih =>
    have hwords : splitWhitespace block.toTextBlock.text = splitWhitespace (sewn block.own) := by
      rw [Node.sewn_own]
      exact splitWhitespace_normalize _
    rw [List.map_cons, List.filter_cons, List.flatMap_cons, ← ih, ← hwords]
    split
    · rw [blockWords, List.flatMap_cons, blockWords]
    · rename_i hempty
      have hnil : block.toTextBlock.text = [] := by simpa using hempty
      rw [hnil]
      rfl

/-- Gluing loses words, and does nothing else to them. -/
theorem perm_spacedWords_iff (hs : List Node) :
    (hs.flatMap fun block => splitWhitespace (sewn block.own)).Perm (spacedWords hs) ↔
      ∀ block ∈ hs, ¬block.Glued := by
  have hnewline : isWhitespace '\n' = true := by decide
  constructor
  · intro hperm block hblock hglued
    have hle : ∀ hs : List Node,
        (hs.flatMap fun block => splitWhitespace (sewn block.own)).length ≤
          (spacedWords hs).length := by
      intro hs
      induction hs with
      | nil => exact le_refl _
      | cons block hs ih =>
        rw [spacedWords, List.flatMap_cons, List.flatMap_cons, List.length_append,
          List.length_append]
        exact Nat.add_le_add (length_words_sewn_le hnewline _) ih
    obtain ⟨before, after, rfl⟩ := List.append_of_mem hblock
    have hlength := hperm.length_eq
    have hbefore := hle before
    have hafter := hle after
    have hlt : (splitWhitespace (sewn block.own)).length <
        (splitWhitespace (spaced '\n' block.own)).length := length_words_sewn_lt hnewline hglued
    simp only [spacedWords, List.flatMap_append, List.flatMap_cons, List.length_append]
      at hlength hbefore hafter
    omega
  · intro h
    rw [spacedWords]
    refine List.Perm.of_eq (List.flatMap_congr fun block hblock => ?_)
    exact words_sewn hnewline (h block hblock)

/-- **Where every text is in a block**, each text node belongs to one. -/
theorem perm_ownTexts {root : Node} (h : root.Covered) :
    ((root.reach Node.isSkipped).filter Node.isText).Perm
      (root.blocksUnder.flatMap Node.ownTexts) := by
  have hnone : (root.reach Node.endsBlock).filter Node.isText = [] :=
    List.filter_eq_nil_iff.mpr fun node hnode => by simpa using h node hnode
  have hperm := (Rose.reach_perm Node.isSkipped Node.isBlock root).filter Node.isText
  rw [List.filter_append, List.filter_flatMap] at hperm
  have hnone' : (root.reach fun n => Node.isSkipped n || Node.isBlock n).filter Node.isText = [] :=
    hnone
  rw [hnone', List.nil_append] at hperm
  exact hperm

/-- **The blocks agree with the readable text** where no words of a block are glued, and
only there. -/
theorem blocks_agree_iff (root : Node) (hcovered : root.Covered) :
    BlocksAgree root ↔ ∀ block ∈ root.blocksUnder, ¬block.Glued := by
  rw [← perm_spacedWords_iff]
  constructor
  · rintro ⟨-, bs, -, rfl, hperm⟩
    rw [blockWords_filter] at hperm
    exact hperm.trans (words_readable hcovered)
  · intro hperm
    refine ⟨perm_ownTexts hcovered, _, blocks_eq root, rfl, ?_⟩
    rw [blockWords_filter]
    exact hperm.trans (words_readable hcovered).symm

/-- A paragraph of two lines, with a space before the break or without. -/
def twoLines (first : List Char) : Node :=
  .node (.element "p" []) [.node (.text first) [], .node (.element "br" []) [],
    .node (.text ['t', 'w', 'o']) []]

theorem covered_twoLines (first : List Char) : (twoLines first).Covered := by
  intro node hnode
  have hends : Node.endsBlock (twoLines first) = true := by rw [Node.endsBlock]; rfl
  rw [Rose.reach_of_stop hends] at hnode
  exact absurd hnode List.not_mem_nil

/-- With a space, the two lines are two words in both. -/
theorem blocks_agree_twoLines : BlocksAgree (twoLines ['o', 'n', 'e', ' ']) :=
  (blocks_agree_iff _ (covered_twoLines _)).mpr ((perm_spacedWords_iff _).mp (by decide +kernel))

/-- Without one, the block has one word and the readable text has two. -/
theorem not_blocks_agree : ¬∀ root : Node, root.Covered → BlocksAgree root := by
  intro h
  obtain ⟨-, bs, -, rfl, hperm⟩ := h _ (covered_twoLines ['o', 'n', 'e'])
  rw [blockWords_filter] at hperm
  exact absurd (hperm.trans (words_readable (covered_twoLines _))) (by decide +kernel)

end Syndeo.Dom
