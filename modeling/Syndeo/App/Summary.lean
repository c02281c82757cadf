import Syndeo.Shell.View

/-!
# What the agent prints of a page

`Syndeo.Agent.pageSummary` is the report of the agent: the title of a page, or its URL,
the beginning of its blocks, and the resources that can be fetched from a peer. With the
report of `syndeo browse` it is all that is printed of a page, and a page has no say in
either but what is between two ends of a line (`Syndeo.Agent.reports_harmless`).
-/

namespace Syndeo.Agent

open Text Separated
open Dom Dom.Terminal
open View (Fetch human cell linesBefore linesAfter body)

variable {Value : Type} (category : Char → GeneralCategory) (service : Service Value)
  (document : Document)

/-- `truncate`. -/
def truncate (s : List Char) (width : ℕ) : List Char := fit category s width

/-- A block: a heading, or the beginning of its text. -/
def blockRow (block : TextBlock) : List Char :=
  match block.headingLevel with
  | some level => List.replicate level '#' ++ " ".toList ++ singleLine category block.text
  | none => truncate category block.text 100

/-- The resources that are declared. -/
def declaredRows : List (List Char) :=
  let integrity := document.integrityMap service
  if integrity.isEmpty then []
  else
    [[], "subresources with declared integrity, eligible for peer fetch:".toList] ++
      integrity.map fun declared => "  ".toList ++ singleLine category declared.1

/-- What `page_summary` writes, with the blocks of the page. -/
def summaryRows (url source : List Char) (elapsed bytes : ℕ) (blocks : List TextBlock) :
    List (List Char) :=
  [singleLine category (document.title.getD url),
    "  ".toList ++ singleLine category source ++ " in ".toList ++ number elapsed ++
      "ms, ".toList ++ number bytes ++ " bytes".toList] ++
  (document.cutShort.toList.map fun cut =>
    "  cut short: only the first ".toList ++ number cut.parsed ++ " of ".toList ++
      number bytes ++ " bytes were parsed".toList) ++
  ["  ".toList ++ number blocks.length ++ " text blocks, ".toList ++
      number document.links.length ++ " links, ".toList ++
      number document.subresources.length ++ " subresources".toList,
    []] ++
  (blocks.take 12).map (blockRow category) ++
  declaredRows category service document

/-- `page_summary`, or a failure of `blocks`. -/
def pageSummary (url source : List Char) (elapsed bytes : ℕ) : Option (List Char) :=
  document.blocks.map fun blocks =>
    terminated '\n' (summaryRows category service document url source elapsed bytes blocks)

/-- How many lines `page_summary` writes. -/
def summaryLength : ℕ :=
  4 + document.cutShort.toList.length + min 12 (document.blocks.getD []).length +
    if (document.integrityMap service).isEmpty then 0
    else 2 + (document.integrityMap service).length

variable {category} {service} {document}

theorem line_blockRow (hown : ShowsOwn category) (block : TextBlock) :
    Line category (blockRow category block) := by
  rw [blockRow]
  split
  · rename_i level _
    have hmarks : Line category (List.replicate level '#') :=
      line_own hown fun c hc => by rw [List.eq_of_mem_replicate hc]; decide
    simp (disch := decide) only [line_append_iff, hmarks, line_literal hown,
      line_singleLine hown, and_self]
  · exact line_fit hown block.text 100

theorem line_declaredRows (hown : ShowsOwn category) :
    ∀ line ∈ declaredRows category service document, Line category line := by
  rw [declaredRows]
  split
  · exact fun line hline => absurd hline List.not_mem_nil
  · simp (disch := decide) only [List.forall_mem_append, List.forall_mem_cons,
      List.forall_mem_map, line_append_iff, line_nil, line_literal hown, line_singleLine hown,
      List.not_mem_nil, false_imp_iff, implies_true, and_self]

theorem line_summaryRows (hown : ShowsOwn category) (url source : List Char) (elapsed bytes : ℕ)
    (blocks : List TextBlock) :
    ∀ line ∈ summaryRows category service document url source elapsed bytes blocks,
      Line category line := by
  rw [summaryRows, List.forall_mem_append, List.forall_mem_append]
  refine ⟨⟨?_, List.forall_mem_map.mpr fun block _ => line_blockRow hown block⟩,
    line_declaredRows hown⟩
  simp (disch := decide) only [List.forall_mem_append, List.forall_mem_cons,
    List.forall_mem_map, line_append_iff, line_nil, line_literal hown, line_singleLine hown,
    line_number hown, List.not_mem_nil, false_imp_iff, implies_true, and_self]

theorem length_declaredRows : (declaredRows category service document).length =
    if (document.integrityMap service).isEmpty then 0
    else 2 + (document.integrityMap service).length := by
  rw [declaredRows]
  split
  · rfl
  · rw [List.length_append, List.length_map]
    rfl

/-- **A summary is the lines that are written.** -/
theorem report_pageSummary (hown : ShowsOwn category) (url source : List Char)
    (elapsed bytes : ℕ) :
    ∃ summary, pageSummary category service document url source elapsed bytes = some summary ∧
      Report category summary (summaryLength service document) [] 0 := by
  obtain ⟨blocks, hblocks⟩ : ∃ blocks, document.blocks = some blocks := ⟨_, blocks_eq _⟩
  have hlength : (summaryRows category service document url source elapsed bytes blocks).length =
      summaryLength service document := by
    rw [summaryLength, hblocks, Option.getD_some, summaryRows]
    simp only [List.length_append, List.length_map, List.length_take, length_declaredRows,
      List.length_cons, List.length_nil]
    omega
  refine ⟨_, by rw [pageSummary, hblocks, Option.map_some], ?_⟩
  have hnone : ∀ line ∈ ([] : List (List Char)), Line category line :=
    fun line hline => absurd hline List.not_mem_nil
  have hlines := @line_summaryRows Value category service document hown url source elapsed bytes
    blocks
  have hreport := report_terminated hlines hnone hnone
  rw [hlength, List.append_nil, List.append_nil] at hreport
  exact hreport

theorem showsOwn_sampleCategory : ShowsOwn sampleCategory := by
  intro c hc
  rw [isOwn, Bool.or_eq_true, Bool.or_eq_true, Bool.and_eq_true, decide_eq_true_iff,
    decide_eq_true_iff, decide_eq_true_iff, decide_eq_true_iff] at hc
  rcases hc with (⟨hlow, hhigh⟩ | rfl) | rfl
  · have hcontrol : isControl c = false := by
      simp only [isControl, Bool.or_eq_false_iff, Bool.and_eq_false_iff, decide_eq_false_iff_not]
      omega
    have hformat : (0x200B ≤ c.toNat && c.toNat ≤ 0x200F ||
        0x202A ≤ c.toNat && c.toNat ≤ 0x202E) = false := by
      simp only [Bool.or_eq_false_iff, Bool.and_eq_false_iff, decide_eq_false_iff_not]
      omega
    rw [sampleCategory, hcontrol, hformat]
    rfl
  · decide
  · decide

/-- A page with an escape sequence in its title, a newline in the target of a link, and a
control in its text. -/
def hostilePage : Document where
  root := .node .document [
    .node (.element "title" []) [.node (.text hostileTitle) []],
    .node (.element "p" []) [.node (.text ['x', Char.ofNat 0x9B, '\n', 'y']) []],
    .node (.element "a" [("href", ['/', '\n', 'z'])]) [.node (.text hostileTitle) []]]
  base := none
  cutShort := some ⟨10, 20⟩

/-- A fetch of it, from a source that says more than its name. -/
def hostileFetch : Fetch where
  url := "https://site.test/".toList
  status := 200
  source := "origin".toList ++ ['\n', Char.ofNat 0x1B]
  protocol := "http/1.1".toList
  elapsedMs := 3
  bytes := 10
  content := none
  contentType := some ("text/html".toList ++ [Char.ofNat 0x202E])
  again := none

end Syndeo.Agent
