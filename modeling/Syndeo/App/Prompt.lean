import Syndeo.App.Agent
import Syndeo.Data.Separated

/-!
# What the person reads

Before an agent may do anything the person is asked, in a message and details that are put
together of Syndeo's own words and of four texts that Syndeo did not choose: the name that the
program gives itself, the path of its executable, its signature, and the names of the programs
it connects through. The name is shown on one line with no control character; format
characters stay in it. The others are shown as they are.

So the prompt is what it looks like where those texts are of one line and show what they are,
and the names say where one ends: exactly then does each part take one line of its own and
hold nothing that is not shown, and do two prompts that read alike ask about the same
(`Syndeo.App.Prompt.not_forged_iff`).
-/

namespace Syndeo.App

open Text Separated

/-! ### What is not shown as it is -/

/-- The characters of the general category `Format`. -/
def isFormat (c : Char) : Bool :=
  let n := c.toNat
  n == 0xAD || (0x600 ≤ n && n ≤ 0x605) || n == 0x61C || n == 0x6DD || n == 0x70F ||
    (0x890 ≤ n && n ≤ 0x891) || n == 0x8E2 || n == 0x180E || (0x200B ≤ n && n ≤ 0x200F) ||
    (0x202A ≤ n && n ≤ 0x202E) || (0x2060 ≤ n && n ≤ 0x2064) || (0x2066 ≤ n && n ≤ 0x206F) ||
    n == 0xFEFF || (0xFFF9 ≤ n && n ≤ 0xFFFB) || n == 0x110BD || n == 0x110CD ||
    (0x13430 ≤ n && n ≤ 0x1343F) || (0x1BCA0 ≤ n && n ≤ 0x1BCA3) ||
    (0x1D173 ≤ n && n ≤ 0x1D17A) || n == 0xE0001 || (0xE0020 ≤ n && n ≤ 0xE007F)

/-- The separators at which a line of a text ends; the others of them are control characters. -/
def endsLine (c : Char) : Bool := isControl c || c.toNat == 0x2028 || c.toNat == 0x2029

/-- **The character is shown, on the line that it is on.** -/
def plain (c : Char) : Bool := !endsLine c && !isFormat c

/-! ### The prompt -/

/-- What `Control::prompt` is given: the name the program gave in `hello`, before it is shown,
the line of processes, and the scopes. -/
structure Prompt where
  client : String
  peer : Peer
  scopes : Scopes

namespace Prompt

variable (p : Prompt)

/-- The name as it is shown. -/
def name : String := displayName p.client

/-- Whether it asks to run its own JavaScript. -/
def script : Bool := .script ∈ p.scopes

/-- The message. -/
def message : String :=
  if p.script then "Allow “" ++ p.name ++ "” to run its own JavaScript in its tabs?"
  else "Allow “" ++ p.name ++ "” to control Syndeo?"

/-- What is said of the agent. -/
def program : String :=
  match p.peer.agent with
  | some agent => agent.path ++ " (process " ++ toString agent.pid ++ ")"
  | none => "unknown"

/-- What it asks for. -/
def asks : String :=
  String.ofList (['\n'].intercalate (p.scopes.list.map fun scope => ("• " ++ scope.describe).toList))

/-- What the details end with. -/
def closing : String :=
  if p.script then
    "Allow this only for a program you trust: JavaScript it sends acts with the page's own powers."
  else
    "It works only in tabs it opens, which say it is in control and offer Stop; your other tabs " ++
      "stay hidden from it. Its pages go through Syndeo as yours do."

/-- The details. -/
def details : String :=
  "It calls itself “" ++ p.name ++ "”; Syndeo cannot check that.\n\nProgram: " ++ p.program ++
    "\nSignature: " ++ p.peer.signing ++ "\n" ++
    (if p.peer.through = "" then "" else "Connected through: " ++ p.peer.through ++ "\n") ++
    "\nIt asks to:\n" ++ p.asks ++ "\n\n" ++ p.closing

/-! ### Being what it looks like -/

/-- **The parts take one line each**, and hold no control or format character. -/
def OneLine : Prop :=
  ∀ part ∈ [p.name, p.program, p.peer.signing, p.peer.through], ∀ c ∈ part.toList, plain c = true

/-- Two prompts are about the same agent, reached the same way, and the same scopes. -/
structure Alike (q : Prompt) : Prop where
  name : p.name = q.name
  agent : (p.peer.agent.map fun agent => (agent.path, agent.pid)) =
    q.peer.agent.map fun agent => (agent.path, agent.pid)
  signing : p.peer.signing = q.peer.signing
  names : p.peer.names = q.peer.names
  scopes : p.scopes = q.scopes

/-- The part of the cleaned name that is shown: the last character of a long name gives way. -/
def shownName : List Char :=
  (cleanName p.client).take (if maxName < (cleanName p.client).length then maxName - 1 else maxName)

/-- **What Syndeo did not choose is plain.** -/
structure Plain : Prop where
  name : ∀ c ∈ p.shownName, isFormat c = false
  path : ∀ agent ∈ p.peer.agent, ∀ c ∈ agent.path.toList, plain c = true
  signing : ∀ c ∈ p.peer.signing.toList, plain c = true
  names : ∀ name ∈ p.peer.names, ∀ c ∈ name.toList, plain c = true

end Prompt

/-! ### What is shown of a name -/

/-- **A cleaned name is of one line.** -/
theorem endsLine_cleanName {name : String} {c : Char} (h : c ∈ cleanName name) :
    endsLine c = false := by
  rcases mem_intercalate h with ⟨word, hword, hc⟩ | hc
  · obtain ⟨hspace, hmem⟩ := of_mem_splitOnP _ word (List.mem_filter.mp hword).1 c hc
    obtain ⟨d, -, rfl⟩ := List.mem_map.mp hmem
    split_ifs at hspace ⊢ with hd
    · exact absurd hspace (by decide)
    · have hn : isWhitespace d = false := hspace
      simp only [isWhitespace, Bool.or_eq_false_iff, beq_eq_false_iff_ne] at hn
      simp [endsLine, hd, hn]
  · obtain rfl := List.mem_singleton.mp hc
    rfl

theorem plain_iff_of_mem_cleanName {name : String} {c : Char} (h : c ∈ cleanName name) :
    plain c = true ↔ isFormat c = false := by
  simp [plain, endsLine_cleanName h]

namespace Prompt

variable {p q : Prompt}

/-- **The name is plain** where what is shown of it has no format character. -/
theorem plain_name_iff :
    (∀ c ∈ p.name.toList, plain c = true) ↔ ∀ c ∈ p.shownName, isFormat c = false := by
  have hshown : ∀ n, (∀ c ∈ (cleanName p.client).take n, plain c = true) ↔
      ∀ c ∈ (cleanName p.client).take n, isFormat c = false := fun n =>
    forall₂_congr fun c hc => plain_iff_of_mem_cleanName (List.mem_of_mem_take hc)
  rw [name, displayName, shownName]
  by_cases hnil : cleanName p.client = []
  · simp only [hnil]
    decide
  by_cases hlong : maxName < (cleanName p.client).length
  · have hdots : plain '…' = true := by decide
    simp only [if_neg hnil, if_pos hlong, String.toList_ofList, List.forall_mem_append, hshown,
      List.forall_mem_singleton, hdots, and_true]
  · have hall : (cleanName p.client).take maxName = cleanName p.client :=
      List.take_of_length_le (not_lt.mp hlong)
    have hmain := hshown maxName
    rw [hall] at hmain
    simpa only [if_neg hnil, if_neg hlong, String.toList_ofList, hall] using hmain

theorem plain_of_isDigit {c : Char} (h : c.isDigit = true) : plain c = true := by
  obtain ⟨hlow, hhigh⟩ := isDigit_iff.mp h
  simp [plain, endsLine, isControl, isFormat]
  omega

/-- What is said of the agent is plain where its path is. -/
theorem plain_program_iff : (∀ c ∈ p.program.toList, plain c = true) ↔
    ∀ agent ∈ p.peer.agent, ∀ c ∈ agent.path.toList, plain c = true := by
  rw [program]
  cases p.peer.agent with
  | none =>
    simp only [Option.not_mem_none, false_implies, implies_true, iff_true]
    decide
  | some agent =>
    have hpid : ∀ c ∈ (toString agent.pid).toList, plain c = true := fun c hc =>
      plain_of_isDigit ((toList_toString_nat agent.pid).2 c hc)
    have hopens : ∀ c ∈ " (process ".toList, plain c = true := by decide
    have hcloses : ∀ c ∈ ")".toList, plain c = true := by decide
    rw [String.toList_append, String.toList_append, String.toList_append, List.forall_mem_append,
      List.forall_mem_append, List.forall_mem_append]
    simp only [Option.mem_some_iff, forall_eq']
    exact ⟨fun h => h.1.1.1, fun h => ⟨⟨⟨h, hopens⟩, hpid⟩, hcloses⟩⟩

/-- What it is connected through is plain where the names are. -/
theorem plain_through_iff : (∀ c ∈ p.peer.through.toList, plain c = true) ↔
    ∀ name ∈ p.peer.names, ∀ c ∈ name.toList, plain c = true := by
  rw [Peer.through, String.toList_ofList]
  constructor
  · intro h name hname c hc
    exact h c ((isInfix_intercalate (List.mem_map_of_mem hname)).subset hc)
  · intro h c hc
    rcases mem_intercalate hc with ⟨part, hpart, hc⟩ | hc
    · obtain ⟨name, hname, rfl⟩ := List.mem_map.mp hpart
      exact h name hname c hc
    · have hbetween : ∀ c ∈ [' ', '→', ' '], plain c = true := by decide
      exact hbetween c hc

/-- **The parts take one line each where what Syndeo did not choose is plain.** -/
theorem oneLine_iff : p.OneLine ↔ p.Plain := by
  simp only [OneLine, List.forall_mem_cons, List.not_mem_nil, false_implies, implies_true, and_true,
    plain_name_iff, plain_program_iff, plain_through_iff]
  exact ⟨fun ⟨hname, hpath, hsigning, hnames⟩ => ⟨hname, hpath, hsigning, hnames⟩,
    fun h => ⟨h.name, h.path, h.signing, h.names⟩⟩

/-! ### What can be read off -/

/-- Two prompts show the same of everything that they are put together of. -/
structure ReadsAlike (p q : Prompt) : Prop where
  name : p.name = q.name
  agent : (p.peer.agent.map fun agent => (agent.path, agent.pid)) =
    q.peer.agent.map fun agent => (agent.path, agent.pid)
  signing : p.peer.signing = q.peer.signing
  through : p.peer.through = q.peer.through
  scopes : p.scopes = q.scopes

theorem newline_not_mem {s : String} (h : ∀ c ∈ s.toList, plain c = true) : '\n' ∉ s.toList :=
  fun hmem => absurd (h _ hmem) (by decide)

/-- **The message tells the name**, and whether it asks for JavaScript. -/
theorem eq_of_message (h : p.message = q.message) : p.name = q.name ∧ p.script = q.script := by
  have hlist := congrArg String.toList h
  have hdiffer : ∀ {a b : List Char},
      a ++ "” to run its own JavaScript in its tabs?".toList ≠ b ++ "” to control Syndeo?".toList :=
    fun heq => absurd (congrArg (fun l => (l.reverse.take 2)) heq) (by simp)
  simp only [message] at hlist
  split_ifs at hlist with hp hq hq
  · simp only [String.toList_append, List.append_assoc] at hlist
    refine ⟨String.toList_injective ?_, by rw [hp, hq]⟩
    exact List.append_cancel_right (List.append_cancel_left hlist)
  · simp only [String.toList_append] at hlist
    exact absurd hlist hdiffer
  · simp only [String.toList_append] at hlist
    exact absurd hlist.symm hdiffer
  · simp only [String.toList_append, List.append_assoc] at hlist
    refine ⟨String.toList_injective ?_, by simp [hp, hq]⟩
    exact List.append_cancel_right (List.append_cancel_left hlist)

/-- **The program tells the path and the process.** -/
theorem agent_eq_of_program (h : p.program = q.program) :
    (p.peer.agent.map fun agent => (agent.path, agent.pid)) =
      q.peer.agent.map fun agent => (agent.path, agent.pid) := by
  have hlist := congrArg String.toList h
  have hclose : ∀ n : ℕ, '(' ∉ "process ".toList ++ (toString n).toList ++ ")".toList := by
    intro n hmem
    rcases List.mem_append.mp hmem with hmem | hmem
    · rcases List.mem_append.mp hmem with hmem | hmem
      · exact absurd hmem (by decide)
      · exact absurd ((toList_toString_nat n).2 _ hmem) (by decide)
    · exact absurd hmem (by decide)
  have hopen : ∀ x : Proc, '(' ∈ (x.path ++ " (process " ++ toString x.pid ++ ")").toList := by simp
  simp only [program] at hlist
  cases hp : p.peer.agent with
  | none =>
    cases hq : q.peer.agent with
    | none => rfl
    | some b =>
      rw [hp, hq] at hlist
      exact absurd (hlist ▸ hopen b) (by decide)
  | some a =>
    cases hq : q.peer.agent with
    | none =>
      rw [hp, hq] at hlist
      exact absurd (hlist ▸ hopen a) (by decide)
    | some b =>
      have hcut : ∀ x : Proc, (x.path ++ " (process " ++ toString x.pid ++ ")").toList =
          (x.path.toList ++ [' ']) ++
            '(' :: ("process ".toList ++ (toString x.pid).toList ++ ")".toList) := fun x => by simp
      simp only [hp, hq, hcut] at hlist
      obtain ⟨hpath, hpid⟩ := append_cons_inj_last (hclose a.pid) (hclose b.pid) hlist
      have hpath' := String.toList_injective (List.append_cancel_right hpath)
      rw [List.append_assoc, List.append_assoc] at hpid
      have hpid' := String.toList_injective (List.append_cancel_right (List.append_cancel_left hpid))
      simp [hpath', toString_nat_inj hpid']

/-- A character of a text that is written out, and one that is not. -/
theorem mem_toList_ofList {c : Char} {cs : List Char} (h : c ∈ cs) :
    c ∈ (String.ofList cs).toList := by
  rwa [String.toList_ofList]

theorem notMem_toList_ofList {c : Char} {cs : List Char} (h : c ∉ cs) :
    c ∉ (String.ofList cs).toList := by
  rwa [String.toList_ofList]

/-- One line of what it asks for. -/
theorem ask_line (scope : Scope) :
    '\n' ∉ ("• " ++ scope.describe).toList ∧ ("• " ++ scope.describe).toList ≠ [] := by
  have hscope : '\n' ∉ scope.describe.toList := by
    cases scope with
    | read => exact notMem_toList_ofList (by decide +kernel)
    | navigate => exact notMem_toList_ofList (by decide +kernel)
    | act => exact notMem_toList_ofList (by decide +kernel)
    | script =>
      unfold Scope.describe
      dsimp only
      rw [String.toList_append, List.mem_append, not_or]
      exact ⟨notMem_toList_ofList (by decide +kernel), notMem_toList_ofList (by decide +kernel)⟩
  rw [String.toList_append, List.mem_append, not_or]
  exact ⟨⟨notMem_toList_ofList (by decide +kernel), hscope⟩,
    List.append_ne_nil_of_left_ne_nil (by decide) _⟩

theorem describe_injective : Function.Injective Scope.describe := by
  intro s t h
  cases s <;> cases t <;> first | rfl | exact absurd h (by decide)

/-- **What it asks for tells the scopes.** -/
theorem scopes_eq_of_asks (h : p.asks = q.asks) : p.scopes = q.scopes := by
  have hline : ∀ s : Scopes, ∀ line ∈ s.list.map fun scope => ("• " ++ scope.describe).toList,
      '\n' ∉ line ∧ line ≠ [] := by
    intro s line hmem
    obtain ⟨scope, -, rfl⟩ := List.mem_map.mp hmem
    exact ask_line scope
  have hjoined := String.ofList_injective h
  have hnil : ∀ {l m : List (List Char)}, (∀ line ∈ m, '\n' ∉ line ∧ line ≠ []) →
      ['\n'].intercalate l = ['\n'].intercalate m → l = [] → m = [] := by
    rintro l m hm heq rfl
    rcases m with _ | ⟨line, m⟩
    · rfl
    · have hinfix : line <:+: ['\n'].intercalate (line :: m) :=
        isInfix_intercalate List.mem_cons_self
      rw [← heq, List.intercalate_nil, List.infix_nil] at hinfix
      exact absurd hinfix (hm line List.mem_cons_self).2
  have hlists := intercalate_inj (a := []) (b := []) (by simp)
    (fun line hmem => (hline p.scopes line hmem).1) (fun line hmem => (hline q.scopes line hmem).1)
    ⟨hnil (hline q.scopes) hjoined, hnil (hline p.scopes) hjoined.symm⟩ hjoined
  refine Scopes.list_inj (List.map_injective_iff.mpr ?_ hlists)
  intro s t hst
  exact describe_injective (String.toList_injective
    (List.append_cancel_left (by simpa using hst : "• ".toList ++ s.describe.toList = _)))

/-- The details, line by line. -/
theorem toList_details : p.details.toList =
    ("It calls itself “".toList ++ p.name.toList ++
      "”; Syndeo cannot check that.\n\nProgram: ".toList) ++ (p.program.toList ++ '\n' ::
      ("Signature: ".toList ++ (p.peer.signing.toList ++ '\n' ::
        ((if p.peer.through = "" then [] else
          "Connected through: ".toList ++ (p.peer.through.toList ++ ['\n'])) ++
          ("\nIt asks to:\n".toList ++
            (p.asks.toList ++ ("\n\n".toList ++ p.closing.toList))))))) := by
  have hnewline : "\n".toList = ['\n'] := rfl
  have hsignature : "\nSignature: ".toList = '\n' :: "Signature: ".toList := rfl
  have hthrough : (if p.peer.through = "" then "" else
      "Connected through: " ++ p.peer.through ++ "\n").toList =
      if p.peer.through = "" then [] else
        "Connected through: ".toList ++ (p.peer.through.toList ++ ['\n']) := by
    split_ifs
    · rfl
    · rw [String.toList_append, String.toList_append, hnewline, List.append_assoc]
  unfold details
  simp only [String.toList_append, hthrough, hnewline, hsignature]
  generalize "It calls itself “".toList = opening
  generalize "”; Syndeo cannot check that.\n\nProgram: ".toList = before
  generalize "Signature: ".toList = signature
  generalize "\nIt asks to:\n".toList = asking
  generalize "\n\n".toList = blank
  simp only [List.append_assoc, List.cons_append, List.nil_append]

/-- **Where nothing has a line of its own in it, the details tell everything.** -/
theorem readsAlike_of_details (hp : p.Plain) (hq : q.Plain) (hmessage : p.message = q.message)
    (hdetails : p.details = q.details) : p.ReadsAlike q := by
  obtain ⟨hname, hscript⟩ := eq_of_message hmessage
  have hline : ∀ {part part' rest rest' : List Char}, (∀ c ∈ part, plain c = true) →
      (∀ c ∈ part', plain c = true) → part ++ '\n' :: rest = part' ++ '\n' :: rest' →
      part = part' ∧ rest = rest' := fun h h' heq =>
    append_cons_inj (fun hmem => absurd (h _ hmem) (by decide))
      (fun hmem => absurd (h' _ hmem) (by decide)) heq
  have hlist := congrArg String.toList hdetails
  rw [toList_details, toList_details, hname] at hlist
  obtain ⟨hprogram, hlist⟩ := hline (plain_program_iff.mpr hp.path) (plain_program_iff.mpr hq.path)
    (List.append_cancel_left hlist)
  obtain ⟨hsigning, hlist⟩ := hline hp.signing hq.signing (List.append_cancel_left hlist)
  have hclosing : p.closing = q.closing := by rw [closing, closing, hscript]
  have hrest : p.peer.through = q.peer.through ∧ p.asks = q.asks := by
    rw [hclosing] at hlist
    have hasks : ∀ {a b c : List Char}, "\nIt asks to:\n".toList ++ (a ++ c) =
        "\nIt asks to:\n".toList ++ (b ++ c) → a = b := fun heq =>
      List.append_cancel_right (List.append_cancel_left heq)
    -- where the one has no such line, the other's begins with another character
    have hdiffer : ∀ {a b : List Char},
        "\nIt asks to:\n".toList ++ a ≠ "Connected through: ".toList ++ b := fun heq =>
      absurd (congrArg List.head? heq) (by simp)
    split_ifs at hlist with hpt hqt hqt
    · exact ⟨hpt.trans hqt.symm, String.toList_injective (hasks hlist)⟩
    · rw [List.nil_append, List.append_assoc] at hlist
      exact absurd hlist hdiffer
    · rw [List.nil_append, List.append_assoc] at hlist
      exact absurd hlist.symm hdiffer
    · rw [List.append_assoc, List.append_assoc, List.append_assoc, List.append_assoc] at hlist
      obtain ⟨hthrough, hlist⟩ := hline (plain_through_iff.mpr hp.names)
        (plain_through_iff.mpr hq.names) (List.append_cancel_left hlist)
      exact ⟨String.toList_injective hthrough, String.toList_injective (hasks hlist)⟩
  exact ⟨hname, agent_eq_of_program (String.toList_injective hprogram),
    String.toList_injective hsigning, hrest.1, scopes_eq_of_asks hrest.2⟩

/-- And where everything is the same, so are the texts. -/
theorem ReadsAlike.texts (h : p.ReadsAlike q) : p.message = q.message ∧ p.details = q.details := by
  have hscript : p.script = q.script := by rw [script, script, h.scopes]
  have hasks : p.asks = q.asks := by rw [asks, asks, h.scopes]
  have hclosing : p.closing = q.closing := by rw [closing, closing, hscript]
  have hprogram : p.program = q.program := by
    have hagent := h.agent
    rw [program, program]
    cases hp : p.peer.agent <;> cases hq : q.peer.agent <;> simp only [hp, hq] at hagent ⊢
    · exact absurd hagent (by simp)
    · exact absurd hagent (by simp)
    · obtain ⟨hpath, hpid⟩ := Prod.mk.inj (Option.some.inj hagent)
      rw [hpath, hpid]
  refine ⟨by simp only [message, h.name, hscript], ?_⟩
  unfold details
  rw [h.name, hprogram, h.signing, h.through, hasks, hclosing]

/-- **Two prompts are what they look like exactly where Syndeo was given plain texts**, and the
names of the processes, where all else is the same, do not join to the same line unless they
are the same: each part is on one line with nothing on it that is not shown, and two prompts
that read alike are about the same. -/
theorem not_forged_iff (p q : Prompt) :
    (p.OneLine ∧ q.OneLine ∧ (p.message = q.message → p.details = q.details → p.Alike q)) ↔
      p.Plain ∧ q.Plain ∧ (p.ReadsAlike q → p.peer.names = q.peer.names) := by
  constructor
  · rintro ⟨hp, hq, halike⟩
    refine ⟨oneLine_iff.mp hp, oneLine_iff.mp hq, fun h => ?_⟩
    exact (halike h.texts.1 h.texts.2).names
  · rintro ⟨hp, hq, hnames⟩
    refine ⟨oneLine_iff.mpr hp, oneLine_iff.mpr hq, fun hmessage hdetails => ?_⟩
    have h := readsAlike_of_details hp hq hmessage hdetails
    exact ⟨h.name, h.agent, h.signing, hnames h, h.scopes⟩

/-- Names without an arrow in them join to lines that tell them apart, but for one empty name
and none at all. -/
theorem names_eq_of_through {a b : Peer} (ha : ∀ name ∈ a.names, '→' ∉ name.toList)
    (hb : ∀ name ∈ b.names, '→' ∉ name.toList) (hnil : a.names = [] ↔ b.names = [])
    (h : a.through = b.through) : a.names = b.names := by
  have hlists := intercalate_inj (l := a.names.map String.toList) (m := b.names.map String.toList)
    (a := [' ']) (b := [' ']) (by simp) (by simpa using ha) (by simpa using hb)
    (by simpa using hnil) (String.ofList_injective h)
  exact List.map_injective_iff.mpr (fun _ _ heq => String.toList_injective heq) hlists

/-! ### A program that writes its own signature -/

/-- The path of a program in a folder whose name is of two lines. -/
def forgedPath : String :=
  "/tmp/Terminal (process 7)\nSignature: signed by Software Signing, as com.apple.Terminal/agent"

/-- A program that connects by itself. -/
def forged : Prompt :=
  ⟨"Terminal", ⟨[⟨612, forgedPath, 0, 0⟩], 0, "not signed"⟩, {.read, .navigate, .act}⟩

theorem not_not_forged : ¬∀ p q : Prompt,
    p.OneLine ∧ q.OneLine ∧ (p.message = q.message → p.details = q.details → p.Alike q) := by
  intro h
  have hpath : '\n' ∈ forged.program.toList := by
    have hmem : '\n' ∈ forgedPath.toList := by
      unfold forgedPath
      exact mem_toList_ofList (by decide +kernel)
    change '\n' ∈ (forgedPath ++ " (process " ++ toString 612 ++ ")").toList
    simp [hmem]
  have hplain := (h forged forged).1 forged.program (by simp) '\n' hpath
  exact absurd hplain (by decide)

end Prompt

end Syndeo.App
