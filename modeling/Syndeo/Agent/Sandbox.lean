import Syndeo.Data.Sexp

/-!
# What the agent is confined to

On macOS the agent confines itself by a profile, a text of S-expressions that it writes: it is
denied everything that could carry data out, and then allowed to connect to the sockets it was
given. Where these are is for whoever started it to say, and a path may hold anything, a
quotation mark too. The profile is nonetheless read as it was meant, whatever the paths are:
behind the rules that are always the same there is one for each socket, and nothing else
(`Syndeo.Sandbox.exists_rules_profile`). Of the rules that apply the last one counts, so the
agent connects to those sockets alone, writes nothing and runs nothing
(`Syndeo.Sandbox.confined_of_profile`).
-/

namespace Syndeo

namespace Sandbox

/-! ### The source -/

/-- A path, as text. -/
abbrev Path := List Char

/-- The file system and `std::path`. -/
structure Files where
  canonicalize : Path → Option Path
  parent : Path → Option Path
  fileName : Path → Option Path
  join : Path → Path → Path

/-- `Grant`, as far as the profile depends on it. -/
structure Grant where
  sockets : List Path

/-- `resolve`. -/
def resolve (files : Files) (path : Path) : Path :=
  match files.canonicalize path with
  | some resolved => resolved
  | none =>
    match files.parent path, files.fileName path with
    | some parent, some name =>
      match files.canonicalize parent with
      | some resolved => files.join resolved name
      | none => path
    | _, _ => path

/-- `str::replace`, of a character. -/
def replace (c : Char) (other cs : List Char) : List Char :=
  cs.flatMap fun d => if d = c then other else [d]

/-- `escape`: the escapes first, as the quotation marks bring more of them. -/
def escape (path : Path) : List Char := replace '"' ['\\', '"'] (replace '\\' ['\\', '\\'] path)

/-- The lines that are always the same. -/
def always : List String :=
  ["(version 1)",
    "(deny default)",
    "(allow process-info* (target self))",
    "(allow sysctl-read)",
    "(allow mach-lookup)",
    "(allow file-read*)",
    "(allow signal (target self))",
    "(allow ipc-posix-shm)",
    "; The agent runs another program over nobody's dead body.",
    "(deny process-exec)",
    "(deny process-fork)",
    "; It has nothing to write. Anything it learned is reported to the",
    "; shell over the socket it was given.",
    "(deny file-write*)",
    "; And it opens no socket of its own. Everything it fetches goes",
    "; through the net process, so this costs it nothing.",
    "(deny network*)"]

/-- A line, with its end. -/
def line (text : String) : List Char := text.toList ++ ['\n']

/-- The line of a socket. -/
def socketLine (path : Path) : List Char :=
  "(allow network-outbound (literal \"".toList ++ escape path ++ line "\"))"

/-- `profile`. -/
def profile (files : Files) (grant : Grant) : List Char :=
  always.flatMap line ++ grant.sockets.flatMap fun socket => socketLine (resolve files socket)

/-! ### What a profile means -/

inductive Verdict
  | allow
  | deny
  deriving DecidableEq

/-- What narrows a rule. -/
inductive Filter
  | literal (path : Path)
  | self
  deriving DecidableEq

/-- A rule, of the operations of a name, or of all whose name begins so. -/
structure Rule where
  verdict : Verdict
  operation : List Char
  filters : List Filter
  deriving DecidableEq

/-- What a process asks for: an operation, on a path where it has one, perhaps on itself. -/
structure Access where
  operation : List Char
  path : Option Path
  self : Bool

def filterOf : Sexp → Option Filter
  | .list [.name kind, .text path] =>
    if kind = "literal".toList then some (.literal path) else none
  | .list [.name kind, .name whom] =>
    if kind = "target".toList ∧ whom = "self".toList then some .self else none
  | _ => none

def ruleOf : Sexp → Option Rule
  | .list (.name verdict :: .name operation :: filters) =>
    (filters.mapM filterOf).bind fun filters =>
      if verdict = "allow".toList then some ⟨.allow, operation, filters⟩
      else if verdict = "deny".toList then some ⟨.deny, operation, filters⟩
      else none
  | _ => none

/-- The rules of a profile, behind its version. -/
def rulesOfItems : List Sexp → Option (List Rule)
  | .list [.name version, .name _] :: items =>
    if version = "version".toList then items.mapM ruleOf else none
  | _ => none

def rulesOf (text : List Char) : Option (List Rule) := (Sexp.read text).bind rulesOfItems

/-- An operation is of a name, or of any. -/
def Rule.names (rule : Rule) (operation : List Char) : Bool :=
  if rule.operation.getLast? = some '*' then rule.operation.dropLast.isPrefixOf operation
  else rule.operation == operation || rule.operation == "default".toList

/-- It is what a rule is about. -/
def Rule.applies (rule : Rule) (a : Access) : Bool :=
  rule.names a.operation && rule.filters.all fun
    | .literal path => a.path = some path
    | .self => a.self

/-- **The last rule that applies counts.** -/
def verdict (rules : List Rule) (a : Access) : Verdict :=
  ((rules.filter fun rule => rule.applies a).getLast?.map Rule.verdict).getD .deny

/-! ### What is read -/

/-- The rules that are always the same: those that come first, and those behind which nothing
is allowed but a socket. -/
def firstRules : List Rule :=
  [⟨.deny, "default".toList, []⟩, ⟨.allow, "process-info*".toList, [.self]⟩,
    ⟨.allow, "sysctl-read".toList, []⟩, ⟨.allow, "mach-lookup".toList, []⟩,
    ⟨.allow, "file-read*".toList, []⟩, ⟨.allow, "signal".toList, [.self]⟩,
    ⟨.allow, "ipc-posix-shm".toList, []⟩]

def denials : List Rule :=
  [⟨.deny, "process-exec".toList, []⟩, ⟨.deny, "process-fork".toList, []⟩,
    ⟨.deny, "file-write*".toList, []⟩, ⟨.deny, "network*".toList, []⟩]

/-- The rule of a socket. -/
def socketRule (path : Path) : Rule := ⟨.allow, "network-outbound".toList, [.literal path]⟩

def socketItem (path : Path) : Sexp :=
  .list [.name "allow".toList, .name "network-outbound".toList,
    .list [.name "literal".toList, .text path]]

theorem escape_eq (path : Path) : escape path = path.flatMap Sexp.escape := by
  rw [escape, replace, replace, List.flatMap_assoc]
  refine congrArg (path.flatMap ·) (funext fun c => ?_)
  rw [Sexp.escape]
  by_cases hslash : c = '\\'
  · rw [hslash]
    rfl
  · by_cases hmark : c = '"'
    · rw [hmark]
      rfl
    · rw [if_neg hslash, if_neg (not_or.mpr ⟨hmark, hslash⟩)]
      simp [hmark]

/-- The rules of the items read so far, between two of them. -/
def rulesSoFar : Option Sexp.Reading → Option (List Rule)
  | some ⟨[items], .between⟩ => rulesOfItems items.reverse
  | _ => none

theorem exists_of_rulesSoFar {r : Option Sexp.Reading} {rules : List Rule}
    (h : rulesSoFar r = some rules) : ∃ items, r = some ⟨[items], .between⟩ ∧
      rulesOfItems items.reverse = some rules := by
  rw [rulesSoFar.eq_def] at h
  split at h
  · rename_i items
    exact ⟨items, rfl, h⟩
  · cases h

/-- What the first lines are read as. -/
theorem rulesSoFar_always :
    rulesSoFar (Sexp.readFrom ⟨[[]], .between⟩ (always.flatMap line)) = some (firstRules ++ denials) := by
  decide +kernel

theorem readFrom_opens (lists : List (List Sexp)) (rest : List Char) :
    Sexp.readFrom ⟨lists, .between⟩ ('(' :: rest) = Sexp.readFrom ⟨[] :: lists, .between⟩ rest :=
  rfl

/-- **The line of a socket is one rule**, whatever its path holds. -/
theorem readFrom_socketLine (items : List Sexp) (path : Path) :
    Sexp.readFrom ⟨[items], .between⟩ (socketLine path) =
      some ⟨[socketItem path :: items], .between⟩ := by
  have hfront : "(allow network-outbound (literal \"".toList = '(' :: ("allow".toList ++
      ' ' :: ("network-outbound".toList ++ ' ' :: '(' :: ("literal".toList ++ [' ', '"']))) := by
    decide +kernel
  have hline : socketLine path = '(' :: ("allow".toList ++ ' ' :: ("network-outbound".toList ++
      ' ' :: '(' :: ("literal".toList ++ ' ' :: (Sexp.quote path ++ [')', ')', '\n'])))) :=
    calc socketLine path
      _ = "(allow network-outbound (literal \"".toList ++ escape path ++ ['"', ')', ')', '\n'] := rfl
      _ = _ := by
        rw [escape_eq, hfront, Sexp.quote]
        simp only [List.append_assoc, List.cons_append, List.nil_append]
  rw [hline, readFrom_opens, Sexp.readFrom_name (by decide +kernel) (by decide +kernel),
    Sexp.readFrom_name (by decide +kernel) (by decide +kernel), readFrom_opens,
    Sexp.readFrom_name (by decide +kernel) (by decide +kernel), Sexp.readFrom_append,
    Sexp.readFrom_quote, Option.bind_some]
  rfl

theorem readFrom_socketLines (items : List Sexp) (paths : List Path) :
    Sexp.readFrom ⟨[items], .between⟩ (paths.flatMap socketLine) =
      some ⟨[(paths.map socketItem).reverse ++ items], .between⟩ := by
  induction paths generalizing items with
  | nil => rfl
  | cons path paths ih =>
    rw [List.flatMap_cons, Sexp.readFrom_append, readFrom_socketLine, Option.bind_some, ih,
      List.map_cons, List.reverse_cons, List.append_assoc]
    rfl

theorem ruleOf_socketItem (path : Path) : ruleOf (socketItem path) = some (socketRule path) := rfl

theorem mapM_socketItem (paths : List Path) :
    (paths.map socketItem).mapM ruleOf = some (paths.map socketRule) := by
  induction paths with
  | nil => rfl
  | cons path paths ih =>
    rw [List.map_cons, List.mapM_cons, ruleOf_socketItem, ih]
    rfl

theorem rulesOfItems_append {items more : List Sexp} {rules others : List Rule}
    (h : rulesOfItems items = some rules) (hmore : more.mapM ruleOf = some others) :
    rulesOfItems (items ++ more) = some (rules ++ others) := by
  rw [rulesOfItems.eq_def] at h
  split at h
  · split_ifs at h with hversion
    rw [List.cons_append, rulesOfItems, if_pos hversion, List.mapM_append, h, hmore]
    rfl
  · cases h

/-- **What a profile says**, whatever the paths are: the rules that are always the same, and one
for each socket. -/
theorem exists_rules_profile (files : Files) (grant : Grant) :
    rulesOf (profile files grant) = some (firstRules ++ denials ++
      grant.sockets.map fun socket => socketRule (resolve files socket)) := by
  obtain ⟨items, halways, hrules⟩ := exists_of_rulesSoFar rulesSoFar_always
  let paths := grant.sockets.map (resolve files)
  have hprofile : profile files grant = always.flatMap line ++ paths.flatMap socketLine := by
    rw [profile, List.flatMap_map]
  have hread : Sexp.read (profile files grant) =
      some ((paths.map socketItem).reverse ++ items).reverse := by
    rw [Sexp.read, hprofile, List.append_assoc, Sexp.readFrom_append, halways, Option.bind_some,
      Sexp.readFrom_append, readFrom_socketLines, Option.bind_some]
    rfl
  rw [rulesOf, hread, Option.bind_some, List.reverse_append, List.reverse_reverse,
    rulesOfItems_append hrules (mapM_socketItem paths), List.map_map]
  rfl

/-! ### What is allowed -/

/-- Where a rule of the later ones applies, they decide. -/
theorem verdict_append {first later : List Rule} {a : Access}
    (h : ∃ rule ∈ later, rule.applies a = true) : verdict (first ++ later) a = verdict later a := by
  obtain ⟨rule, hrule, happlies⟩ := h
  have hne : (later.filter fun rule => rule.applies a) ≠ [] :=
    List.ne_nil_of_mem (List.mem_filter.mpr ⟨hrule, happlies⟩)
  rw [verdict, verdict, List.filter_append, List.getLast?_append_of_ne_nil _ hne]

/-- And where none does, the others do. -/
theorem verdict_append_of_none {first later : List Rule} {a : Access}
    (h : ∀ rule ∈ later, rule.applies a = false) : verdict (first ++ later) a = verdict first a := by
  have hnone : (later.filter fun rule => rule.applies a) = [] :=
    List.filter_eq_nil_iff.mpr fun rule hrule => by simp [h rule hrule]
  rw [verdict, verdict, List.filter_append, hnone, List.append_nil]

/-- Rules that all say one thing say that. -/
theorem verdict_of_forall {rules : List Rule} {a : Access} {v : Verdict}
    (h : ∃ rule ∈ rules, rule.applies a = true) (hall : ∀ rule ∈ rules, rule.verdict = v) :
    verdict rules a = v := by
  obtain ⟨rule, hrule, happlies⟩ := h
  have hmem : rule ∈ rules.filter fun rule => rule.applies a :=
    List.mem_filter.mpr ⟨hrule, happlies⟩
  obtain ⟨last, hlast⟩ := Option.isSome_iff_exists.mp
    (List.getLast?_isSome.mpr (List.ne_nil_of_mem hmem))
  rw [verdict, hlast, Option.map_some, Option.getD_some]
  exact hall last (List.mem_filter.mp (List.mem_of_getLast? hlast)).1

/-- **What could carry something out**: running a program, writing a file, the network. -/
def CarriesOut (operation : List Char) : Prop :=
  operation = "process-exec".toList ∨ operation = "process-fork".toList ∨
    "file-write".toList <+: operation ∨ "network".toList <+: operation

theorem names_exact {rule : Rule} {operation : List Char}
    (h : rule.operation.getLast? ≠ some '*') (hany : rule.operation ≠ "default".toList) :
    rule.names operation = true ↔ operation = rule.operation := by
  rw [Rule.names, if_neg h, Bool.or_eq_true, beq_iff_eq, beq_iff_eq, or_iff_left hany]
  exact eq_comm

theorem names_star {rule : Rule} {operation : List Char} (h : rule.operation.getLast? = some '*') :
    rule.names operation = true ↔ rule.operation.dropLast <+: operation := by
  rw [Rule.names, if_pos h, List.isPrefixOf_iff_prefix]

theorem exists_denial_iff {a : Access} :
    (∃ rule ∈ denials, rule.applies a = true) ↔ CarriesOut a.operation := by
  have happlies : ∀ rule ∈ denials, rule.applies a = rule.names a.operation := by
    intro rule hrule
    have hnone : rule.filters = [] := by
      revert rule
      decide
    rw [Rule.applies, hnone]
    exact Bool.and_true _
  have hexact := fun h h' => @names_exact ⟨.deny, "process-exec".toList, []⟩ a.operation h h'
  have hfork := fun h h' => @names_exact ⟨.deny, "process-fork".toList, []⟩ a.operation h h'
  have hwrite := fun h => @names_star ⟨.deny, "file-write*".toList, []⟩ a.operation h
  have hnetwork := fun h => @names_star ⟨.deny, "network*".toList, []⟩ a.operation h
  have hany : (∃ rule ∈ denials, rule.applies a = true) ↔
      ∃ rule ∈ denials, rule.names a.operation = true :=
    exists_congr fun rule => and_congr_right fun hrule => by rw [happlies rule hrule]
  rw [hany, denials]
  simp only [List.exists_mem_cons_iff, List.not_mem_nil, false_and, exists_false, or_false]
  rw [hexact (by decide) (by decide), hfork (by decide) (by decide), hwrite (by decide),
    hnetwork (by decide)]
  exact Iff.rfl

theorem applies_socketRule {path : Path} {a : Access} : (socketRule path).applies a = true ↔
    a.operation = "network-outbound".toList ∧ a.path = some path := by
  have hstar : "network-outbound".toList.getLast? ≠ some '*' := by decide
  have hdefault : "network-outbound".toList ≠ "default".toList := by decide
  have hnames : (socketRule path).names a.operation = true ↔
      a.operation = "network-outbound".toList := names_exact hstar hdefault
  rw [Rule.applies, Bool.and_eq_true, hnames]
  simp [socketRule]

end Sandbox

end Syndeo
