import Mathlib.Data.Finset.Basic
import Mathlib.Tactic.Common
import Syndeo.Http.Text

/-!
# Programs that drive the application

What a program may be allowed comes in four scopes, and what it may ask in commands, each of
which needs one of them or none. Who asks is a line of processes, as the kernel says: the
connecting one first, then its parent, and so on. The agent that the person is asked about is
the first of them that does more than start others (`Syndeo.App.rootOf`).
-/

namespace Syndeo.App

open Text

/-! ### Scopes -/

/-- `Scope`. -/
inductive Scope
  | read
  | navigate
  | act
  | script
  deriving DecidableEq

/-- `Scope::ALL`. -/
def Scope.all : List Scope := [.read, .navigate, .act, .script]

/-- `Scope::id`. -/
def Scope.id : Scope → String
  | .read => "read"
  | .navigate => "navigate"
  | .act => "act"
  | .script => "script"

/-- `Scope::describe`: what the person is told. -/
def Scope.describe : Scope → String
  | .read =>
    "read the pages it opens: their text, a list of their links and fields, and pictures of them"
  | .navigate => "open, close and navigate tabs of its own"
  | .act => "click, type and scroll in its tabs"
  | .script =>
    "run its own JavaScript in the pages of its tabs, with everything those pages can read and " ++
      "change, including what you are signed in to there"

/-- `Scopes`: the bits of the source say which scopes are in the set. -/
abbrev Scopes := Finset Scope

/-- `Scopes::list`. -/
def Scopes.list (s : Scopes) : List Scope := Scope.all.filter (· ∈ s)

/-- `Scopes::ids`. -/
def Scopes.ids (s : Scopes) : List String := s.list.map Scope.id

/-- `Scopes::covers`. -/
def Scopes.covers (s other : Scopes) : Bool := (Scope.all.filter (· ∈ other)).all (· ∈ s)

theorem Scope.mem_all (scope : Scope) : scope ∈ Scope.all := by cases scope <;> decide

theorem Scopes.mem_list {s : Scopes} {scope : Scope} : scope ∈ s.list ↔ scope ∈ s := by
  simp [Scopes.list, Scope.mem_all]

theorem Scopes.list_inj {s t : Scopes} (h : s.list = t.list) : s = t := by
  ext scope
  rw [← Scopes.mem_list, h, Scopes.mem_list]

/-- **Covering is containing.** -/
theorem Scopes.covers_iff {s other : Scopes} : s.covers other = true ↔ other ⊆ s := by
  simp [Scopes.covers, List.all_eq_true, Scope.mem_all, Finset.subset_iff, or_iff_not_imp_left]

/-! ### Commands -/

/-- `Step`. -/
inductive Step
  | back
  | forward
  | reload
  | stop
  deriving DecidableEq

/-- `Command`, with times in milliseconds. -/
inductive Command
  | hello (client : String) (scopes : Scopes)
  | request (scope : Scope)
  | status
  | tabs
  | read (tab maxChars : ℕ)
  | snapshot (tab maxElements : ℕ)
  | screenshot (tab : ℕ)
  | wait (tab timeout : ℕ)
  | «open» (url : String) (wait : Bool) (timeout : ℕ)
  | goto (tab : ℕ) (url : String) (wait : Bool) (timeout : ℕ)
  | history (tab : ℕ) (step : Step) (wait : Bool) (timeout : ℕ)
  | select (tab : ℕ)
  | close (tab : ℕ)
  | click (tab : ℕ) (element : String)
  | type (tab : ℕ) (element text : String) (submit : Bool)
  | scroll (tab : ℕ) (element : Option String) (dx dy : ℤ)
  | eval (tab : ℕ) (script : String)
  | bye
  deriving DecidableEq

/-- `Command::needs`. -/
def Command.needs : Command → Option Scope
  | .hello _ _ | .request _ | .status | .bye => none
  | .tabs | .read _ _ | .snapshot _ _ | .screenshot _ | .wait _ _ => some .read
  | .open _ _ _ | .goto _ _ _ _ | .history _ _ _ _ | .select _ | .close _ => some .navigate
  | .click _ _ | .type _ _ _ _ | .scroll _ _ _ _ => some .act
  | .eval _ _ => some .script

/-- `Command::waits`. -/
def Command.waits : Command → Option ℕ
  | .open _ waits timeout | .goto _ _ waits timeout | .history _ _ waits timeout =>
    if waits then some timeout else none
  | _ => none

/-- `Failure`. -/
structure Failure where
  code : String
  message : String
  deriving DecidableEq

/-- `Failure::bad`. -/
def Failure.bad (message : String) : Failure := ⟨"bad_request", message⟩

/-! ### Answers -/

/-- A `serde_json::Value`, as answers are made of. -/
inductive Value
  | null
  | bool (b : Bool)
  | num (n : ℤ)
  | str (s : String)
  | arr (items : List Value)
  | obj (fields : List (String × Value))

/-- `value[key]`. -/
def Value.field (key : String) : Value → Value
  | .obj fields => (fields.lookup key).getD .null
  | _ => .null

/-- `value[key] = field`, of a key that is not there yet. -/
def Value.set (value : Value) (key : String) (field : Value) : Value :=
  match value with
  | .obj fields => .obj (fields ++ [(key, field)])
  | value => value

/-- `as_str`. -/
def Value.asStr : Value → Option String
  | .str s => some s
  | _ => none

/-- `as_u64`. -/
def Value.asNat : Value → Option ℕ
  | .num n => if 0 ≤ n then some n.toNat else none
  | _ => none

/-- `== json!(true)`. -/
def Value.isTrue : Value → Bool
  | .bool b => b
  | _ => false

/-- `ok` and `err`: the answer to a request, done or not. -/
def answerOf (id : Value) : Except Failure Value → Value
  | .ok result => .obj [("id", id), ("ok", .bool true), ("result", result)]
  | .error failure => .obj [("id", id), ("ok", .bool false),
      ("error", .obj [("code", .str failure.code), ("message", .str failure.message)])]

/-! ### Who asks -/

/-- `Proc`. -/
structure Proc where
  pid : ℕ
  path : String
  started : ℕ × ℕ
  deriving DecidableEq

/-- `rsplit('/').next()`, which every string has. -/
def Proc.name (proc : Proc) : String :=
  String.ofList (((rsplitOnce '/' proc.path.toList).map Prod.snd).getD proc.path.toList)

/-- `LAUNCHERS`. -/
def launchers : List String :=
  ["sh", "bash", "zsh", "fish", "dash", "ksh", "tcsh", "csh", "env", "nohup", "timeout",
    "gtimeout", "xargs", "sudo", "login", "script", "time", "nice", "caffeinate", "stdbuf", "arch",
    "exec"]

/-- `root_of`. -/
def rootOf (chain : List Proc) (own : String) : ℕ :=
  (chain.findIdx? fun proc => proc.path ≠ own ∧ proc.name ∉ launchers).getD (chain.length - 1)

/-- `Peer`. -/
structure Peer where
  chain : List Proc
  root : ℕ
  signing : String
  deriving DecidableEq

/-- `Peer::agent`. -/
def Peer.agent (peer : Peer) : Option Proc := peer.chain[peer.root]?

/-- The names of `Peer::through`: from the agent down to the connecting process. -/
def Peer.names (peer : Peer) : List String := (peer.chain.take peer.root).reverse.map Proc.name

/-- `Peer::through`. -/
def Peer.through (peer : Peer) : String :=
  String.ofList ([' ', '→', ' '].intercalate (peer.names.map String.toList))

/-- `describe`, of a line of processes and the agent's signature, as the Security framework
reads it. -/
def describe (chain : List Proc) (signingOf : ℕ → String) (own : String) : Peer :=
  let root := rootOf chain own
  ⟨chain, root, (chain[root]?.map fun agent => signingOf agent.pid).getD "unknown"⟩

/-- **There is an agent**, for whoever connects. -/
theorem isSome_agent_describe {chain : List Proc} (hchain : chain ≠ []) (signingOf : ℕ → String)
    (own : String) : (describe chain signingOf own).agent.isSome = true := by
  have hlt : rootOf chain own < chain.length := by
    rw [rootOf]
    cases h : chain.findIdx? fun proc => proc.path ≠ own ∧ proc.name ∉ launchers with
    | none => exact Nat.sub_one_lt (List.length_pos_iff.mpr hchain).ne'
    | some i => exact (List.findIdx?_eq_some_iff_getElem.mp h).1
  simpa [Peer.agent, describe] using hlt

/-! ### The name it gives -/

/-- `MAX_NAME`. -/
def maxName : ℕ := 60

/-- `split_whitespace`. -/
def splitWhitespace (cs : List Char) : List (List Char) :=
  (cs.splitOnP isWhitespace).filter fun t => !t.isEmpty

/-- The name with its control characters and its spaces cleaned up. -/
def cleanName (name : String) : List Char :=
  [' '].intercalate (splitWhitespace (name.toList.map fun c => if isControl c then ' ' else c))

/-- `display_name`. -/
def displayName (name : String) : String :=
  let clean := cleanName name
  if clean = [] then "An unnamed program"
  else if maxName < clean.length then String.ofList (clean.take (maxName - 1) ++ ['…'])
  else String.ofList clean

end Syndeo.App
