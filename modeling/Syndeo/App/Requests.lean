import Syndeo.App.Agent
import Syndeo.Data.Json
import Syndeo.Data.Separated

/-!
# Reading a request

A program's request is a line of JSON. Of an object's fields each command may have its own, and
each field is of its type and within its bound, or has a default; anything else is refused, with
why, and is never guessed at. What is accepted is then a sound command
(`Syndeo.App.Command.Sound`), and each sound command is what some request says
(`Syndeo.App.command_ok_iff`).
-/

namespace Syndeo.App

open Text
open Json (Fields)

/-! ### Bounds -/

/-- `MAX_REQUEST`, in bytes. -/
def maxRequest : ℕ := 2 ^ 20

/-- `MAX_TEXT`, in bytes. -/
def maxText : ℕ := 100000

/-- `MAX_READ`. -/
def maxRead : ℕ := 1000000

/-- `DEFAULT_READ`. -/
def defaultRead : ℕ := 100000

/-- `MAX_ELEMENTS`. -/
def maxElements : ℕ := 2000

/-- `DEFAULT_ELEMENTS`. -/
def defaultElements : ℕ := 300

/-- `MAX_WAIT`, in milliseconds. -/
def maxWait : ℕ := 120000

/-- `DEFAULT_WAIT`, in milliseconds. -/
def defaultWait : ℕ := 30000

/-- `MAX_URL`, in bytes. -/
def maxUrl : ℕ := 8192

/-! ### Scopes -/

/-- `Scope::parse`. -/
def Scope.parse (text : String) : Option Scope := Scope.all.find? fun scope => scope.id = text

/-- `SCRIPT_ALONE`. -/
def scriptAlone : String :=
  "script is asked for on its own, with \x7b\"cmd\": \"request\", \"scope\": \"script\"\x7d, " ++
    "so that the person is asked about it on its own"

/-- `DEFAULT_SCOPES`. -/
def defaultScopes : Scopes := {.read, .navigate, .act}

/-- What a name that is no scope's is refused with. -/
def notAScope (name : String) : String :=
  name ++ " is not a scope; the scopes are read, navigate, act and script"

/-- The loop of `parse_list`, over the parts. -/
def Scopes.parseParts (script : Bool) (scopes : Scopes) : List (List Char) → Except String Scopes
  | [] => .ok scopes
  | part :: parts =>
    match Scope.parse (String.ofList part) with
    | none => .error (notAScope (String.ofList part))
    | some scope =>
      if scope = .script ∧ !script then .error scriptAlone
      else parseParts script (insert scope scopes) parts

/-- `Scopes::parse_list`. -/
def Scopes.parseList (text : String) (script : Bool) : Except String Scopes :=
  match parseParts script ∅ (((text.toList.splitOn ',').map trimChars).filter (· ≠ [])) with
  | .error why => .error why
  | .ok scopes =>
    if scopes = ∅ then .error "ask for at least one scope: read, navigate or act" else .ok scopes

theorem Scope.parse_id (scope : Scope) : Scope.parse scope.id = some scope := by
  cases scope <;> decide +kernel

section

variable {script : Bool} {acc scopes : Scopes} {parts : List (List Char)}

/-- With the others, `script` is not asked for. -/
theorem Scopes.script_notMem_of_parseParts (h : parseParts false acc parts = .ok scopes)
    (hacc : Scope.script ∉ acc) : Scope.script ∉ scopes := by
  induction parts generalizing acc with
  | nil =>
    obtain rfl := Except.ok.inj h
    exact hacc
  | cons part parts ih =>
    rw [parseParts] at h
    split at h
    · exact absurd h (by simp)
    · rename_i scope _
      split_ifs at h with hscript
      refine ih h ?_
      have hne : scope ≠ .script := by simpa using hscript
      rw [Finset.mem_insert, not_or]
      exact ⟨hne.symm, hacc⟩

theorem Scopes.sound_of_parseList {text : String} (h : parseList text false = .ok scopes) :
    scopes ≠ ∅ ∧ Scope.script ∉ scopes := by
  rw [parseList] at h
  split at h
  · exact absurd h (by simp)
  · rename_i scopes' hparts
    split_ifs at h with hempty
    obtain rfl := Except.ok.inj h
    exact ⟨hempty, script_notMem_of_parseParts hparts (Finset.notMem_empty _)⟩

/-- The names of scopes are read as the scopes. -/
theorem Scopes.parseParts_ids {l : List Scope} (hl : Scope.script ∉ l) :
    parseParts false acc (l.map fun scope => scope.id.toList) = .ok (acc ∪ l.toFinset) := by
  induction l generalizing acc with
  | nil => simp [parseParts]
  | cons scope l ih =>
    rw [List.mem_cons, not_or] at hl
    rw [List.map_cons, parseParts, String.ofList_toList, Scope.parse_id]
    simp only [Bool.not_false, and_true]
    rw [if_neg (Ne.symm hl.1), ih hl.2, List.toFinset_cons]
    refine congrArg Except.ok ?_
    ext other
    simp only [Finset.mem_union, Finset.mem_insert]
    tauto

theorem Scope.id_plain (scope : Scope) :
    ',' ∉ scope.id.toList ∧ trimChars scope.id.toList = scope.id.toList ∧ scope.id.toList ≠ [] := by
  cases scope <;> decide +kernel

theorem Scopes.parseList_ids (hne : scopes ≠ ∅) (hscript : Scope.script ∉ scopes) :
    parseList (String.ofList ([','].intercalate (scopes.ids.map String.toList))) false =
      .ok scopes := by
  have hlist : scopes.list ≠ [] := by
    intro h
    exact hne (Scopes.list_inj (h.trans (by decide)))
  have hsplit : ([','].intercalate (scopes.ids.map String.toList)).splitOn ',' =
      scopes.ids.map String.toList := by
    refine List.splitOn_intercalate _ ?_ (by simpa [ids] using hlist)
    simp only [ids, List.map_map, List.forall_mem_map]
    exact fun scope _ => scope.id_plain.1
  have hparts : ((scopes.ids.map String.toList).map trimChars).filter (· ≠ []) =
      scopes.list.map fun scope => scope.id.toList := by
    rw [ids, List.map_map, List.map_map, List.filter_eq_self.mpr]
    · exact List.map_congr_left fun scope _ => scope.id_plain.2.1
    · simp only [List.forall_mem_map, Function.comp_apply, decide_eq_true_eq]
      intro scope _
      rw [scope.id_plain.2.1]
      exact scope.id_plain.2.2
  have hall : ∅ ∪ scopes.list.toFinset = scopes := by
    ext scope
    simp [Scopes.mem_list]
  rw [parseList, String.toList_ofList, hsplit, hparts,
    parseParts_ids (fun h => hscript (Scopes.mem_list.mp h)), hall]
  exact if_neg hne

end

namespace Reading

/-! ### Fields -/

/-- `only`: no field but these, the id and the command. -/
def only (fields : Fields) (allowed : List String) : Except Failure Unit :=
  match (fields.map Prod.fst).find? fun key => key ≠ "id" ∧ key ≠ "cmd" ∧ key ∉ allowed with
  | some key => .error (.bad (key ++ " is not a field of this command"))
  | none => .ok ()

/-- `text`. -/
def text (fields : Fields) (key : String) (max : ℕ) : Except Failure String :=
  match fields.lookup key with
  | some (.str s) =>
    if s.utf8ByteSize ≤ max then .ok s
    else .error ⟨"too_large", key ++ " is longer than " ++ toString max ++ " bytes"⟩
  | some _ => .error (.bad (key ++ " is a string"))
  | none => .error (.bad (key ++ " is missing"))

/-- `tab_of`. -/
def tabOf (fields : Fields) : Except Failure ℕ :=
  match fields.lookup "tab" with
  | some (.num n) =>
    match n.asU64.filter (0 < ·) with
    | some n => .ok n
    | none => .error (.bad "tab is a tab's number, from open or tabs")
  | some _ => .error (.bad "tab is a number")
  | none => .error (.bad "tab is missing")

/-- `flag`. -/
def flag (fields : Fields) (key : String) (default : Bool) : Except Failure Bool :=
  match fields.lookup key with
  | none => .ok default
  | some (.bool b) => .ok b
  | some _ => .error (.bad (key ++ " is true or false"))

/-- `count`. -/
def count (fields : Fields) (key : String) (default max : ℕ) : Except Failure ℕ :=
  match fields.lookup key with
  | none => .ok default
  | some (.num n) =>
    match n.asU64.filter (· ≤ max) with
    | some n => .ok n
    | none => .error (.bad (key ++ " is a whole number up to " ++ toString max))
  | some _ => .error (.bad (key ++ " is a number"))

/-- `offset`. -/
def offset (fields : Fields) (key : String) : Except Failure ℤ :=
  match fields.lookup key with
  | none => .ok 0
  | some (.num n) =>
    match n.asI64.filter fun n => n.natAbs ≤ 1000000 with
    | some n => .ok n
    | none => .error (.bad (key ++ " is a whole number of points"))
  | some _ => .error (.bad (key ++ " is a number"))

/-- Whether a text is an element's reference: `e` and a number. -/
def isReference (reference : String) : Bool :=
  match reference.toList with
  | 'e' :: digits => digits ≠ [] && digits.all Char.isDigit
  | _ => false

/-- `element`. -/
def element (fields : Fields) : Except Failure String := do
  let reference ← text fields "ref" 16
  if isReference reference then .ok reference
  else .error (.bad "ref is an element's reference from snapshot, such as e12")

/-- `timeout`, in milliseconds. -/
def timeout (fields : Fields) : Except Failure ℕ := count fields "timeout_ms" defaultWait maxWait

/-! ### Commands -/

/-- The names of a list of strings. -/
def namesOf (items : List Json.Value) : Except Failure (List String) :=
  items.mapM fun item => match item with
    | .str s => .ok s
    | _ => .error (.bad "scopes is a list of strings")

/-- The client of a hello. -/
def helloClient (fields : Fields) : Except Failure String :=
  match fields.lookup "client" with
  | none => .ok ""
  | some (.str s) =>
    if s.utf8ByteSize ≤ 400 then .ok s
    else .error (.bad "client is a short string: your name")
  | some _ => .error (.bad "client is a short string: your name")

/-- The scopes of a hello. -/
def helloScopes (fields : Fields) : Except Failure Scopes :=
  match fields.lookup "scopes" with
  | none => .ok defaultScopes
  | some (.arr items) => do
    let names ← namesOf items
    match Scopes.parseList (String.ofList ([','].intercalate (names.map String.toList))) false with
    | .ok scopes => .ok scopes
    | .error why => .error (.bad why)
  | some _ => .error (.bad "scopes is a list of strings")

/-- `tab_only`. -/
def tabOnly (fields : Fields) (allowed : List String) : Except Failure ℕ := do
  only fields allowed
  tabOf fields

/-- Back, forward, reload or stop. -/
def history (fields : Fields) (step : Step) : Except Failure Command := do
  let tab ← tabOnly fields ["tab", "wait", "timeout_ms"]
  return .history tab step (← flag fields "wait" (step ≠ .stop)) (← timeout fields)

/-- The element of a scroll, if there is one. -/
def scrolledTo (fields : Fields) : Except Failure (Option String) :=
  if (fields.lookup "ref").isSome then some <$> element fields else .ok none

/-- `command`, of a name. -/
def commandOf (fields : Fields) : String → Except Failure Command
  | "hello" => do
    only fields ["client", "scopes"]
    return .hello (← helloClient fields) (← helloScopes fields)
  | "request" => do
    only fields ["scope"]
    let name ← text fields "scope" 16
    match Scope.parse name with
    | some scope => .ok (.request scope)
    | none => .error (.bad (notAScope name))
  | "status" => do
    only fields []
    return .status
  | "tabs" => do
    only fields []
    return .tabs
  | "bye" => do
    only fields []
    return .bye
  | "read" => do
    let tab ← tabOnly fields ["tab", "max_chars"]
    return .read tab (← count fields "max_chars" defaultRead maxRead)
  | "snapshot" => do
    let tab ← tabOnly fields ["tab", "max_elements"]
    return .snapshot tab (← count fields "max_elements" defaultElements maxElements)
  | "screenshot" => do
    return .screenshot (← tabOnly fields ["tab"])
  | "wait" => do
    let tab ← tabOnly fields ["tab", "timeout_ms"]
    return .wait tab (← timeout fields)
  | "open" => do
    only fields ["url", "wait", "timeout_ms"]
    return .open (← text fields "url" maxUrl) (← flag fields "wait" true) (← timeout fields)
  | "goto" => do
    let tab ← tabOnly fields ["tab", "url", "wait", "timeout_ms"]
    return .goto tab (← text fields "url" maxUrl) (← flag fields "wait" true) (← timeout fields)
  | "back" => history fields .back
  | "forward" => history fields .forward
  | "reload" => history fields .reload
  | "stop" => history fields .stop
  | "select" => do
    return .select (← tabOnly fields ["tab"])
  | "close" => do
    return .close (← tabOnly fields ["tab"])
  | "click" => do
    let tab ← tabOnly fields ["tab", "ref"]
    return .click tab (← element fields)
  | "type" => do
    let tab ← tabOnly fields ["tab", "ref", "text", "submit"]
    return .type tab (← element fields) (← text fields "text" maxText)
      (← flag fields "submit" false)
  | "scroll" => do
    let tab ← tabOnly fields ["tab", "ref", "dx", "dy"]
    let reference ← scrolledTo fields
    return .scroll tab reference (← offset fields "dx") (← offset fields "dy")
  | "eval" => do
    let tab ← tabOnly fields ["tab", "script"]
    return .eval tab (← text fields "script" maxRequest)
  | other => .error ⟨"unknown_command", other ++ " is not a command Syndeo knows"⟩

/-- `command`. -/
def command (fields : Fields) : Except Failure Command :=
  match fields.lookup "cmd" with
  | some (.str name) => commandOf fields name
  | some _ => .error (.bad "cmd is a string")
  | none => .error (.bad "cmd is missing")

/-! ### What each reader reads -/

section

variable {fields : Fields} {key key' : String} {value : Json.Value} {max : ℕ}

/-- **A field says what is read**, if it is there. -/
def Says (fields : Fields) (key : String) (value : Json.Value) : Prop :=
  ∀ given, fields.lookup key = some given → given = value

theorem only_ok {allowed : List String} {u : Unit} :
    only fields allowed = .ok u ↔
      ∀ key ∈ fields.map Prod.fst, key = "id" ∨ key = "cmd" ∨ key ∈ allowed := by
  rw [only]
  split
  · rename_i key hkey
    have hbad := List.find?_some hkey
    refine iff_of_false (by simp) fun h => ?_
    have := h key (List.mem_of_find?_eq_some hkey)
    simp only [decide_eq_true_eq] at hbad
    tauto
  · rename_i hnone
    refine iff_of_true rfl fun key hkey => ?_
    have := List.find?_eq_none.mp hnone key hkey
    simp only [decide_eq_true_eq] at this
    tauto

theorem text_ok {s : String} :
    text fields key max = .ok s ↔ fields.lookup key = some (.str s) ∧ s.utf8ByteSize ≤ max := by
  rw [text]
  constructor
  · intro h
    split at h
    · rename_i hs
      split_ifs at h with hmax
      obtain rfl := Except.ok.inj h
      exact ⟨hs, hmax⟩
    · exact absurd h (by simp)
    · exact absurd h (by simp)
  · rintro ⟨hs, hmax⟩
    rw [hs]
    exact if_pos hmax

theorem says_of_eq (h : fields.lookup key = some value) : Says fields key value :=
  fun _ hgiven => Option.some.inj (hgiven.symm.trans h)

theorem tabOf_ok {n : ℕ} (h : tabOf fields = .ok n) :
    Says fields "tab" (Json.whole n) ∧ 0 < n ∧ n < 2 ^ 64 := by
  rw [tabOf] at h
  split at h
  · rename_i m hm
    split at h
    · rename_i n' hn'
      obtain rfl := Except.ok.inj h
      obtain ⟨hn, hpos⟩ := Option.filter_eq_some_iff.mp hn'
      obtain ⟨hval, hlt⟩ := Json.num_eq_of_asU64 hn
      exact ⟨says_of_eq (hval ▸ hm), by simpa using hpos, hlt⟩
    · exact absurd h (by simp)
  · exact absurd h (by simp)
  · exact absurd h (by simp)

theorem flag_ok {default b : Bool} (h : flag fields key default = .ok b) :
    Says fields key (.bool b) := by
  rw [flag] at h
  split at h
  · rename_i hnone
    exact fun given hgiven => absurd (hnone.symm.trans hgiven) (by simp)
  · rename_i b' hb
    obtain rfl := Except.ok.inj h
    exact says_of_eq hb
  · exact absurd h (by simp)

theorem count_ok {default n : ℕ} (h : count fields key default max = .ok n)
    (hdefault : default ≤ max) : Says fields key (Json.whole n) ∧ n ≤ max := by
  rw [count] at h
  split at h
  · rename_i hnone
    obtain rfl := Except.ok.inj h
    exact ⟨fun given hgiven => absurd (hnone.symm.trans hgiven) (by simp), hdefault⟩
  · rename_i m hm
    split at h
    · rename_i n' hn'
      obtain rfl := Except.ok.inj h
      obtain ⟨hn, hmax⟩ := Option.filter_eq_some_iff.mp hn'
      exact ⟨says_of_eq ((Json.num_eq_of_asU64 hn).1 ▸ hm), by simpa using hmax⟩
    · exact absurd h (by simp)
  · exact absurd h (by simp)

theorem offset_ok {n : ℤ} (h : offset fields key = .ok n) :
    Says fields key (Json.whole n) ∧ n.natAbs ≤ 1000000 := by
  rw [offset] at h
  split at h
  · rename_i hnone
    obtain rfl := Except.ok.inj h
    exact ⟨fun given hgiven => absurd (hnone.symm.trans hgiven) (by simp), by simp⟩
  · rename_i m hm
    split at h
    · rename_i n' hn'
      obtain rfl := Except.ok.inj h
      obtain ⟨hn, hmax⟩ := Option.filter_eq_some_iff.mp hn'
      exact ⟨says_of_eq (Json.num_eq_of_asI64 hn ▸ hm), by simpa using hmax⟩
    · exact absurd h (by simp)
  · exact absurd h (by simp)

theorem element_ok {s : String} :
    element fields = .ok s ↔
      fields.lookup "ref" = some (.str s) ∧ s.utf8ByteSize ≤ 16 ∧ isReference s = true := by
  rw [element, Json.bind_eq_ok]
  constructor
  · rintro ⟨s', hs', h⟩
    split_ifs at h with href
    obtain rfl := Except.ok.inj h
    obtain ⟨hlookup, hmax⟩ := text_ok.mp hs'
    exact ⟨hlookup, hmax, href⟩
  · rintro ⟨hlookup, hmax, href⟩
    exact ⟨s, text_ok.mpr ⟨hlookup, hmax⟩, if_pos href⟩

theorem timeout_ok {n : ℕ} (h : timeout fields = .ok n) :
    Says fields "timeout_ms" (Json.whole n) ∧ n ≤ maxWait := count_ok h (by decide)

theorem tabOnly_ok {allowed : List String} {n : ℕ} :
    tabOnly fields allowed = .ok n ↔ only fields allowed = .ok () ∧ tabOf fields = .ok n := by
  rw [tabOnly, Json.bind_eq_ok]
  exact ⟨fun ⟨_, h, h'⟩ => ⟨h, h'⟩, fun ⟨h, h'⟩ => ⟨_, h, h'⟩⟩

end

end Reading

/-! ### Sound commands -/

/-- A tab's number. -/
def IsTab (tab : ℕ) : Prop := 0 < tab ∧ tab < 2 ^ 64

/-- An element's reference. -/
def IsReference (reference : String) : Prop :=
  reference.utf8ByteSize ≤ 16 ∧ Reading.isReference reference = true

/-- **A sound command**: what it names may be there, what it holds is within bounds, and a hello
asks for something, and not for `script`. -/
def Command.Sound : Command → Prop
  | .hello client scopes => client.utf8ByteSize ≤ 400 ∧ scopes ≠ ∅ ∧ .script ∉ scopes
  | .request _ | .status | .tabs | .bye => True
  | .read tab maxChars => IsTab tab ∧ maxChars ≤ maxRead
  | .snapshot tab elements => IsTab tab ∧ elements ≤ maxElements
  | .screenshot tab | .select tab | .close tab => IsTab tab
  | .wait tab timeout => IsTab tab ∧ timeout ≤ maxWait
  | .open url _ timeout => url.utf8ByteSize ≤ maxUrl ∧ timeout ≤ maxWait
  | .goto tab url _ timeout => IsTab tab ∧ url.utf8ByteSize ≤ maxUrl ∧ timeout ≤ maxWait
  | .history tab _ _ timeout => IsTab tab ∧ timeout ≤ maxWait
  | .click tab element => IsTab tab ∧ IsReference element
  | .type tab element text _ => IsTab tab ∧ IsReference element ∧ text.utf8ByteSize ≤ maxText
  | .scroll tab element dx dy => IsTab tab ∧ (∀ reference ∈ element, IsReference reference) ∧
      dx.natAbs ≤ 1000000 ∧ dy.natAbs ≤ 1000000
  | .eval tab script => IsTab tab ∧ script.utf8ByteSize ≤ maxRequest

instance (c : Command) : Decidable c.Sound := by
  cases c <;> unfold Command.Sound <;> try unfold IsTab
  all_goals try unfold IsReference
  all_goals infer_instance

/-- `Command::name`. -/
def Command.name : Command → String
  | .hello _ _ => "hello"
  | .request _ => "request"
  | .status => "status"
  | .tabs => "tabs"
  | .read _ _ => "read"
  | .snapshot _ _ => "snapshot"
  | .screenshot _ => "screenshot"
  | .wait _ _ => "wait"
  | .open _ _ _ => "open"
  | .goto _ _ _ _ => "goto"
  | .history _ .back _ _ => "back"
  | .history _ .forward _ _ => "forward"
  | .history _ .reload _ _ => "reload"
  | .history _ .stop _ _ => "stop"
  | .select _ => "select"
  | .close _ => "close"
  | .click _ _ => "click"
  | .type _ _ _ _ => "type"
  | .scroll _ _ _ _ => "scroll"
  | .eval _ _ => "eval"
  | .bye => "bye"

/-- The fields of a command, each of them given. -/
def Command.given : Command → Fields
  | .hello client scopes =>
    [("client", .str client), ("scopes", .arr (scopes.ids.map .str))]
  | .request scope => [("scope", .str scope.id)]
  | .status | .tabs | .bye => []
  | .read tab maxChars => [("tab", Json.whole tab), ("max_chars", Json.whole maxChars)]
  | .snapshot tab elements => [("tab", Json.whole tab), ("max_elements", Json.whole elements)]
  | .screenshot tab | .select tab | .close tab => [("tab", Json.whole tab)]
  | .wait tab timeout => [("tab", Json.whole tab), ("timeout_ms", Json.whole timeout)]
  | .open url waits timeout =>
    [("url", .str url), ("wait", .bool waits), ("timeout_ms", Json.whole timeout)]
  | .goto tab url waits timeout =>
    [("tab", Json.whole tab), ("url", .str url), ("wait", .bool waits),
      ("timeout_ms", Json.whole timeout)]
  | .history tab _ waits timeout =>
    [("tab", Json.whole tab), ("wait", .bool waits), ("timeout_ms", Json.whole timeout)]
  | .click tab element => [("tab", Json.whole tab), ("ref", .str element)]
  | .type tab element text submit =>
    [("tab", Json.whole tab), ("ref", .str element), ("text", .str text), ("submit", .bool submit)]
  | .scroll tab element dx dy =>
    [("tab", Json.whole tab), ("dx", Json.whole dx), ("dy", Json.whole dy)] ++
      element.toList.map fun reference => ("ref", .str reference)
  | .eval tab script => [("tab", Json.whole tab), ("script", .str script)]

/-- **A request that says all of a command.** -/
def Command.fields (c : Command) : Fields := ("cmd", .str c.name) :: c.given

/-- **Nothing is guessed at**: whatever field a request gives but its id, and the list of its
scopes, the command has it as it is given. -/
def Honest (fields : Fields) (c : Command) : Prop :=
  ∀ key value, fields.lookup key = some value →
    key = "id" ∨ key = "scopes" ∨ c.fields.lookup key = some value

namespace Reading

section

variable {fields : Fields} {c : Command}

theorem honest_of_only {allowed : List String} (honly : only fields allowed = .ok ())
    (hcmd : fields.lookup "cmd" = some (.str c.name))
    (hall : ∀ key ∈ allowed, key = "scopes" ∨ fields.lookup key = none ∨
      ∃ value, c.fields.lookup key = some value ∧ Says fields key value) : Honest fields c := by
  intro key value hvalue
  have hkey : key ∈ fields.map Prod.fst := by
    by_contra hkey
    have hnone : fields.lookup key = none := List.lookup_eq_none_iff.mpr fun f hf =>
      bne_iff_ne.mpr fun heq => hkey (heq ▸ List.mem_map_of_mem hf)
    exact absurd (hnone.symm.trans hvalue) (by simp)
  rcases only_ok.mp honly key hkey with rfl | rfl | hallowed
  · exact .inl rfl
  · refine .inr (.inr ?_)
    rw [Option.some.inj (hvalue.symm.trans hcmd)]
    simp [Command.fields]
  · rcases hall key hallowed with h | h | ⟨v, hv, hstates⟩
    · exact .inr (.inl h)
    · exact absurd (h.symm.trans hvalue) (by simp)
    · exact .inr (.inr (hstates value hvalue ▸ hv))

/-- Of a command with a tab. -/
theorem honest_of_tabOnly {allowed : List String} {tab : ℕ}
    (htab : tabOnly fields ("tab" :: allowed) = .ok tab)
    (hcmd : fields.lookup "cmd" = some (.str c.name))
    (hgiven : c.fields.lookup "tab" = some (Json.whole tab))
    (hall : ∀ key ∈ allowed, fields.lookup key = none ∨
      ∃ value, c.fields.lookup key = some value ∧ Says fields key value) :
    IsTab tab ∧ Honest fields c := by
  obtain ⟨honly, htab⟩ := tabOnly_ok.mp htab
  obtain ⟨hstates, hsound⟩ := tabOf_ok htab
  refine ⟨hsound, honest_of_only honly hcmd fun key hkey => .inr ?_⟩
  rcases List.mem_cons.mp hkey with rfl | hkey
  · exact .inr ⟨_, hgiven, hstates⟩
  · exact hall key hkey

theorem isReference_of_element {reference : String} (h : element fields = .ok reference) :
    Says fields "ref" (.str reference) ∧ IsReference reference :=
  have h' := element_ok.mp h
  ⟨says_of_eq h'.1, h'.2⟩

theorem hello_ok {client : String} {scopes : Scopes} (hclient : helloClient fields = .ok client)
    (hscopes : helloScopes fields = .ok scopes) :
    Says fields "client" (.str client) ∧ (Command.hello client scopes).Sound := by
  have hsound : Says fields "client" (.str client) ∧ client.utf8ByteSize ≤ 400 := by
    rw [helloClient] at hclient
    split at hclient
    · rename_i hnone
      obtain rfl := Except.ok.inj hclient
      exact ⟨fun given hgiven => absurd (hnone.symm.trans hgiven) (by simp), by decide⟩
    · rename_i s hs
      split_ifs at hclient with hsize
      obtain rfl := Except.ok.inj hclient
      exact ⟨says_of_eq hs, hsize⟩
    · exact absurd hclient (by simp)
  refine ⟨hsound.1, hsound.2, ?_⟩
  rw [helloScopes] at hscopes
  split at hscopes
  · obtain rfl := Except.ok.inj hscopes
    decide
  · obtain ⟨names, -, hnames⟩ := Json.bind_eq_ok.mp hscopes
    split at hnames
    · rename_i scopes' hparsed
      obtain rfl := Except.ok.inj hnames
      exact Scopes.sound_of_parseList hparsed
    · exact absurd hnames (by simp)
  · exact absurd hscopes (by simp)

theorem scope_of_parse {name : String} {scope : Scope} (h : Scope.parse name = some scope) :
    scope.id = name := by simpa using List.find?_some h

theorem history_ok {step : Step} {name : String}
    (hcmd : fields.lookup "cmd" = some (.str name))
    (hname : ∀ tab waits timeout, (Command.history tab step waits timeout).name = name)
    (h : history fields step = .ok c) : c.Sound ∧ Honest fields c := by
  simp only [history, Json.bind_eq_ok, Json.pure_eq_ok] at h
  obtain ⟨tab, htab, waits, hwaits, timeout, htimeout, rfl⟩ := h
  obtain ⟨hstates, hmax⟩ := timeout_ok htimeout
  obtain ⟨hsound, hhonest⟩ := honest_of_tabOnly (c := .history tab step waits timeout) htab
    (by rw [hname, hcmd]) rfl (by
      rw [List.forall_mem_cons, List.forall_mem_singleton]
      exact ⟨.inr ⟨_, rfl, flag_ok hwaits⟩, .inr ⟨_, rfl, hstates⟩⟩)
  exact ⟨⟨hsound, hmax⟩, hhonest⟩

/-- **What is accepted is sound**, and nothing is guessed at. -/
theorem sound_of_commandOf {name : String} (hcmd : fields.lookup "cmd" = some (.str name))
    (h : commandOf fields name = .ok c) : c.Sound ∧ Honest fields c := by
  unfold commandOf at h
  split at h
  all_goals try simp only [Json.bind_eq_ok, Json.pure_eq_ok] at h
  · obtain ⟨u, honly, client, hclient, scopes, hscopes, rfl⟩ := h
    obtain ⟨hstates, hsound⟩ := hello_ok hclient hscopes
    refine ⟨hsound, honest_of_only honly hcmd ?_⟩
    rw [List.forall_mem_cons, List.forall_mem_singleton]
    exact ⟨.inr (.inr ⟨_, rfl, hstates⟩), .inl rfl⟩
  · obtain ⟨u, honly, name, hname, h⟩ := h
    split at h
    · rename_i scope hscope
      obtain rfl := Except.ok.inj h
      refine ⟨trivial, honest_of_only honly hcmd ?_⟩
      rw [List.forall_mem_singleton]
      refine .inr (.inr ⟨_, rfl, ?_⟩)
      rw [scope_of_parse hscope]
      exact says_of_eq (text_ok.mp hname).1
    · exact absurd h (by simp)
  · obtain ⟨u, honly, rfl⟩ := h
    exact ⟨trivial, honest_of_only honly hcmd (by simp)⟩
  · obtain ⟨u, honly, rfl⟩ := h
    exact ⟨trivial, honest_of_only honly hcmd (by simp)⟩
  · obtain ⟨u, honly, rfl⟩ := h
    exact ⟨trivial, honest_of_only honly hcmd (by simp)⟩
  · obtain ⟨tab, htab, chars, hchars, rfl⟩ := h
    obtain ⟨hstates, hmax⟩ := count_ok hchars (by decide)
    obtain ⟨hsound, hhonest⟩ := honest_of_tabOnly (c := .read tab chars) htab hcmd rfl (by
      rw [List.forall_mem_singleton]
      exact .inr ⟨_, rfl, hstates⟩)
    exact ⟨⟨hsound, hmax⟩, hhonest⟩
  · obtain ⟨tab, htab, elements, helements, rfl⟩ := h
    obtain ⟨hstates, hmax⟩ := count_ok helements (by decide)
    obtain ⟨hsound, hhonest⟩ := honest_of_tabOnly (c := .snapshot tab elements) htab hcmd rfl (by
      rw [List.forall_mem_singleton]
      exact .inr ⟨_, rfl, hstates⟩)
    exact ⟨⟨hsound, hmax⟩, hhonest⟩
  · obtain ⟨tab, htab, rfl⟩ := h
    exact honest_of_tabOnly (c := .screenshot tab) htab hcmd rfl (by simp)
  · obtain ⟨tab, htab, timeout, htimeout, rfl⟩ := h
    obtain ⟨hstates, hmax⟩ := timeout_ok htimeout
    obtain ⟨hsound, hhonest⟩ := honest_of_tabOnly (c := .wait tab timeout) htab hcmd rfl (by
      rw [List.forall_mem_singleton]
      exact .inr ⟨_, rfl, hstates⟩)
    exact ⟨⟨hsound, hmax⟩, hhonest⟩
  · obtain ⟨u, honly, url, hurl, waits, hwaits, timeout, htimeout, rfl⟩ := h
    obtain ⟨hstates, hmax⟩ := timeout_ok htimeout
    obtain ⟨hlookup, hsize⟩ := text_ok.mp hurl
    refine ⟨⟨hsize, hmax⟩, honest_of_only honly hcmd ?_⟩
    rw [List.forall_mem_cons, List.forall_mem_cons, List.forall_mem_singleton]
    exact ⟨.inr (.inr ⟨_, rfl, says_of_eq hlookup⟩), .inr (.inr ⟨_, rfl, flag_ok hwaits⟩),
      .inr (.inr ⟨_, rfl, hstates⟩)⟩
  · obtain ⟨tab, htab, url, hurl, waits, hwaits, timeout, htimeout, rfl⟩ := h
    obtain ⟨hstates, hmax⟩ := timeout_ok htimeout
    obtain ⟨hlookup, hsize⟩ := text_ok.mp hurl
    obtain ⟨hsound, hhonest⟩ := honest_of_tabOnly (c := .goto tab url waits timeout) htab hcmd rfl
      (by
        rw [List.forall_mem_cons, List.forall_mem_cons, List.forall_mem_singleton]
        exact ⟨.inr ⟨_, rfl, says_of_eq hlookup⟩, .inr ⟨_, rfl, flag_ok hwaits⟩,
          .inr ⟨_, rfl, hstates⟩⟩)
    exact ⟨⟨hsound, hsize, hmax⟩, hhonest⟩
  · exact history_ok hcmd (fun _ _ _ => rfl) h
  · exact history_ok hcmd (fun _ _ _ => rfl) h
  · exact history_ok hcmd (fun _ _ _ => rfl) h
  · exact history_ok hcmd (fun _ _ _ => rfl) h
  · obtain ⟨tab, htab, rfl⟩ := h
    exact honest_of_tabOnly (c := .select tab) htab hcmd rfl (by simp)
  · obtain ⟨tab, htab, rfl⟩ := h
    exact honest_of_tabOnly (c := .close tab) htab hcmd rfl (by simp)
  · obtain ⟨tab, htab, reference, hreference, rfl⟩ := h
    obtain ⟨hstates, href⟩ := isReference_of_element hreference
    obtain ⟨hsound, hhonest⟩ := honest_of_tabOnly (c := .click tab reference) htab hcmd rfl (by
      rw [List.forall_mem_singleton]
      exact .inr ⟨_, rfl, hstates⟩)
    exact ⟨⟨hsound, href⟩, hhonest⟩
  · obtain ⟨tab, htab, reference, hreference, typed, htyped, submit, hsubmit, rfl⟩ := h
    obtain ⟨hstates, href⟩ := isReference_of_element hreference
    obtain ⟨hlookup, hsize⟩ := text_ok.mp htyped
    obtain ⟨hsound, hhonest⟩ := honest_of_tabOnly (c := .type tab reference typed submit) htab hcmd
      rfl (by
        rw [List.forall_mem_cons, List.forall_mem_cons, List.forall_mem_singleton]
        exact ⟨.inr ⟨_, rfl, hstates⟩, .inr ⟨_, rfl, says_of_eq hlookup⟩,
          .inr ⟨_, rfl, flag_ok hsubmit⟩⟩)
    exact ⟨⟨hsound, href, hsize⟩, hhonest⟩
  · obtain ⟨tab, htab, reference, hreference, dx, hdx, dy, hdy, rfl⟩ := h
    obtain ⟨hx, hxmax⟩ := offset_ok hdx
    obtain ⟨hy, hymax⟩ := offset_ok hdy
    rw [scrolledTo] at hreference
    split_ifs at hreference with hgiven
    · obtain ⟨reference, helement, rfl⟩ := Json.map_eq_ok.mp hreference
      obtain ⟨hstates, href⟩ := isReference_of_element helement
      obtain ⟨hsound, hhonest⟩ := honest_of_tabOnly (c := .scroll tab (some reference) dx dy) htab
        hcmd rfl (by
          rw [List.forall_mem_cons, List.forall_mem_cons, List.forall_mem_singleton]
          exact ⟨.inr ⟨_, rfl, hstates⟩, .inr ⟨_, rfl, hx⟩, .inr ⟨_, rfl, hy⟩⟩)
      exact ⟨⟨hsound, by simpa using href, hxmax, hymax⟩, hhonest⟩
    · obtain rfl := Except.ok.inj hreference
      obtain ⟨hsound, hhonest⟩ := honest_of_tabOnly (c := .scroll tab none dx dy) htab hcmd rfl (by
        rw [List.forall_mem_cons, List.forall_mem_cons, List.forall_mem_singleton]
        exact ⟨.inl (Option.not_isSome_iff_eq_none.mp hgiven), .inr ⟨_, rfl, hx⟩, .inr ⟨_, rfl, hy⟩⟩)
      exact ⟨⟨hsound, by simp, hxmax, hymax⟩, hhonest⟩
  · obtain ⟨tab, htab, script, hscript, rfl⟩ := h
    obtain ⟨hlookup, hsize⟩ := text_ok.mp hscript
    obtain ⟨hsound, hhonest⟩ := honest_of_tabOnly (c := .eval tab script) htab hcmd rfl (by
      rw [List.forall_mem_singleton]
      exact .inr ⟨_, rfl, says_of_eq hlookup⟩)
    exact ⟨⟨hsound, hsize⟩, hhonest⟩
  · exact absurd h (by simp)

/-! ### Each sound command is what some request says -/

theorem only_of_keys {allowed : List String} (h : fields.map Prod.fst ⊆ "cmd" :: allowed) :
    only fields allowed = .ok () :=
  only_ok.mpr fun _ hkey => .inr (List.mem_cons.mp (h hkey))

theorem tabOf_of_lookup {n : ℕ} (h : fields.lookup "tab" = some (Json.whole n)) (hn : IsTab n) :
    tabOf fields = .ok n := by
  obtain ⟨m, hm, hval⟩ := Json.exists_num_of_lt hn.2
  rw [tabOf, h, hm]
  simp [hval, Option.filter, hn.1]

theorem tabOnly_of_lookup {n : ℕ} {allowed : List String}
    (h : fields.map Prod.fst ⊆ "cmd" :: allowed)
    (hlookup : fields.lookup "tab" = some (Json.whole n)) (hn : IsTab n) :
    tabOnly fields allowed = .ok n := tabOnly_ok.mpr ⟨only_of_keys h, tabOf_of_lookup hlookup hn⟩

theorem flag_of_lookup {key : String} {default b : Bool}
    (h : fields.lookup key = some (.bool b)) : flag fields key default = .ok b := by
  rw [flag, h]

theorem count_of_lookup {key : String} {default max n : ℕ}
    (h : fields.lookup key = some (Json.whole n)) (hn : n ≤ max) (hmax : max < 2 ^ 64) :
    count fields key default max = .ok n := by
  obtain ⟨m, hm, hval⟩ := Json.exists_num_of_lt (hn.trans_lt hmax)
  rw [count, h, hm]
  simp [hval, Option.filter, hn]

theorem offset_of_lookup {key : String} {n : ℤ} (h : fields.lookup key = some (Json.whole n))
    (hn : n.natAbs ≤ 1000000) : offset fields key = .ok n := by
  obtain ⟨m, hm, hval⟩ := Json.exists_num_of_natAbs (m := n) (by omega)
  rw [offset, h, hm]
  simp [hval, Option.filter, hn]

theorem namesOf_map (names : List String) : namesOf (names.map .str) = .ok names := by
  rw [namesOf]
  induction names with
  | nil => rfl
  | cons name names ih =>
    rw [List.map_cons, List.mapM_cons, ih]
    rfl

theorem timeout_of_lookup {n : ℕ} (h : fields.lookup "timeout_ms" = some (Json.whole n))
    (hn : n ≤ maxWait) : timeout fields = .ok n := count_of_lookup h hn (by decide)

theorem helloScopes_ids {scopes : Scopes} (hne : scopes ≠ ∅) (hscript : Scope.script ∉ scopes)
    (h : fields.lookup "scopes" = some (.arr (scopes.ids.map .str))) :
    helloScopes fields = .ok scopes := by
  rw [helloScopes, h]
  refine Json.bind_of_eq_ok (namesOf_map scopes.ids) ?_
  rw [Scopes.parseList_ids hne hscript]

open Json (bind_of_eq_ok) in
/-- **A request that says all of a sound command is accepted as it.** -/
theorem command_fields (hsound : c.Sound) : command c.fields = .ok c := by
  cases c with
  | hello client scopes =>
    obtain ⟨hsize, hne, hscript⟩ := hsound
    exact bind_of_eq_ok (only_of_keys (by simp [Command.fields, Command.given]))
      (bind_of_eq_ok (if_pos hsize) (bind_of_eq_ok (helloScopes_ids hne hscript rfl) rfl))
  | request scope =>
    refine bind_of_eq_ok (only_of_keys (by simp [Command.fields, Command.given]))
      (bind_of_eq_ok (text_ok.mpr ⟨rfl, ?_⟩) ?_)
    · cases scope <;> decide +kernel
    · rw [Scope.parse_id]
  | status => rfl
  | tabs => rfl
  | bye => rfl
  | read tab chars =>
    exact bind_of_eq_ok
      (tabOnly_of_lookup (by simp [Command.fields, Command.given]) rfl hsound.1)
      (bind_of_eq_ok (count_of_lookup rfl hsound.2 (by decide)) rfl)
  | snapshot tab elements =>
    exact bind_of_eq_ok
      (tabOnly_of_lookup (by simp [Command.fields, Command.given]) rfl hsound.1)
      (bind_of_eq_ok (count_of_lookup rfl hsound.2 (by decide)) rfl)
  | screenshot tab =>
    exact bind_of_eq_ok (tabOnly_of_lookup (by simp [Command.fields, Command.given]) rfl hsound) rfl
  | wait tab time =>
    exact bind_of_eq_ok
      (tabOnly_of_lookup (by simp [Command.fields, Command.given]) rfl hsound.1)
      (bind_of_eq_ok (timeout_of_lookup rfl hsound.2) rfl)
  | «open» url waits time =>
    exact bind_of_eq_ok (only_of_keys (by simp [Command.fields, Command.given]))
      (bind_of_eq_ok (text_ok.mpr ⟨rfl, hsound.1⟩)
        (bind_of_eq_ok (flag_of_lookup rfl) (bind_of_eq_ok (timeout_of_lookup rfl hsound.2) rfl)))
  | goto tab url waits time =>
    obtain ⟨htab, hsize, hmax⟩ := hsound
    exact bind_of_eq_ok (tabOnly_of_lookup (by simp [Command.fields, Command.given]) rfl htab)
      (bind_of_eq_ok (text_ok.mpr ⟨rfl, hsize⟩)
        (bind_of_eq_ok (flag_of_lookup rfl) (bind_of_eq_ok (timeout_of_lookup rfl hmax) rfl)))
  | history tab step waits time =>
    have hstep : history (Command.history tab step waits time).fields step =
        .ok (.history tab step waits time) :=
      bind_of_eq_ok
        (tabOnly_of_lookup (by simp [Command.fields, Command.given]) rfl hsound.1)
        (bind_of_eq_ok (flag_of_lookup rfl) (bind_of_eq_ok (timeout_of_lookup rfl hsound.2) rfl))
    cases step <;> exact hstep
  | select tab =>
    exact bind_of_eq_ok (tabOnly_of_lookup (by simp [Command.fields, Command.given]) rfl hsound) rfl
  | close tab =>
    exact bind_of_eq_ok (tabOnly_of_lookup (by simp [Command.fields, Command.given]) rfl hsound) rfl
  | click tab reference =>
    exact bind_of_eq_ok
      (tabOnly_of_lookup (by simp [Command.fields, Command.given]) rfl hsound.1)
      (bind_of_eq_ok (element_ok.mpr ⟨rfl, hsound.2⟩) rfl)
  | type tab reference typed submit =>
    obtain ⟨htab, href, hsize⟩ := hsound
    exact bind_of_eq_ok (tabOnly_of_lookup (by simp [Command.fields, Command.given]) rfl htab)
      (bind_of_eq_ok (element_ok.mpr ⟨rfl, href⟩) (bind_of_eq_ok (text_ok.mpr ⟨rfl, hsize⟩)
        (bind_of_eq_ok (flag_of_lookup rfl) rfl)))
  | scroll tab reference dx dy =>
    obtain ⟨htab, href, hx, hy⟩ := hsound
    have hread : scrolledTo (Command.scroll tab reference dx dy).fields = .ok reference := by
      cases reference with
      | none => rfl
      | some reference =>
        exact Json.map_eq_ok.mpr ⟨reference, element_ok.mpr ⟨rfl, href reference rfl⟩, rfl⟩
    refine bind_of_eq_ok (tabOnly_of_lookup ?_ rfl htab) (bind_of_eq_ok hread
      (bind_of_eq_ok (offset_of_lookup rfl hx) (bind_of_eq_ok (offset_of_lookup rfl hy) rfl)))
    cases reference <;> simp [Command.fields, Command.given]
  | eval tab script =>
    exact bind_of_eq_ok
      (tabOnly_of_lookup (by simp [Command.fields, Command.given]) rfl hsound.1)
      (bind_of_eq_ok (text_ok.mpr ⟨rfl, hsound.2⟩) rfl)

/-- **The commands that are accepted are the sound ones**, and nothing in a request is guessed
at. -/
theorem command_ok_iff :
    ((∃ fields, command fields = .ok c) ↔ c.Sound) ∧
      ∀ fields, command fields = .ok c → Honest fields c := by
  have hsound : ∀ fields, command fields = .ok c → c.Sound ∧ Honest fields c := by
    intro fields h
    rw [command] at h
    split at h
    · rename_i name hname
      exact sound_of_commandOf hname h
    · exact absurd h (by simp)
    · exact absurd h (by simp)
  exact ⟨⟨fun ⟨fields, h⟩ => (hsound fields h).1, fun h => ⟨c.fields, command_fields h⟩⟩,
    fun fields h => (hsound fields h).2⟩

end

end Reading

/-- `Request`. -/
structure Request where
  id : Json.Value
  command : Command

/-- Whether a value may be a request's id. -/
def isId : Json.Value → Bool
  | .null | .num _ | .str _ => true
  | _ => false

/-- Whether an id is too long to be echoed. -/
def isTooLong : Json.Value → Bool
  | .str s => 200 < s.utf8ByteSize
  | _ => false

/-- `parse_request`: on a failure, with the id if one could be read. `fromStr` is
`serde_json::from_str`, and what its errors say. -/
def parseRequest (fromStr : String → Except String Json.Value) (line : String) :
    Except (Json.Value × Failure) Request :=
  match fromStr line with
  | .error e => .error (.null, .bad ("not JSON: " ++ e))
  | .ok (.obj fields) =>
    let id := (fields.lookup "id").getD .null
    if !isId id then .error (.null, .bad "id is a number or a string")
    else if isTooLong id then .error (.null, .bad "id is too long")
    else
      match Reading.command fields with
      | .ok command => .ok ⟨id, command⟩
      | .error failure => .error (id, failure)
  | .ok _ => .error (.null, .bad "a request is a JSON object")

end Syndeo.App
