import Syndeo.App.Requests
import Syndeo.Concurrent.Events

/-!
# The tools of an agent

Beside its own protocol, the application is driven through the Model Context Protocol: a server
answers lines of JSON-RPC, and makes each call of a tool into a request to the application. What
the server may ask the application for is the matter here. Whatever is sent to it, a request it
makes is a tool's, of a command that needs a scope, or it is the one that asks for `script`
alone, and that directly after a script was refused for want of it
(`Syndeo.App.Mcp.justified_of_serve`). And what a tool says of its arguments is what the
application reads: arguments that fit are accepted if and only if they are within its bounds
(`Syndeo.App.Tool.accepted_iff`).
-/

namespace Syndeo.App

open Json (Fields)

/-! ### Tools -/

/-- What is said of an argument: its type, and what else is asked of it. -/
inductive Property
  | integer (minimum : Option ℤ) (description : Option String)
  | string (among : Option (List String)) (description : Option String)
  | boolean

/-- An argument's schema. -/
def Property.value : Property → Json.Value
  | .integer minimum description =>
    .obj ([("type", .str "integer")] ++ (minimum.map fun m => ("minimum", Json.whole m)).toList ++
      (description.map fun d => ("description", .str d)).toList)
  | .string among description =>
    .obj ([("type", .str "string")] ++
      (among.map fun names => ("enum", .arr (names.map .str))).toList ++
      (description.map fun d => ("description", .str d)).toList)
  | .boolean => .obj [("type", .str "boolean")]

/-- A tool. -/
structure Tool where
  name : String
  description : String
  properties : List (String × Property)
  required : List String

/-- `tool`: what `tools/list` says of a tool. -/
def Tool.value (t : Tool) : Json.Value :=
  .obj [("name", .str t.name), ("description", .str t.description), ("inputSchema", .obj [
    ("type", .str "object"), ("properties", .obj (t.properties.map fun p => (p.1, p.2.value))),
    ("required", .arr (t.required.map .str)), ("additionalProperties", .bool false)])]

/-- The schema of a tab. -/
def tabProperty : Property :=
  .integer (some 1) (some "The tab's number, from syndeo_open or syndeo_tabs.")

/-- The schema of an element. -/
def referenceProperty : Property :=
  .string none (some "An element's reference from syndeo_snapshot, such as e12.")

/-- The schema of a text. -/
def textProperty : Property := .string none none

/-- The schema of a count. -/
def countProperty : Property := .integer (some 0) none

/-- `tools`. -/
def tools : List Tool :=
  [⟨"syndeo_open", "Open a web address in a new Syndeo tab the person can see, and wait for it to " ++
      "load. Returns the tab's number, address, title and route. Only http and https addresses.",
      [("url", textProperty), ("wait", .boolean)], ["url"]⟩,
    ⟨"syndeo_goto", "Go to a web address in one of your tabs, and wait for it to load.",
      [("tab", tabProperty), ("url", textProperty)], ["tab", "url"]⟩,
    ⟨"syndeo_tabs", "List your tabs: number, address, title, whether loading, route.", [], []⟩,
    ⟨"syndeo_read", "The text of a tab's page, with its address, title and route.",
      [("tab", tabProperty), ("max_chars", countProperty)], ["tab"]⟩,
    ⟨"syndeo_snapshot", "The visible links, buttons and fields of a tab's page, each with a " ++
      "reference to click or type into.",
      [("tab", tabProperty), ("max_elements", countProperty)], ["tab"]⟩,
    ⟨"syndeo_click", "Click an element, by its reference from syndeo_snapshot.",
      [("tab", tabProperty), ("ref", referenceProperty)], ["tab", "ref"]⟩,
    ⟨"syndeo_type", "Type text into a field, replacing what is there; with submit, then submit " ++
      "its form.",
      [("tab", tabProperty), ("ref", referenceProperty), ("text", textProperty),
        ("submit", .boolean)], ["tab", "ref", "text"]⟩,
    ⟨"syndeo_scroll", "Scroll a tab's page by dx and dy points, or bring an element into view.",
      [("tab", tabProperty), ("ref", referenceProperty), ("dx", .integer none none),
        ("dy", .integer none none)], ["tab"]⟩,
    ⟨"syndeo_navigate", "Back, forward, reload or stop, in one of your tabs.",
      [("tab", tabProperty), ("action", .string (some ["back", "forward", "reload", "stop"]) none)],
      ["tab", "action"]⟩,
    ⟨"syndeo_wait", "Wait for a tab's page to finish loading.",
      [("tab", tabProperty), ("timeout_ms", countProperty)], ["tab"]⟩,
    ⟨"syndeo_screenshot", "A picture of a tab's page, as PNG.", [("tab", tabProperty)], ["tab"]⟩,
    ⟨"syndeo_select", "Bring one of your tabs to the front.", [("tab", tabProperty)], ["tab"]⟩,
    ⟨"syndeo_close", "Close one of your tabs.", [("tab", tabProperty)], ["tab"]⟩,
    ⟨"syndeo_eval", "Run JavaScript in a tab's page, as the body of an async function: use return " ++
      "to give back a JSON value. The person is asked separately before the first time.",
      [("tab", tabProperty), ("script", textProperty)], ["tab", "script"]⟩]

/-- The command that a tool is, by its name; `syndeo_navigate` is several. -/
def commandFor : String → Option String
  | "syndeo_open" => some "open"
  | "syndeo_goto" => some "goto"
  | "syndeo_tabs" => some "tabs"
  | "syndeo_read" => some "read"
  | "syndeo_snapshot" => some "snapshot"
  | "syndeo_click" => some "click"
  | "syndeo_type" => some "type"
  | "syndeo_scroll" => some "scroll"
  | "syndeo_wait" => some "wait"
  | "syndeo_screenshot" => some "screenshot"
  | "syndeo_select" => some "select"
  | "syndeo_close" => some "close"
  | "syndeo_eval" => some "eval"
  | _ => none

/-- `request_for`, of `syndeo_navigate`: of the arguments, `cmd` is written over, and `id` goes
with the request. -/
def navigateRequest (arguments : Fields) : Except String Fields :=
  match arguments.lookup "action" with
  | some (.str action) =>
    if action ∈ ["back", "forward", "reload", "stop"] then
      .ok (Fields.insert "cmd" (.str action) (Fields.remove "action" arguments))
    else .error "action is back, forward, reload or stop"
  | _ => .error "action is back, forward, reload or stop"

/-- `request_for`: the request to the application that a tool's call makes. -/
def requestFor (tool : String) (arguments : Fields) : Except String Fields :=
  if tool = "syndeo_navigate" then navigateRequest arguments
  else
    match commandFor tool with
    | none => .error (tool ++ " is not one of Syndeo's tools")
    | some cmd =>
      if (arguments.lookup "cmd").isSome ∨ (arguments.lookup "id").isSome then
        .error "cmd and id are not arguments"
      else .ok (Fields.insert "cmd" (.str cmd) arguments)

/-! ### What a tool says of its arguments -/

/-- An argument is what is said of it. -/
def Property.Fits : Property → Json.Value → Prop
  | .integer minimum _, .num (.whole n) => ∀ m ∈ minimum, m ≤ n.val
  | .string among _, .str s => ∀ names ∈ among, s ∈ names
  | .boolean, .bool _ => True
  | _, _ => False

/-- **The arguments fit**: each is one that the tool has, and is what is said of it, and none that
is required is left out. -/
structure Tool.Fits (t : Tool) (arguments : Fields) : Prop where
  property : ∀ key value, arguments.lookup key = some value →
    ∃ p, t.properties.lookup key = some p ∧ p.Fits value
  required : ∀ key ∈ t.required, ∃ value, arguments.lookup key = some value

/-- The bounds on texts, in bytes. -/
def textBounds : List (String × ℕ) := [("url", maxUrl), ("text", maxText), ("script", maxRequest)]

/-- The bounds on counts. -/
def countBounds : List (String × ℕ) :=
  [("max_chars", maxRead), ("max_elements", maxElements), ("timeout_ms", maxWait)]

/-- An argument is within its bounds, and a reference is one. -/
structure Bounded (key : String) (value : Json.Value) : Prop where
  text : ∀ s, value = .str s → ∀ max, textBounds.lookup key = some max → s.utf8ByteSize ≤ max
  reference : ∀ s, value = .str s → key = "ref" → IsReference s
  count : ∀ n, value = .num (.whole n) → ∀ max, countBounds.lookup key = some max → n.val ≤ max
  offset : ∀ n, value = .num (.whole n) → key = "dx" ∨ key = "dy" → n.val.natAbs ≤ 1000000

/-- **The arguments are within the application's bounds**, of which the tools say nothing. -/
def Within (arguments : Fields) : Prop :=
  ∀ key value, arguments.lookup key = some value → Bounded key value

section

variable {fields arguments : Fields} {key cmd s : String} {c : Command} {t : Tool} {n : ℤ}

theorem whole_inj {m : Json.Whole} (h : Json.whole n = .num (.whole m)) : m.val = n := by
  rw [Json.whole] at h
  split_ifs at h
  injection h with h
  injection h with h
  exact h ▸ rfl

theorem whole_ne_str : Json.whole n ≠ .str s := by
  rw [Json.whole]
  split_ifs <;> exact Json.Value.noConfusion

theorem bounded_str (htext : ∀ max, textBounds.lookup key = some max → s.utf8ByteSize ≤ max)
    (hreference : key = "ref" → IsReference s) : Bounded key (.str s) where
  text s' hs' := by
    obtain rfl := Json.Value.str.inj hs'
    exact htext
  reference s' hs' := by
    obtain rfl := Json.Value.str.inj hs'
    exact hreference
  count _ h := Json.Value.noConfusion h
  offset _ h := Json.Value.noConfusion h

/-- A text that there is no bound on. -/
theorem bounded_str_of_ne (htext : textBounds.lookup key = none) (hreference : key ≠ "ref") :
    Bounded key (.str s) :=
  bounded_str (fun _ h => absurd (htext.symm.trans h) (by simp)) fun h => absurd h hreference

theorem bounded_text {max : ℕ} (htext : textBounds.lookup key = some max) (hreference : key ≠ "ref")
    (hs : s.utf8ByteSize ≤ max) : Bounded key (.str s) :=
  bounded_str (fun _ h => Option.some.inj (htext.symm.trans h) ▸ hs) fun h => absurd h hreference

theorem bounded_reference (hs : IsReference s) : Bounded "ref" (.str s) :=
  have hnone : textBounds.lookup "ref" = none := by decide +kernel
  bounded_str (fun _ h => absurd (hnone.symm.trans h) (by simp)) fun _ => hs

theorem bounded_whole (hcount : ∀ max, countBounds.lookup key = some max → n ≤ max)
    (hoffset : key = "dx" ∨ key = "dy" → n.natAbs ≤ 1000000) : Bounded key (Json.whole n) where
  text _ h := absurd h whole_ne_str
  reference _ h := absurd h whole_ne_str
  count _ hm max hmax := whole_inj hm ▸ hcount max hmax
  offset _ hm hkey := whole_inj hm ▸ hoffset hkey

theorem bounded_tab : Bounded "tab" (Json.whole n) :=
  have hnone : countBounds.lookup "tab" = none := by decide +kernel
  bounded_whole (fun _ h => absurd (hnone.symm.trans h) (by simp)) fun h =>
    absurd h (by decide +kernel)

theorem bounded_count {max m : ℕ} (hcount : countBounds.lookup key = some max)
    (hkey : ¬(key = "dx" ∨ key = "dy")) (hm : m ≤ max) : Bounded key (Json.whole m) :=
  bounded_whole (fun _ h => Option.some.inj (hcount.symm.trans h) ▸ Int.ofNat_le.mpr hm)
    fun h => absurd h hkey

theorem bounded_offset (hkey : countBounds.lookup key = none) (hn : n.natAbs ≤ 1000000) :
    Bounded key (Json.whole n) :=
  bounded_whole (fun _ h => absurd (hkey.symm.trans h) (by simp)) fun _ => hn

/-- There are bounds on texts and on numbers only. -/
theorem bounded_other {value : Json.Value} (hs : ∀ s, value ≠ .str s) (hn : ∀ n, value ≠ .num n) :
    Bounded key value :=
  ⟨fun s h => absurd h (hs s), fun s h => absurd h (hs s), fun _ h => absurd h (hn _),
    fun _ h => absurd h (hn _)⟩

/-- **A sound command is within the bounds.** -/
theorem bounded_of_sound (hsound : c.Sound) : ∀ f ∈ c.fields, Bounded f.1 f.2 := by
  have hplain : ∀ key ∈ ["cmd", "client", "scope"], ∀ s, Bounded key (.str s) := fun key hkey s =>
    have hnone : ∀ key ∈ ["cmd", "client", "scope"], textBounds.lookup key = none ∧ key ≠ "ref" := by
      decide +kernel
    bounded_str_of_ne (hnone key hkey).1 (hnone key hkey).2
  have htext : ∀ f ∈ textBounds, ∀ s : String, s.utf8ByteSize ≤ f.2 → Bounded f.1 (.str s) :=
    fun f hf s hs =>
      have hbound : ∀ f ∈ textBounds, textBounds.lookup f.1 = some f.2 ∧ f.1 ≠ "ref" := by
        decide +kernel
      bounded_text (hbound f hf).1 (hbound f hf).2 hs
  have hcount : ∀ f ∈ countBounds, ∀ m : ℕ, m ≤ f.2 → Bounded f.1 (Json.whole m) := fun f hf m hm =>
    have hbound : ∀ f ∈ countBounds, countBounds.lookup f.1 = some f.2 ∧
        ¬(f.1 = "dx" ∨ f.1 = "dy") := by decide +kernel
    bounded_count (hbound f hf).1 (hbound f hf).2 hm
  have hbool : ∀ key b, Bounded key (.bool b) := fun key b =>
    bounded_other (fun _ h => Json.Value.noConfusion h) fun _ h => Json.Value.noConfusion h
  have hnil : (∀ f ∈ ([] : Fields), Bounded f.1 f.2) ↔ True := iff_true_intro (List.forall_mem_nil _)
  rw [Command.fields, List.forall_mem_cons]
  refine ⟨hplain "cmd" (by simp) _, ?_⟩
  cases c with
  | hello client scopes =>
    simp only [Command.given, List.forall_mem_cons, hnil, and_true]
    exact ⟨hplain "client" (by simp) client,
      bounded_other (fun _ h => Json.Value.noConfusion h) fun _ h => Json.Value.noConfusion h⟩
  | request scope =>
    simp only [Command.given, List.forall_mem_cons, hnil, and_true]
    exact hplain "scope" (by simp) _
  | status => exact List.forall_mem_nil _
  | tabs => exact List.forall_mem_nil _
  | bye => exact List.forall_mem_nil _
  | read tab chars =>
    simp only [Command.given, List.forall_mem_cons, hnil, and_true]
    exact ⟨bounded_tab, hcount ("max_chars", maxRead) (by decide +kernel) chars hsound.2⟩
  | snapshot tab elements =>
    simp only [Command.given, List.forall_mem_cons, hnil, and_true]
    exact ⟨bounded_tab, hcount ("max_elements", maxElements) (by decide +kernel) elements hsound.2⟩
  | screenshot tab | select tab | close tab =>
    simp only [Command.given, List.forall_mem_cons, hnil, and_true]
    exact bounded_tab
  | wait tab timeout =>
    simp only [Command.given, List.forall_mem_cons, hnil, and_true]
    exact ⟨bounded_tab, hcount ("timeout_ms", maxWait) (by decide +kernel) timeout hsound.2⟩
  | «open» url waits timeout =>
    simp only [Command.given, List.forall_mem_cons, hnil, and_true]
    exact ⟨htext ("url", maxUrl) (by decide +kernel) url hsound.1, hbool _ _,
      hcount ("timeout_ms", maxWait) (by decide +kernel) timeout hsound.2⟩
  | goto tab url waits timeout =>
    obtain ⟨-, hsize, hmax⟩ := hsound
    simp only [Command.given, List.forall_mem_cons, hnil, and_true]
    exact ⟨bounded_tab, htext ("url", maxUrl) (by decide +kernel) url hsize, hbool _ _,
      hcount ("timeout_ms", maxWait) (by decide +kernel) timeout hmax⟩
  | history tab step waits timeout =>
    simp only [Command.given, List.forall_mem_cons, hnil, and_true]
    exact ⟨bounded_tab, hbool _ _, hcount ("timeout_ms", maxWait) (by decide +kernel) timeout hsound.2⟩
  | click tab reference =>
    simp only [Command.given, List.forall_mem_cons, hnil, and_true]
    exact ⟨bounded_tab, bounded_reference hsound.2⟩
  | type tab reference typed submit =>
    obtain ⟨-, href, hsize⟩ := hsound
    simp only [Command.given, List.forall_mem_cons, hnil, and_true]
    exact ⟨bounded_tab, bounded_reference href, htext ("text", maxText) (by decide +kernel) typed hsize,
      hbool _ _⟩
  | scroll tab reference dx dy =>
    obtain ⟨-, href, hx, hy⟩ := hsound
    simp only [Command.given, List.forall_mem_append, List.forall_mem_cons, hnil, and_true]
    refine ⟨⟨bounded_tab, bounded_offset (by decide +kernel) hx,
      bounded_offset (by decide +kernel) hy⟩, fun f hf => ?_⟩
    obtain ⟨r, hr, rfl⟩ := List.mem_map.mp hf
    exact bounded_reference (href r (Option.mem_toList.mp hr))
  | eval tab script =>
    simp only [Command.given, List.forall_mem_cons, hnil, and_true]
    exact ⟨bounded_tab, htext ("script", maxRequest) (by decide +kernel) script hsound.2⟩

theorem mem_of_lookup {value : Json.Value} (h : fields.lookup key = some value) :
    (key, value) ∈ fields := by
  induction fields with
  | nil => exact absurd h (by simp)
  | cons f fields ih =>
    rw [List.lookup_cons] at h
    split at h
    · rename_i heq
      obtain rfl := Option.some.inj h
      rw [beq_iff_eq] at heq
      exact List.mem_cons.mpr (.inl (Prod.ext heq rfl))
    · exact List.mem_cons_of_mem _ (ih h)

/-- **A request that is accepted is within the bounds.** -/
theorem within_of_accepted (h : Reading.command fields = .ok c) (hid : fields.lookup "id" = none)
    (hscopes : fields.lookup "scopes" = none) : Within fields := by
  obtain ⟨hiff, hhonest⟩ := Reading.command_ok_iff (c := c)
  intro key value hvalue
  rcases hhonest fields h key value hvalue with rfl | rfl | hgiven
  · exact absurd (hid.symm.trans hvalue) (by simp)
  · exact absurd (hscopes.symm.trans hvalue) (by simp)
  · exact bounded_of_sound (hiff.mp ⟨fields, h⟩) (key, value) (mem_of_lookup hgiven)

/-! ### What fits is read -/

/-- **A request's fields, as a tool says them**, and within the bounds. -/
structure Reads (properties : List (String × Property)) (required : List String)
    (fields : Fields) : Prop where
  keys : ∀ key value, fields.lookup key = some value → key = "cmd" ∨ key ∈ properties.map Prod.fst
  fits : ∀ key p, properties.lookup key = some p → ∀ value, fields.lookup key = some value →
    p.Fits value
  required : ∀ key ∈ required, ∃ value, fields.lookup key = some value
  within : Within fields

theorem exists_lookup_of_mem_keys (h : key ∈ fields.map Prod.fst) :
    ∃ value, fields.lookup key = some value := by
  by_contra hnone
  have hlookup : fields.lookup key = none := Option.eq_none_iff_forall_ne_some.mpr fun value hv =>
    hnone ⟨value, hv⟩
  obtain ⟨f, hf, rfl⟩ := List.mem_map.mp h
  exact bne_iff_ne.mp (List.lookup_eq_none_iff.mp hlookup f hf) rfl

/-- An integer that is given. -/
theorem exists_whole_of_fits {minimum : Option ℤ} {description : Option String}
    {value : Json.Value} (h : (Property.integer minimum description).Fits value) :
    ∃ n, value = .num (.whole n) ∧ ∀ m ∈ minimum, m ≤ n.val := by
  cases value with
  | num n =>
    cases n with
    | whole n => exact ⟨n, rfl, h⟩
    | other text => exact h.elim
  | null => exact h.elim
  | bool b => exact h.elim
  | str s => exact h.elim
  | arr items => exact h.elim
  | obj fields => exact h.elim

/-- A text that is given. -/
theorem exists_str_of_fits {among : Option (List String)} {description : Option String}
    {value : Json.Value} (h : (Property.string among description).Fits value) :
    ∃ s, value = .str s ∧ ∀ names ∈ among, s ∈ names := by
  cases value with
  | str s => exact ⟨s, rfl, h⟩
  | null => exact h.elim
  | bool b => exact h.elim
  | num n => exact h.elim
  | arr items => exact h.elim
  | obj fields => exact h.elim

namespace Reads

open Reading

variable {properties : List (String × Property)} {required allowed : List String}

theorem only_eq (allowed : List String) (h : Reads properties required fields)
    (hall : properties.map Prod.fst ⊆ allowed) :
    only fields allowed = .ok () := by
  refine only_ok.mpr fun key hkey => .inr ?_
  obtain ⟨value, hvalue⟩ := exists_lookup_of_mem_keys hkey
  exact (h.keys key value hvalue).imp id fun hmem => hall hmem

theorem exists_tab (allowed : List String) (h : Reads properties required fields)
    (hall : properties.map Prod.fst ⊆ allowed) (htab : properties.lookup "tab" = some tabProperty)
    (hmem : "tab" ∈ required) : ∃ tab, tabOnly fields allowed = .ok tab := by
  obtain ⟨value, hvalue⟩ := h.required "tab" hmem
  obtain ⟨n, rfl, hn⟩ := exists_whole_of_fits (h.fits "tab" _ htab value hvalue)
  have hpos : 1 ≤ n.val := hn 1 rfl
  refine ⟨n.val.toNat, tabOnly_ok.mpr ⟨h.only_eq allowed hall, ?_⟩⟩
  rw [tabOf, hvalue]
  simp only [Json.Number.asU64_whole]
  rw [if_pos (by omega), Option.filter_some_pos (by simpa using by omega)]

theorem exists_text (key : String) (max : ℕ) (h : Reads properties required fields)
    (hkey : properties.lookup key = some textProperty) (hmem : key ∈ required)
    (hmax : textBounds.lookup key = some max) : ∃ s, text fields key max = .ok s := by
  obtain ⟨value, hvalue⟩ := h.required key hmem
  obtain ⟨s, rfl, -⟩ := exists_str_of_fits (h.fits key _ hkey value hvalue)
  exact ⟨s, text_ok.mpr ⟨hvalue, (h.within key _ hvalue).text s rfl max hmax⟩⟩

theorem exists_element (h : Reads properties required fields)
    (hkey : properties.lookup "ref" = some referenceProperty) {value : Json.Value}
    (hvalue : fields.lookup "ref" = some value) : ∃ s, element fields = .ok s := by
  obtain ⟨s, rfl, -⟩ := exists_str_of_fits (h.fits "ref" _ hkey value hvalue)
  exact ⟨s, element_ok.mpr ⟨hvalue, (h.within "ref" _ hvalue).reference s rfl rfl⟩⟩

theorem exists_flag (key : String) (default : Bool) (h : Reads properties required fields)
    (hkey : properties.lookup key = some .boolean ∨ key ≠ "cmd" ∧ key ∉ properties.map Prod.fst) :
    ∃ b, flag fields key default = .ok b := by
  rw [flag]
  cases hlookup : fields.lookup key with
  | none => exact ⟨default, rfl⟩
  | some value =>
    rcases hkey with hkey | hkey
    · cases value with
      | bool b => exact ⟨b, rfl⟩
      | null => exact (h.fits key _ hkey _ hlookup).elim
      | num n => exact (h.fits key _ hkey _ hlookup).elim
      | str s => exact (h.fits key _ hkey _ hlookup).elim
      | arr items => exact (h.fits key _ hkey _ hlookup).elim
      | obj fields => exact (h.fits key _ hkey _ hlookup).elim
    · exact absurd (h.keys key value hlookup) (not_or.mpr hkey)

theorem exists_count (key : String) (default max : ℕ) (h : Reads properties required fields)
    (hkey : properties.lookup key = some countProperty ∨
      key ≠ "cmd" ∧ key ∉ properties.map Prod.fst)
    (hmax : countBounds.lookup key = some max) : ∃ n, count fields key default max = .ok n := by
  rw [count]
  cases hlookup : fields.lookup key with
  | none => exact ⟨default, rfl⟩
  | some value =>
    rcases hkey with hkey | hkey
    · obtain ⟨n, rfl, hn⟩ := exists_whole_of_fits (h.fits key _ hkey _ hlookup)
      have hpos : 0 ≤ n.val := hn 0 rfl
      have hle : n.val ≤ max := (h.within key _ hlookup).count n rfl max hmax
      refine ⟨n.val.toNat, ?_⟩
      simp only [Json.Number.asU64_whole]
      rw [if_pos hpos, Option.filter_some_pos (by simpa using by omega)]
    · exact absurd (h.keys key value hlookup) (not_or.mpr hkey)

theorem exists_timeout (h : Reads properties required fields)
    (hkey : properties.lookup "timeout_ms" = some countProperty ∨
      "timeout_ms" ≠ "cmd" ∧ "timeout_ms" ∉ properties.map Prod.fst) :
    ∃ n, timeout fields = .ok n := h.exists_count _ defaultWait _ hkey (by decide +kernel)

theorem exists_offset (key : String) (h : Reads properties required fields) (hkey : key = "dx" ∨ key = "dy")
    (hproperty : properties.lookup key = some (.integer none none)) :
    ∃ n, offset fields key = .ok n := by
  rw [offset]
  cases hlookup : fields.lookup key with
  | none => exact ⟨0, rfl⟩
  | some value =>
    obtain ⟨n, rfl, -⟩ := exists_whole_of_fits (h.fits key _ hproperty _ hlookup)
    have hle : n.val.natAbs ≤ 1000000 := (h.within key _ hlookup).offset n rfl hkey
    refine ⟨n.val, ?_⟩
    simp only [Json.Number.asI64_whole]
    rw [if_pos (by omega), Option.filter_some_pos (by simpa using hle)]

end Reads

/-! ### Each tool -/

section Tools

open Reading Json

/-- A command of a tab alone. -/
theorem exists_command_tab {make : ℕ → Command}
    (h : Reads [("tab", tabProperty)] ["tab"] fields)
    (hmake : ∀ tab, tabOnly fields ["tab"] = .ok tab → commandOf fields cmd = .ok (make tab)) :
    ∃ c, commandOf fields cmd = .ok c := by
  obtain ⟨tab, htab⟩ := h.exists_tab ["tab"] (by simp) rfl (by simp)
  exact ⟨make tab, hmake tab htab⟩

theorem exists_command_navigate (step : Step) (h : Reads [("tab", tabProperty)] ["tab"] fields) :
    ∃ c, history fields step = .ok c := by
  obtain ⟨tab, htab⟩ := h.exists_tab ["tab", "wait", "timeout_ms"] (by simp) rfl
    (by simp)
  obtain ⟨waits, hwaits⟩ := h.exists_flag "wait" (step ≠ .stop) (.inr (by decide +kernel))
  obtain ⟨time, htime⟩ := h.exists_timeout (.inr (by decide +kernel))
  exact ⟨_, bind_of_eq_ok htab (bind_of_eq_ok hwaits (bind_of_eq_ok htime rfl))⟩

/-- **What a tool's arguments say, within the bounds, is a command.** -/
theorem exists_command (ht : t ∈ tools) (hcmd : commandFor t.name = some cmd)
    (h : Reads t.properties t.required fields) : ∃ c, commandOf fields cmd = .ok c := by
  simp only [tools, List.mem_cons, List.not_mem_nil, or_false] at ht
  rcases ht with rfl | rfl | rfl | rfl | rfl | rfl | rfl | rfl | rfl | rfl | rfl | rfl | rfl | rfl
  · -- `syndeo_open`
    obtain rfl := Option.some.inj hcmd
    have honly := h.only_eq ["url", "wait", "timeout_ms"] (by simp)
    obtain ⟨url, hurl⟩ := h.exists_text "url" maxUrl rfl (by simp) rfl
    obtain ⟨waits, hwaits⟩ := h.exists_flag "wait" true (.inl rfl)
    obtain ⟨time, htime⟩ := h.exists_timeout (.inr (by decide +kernel))
    exact ⟨_, bind_of_eq_ok honly (bind_of_eq_ok hurl (bind_of_eq_ok hwaits
      (bind_of_eq_ok htime rfl)))⟩
  · -- `syndeo_goto`
    obtain rfl := Option.some.inj hcmd
    obtain ⟨tab, htab⟩ := h.exists_tab ["tab", "url", "wait", "timeout_ms"] (by simp)
      rfl (by simp)
    obtain ⟨url, hurl⟩ := h.exists_text "url" maxUrl rfl (by simp) rfl
    obtain ⟨waits, hwaits⟩ := h.exists_flag "wait" true (.inr (by decide +kernel))
    obtain ⟨time, htime⟩ := h.exists_timeout (.inr (by decide +kernel))
    exact ⟨_, bind_of_eq_ok htab (bind_of_eq_ok hurl (bind_of_eq_ok hwaits
      (bind_of_eq_ok htime rfl)))⟩
  · -- `syndeo_tabs`
    obtain rfl := Option.some.inj hcmd
    exact ⟨_, bind_of_eq_ok (h.only_eq [] (by simp)) rfl⟩
  · -- `syndeo_read`
    obtain rfl := Option.some.inj hcmd
    obtain ⟨tab, htab⟩ := h.exists_tab ["tab", "max_chars"] (by simp) rfl (by simp)
    obtain ⟨chars, hchars⟩ := h.exists_count "max_chars" defaultRead maxRead (.inl rfl) rfl
    exact ⟨_, bind_of_eq_ok htab (bind_of_eq_ok hchars rfl)⟩
  · -- `syndeo_snapshot`
    obtain rfl := Option.some.inj hcmd
    obtain ⟨tab, htab⟩ := h.exists_tab ["tab", "max_elements"] (by simp) rfl (by simp)
    obtain ⟨elements, helements⟩ := h.exists_count "max_elements" defaultElements maxElements
      (.inl rfl) rfl
    exact ⟨_, bind_of_eq_ok htab (bind_of_eq_ok helements rfl)⟩
  · -- `syndeo_click`
    obtain rfl := Option.some.inj hcmd
    obtain ⟨tab, htab⟩ := h.exists_tab ["tab", "ref"] (by simp) rfl (by simp)
    obtain ⟨value, hvalue⟩ := h.required "ref" (by simp)
    obtain ⟨reference, hreference⟩ := h.exists_element rfl hvalue
    exact ⟨_, bind_of_eq_ok htab (bind_of_eq_ok hreference rfl)⟩
  · -- `syndeo_type`
    obtain rfl := Option.some.inj hcmd
    obtain ⟨tab, htab⟩ := h.exists_tab ["tab", "ref", "text", "submit"] (by simp) rfl
      (by simp)
    obtain ⟨value, hvalue⟩ := h.required "ref" (by simp)
    obtain ⟨reference, hreference⟩ := h.exists_element rfl hvalue
    obtain ⟨typed, htyped⟩ := h.exists_text "text" maxText rfl (by simp) rfl
    obtain ⟨submit, hsubmit⟩ := h.exists_flag "submit" false (.inl rfl)
    exact ⟨_, bind_of_eq_ok htab (bind_of_eq_ok hreference (bind_of_eq_ok htyped
      (bind_of_eq_ok hsubmit rfl)))⟩
  · -- `syndeo_scroll`
    obtain rfl := Option.some.inj hcmd
    obtain ⟨tab, htab⟩ := h.exists_tab ["tab", "ref", "dx", "dy"] (by simp) rfl
      (by simp)
    obtain ⟨dx, hdx⟩ := h.exists_offset "dx" (by simp) rfl
    obtain ⟨dy, hdy⟩ := h.exists_offset "dy" (by simp) rfl
    have hread : ∃ reference, scrolledTo fields = .ok reference := by
      rw [scrolledTo]
      split_ifs with hgiven
      · obtain ⟨value, hvalue⟩ := Option.isSome_iff_exists.mp hgiven
        obtain ⟨reference, hreference⟩ := h.exists_element rfl hvalue
        exact ⟨some reference, map_eq_ok.mpr ⟨reference, hreference, rfl⟩⟩
      · exact ⟨none, rfl⟩
    obtain ⟨reference, hreference⟩ := hread
    exact ⟨_, bind_of_eq_ok htab (bind_of_eq_ok hreference (bind_of_eq_ok hdx
      (bind_of_eq_ok hdy rfl)))⟩
  · -- `syndeo_navigate` is no one command
    have hnone : commandFor "syndeo_navigate" = none := rfl
    exact absurd (hnone.symm.trans hcmd) (by simp)
  · -- `syndeo_wait`
    obtain rfl := Option.some.inj hcmd
    obtain ⟨tab, htab⟩ := h.exists_tab ["tab", "timeout_ms"] (by simp) rfl (by simp)
    obtain ⟨time, htime⟩ := h.exists_timeout (.inl rfl)
    exact ⟨_, bind_of_eq_ok htab (bind_of_eq_ok htime rfl)⟩
  · -- `syndeo_screenshot`
    obtain rfl := Option.some.inj hcmd
    exact exists_command_tab h fun tab htab => bind_of_eq_ok htab rfl
  · -- `syndeo_select`
    obtain rfl := Option.some.inj hcmd
    exact exists_command_tab h fun tab htab => bind_of_eq_ok htab rfl
  · -- `syndeo_close`
    obtain rfl := Option.some.inj hcmd
    exact exists_command_tab h fun tab htab => bind_of_eq_ok htab rfl
  · -- `syndeo_eval`
    obtain rfl := Option.some.inj hcmd
    obtain ⟨tab, htab⟩ := h.exists_tab ["tab", "script"] (by simp) rfl (by simp)
    obtain ⟨script, hscript⟩ := h.exists_text "script" maxRequest rfl (by simp)
      rfl
    exact ⟨_, bind_of_eq_ok htab (bind_of_eq_ok hscript rfl)⟩

/-- The arguments that fit have no field but the tool's. -/
theorem Tool.Fits.lookup_eq_none (h : t.Fits arguments) (hkey : t.properties.lookup key = none) :
    arguments.lookup key = none := by
  refine Option.eq_none_iff_forall_ne_some.mpr fun value hvalue => ?_
  obtain ⟨p, hp, -⟩ := h.property key value hvalue
  exact absurd (hkey.symm.trans hp) (by simp)

theorem mem_keys_of_lookup {p : Property} {properties : List (String × Property)}
    (h : properties.lookup key = some p) : key ∈ properties.map Prod.fst := by
  by_contra hkey
  have hnone : properties.lookup key = none := List.lookup_eq_none_iff.mpr fun f hf =>
    bne_iff_ne.mpr fun heq => hkey (heq ▸ List.mem_map_of_mem hf)
  exact absurd (hnone.symm.trans h) (by simp)

/-- The command's name is within the bounds, and leaves the arguments as they are. -/
theorem within_insert_cmd (hcmd : arguments.lookup "cmd" = none) :
    Within (Fields.insert "cmd" (.str cmd) arguments) ↔ Within arguments := by
  have hplain : Bounded "cmd" (.str cmd) := bounded_str_of_ne (by decide +kernel) (by decide +kernel)
  constructor
  · intro h key value hvalue
    refine h key value ?_
    rw [lookup_insert_ne]
    · exact hvalue
    · rintro rfl
      exact absurd (hcmd.symm.trans hvalue) (by simp)
  · intro h key value hvalue
    by_cases hkey : key = "cmd"
    · subst hkey
      rw [lookup_insert_self] at hvalue
      exact Option.some.inj hvalue ▸ hplain
    · rw [lookup_insert_ne hkey] at hvalue
      exact h key value hvalue

/-- **A tool's call, and the command it is.** -/
theorem accepted_iff_of_reads (h : t.Fits arguments)
    (hown : ∀ key ∈ ["cmd", "id", "scopes"], t.properties.lookup key = none)
    (hreads : ∀ fields, Reads t.properties t.required fields → ∃ c, commandOf fields cmd = .ok c) :
    (∃ c, Reading.command (Fields.insert "cmd" (.str cmd) arguments) = .ok c) ↔
      Within arguments := by
  have hnone : ∀ key ∈ ["cmd", "id", "scopes"], arguments.lookup key = none := fun key hkey =>
    h.lookup_eq_none (hown key hkey)
  have hsame : ∀ key ≠ "cmd", (Fields.insert "cmd" (.str cmd) arguments).lookup key =
      arguments.lookup key := fun key hkey => lookup_insert_ne hkey
  rw [← within_insert_cmd (hnone "cmd" (by simp))]
  constructor
  · rintro ⟨c, hc⟩
    exact within_of_accepted hc ((hsame "id" (by decide +kernel)).trans (hnone "id" (by simp)))
      ((hsame "scopes" (by decide +kernel)).trans (hnone "scopes" (by simp)))
  · intro hwithin
    rw [Reading.command, lookup_insert_self]
    refine hreads _ ⟨fun key value hvalue => ?_, fun key p hp value hvalue => ?_, fun key hkey => ?_,
      hwithin⟩
    · by_cases hkey : key = "cmd"
      · exact .inl hkey
      · obtain ⟨p, hp, -⟩ := h.property key value (hsame key hkey ▸ hvalue)
        exact .inr (mem_keys_of_lookup hp)
    · have hkey : key ≠ "cmd" := by
        rintro rfl
        exact absurd ((hown "cmd" (by simp)).symm.trans hp) (by simp)
      obtain ⟨p', hp', hfits⟩ := h.property key value (hsame key hkey ▸ hvalue)
      exact Option.some.inj (hp'.symm.trans hp) ▸ hfits
    · obtain ⟨value, hvalue⟩ := h.required key hkey
      refine ⟨value, (hsame key ?_).trans hvalue⟩
      rintro rfl
      exact absurd ((hnone "cmd" (by simp)).symm.trans hvalue) (by simp)

/-- The tools have names that no request has. -/
theorem lookup_properties_eq_none (ht : t ∈ tools) :
    ∀ key ∈ ["cmd", "id", "scopes"], t.properties.lookup key = none := by
  have hall : ∀ t ∈ tools, ∀ key ∈ ["cmd", "id", "scopes"], t.properties.lookup key = none := by
    simp only [tools, List.forall_mem_cons]
    refine ⟨?_, ?_, ?_, ?_, ?_, ?_, ?_, ?_, ?_, ?_, ?_, ?_, ?_, ?_, List.forall_mem_nil _⟩ <;>
      refine ⟨rfl, rfl, rfl, List.forall_mem_nil _⟩
  exact hall t ht

theorem exists_commandFor (ht : t ∈ tools) (hname : t.name ≠ "syndeo_navigate") :
    ∃ cmd, commandFor t.name = some cmd := by
  simp only [tools, List.mem_cons, List.not_mem_nil, or_false] at ht
  rcases ht with rfl | rfl | rfl | rfl | rfl | rfl | rfl | rfl | rfl | rfl | rfl | rfl | rfl | rfl
  all_goals first
    | exact ⟨_, rfl⟩
    | exact absurd rfl hname

/-- What is left of the arguments of `syndeo_navigate`. -/
def navigated : Tool := ⟨"", "", [("tab", tabProperty)], ["tab"]⟩

/-- **Navigating**, which is one of four commands. -/
theorem accepted_iff_navigate (ht : t ∈ tools) (hname : t.name = "syndeo_navigate")
    (h : t.Fits arguments) : ∃ fields, navigateRequest arguments = .ok fields ∧
      ((∃ c, Reading.command fields = .ok c) ↔ Within arguments) := by
  have hrequired : t.required = ["tab", "action"] ∧ t.properties = [("tab", tabProperty),
      ("action", .string (some ["back", "forward", "reload", "stop"]) none)] := by
    simp only [tools, List.mem_cons, List.not_mem_nil, or_false] at ht
    rcases ht with rfl | rfl | rfl | rfl | rfl | rfl | rfl | rfl | rfl | rfl | rfl | rfl | rfl | rfl
    all_goals first
      | exact ⟨rfl, rfl⟩
      | exact absurd hname (by decide +kernel)
  obtain ⟨value, hvalue⟩ := h.required "action" (by simp [hrequired])
  obtain ⟨p, hp, hfits⟩ := h.property "action" value hvalue
  rw [hrequired.2] at hp
  obtain rfl := Option.some.inj hp
  obtain ⟨action, rfl, hmem⟩ := exists_str_of_fits hfits
  have haction : action ∈ ["back", "forward", "reload", "stop"] := hmem _ rfl
  refine ⟨Fields.insert "cmd" (.str action) (Fields.remove "action" arguments), ?_, ?_⟩
  · rw [navigateRequest, hvalue]
    exact if_pos haction
  have hrest : navigated.Fits (Fields.remove "action" arguments) := by
    constructor
    · intro key value hlookup
      have hkey : key ≠ "action" := by
        rintro rfl
        exact absurd (lookup_remove_self.symm.trans hlookup) (by simp)
      rw [lookup_remove_ne hkey] at hlookup
      obtain ⟨p, hp, hfits⟩ := h.property key value hlookup
      refine ⟨p, ?_, hfits⟩
      rw [hrequired.2, List.lookup_cons] at hp
      rw [navigated, List.lookup_cons]
      split at hp
      · exact hp
      · rw [List.lookup_cons, beq_false_of_ne hkey] at hp
        exact hp
    · intro key hkey
      rw [navigated, List.mem_singleton] at hkey
      subst hkey
      rw [lookup_remove_ne (by decide +kernel)]
      exact h.required "tab" (by simp [hrequired])
  have hreads : ∀ fields, Reads navigated.properties navigated.required fields →
      ∃ c, commandOf fields action = .ok c := by
    intro fields hreads
    simp only [List.mem_cons, List.not_mem_nil, or_false] at haction
    rcases haction with rfl | rfl | rfl | rfl
    · exact exists_command_navigate .back hreads
    · exact exists_command_navigate .forward hreads
    · exact exists_command_navigate .reload hreads
    · exact exists_command_navigate .stop hreads
  rw [accepted_iff_of_reads hrest (by decide +kernel) hreads]
  -- the action has no bound
  constructor
  · intro hwithin key value hlookup
    by_cases hkey : key = "action"
    · subst hkey
      obtain rfl := Option.some.inj (hvalue.symm.trans hlookup)
      exact bounded_str_of_ne (by decide +kernel) (by decide +kernel)
    · exact hwithin key value ((lookup_remove_ne hkey).trans hlookup)
  · intro hwithin key value hlookup
    have hkey : key ≠ "action" := by
      rintro rfl
      exact absurd (lookup_remove_self.symm.trans hlookup) (by simp)
    exact hwithin key value ((lookup_remove_ne hkey).symm.trans hlookup)

/-- **What a tool says of its arguments is what the application reads**: arguments that fit make a
request, and it is accepted if and only if they are within the bounds. -/
theorem Tool.accepted_iff (ht : t ∈ tools) (h : t.Fits arguments) :
    ∃ fields, requestFor t.name arguments = .ok fields ∧
      ((∃ c, Reading.command fields = .ok c) ↔ Within arguments) := by
  by_cases hname : t.name = "syndeo_navigate"
  · rw [requestFor, if_pos hname]
    exact accepted_iff_navigate ht hname h
  · obtain ⟨cmd, hcmd⟩ := exists_commandFor ht hname
    have hown := lookup_properties_eq_none ht
    have hfree : ¬((arguments.lookup "cmd").isSome = true ∨
        (arguments.lookup "id").isSome = true) := by
      rw [h.lookup_eq_none (hown "cmd" (by simp)), h.lookup_eq_none (hown "id" (by simp))]
      simp
    refine ⟨Fields.insert "cmd" (.str cmd) arguments, ?_,
      accepted_iff_of_reads h hown fun fields => exists_command ht hcmd⟩
    rw [requestFor, if_neg hname, hcmd]
    exact if_neg hfree

/-- To wait for ten minutes is what a tool would let be asked for, and is more than the
application waits. -/
def longWait : Fields := [("tab", Json.whole 3), ("timeout_ms", Json.whole 600000)]

theorem Tool.accepted_iff_wait : ∃ t ∈ tools, t.name = "syndeo_wait" ∧
    ∃ fields, requestFor t.name longWait = .ok fields ∧
      ((∃ c, Reading.command fields = .ok c) ↔ Within longWait) := by
  refine ⟨tools.get ⟨9, by decide⟩, List.get_mem _ _, rfl,
    Tool.accepted_iff (List.get_mem _ _) ⟨fun key value hvalue => ?_, fun key hkey => ?_⟩⟩
  · have hmem := mem_of_lookup hvalue
    rw [longWait, List.mem_cons, List.mem_singleton] at hmem
    rcases hmem with heq | heq <;> obtain ⟨rfl, rfl⟩ := Prod.mk.inj heq
    · refine ⟨tabProperty, rfl, ?_⟩
      rw [whole_eq_num (by decide)]
      exact fun m hm => Option.some.inj hm ▸ (by decide)
    · refine ⟨countProperty, rfl, ?_⟩
      rw [whole_eq_num (by decide)]
      exact fun m hm => Option.some.inj hm ▸ (by decide)
  · obtain rfl := List.mem_singleton.mp hkey
    exact ⟨Json.whole 3, rfl⟩

end Tools

end

/-! ### The server -/

/-- What the server is built with: reading JSON, with what an error says; writing it, on one line
or on several; and the version. -/
structure Wire where
  fromStr : String → Except String Json.Value
  write : Json.Value → String
  pretty : Json.Value → String
  version : String

/-- A request to the application, as whom, and what it was answered. -/
structure Call where
  client : String
  request : Json.Value
  answer : Except Failure Json.Value

/-- `Backend`: what the application answers, which it may do by all that it was asked before. -/
abbrev Backend := List Call → String → Json.Value → Except Failure Json.Value

/-- `Mcp`, and the requests that were made. -/
structure Mcp where
  client : String
  named : Bool
  calls : List Call

/-- `MCP_VERSIONS`. -/
def mcpVersions : List String := ["2025-06-18", "2025-03-26", "2024-11-05"]

/-- `rpc_error`. -/
def rpcError (W : Wire) (id : Json.Value) (code : ℤ) (message : String) : String :=
  W.write (.obj [("jsonrpc", .str "2.0"), ("id", id),
    ("error", .obj [("code", Json.whole code), ("message", .str message)])])

/-- A text, as content. -/
def textContent (text : String) : Json.Value := .obj [("type", .str "text"), ("text", .str text)]

/-- A picture, if a result has one, and the rest. -/
def pictureOf : Json.Value → Option (String × Fields)
  | .obj fields =>
    match fields.lookup "png" with
    | some (.str png) => some (png, Fields.remove "png" fields)
    | _ => none
  | _ => none

/-- `tool_result`. -/
def toolResult (W : Wire) (name : String) (result : Json.Value) : Json.Value :=
  match if name = "syndeo_screenshot" then pictureOf result else none with
  | some (png, about) =>
    .obj [("content", .arr [.obj [("type", .str "image"), ("data", .str png),
      ("mimeType", .str "image/png")], textContent (W.write (.obj about))]),
      ("isError", .bool false)]
  | none => .obj [("content", .arr [textContent (W.pretty result)]), ("isError", .bool false)]

/-- The request that asks for `script`. -/
def scriptRequest : Fields := [("cmd", .str "request"), ("scope", .str "script")]

/-- `as_str`. -/
def asStr : Json.Value → Option String
  | .str s => some s
  | _ => none

/-- `as_object`. -/
def asObject : Json.Value → Option Fields
  | .obj fields => some fields
  | _ => none

/-- Whether a request was refused for want of a scope. -/
def wasNotGranted : Except Failure Json.Value → Bool
  | .error failure => failure.code = "not_granted"
  | .ok _ => false

namespace Mcp

/-- `new`. -/
def new (name : Option String) : Mcp := ⟨name.getD "An MCP client", name.isSome, []⟩

/-- A request to the application. -/
def call (B : Backend) (request : Fields) (m : Mcp) : Except Failure Json.Value × Mcp :=
  let answer := B m.calls m.client (.obj request)
  (answer, { m with calls := m.calls ++ [⟨m.client, .obj request, answer⟩] })

/-- The name that the client gives itself. -/
def introduced (params : Fields) (m : Mcp) : Mcp :=
  if m.named then m
  else
    match (params.lookup "clientInfo").bind asObject with
    | none => m
    | some info =>
      let name := ((info.lookup "name").bind asStr).getD ""
      let version := ((info.lookup "version").bind asStr).getD ""
      if name = "" then m else { m with client := Text.trim (name ++ " " ++ version) }

/-- `initialize`. -/
def initialized (W : Wire) (params : Fields) (m : Mcp) : Json.Value × Mcp :=
  let asked := (params.lookup "protocolVersion").bind asStr
  let version := (mcpVersions.find? fun v => some v = asked).getD "2025-06-18"
  (.obj [("protocolVersion", .str version),
    ("capabilities", .obj [("tools", .obj [("listChanged", .bool false)])]),
    ("serverInfo", .obj [("name", .str "syndeo"), ("version", .str W.version)]),
    ("instructions", .str ("Syndeo is a web browser on this Mac. These tools work only in tabs " ++
      "you open with syndeo_open, which the person can see, and only once the person allows it " ++
      "in Syndeo. Use syndeo_snapshot to find links and fields, then syndeo_click and " ++
      "syndeo_type with their references. syndeo_eval needs a separate permission, which the " ++
      "person is asked for the first time."))], m.introduced params)

/-- A script that was refused for want of the scope is asked for, once, and tried again. -/
def tryAgain (B : Backend) (request : Fields) (m : Mcp) : Except Failure Json.Value × Mcp :=
  match m.call B scriptRequest with
  | (.error failure, m) => (.error failure, m)
  | (.ok _, m) => m.call B request

/-- A tool's request, with what is tried again. -/
def ask (B : Backend) (name : String) (request : Fields) (m : Mcp) :
    Except Failure Json.Value × Mcp :=
  let (answer, m) := m.call B request
  if name = "syndeo_eval" ∧ wasNotGranted answer then m.tryAgain B request else (answer, m)

/-- The arguments of a call. -/
def argumentsOf (params : Fields) : Except (ℤ × String) Fields :=
  match params.lookup "arguments" with
  | none => .ok []
  | some (.obj arguments) => .ok arguments
  | some _ => .error (-32602, "arguments is an object")

/-- The tool of a call. -/
def toolName (params : Fields) : Except (ℤ × String) String :=
  match (params.lookup "name").bind asStr with
  | some name => .ok name
  | none => .error (-32602, "name is missing")

/-- The tool of a call, and the request that it makes. -/
def toolCall (params : Fields) : Except (ℤ × String) (String × Fields) := do
  let name ← toolName params
  let arguments ← argumentsOf params
  match requestFor name arguments with
  | .ok request => return (name, request)
  | .error why => .error (-32602, why)

/-- `call_tool`. -/
def callTool (W : Wire) (B : Backend) (params : Fields) (m : Mcp) :
    Except (ℤ × String) Json.Value × Mcp :=
  match toolCall params with
  | .error refusal => (.error refusal, m)
  | .ok (name, request) =>
    match m.ask B name request with
    | (.ok result, m) => (.ok (toolResult W name result), m)
    | (.error failure, m) =>
      (.ok (.obj [("content", .arr [textContent (failure.code ++ ": " ++ failure.message)]),
        ("isError", .bool true)]), m)

/-- The methods. -/
def answer (W : Wire) (B : Backend) (method : String) (params : Fields) (m : Mcp) :
    Except (ℤ × String) Json.Value × Mcp :=
  match method with
  | "initialize" => (.ok (m.initialized W params).1, (m.initialized W params).2)
  | "ping" => (.ok (.obj []), m)
  | "tools/list" => (.ok (.obj [("tools", .arr (tools.map Tool.value))]), m)
  | "tools/call" => m.callTool W B params
  | other => (.error (-32601, other ++ " is not a method this server has"), m)

/-- `handle`: what is answered to one line, if anything. -/
def handle (W : Wire) (B : Backend) (line : String) (m : Mcp) : Option String × Mcp :=
  match W.fromStr line with
  | .error e => (some (rpcError W .null (-32700) ("parse error: " ++ e)), m)
  | .ok (.obj message) =>
    match message.lookup "id", (message.lookup "method").bind asStr with
    | some id, some method =>
      match m.answer W B method (((message.lookup "params").bind asObject).getD []) with
      | (.ok result, m) =>
        (some (W.write (.obj [("jsonrpc", .str "2.0"), ("id", id), ("result", result)])), m)
      | (.error (code, why), m) => (some (rpcError W id code why), m)
    | _, _ => (none, m)
  | .ok _ => (some (rpcError W .null (-32600) "a message is a JSON object"), m)

/-- The loop of `mcp`, over the lines that are text and are not blank: what is answered, and what
the server is then. -/
def serve (W : Wire) (B : Backend) (lines : List String) (m : Mcp) : List String × Mcp :=
  lines.foldl (fun s line =>
    let (answer, m) := s.2.handle W B line
    (s.1 ++ answer.toList, m)) ([], m)

/-! ### What the server asks for -/

/-- **A request that the server may make**: as whom it was told to be, if it was told; and either
a tool's, so that a command it is needs a scope, or the one that asks for `script` alone, directly
after a script was refused for want of it. -/
def Justified (name : Option String) (before : List Call) (call : Call) : Prop :=
  (∀ n ∈ name, call.client = n) ∧ ∃ fields, call.request = .obj fields ∧
    ((∃ tool arguments, requestFor tool arguments = .ok fields) ∧
        (∀ c, Reading.command fields = .ok c → c.needs ≠ none) ∨
      fields = scriptRequest ∧ ∃ last ∈ before.getLast?, wasNotGranted last.answer = true ∧
        ∃ arguments script, requestFor "syndeo_eval" arguments = .ok script ∧
          last.request = .obj script)

/-- The commands that need no scope. -/
theorem name_of_needs {c : Command} (h : c.needs = none) :
    c.name ∈ ["hello", "request", "status", "bye"] := by
  cases c with
  | hello | request | status | bye => simp [Command.name]
  | _ => exact absurd h (by simp [Command.needs])

theorem notMem_of_commandFor {tool cmd : String} (h : commandFor tool = some cmd) :
    cmd ∉ ["hello", "request", "status", "bye"] := by
  unfold commandFor at h
  split at h
  all_goals first
    | obtain rfl := Option.some.inj h
      decide +kernel
    | cases h

theorem notMem_of_mem {action : String} (h : action ∈ ["back", "forward", "reload", "stop"]) :
    action ∉ ["hello", "request", "status", "bye"] := by
  simp only [List.mem_cons, List.not_mem_nil, or_false] at h
  rcases h with rfl | rfl | rfl | rfl <;> decide +kernel

/-- **What a tool's request may be needs a scope.** -/
theorem needs_of_requestFor {c : Command} {tool : String} {arguments fields : Fields}
    (h : requestFor tool arguments = .ok fields) (hc : Reading.command fields = .ok c) :
    c.needs ≠ none := by
  have hname : ∀ cmd, fields.lookup "cmd" = some (.str cmd) → c.name = cmd := by
    intro cmd hcmd
    rcases (Reading.command_ok_iff (c := c)).2 fields hc "cmd" _ hcmd with h | h | h
    · exact absurd h (by decide +kernel)
    · exact absurd h (by decide +kernel)
    · exact Json.Value.str.inj (Option.some.inj h)
  intro hneeds
  rw [requestFor] at h
  by_cases hnavigate : tool = "syndeo_navigate"
  · rw [if_pos hnavigate, navigateRequest] at h
    split at h
    · rename_i action _
      split_ifs at h with haction
      obtain rfl := Except.ok.inj h
      exact notMem_of_mem haction (hname action Json.lookup_insert_self ▸ name_of_needs hneeds)
    · exact absurd h (by simp)
  · rw [if_neg hnavigate] at h
    cases hcmd : commandFor tool with
    | none =>
      rw [hcmd] at h
      exact absurd h (by simp)
    | some cmd =>
      rw [hcmd] at h
      dsimp only at h
      split_ifs at h
      obtain rfl := Except.ok.inj h
      exact notMem_of_commandFor hcmd (hname cmd Json.lookup_insert_self ▸ name_of_needs hneeds)

/-- **Whatever has been asked for was justified**, and the server is who it was told to be. -/
structure Inv (name : Option String) (m : Mcp) : Prop where
  named : ∀ n ∈ name, m.named = true ∧ m.client = n
  calls : Events.EachAfter (Justified name) m.calls

section

variable {B : Backend} {W : Wire} {name : Option String} {m : Mcp}

theorem inv_new (name : Option String) : Inv name (new name) where
  named n hn := by
    obtain rfl := Option.mem_def.mp hn
    exact ⟨rfl, rfl⟩
  calls := Events.eachAfter_nil

/-- One request more. -/
theorem Inv.call {request : Fields} (h : Inv name m)
    (hrequest : Justified name m.calls ⟨m.client, .obj request, B m.calls m.client (.obj request)⟩) :
    Inv name (m.call B request).2 :=
  ⟨h.named, Events.eachAfter_concat.mpr ⟨h.calls, hrequest⟩⟩

/-- A tool's request. -/
theorem Inv.call_tool {tool : String} {arguments request : Fields} (h : Inv name m)
    (hrequest : requestFor tool arguments = .ok request) : Inv name (m.call B request).2 :=
  h.call ⟨fun n hn => (h.named n hn).2, request, rfl,
    .inl ⟨⟨tool, arguments, hrequest⟩, fun _ => needs_of_requestFor hrequest⟩⟩

/-- A tool's request, and what is tried again. -/
theorem Inv.ask {tool : String} {arguments request : Fields} (h : Inv name m)
    (hrequest : requestFor tool arguments = .ok request) : Inv name (m.ask B tool request).2 := by
  have hfirst : Inv name (m.call B request).2 := h.call_tool hrequest
  simp only [Mcp.ask]
  split_ifs with heval
  · obtain ⟨rfl, hrefused⟩ := heval
    have hscript : Inv name ((m.call B request).2.call B scriptRequest).2 := by
      refine hfirst.call ⟨fun n hn => (hfirst.named n hn).2, scriptRequest, rfl, .inr ⟨rfl, ?_⟩⟩
      exact ⟨_, List.getLast?_concat, hrefused, arguments, request, hrequest, rfl⟩
    rw [tryAgain]
    split
    · rename_i failure m' heq
      exact (congrArg Prod.snd heq) ▸ hscript
    · rename_i result m' heq
      have hm' : (((m.call B request).2.call B scriptRequest).2) = m' := congrArg Prod.snd heq
      exact (hm' ▸ hscript).call_tool hrequest
  · exact hfirst

theorem Inv.callTool {params : Fields} (h : Inv name m) : Inv name (m.callTool W B params).2 := by
  rw [Mcp.callTool]
  split
  · exact h
  · rename_i tool request hcall
    obtain ⟨arguments, hrequest⟩ : ∃ arguments, requestFor tool arguments = .ok request := by
      simp only [toolCall, Json.bind_eq_ok] at hcall
      obtain ⟨tool', -, arguments, -, hcall⟩ := hcall
      split at hcall
      · rename_i request' hrequest
        obtain ⟨rfl, rfl⟩ := Prod.mk.inj (Except.ok.inj hcall)
        exact ⟨arguments, hrequest⟩
      · exact absurd hcall (by simp)
    have hasked : Inv name (m.ask B tool request).2 := h.ask hrequest
    split
    · rename_i result m' heq
      exact (congrArg Prod.snd heq) ▸ hasked
    · rename_i failure m' heq
      exact (congrArg Prod.snd heq) ▸ hasked

theorem Inv.introduced {params : Fields} (h : Inv name m) : Inv name (m.introduced params) := by
  rw [Mcp.introduced]
  split_ifs with hnamed
  · exact h
  · have hnone : ∀ n, n ∉ name := fun n hn => hnamed (h.named n hn).1
    split
    · exact h
    · dsimp only
      split_ifs
      · exact h
      · exact ⟨fun n hn => absurd hn (hnone n), h.calls⟩

theorem Inv.answer (method : String) (params : Fields) (h : Inv name m) :
    Inv name (m.answer W B method params).2 := by
  unfold Mcp.answer
  split
  · exact h.introduced
  · exact h
  · exact h
  · exact h.callTool
  · exact h

/-- **One line.** -/
theorem Inv.handle (line : String) (h : Inv name m) : Inv name (m.handle W B line).2 := by
  rw [Mcp.handle]
  split
  · exact h
  · rename_i message _
    split
    · rename_i id method _ _
      have hanswer := h.answer (B := B) (W := W) method
        (((message.lookup "params").bind asObject).getD [])
      split
      · rename_i result m' heq
        exact (congrArg Prod.snd heq) ▸ hanswer
      · rename_i code why m' heq
        exact (congrArg Prod.snd heq) ▸ hanswer
    · exact h
  · exact h

/-- **Whatever lines are sent to the server**, and whatever the application answers, each request
that it makes is one it may make. -/
theorem justified_of_serve (W : Wire) (B : Backend) (name : Option String) (lines : List String) :
    Events.EachAfter (Justified name) ((new name).serve W B lines).2.calls := by
  have hserve : ∀ s : List String × Mcp, Inv name s.2 →
      Inv name (lines.foldl (fun s line =>
        let (answer, m) := s.2.handle W B line
        (s.1 ++ answer.toList, m)) s).2 := by
    induction lines with
    | nil => exact fun s hs => hs
    | cons line lines ih => exact fun s hs => ih _ (hs.handle line)
  exact (hserve ([], new name) (inv_new name)).calls

end

end Mcp

end Syndeo.App
