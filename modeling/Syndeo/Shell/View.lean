import Syndeo.Dom.Document
import Syndeo.Dom.Printed

/-!
# What `syndeo browse` prints

The report of a page for a person: how it was fetched, its title, the beginning of its
text, and in full also what it links to, what it depends on, and its forms. The columns
of a full report are fitted.

A report is the lines that `Syndeo.View.human` writes, and the lines of the text among
them; how many it writes depends on what there is to report, and not on what that says
(`Syndeo.View.report_human`).
-/

namespace Syndeo

open Text Separated
open Dom Dom.Terminal

/-! ### Sizes -/

namespace Stats

/-- The nearest multiple of `d` to `n`, over `d`: of two that are as near, the even one. -/
def nearestEven (n d : ℕ) : ℕ :=
  let q := n / d
  if 2 * (n % d) < d then q else if d < 2 * (n % d) then q + 1 else q + q % 2

/-- `as f64`: a number, with the first 53 of its binary places. -/
def asF64 (n : ℕ) : ℕ :=
  let place := 2 ^ (n.log2 - 52)
  nearestEven n place * place

/-- The loop of `human`: while the value is no less than 1024 and there is another unit, that is
the unit. The value is over the scale, a division by 1024 being exact. -/
def inUnits (value scale : ℕ) (unit : String) : List String → ℕ × String
  | [] => (scale, unit)
  | next :: rest =>
    if 1024 * scale ≤ value then inUnits value (1024 * scale) next rest else (scale, unit)

/-- `human`: a number of bytes in units, to one decimal place. -/
def human (bytes : ℕ) : List Char :=
  let value := asF64 bytes
  let (scale, unit) := inUnits value 1 "B" ["KiB", "MiB", "GiB", "TiB"]
  if scale = 1 then number bytes ++ " B".toList
  else
    let tenths := nearestEven (10 * value) scale
    number (tenths / 10) ++ ".".toList ++ number (tenths % 10) ++ " ".toList ++ unit.toList

/-- **What is nearest is within a half.** -/
theorem nearestEven_near {d : ℕ} (hd : 0 < d) (n : ℕ) :
    2 * n ≤ 2 * (nearestEven n d * d) + d ∧ 2 * (nearestEven n d * d) ≤ 2 * n + d := by
  have hdiv : d * (n / d) + n % d = n := Nat.div_add_mod n d
  have hmod : n % d < d := Nat.mod_lt n hd
  rw [nearestEven]
  split_ifs with hlow hhigh
  · rw [Nat.mul_comm (n / d)]
    omega
  · rw [Nat.add_mul, Nat.mul_comm (n / d)]
    omega
  · rcases Nat.mod_two_eq_zero_or_one (n / d) with heven | hodd
    · rw [heven, Nat.add_zero, Nat.mul_comm (n / d)]
      omega
    · rw [hodd, Nat.add_mul, Nat.mul_comm (n / d)]
      omega

/-- A number of no more than 53 binary places is itself. -/
theorem asF64_of_lt {n : ℕ} (h : n < 2 ^ 53) : asF64 n = n := by
  have hplace : n.log2 - 52 = 0 := by
    rcases Nat.eq_zero_or_pos n with rfl | hn
    · rfl
    · have hlog := (Nat.log2_lt (Nat.ne_of_gt hn)).mpr h
      omega
  rw [asF64, hplace]
  simp [nearestEven, Nat.mod_one]

theorem line_human {category : Char → GeneralCategory} (hown : ShowsOwn category) (bytes : ℕ) :
    Line category (human bytes) := by
  have hunit : ∀ (value scale : ℕ) (unit : String) (rest : List String),
      (∀ u ∈ unit :: rest, u.toList.all isOwn = true) →
      (inUnits value scale unit rest).2.toList.all isOwn = true := by
    intro value scale unit rest
    induction rest generalizing scale unit with
    | nil => exact fun h => h unit List.mem_cons_self
    | cons next rest ih =>
      intro h
      rw [inUnits]
      split
      · exact ih (1024 * scale) next fun u hu => h u (List.mem_cons_of_mem _ hu)
      · exact h unit List.mem_cons_self
  rw [human]
  dsimp only
  split
  · exact line_append_iff.mpr ⟨line_number hown _, line_literal hown " B" (by decide)⟩
  · simp only [line_append_iff]
    exact ⟨⟨⟨⟨line_number hown _, line_literal hown "." (by decide)⟩, line_number hown _⟩,
      line_literal hown " " (by decide)⟩, line_literal hown _ (hunit _ _ _ _ (by decide))⟩

end Stats

/-! ### The source -/

namespace View

/-- `Fetch`: how the fetch went. -/
structure Fetch where
  url : List Char
  status : ℕ
  source : List Char
  protocol : List Char
  elapsedMs : ℕ
  bytes : ℕ
  content : Option (List Char)
  contentType : Option (List Char)
  /-- The second fetch: source, protocol, milliseconds. -/
  again : Option (List Char × List Char × ℕ)

variable (category : Char → GeneralCategory) (fetch : Fetch) (document : Document) (full : Bool)

/-- `cell`. -/
def cell (value : List Char) (width : ℕ) : List Char := fit category value width

/-- What `human` writes before the text. -/
def opening : List (List Char) :=
  [singleLine category fetch.url,
    "  ".toList ++ number fetch.status ++ "  ".toList ++ singleLine category fetch.source ++
      "  ".toList ++ singleLine category fetch.protocol ++ "  ".toList ++
      number fetch.elapsedMs ++ "ms  ".toList ++ Stats.human fetch.bytes] ++
  (fetch.content.toList.map fun content =>
    "  content ".toList ++ (singleLine category content).take 16) ++
  (fetch.contentType.toList.map fun contentType =>
    "  type    ".toList ++ singleLine category contentType) ++
  (fetch.again.toList.map fun again =>
    "  again   ".toList ++ singleLine category again.1 ++ "  ".toList ++
      singleLine category again.2.1 ++ "  ".toList ++ number again.2.2 ++ "ms".toList) ++
  (document.cutShort.toList.map fun cut =>
    "  cut short: parsed ".toList ++ Stats.human cut.parsed ++ " of ".toList ++
      Stats.human cut.of ++ "; the rest would cost more work than a page is allowed".toList) ++
  [[]] ++
  document.title.toList.flatMap fun title => ["# ".toList ++ singleLine category title, []]

/-- The lines of the text. -/
def textLines : List (List Char) := Text.lines (multiline category document.text)

/-- The lines of the text that are shown. -/
def shown : List (List Char) := (textLines category document).take 40

/-- How many there are beyond those. -/
def more : List (List Char) :=
  let count := (textLines category document).length
  if 40 < count then ["… ".toList ++ number (count - 40) ++ " more lines".toList] else []

/-- A part of a full report, unless it is empty: how many there are, and a line for each. -/
def part (name : String) (count : ℕ) (rows : List (List Char)) : List (List Char) :=
  if count = 0 then [] else [[], name.toList ++ " (".toList ++ number count ++ ")".toList] ++ rows

/-- A link, in columns. -/
def linkRow (link : Link) : List Char :=
  "  ".toList ++ padTo 60 (cell category link.url 60) ++ " ".toList ++ cell category link.text 40

/-- A resource. -/
def resourceRow (resource : Subresource) : List Char :=
  "  ".toList ++ padTo 11 (cell category resource.kind 11) ++ " ".toList ++
    padTo 50 (cell category resource.url 50) ++ " ".toList ++
    (if resource.integrity.isSome then "integrity declared"
      else "no integrity — origin only").toList

/-- A field of a form. -/
def fieldRow (field : FormField) : List Char :=
  "    ".toList ++ padTo 20 (cell category field.name 20) ++ " ".toList ++
    padTo 10 (cell category field.kind 10) ++ (if field.required then " required" else "").toList

/-- A form, and its fields. -/
def formRows (form : Form) : List (List Char) :=
  ("  ".toList ++ singleLine category form.method ++ " ".toList ++
    singleLine category form.action) :: form.fields.map (fieldRow category)

/-- What `human` writes after the text, in full. -/
def parts : List (List Char) :=
  part "links" document.links.length ((document.links.take 20).map (linkRow category)) ++
  part "subresources" document.subresources.length
    ((document.subresources.take 20).map (resourceRow category)) ++
  part "forms" document.forms.length (document.forms.flatMap (formRows category))

/-- `human`: the report for a person. -/
def human : List Char :=
  terminated '\n' (opening category fetch document ++
    [['\n'].intercalate (shown category document)] ++ more category document ++
    if full then parts category document else [])

/-! ### Its lines -/

/-- **The lines of the text in a report**: those shown, and an empty one if there is none. -/
def body : List (List Char) :=
  if shown category document = [] then [[]] else shown category document

/-- How many lines `human` writes before the text. -/
def linesBefore : ℕ :=
  2 + fetch.content.toList.length + fetch.contentType.toList.length + fetch.again.toList.length +
    document.cutShort.toList.length + 1 + 2 * document.title.toList.length

/-- How many a part has. -/
def partLength (count rows : ℕ) : ℕ := if count = 0 then 0 else 2 + rows

/-- How many lines `human` writes after the text. -/
def linesAfter : ℕ :=
  (if 40 < (textLines category document).length then 1 else 0) +
    if full then
      partLength document.links.length (min 20 document.links.length) +
      partLength document.subresources.length (min 20 document.subresources.length) +
      partLength document.forms.length
        (document.forms.map fun form => form.fields.length + 1).sum
    else 0

variable {category} {fetch} {document} {full}

theorem length_opening :
    (opening category fetch document).length = linesBefore fetch document := by
  have htitle : (document.title.toList.flatMap fun title =>
      ["# ".toList ++ singleLine category title, []]).length = 2 * document.title.toList.length := by
    rcases document.title with _ | title <;> rfl
  simp only [opening, linesBefore, List.length_append, List.length_map, htitle, List.length_cons,
    List.length_nil]

theorem length_part (name : String) (count : ℕ) (rows : List (List Char)) :
    (part name count rows).length = partLength count rows.length := by
  rw [part, partLength]
  split
  · rfl
  · rw [List.length_append]
    rfl

theorem length_after : (more category document ++
    if full then parts category document else []).length = linesAfter category document full := by
  have hmore : (more category document).length =
      if 40 < (textLines category document).length then 1 else 0 := by
    rw [more]
    split <;> rfl
  have hforms : document.forms.map (fun form => (formRows category form).length) =
      document.forms.map fun form => form.fields.length + 1 :=
    List.map_congr_left fun form _ => by rw [formRows, List.length_cons, List.length_map]
  rw [List.length_append, hmore, linesAfter]
  cases full with
  | false => rfl
  | true =>
    simp only [if_true, parts, List.length_append, length_part, List.length_map, List.length_take,
      List.length_flatMap, hforms]

theorem line_cell (hown : ShowsOwn category) (value : List Char) (width : ℕ) :
    Line category (cell category value width) := line_fit hown value width

theorem line_opening (hown : ShowsOwn category) :
    ∀ line ∈ opening category fetch document, Line category line := by
  simp (disch := decide) only [opening, List.forall_mem_append, List.forall_mem_cons,
    List.forall_mem_map, List.forall_mem_flatMap, line_append_iff, line_nil, line_literal hown,
    line_singleLine hown, line_number hown, Stats.line_human hown, (line_singleLine hown _).take,
    List.not_mem_nil, false_imp_iff, implies_true, and_self]

theorem line_linkRow (hown : ShowsOwn category) (link : Link) :
    Line category (linkRow category link) := by
  unfold linkRow
  simp (disch := decide) only [line_append_iff, line_literal hown, line_cell hown,
    (line_cell hown _ _).padTo hown, and_self]

theorem line_resourceRow (hown : ShowsOwn category) (resource : Subresource) :
    Line category (resourceRow category resource) := by
  unfold resourceRow
  split <;> simp (disch := decide) only [line_append_iff, line_literal hown,
    (line_cell hown _ _).padTo hown, and_self]

theorem line_fieldRow (hown : ShowsOwn category) (field : FormField) :
    Line category (fieldRow category field) := by
  unfold fieldRow
  split <;> simp (disch := decide) only [line_append_iff, line_literal hown,
    (line_cell hown _ _).padTo hown, and_self]

theorem line_formRows (hown : ShowsOwn category) (form : Form) :
    ∀ line ∈ formRows category form, Line category line := by
  rw [formRows, List.forall_mem_cons, List.forall_mem_map]
  refine ⟨?_, fun field _ => line_fieldRow hown field⟩
  simp (disch := decide) only [line_append_iff, line_literal hown, line_singleLine hown, and_self]

theorem line_part (hown : ShowsOwn category) {name : String} (hname : name.toList.all isOwn = true)
    {rows : List (List Char)} (hrows : ∀ line ∈ rows, Line category line) (count : ℕ) :
    ∀ line ∈ part name count rows, Line category line := by
  rw [part]
  split
  · exact fun line hline => absurd hline List.not_mem_nil
  · rw [List.forall_mem_append, List.forall_mem_cons, List.forall_mem_singleton]
    refine ⟨⟨line_nil, ?_⟩, hrows⟩
    simp (disch := decide) only [line_append_iff, line_literal hown, line_literal hown name hname,
      line_number hown, and_self]

theorem line_parts (hown : ShowsOwn category) :
    ∀ line ∈ parts category document, Line category line := by
  rw [parts, List.forall_mem_append, List.forall_mem_append]
  refine ⟨⟨line_part hown (by decide) ?_ _, line_part hown (by decide) ?_ _⟩,
    line_part hown (by decide) ?_ _⟩
  · exact List.forall_mem_map.mpr fun link _ => line_linkRow hown link
  · exact List.forall_mem_map.mpr fun resource _ => line_resourceRow hown resource
  · exact List.forall_mem_flatMap.mpr fun form _ => line_formRows hown form

theorem line_more (hown : ShowsOwn category) :
    ∀ line ∈ more category document, Line category line := by
  rw [more]
  split
  · rw [List.forall_mem_singleton]
    simp (disch := decide) only [line_append_iff, line_literal hown, line_number hown, and_self]
  · exact fun line hline => absurd hline List.not_mem_nil

theorem line_body : ∀ line ∈ body category document, Line category line := by
  rw [body]
  split
  · exact List.forall_mem_singleton.mpr line_nil
  · exact fun line hline => line_of_mem_lines (List.mem_of_mem_take hline)

/-- **A report is the lines that are written**, and those of the text among them. -/
theorem report_human (hown : ShowsOwn category) (fetch : Fetch) (document : Document)
    (full : Bool) :
    Report category (human category fetch document full) (linesBefore fetch document)
      (body category document) (linesAfter category document full) := by
  have hbody : terminated '\n' [['\n'].intercalate (shown category document)] =
      terminated '\n' (body category document) := by
    rw [body]
    rcases shown category document with _ | ⟨first, rest⟩
    · rfl
    · rw [if_neg (List.cons_ne_nil _ _), ← intercalate_append_sep first rest, terminated_cons,
        terminated_nil]
  have hwhole : human category fetch document full = terminated '\n'
      (opening category fetch document ++ body category document ++
        (more category document ++ if full then parts category document else [])) := by
    simp only [human, terminated, List.flatMap_append, List.append_assoc] at hbody ⊢
    rw [hbody]
  have hafter : ∀ line ∈ more category document ++
      (if full then parts category document else []), Line category line := by
    rw [List.forall_mem_append]
    refine ⟨line_more hown, ?_⟩
    cases full with
    | false => exact fun line hline => absurd hline List.not_mem_nil
    | true => exact line_parts hown
  rw [hwhole, ← length_after, ← @length_opening category]
  exact report_terminated (line_opening hown) line_body hafter

end View

end Syndeo
