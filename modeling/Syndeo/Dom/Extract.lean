import Syndeo.Dom.Reading
import Mathlib.Algebra.BigOperators.Group.List.Lemmas

/-!
# What a page links to, depends on, and asks for

`Syndeo.Dom.links`, `Syndeo.Dom.subresources` and `Syndeo.Dom.forms` each go through the
tree once, and report the nodes of a kind. For a link that includes its text, and for a
form its fields, and for those a second walk begins at the node, under it. The two walks
know nothing of each other: what is in a form that is in a form is reported for both, and
so is the text of a link that is in a link.

What is reported once is what belongs to its nearest form, or its nearest link
(`Syndeo.Dom.ReportedOnce`). That is so for a page on which no field is in two forms and
no text that shows is in two links, and for no other
(`Syndeo.Dom.reportedOnce_iff`).
-/

namespace Syndeo.Dom

open Text
open Rose (sweep sweep_eq)

/-! ### The source -/

/-- `Link`. -/
structure Link where
  url : List Char
  text : List Char
  rel : Option (List Char)
  deriving DecidableEq

/-- `Subresource`. -/
structure Subresource where
  url : List Char
  kind : List Char
  integrity : Option (List Char)
  crossorigin : Option (List Char)
  deriving DecidableEq

/-- `FormField`. -/
structure FormField where
  name : List Char
  kind : List Char
  value : Option (List Char)
  required : Bool
  deriving DecidableEq

/-- `Form`. -/
structure Form where
  action : List Char
  method : List Char
  fields : List FormField
  deriving DecidableEq

variable (base : Option Base)

/-- The link that a node is, if it is one that is reported. -/
def linkOf (node : Node) : Option Link :=
  if node.tag ≠ some "a" then none
  else (node.«attribute» "href").bind fun href =>
    if href.head? = some '#' ∨ trimChars href = [] then none
    else some ⟨resolve base href, readable node, node.«attribute» "rel"⟩

/-- `links`. -/
def links (root : Node) : List Link :=
  sweep (fun out node => out ++ (linkOf base node).toList) [root] []

/-- What a `link` element is to the page. -/
def linkKind (node : Node) : Option (List Char) :=
  match ((node.«attribute» "rel").getD []).map lowerChar with
  | [] => none
  | rel => some rel

/-- The resource that a node needs. -/
def subresourceOf (node : Node) : Option Subresource :=
  let reference : Option (Option (List Char) × List Char) := match node.tag with
    | some "script" => some (node.«attribute» "src", "script".toList)
    | some "img" => some (node.«attribute» "src", "image".toList)
    | some "iframe" => some (node.«attribute» "src", "iframe".toList)
    | some "link" => (linkKind node).map fun kind => (node.«attribute» "href", kind)
    | _ => none
  reference.bind fun r => r.1.bind fun reference =>
    if trimChars reference = [] ∨ "data:".toList.isPrefixOf reference then none
    else some ⟨resolve base reference, r.2, node.«attribute» "integrity",
      node.«attribute» "crossorigin"⟩

/-- `subresources`. -/
def subresources (root : Node) : List Subresource :=
  sweep (fun out node => out ++ (subresourceOf base node).toList) [root] []

/-- The kind of a field, for an element that is one. -/
def fieldKind (node : Node) : Option (List Char) :=
  match node.tag with
  | some "input" => some ((node.«attribute» "type").getD "text".toList)
  | some "textarea" => some "textarea".toList
  | some "select" => some "select".toList
  | some "button" => some ((node.«attribute» "type").getD "submit".toList)
  | _ => none

/-- The field that a node is, if it has a name. -/
def fieldOf (node : Node) : Option FormField :=
  (fieldKind node).bind fun kind => (node.«attribute» "name").map fun name =>
    ⟨name, kind.map lowerChar, node.«attribute» "value", (node.«attribute» "required").isSome⟩

/-- The form that a node is. -/
def formOf (node : Node) : Option Form :=
  if node.tag ≠ some "form" then none
  else
    let action := (node.«attribute» "action").getD []
    some {
      action := if action = [] then (base.map Base.text).getD [] else resolve base action
      method := ((node.«attribute» "method").getD "get".toList).map upperChar
      fields := sweep (fun fields node => fields ++ (fieldOf node).toList) [node] [] }

/-- `forms`. -/
def forms (root : Node) : List Form :=
  sweep (fun out node => out ++ (formOf base node).toList) [root] []

/-! ### What belongs to a form and to a link -/

/-- Whether the node is a form. -/
def isForm (node : Node) : Bool := node.tag = some "form"

/-- Whether the node is a link that is reported. -/
def isLink (node : Node) : Bool := (linkOf none node).isSome

/-- What shows of a text. -/
def visible (cs : List Char) : List Char := cs.filter fun c => !isWhitespace c

/-- What shows of the text of a node itself. -/
def shownText (node : Node) : List Char := visible node.text

/-- **The fields of a form** are those whose nearest form it is. -/
def ownFields (form : Node) : List FormField := (form.near isForm).filterMap fieldOf

/-- **The text of a link** is that whose nearest link it is, save for what is not prose. -/
def ownLinkText (link : Node) : List Char :=
  (link.near fun n => Node.isSkipped n || isLink n).flatMap Node.text

/-- **A page is reported once**: each form with its fields, no more of them in all than
there are elements, and each link with what shows of its text. -/
structure ReportedOnce (root : Node) : Prop where
  fields : (forms base root).map Form.fields = (root.nodes.filter isForm).map ownFields
  count : ((forms base root).map fun form => form.fields.length).sum ≤
    (root.nodes.filter Node.isElement).length
  texts : (links base root).map (fun link => visible link.text) =
    (root.nodes.filter isLink).map fun link => visible (ownLinkText link)

/-- No field is in a form that is in another. -/
def FieldsApart (root : Node) : Prop :=
  ∀ form ∈ root.nodes, isForm form = true → ∀ inner ∈ Rose.reachAll (fun _ => false) form.children,
    isForm inner = true → ∀ node ∈ inner.nodes, fieldOf node = none

/-- No text that shows is in a link that is in another, where the outer one has it. -/
def TextsApart (root : Node) : Prop :=
  ∀ link ∈ root.nodes, isLink link = true → ∀ inner ∈ Rose.reachAll Node.isSkipped link.children,
    isLink inner = true → ∀ node ∈ inner.reach Node.isSkipped, shownText node = []

variable {base} {root node : Node}

/-! ### What is reported -/

theorem sweep_toList {β : Type} (f : Node → Option β) (root : Node) :
    sweep (fun out node => out ++ (f node).toList) [root] [] = root.nodes.filterMap f := by
  have hfold : ∀ (nodes : List Node) (out : List β),
      nodes.foldl (fun out node => out ++ (f node).toList) out = out ++ nodes.filterMap f := by
    intro nodes
    induction nodes with
    | nil => exact fun out => (List.append_nil out).symm
    | cons node nodes ih =>
      intro out
      rw [List.foldl_cons, ih, List.append_assoc]
      rcases hf : f node with _ | b
      · rw [List.filterMap_cons_none hf]
        rfl
      · rw [List.filterMap_cons_some hf]
        rfl
  rw [sweep_eq, hfold, List.nil_append]

/-- A node of a kind is reported with what it has. -/
theorem map_filterMap_of {β γ : Type} {f : Node → Option β} {kind : Node → Bool} {g : β → γ}
    {h : Node → γ} (hkind : ∀ node, kind node = (f node).isSome)
    (hg : ∀ node b, f node = some b → g b = h node) (nodes : List Node) :
    (nodes.filterMap f).map g = (nodes.filter kind).map h := by
  induction nodes with
  | nil => rfl
  | cons node nodes ih =>
    rcases hf : f node with _ | b
    · rw [List.filterMap_cons_none hf, List.filter_cons_of_neg (by rw [hkind, hf]; simp), ih]
    · rw [List.filterMap_cons_some hf, List.filter_cons_of_pos (by rw [hkind, hf]; rfl),
        List.map_cons, List.map_cons, ih, hg node b hf]

theorem isForm_eq (node : Node) : isForm node = (formOf base node).isSome := by
  rw [isForm, formOf]
  split
  · rename_i h
    simpa using h
  · rename_i h
    simpa using h

theorem fields_of_formOf {form : Form} (h : formOf base node = some form) :
    form.fields = node.nodes.filterMap fieldOf := by
  rw [formOf] at h
  split at h
  · cases h
  · rw [← Option.some.inj h]
    exact sweep_toList fieldOf node

theorem isLink_eq (node : Node) : isLink node = (linkOf base node).isSome := by
  rw [isLink, linkOf, linkOf]
  split
  · rfl
  · rcases node.«attribute» "href" with _ | href
    · rfl
    · rw [Option.bind_some, Option.bind_some]
      split <;> rfl

theorem text_of_linkOf {link : Link} (h : linkOf base node = some link) :
    link.text = readable node := by
  rw [linkOf] at h
  split at h
  · cases h
  · obtain ⟨href, -, hlink⟩ := Option.bind_eq_some_iff.mp h
    split at hlink
    · cases hlink
    · rw [← Option.some.inj hlink]

/-- **Each form is reported with every field under it.** -/
theorem map_fields_forms (root : Node) : (forms base root).map Form.fields =
    (root.nodes.filter isForm).map fun form => form.nodes.filterMap fieldOf := by
  rw [forms, sweep_toList]
  exact map_filterMap_of isForm_eq (fun _ _ => fields_of_formOf) _

theorem visible_append (a b : List Char) : visible (a ++ b) = visible a ++ visible b :=
  List.filter_append a b

/-- Putting the white space in order changes nothing that shows. -/
theorem visible_normalize (raw : List Char) : visible (normalize raw) = visible raw := by
  have hwords : ∀ cs : List Char, visible cs = (splitWhitespace cs).flatten := fun cs =>
    (Words.flatten_words isWhitespace cs).symm
  rw [hwords, splitWhitespace_normalize, ← hwords]

/-- **What is written of a node shows** its text, and that under it. -/
theorem visible_rendered (t : Node) :
    visible (rendered t) = (t.reach Node.isSkipped).flatMap shownText := by
  induction t using Rose.induct with
  | node a ts ih =>
    have hchildren : visible (renderedAll ts) =
        (Rose.reachAll Node.isSkipped ts).flatMap shownText := by
      induction ts with
      | nil => rw [renderedAll, Rose.reachAll_nil]; rfl
      | cons t ts ihs =>
        rw [renderedAll, visible_append, Rose.reachAll_cons, List.flatMap_append,
          ih t List.mem_cons_self, ihs fun u hu => ih u (List.mem_cons_of_mem _ hu)]
    rw [rendered]
    rcases hskip : Node.isSkipped (.node a ts) with _ | _
    · have hinside : visible (Node.text (.node a ts) ++ renderedAll ts) =
          (Rose.reach Node.isSkipped (.node a ts)).flatMap shownText := by
        rw [Rose.reach_of_not_stop hskip, Rose.near, List.flatMap_cons, visible_append, hchildren]
        rfl
      rw [if_neg Bool.false_ne_true]
      split
      · rw [← hinside, ← List.singleton_append, visible_append, visible_append]
        exact List.append_nil _
      · exact hinside
    · rw [if_pos rfl, Rose.reach_of_stop hskip]
      rfl

theorem not_isSkipped_of_isLink (h : isLink node = true) : node.isSkipped = false := by
  rw [isLink, linkOf] at h
  split at h
  · cases h
  · rename_i htag
    rw [Node.isSkipped, not_not.mp htag]
    decide

/-- **Each link is reported with all the text under it.** -/
theorem map_text_links (root : Node) : (links base root).map (fun link => visible link.text) =
    (root.nodes.filter isLink).map fun link =>
      (link.near Node.isSkipped).flatMap shownText := by
  rw [links, sweep_toList]
  have hnear : ∀ link ∈ root.nodes.filter isLink,
      (link.reach Node.isSkipped).flatMap shownText =
        (link.near Node.isSkipped).flatMap shownText := fun link hlink => by
    rw [Rose.reach_of_not_stop (not_isSkipped_of_isLink (List.of_mem_filter hlink))]
  rw [← List.map_congr_left hnear]
  refine map_filterMap_of isLink_eq (fun node link hlink => ?_) _
  rw [text_of_linkOf hlink, readable, visible_normalize, ← visible_rendered]
  rw [render, Rose.run_eq, visit_render, List.nil_append]

/-! ### When a page is reported once -/

/-- **The fields are reported once** if none is in a form that is in another. -/
theorem fields_once_iff : (forms base root).map Form.fields =
    (root.nodes.filter isForm).map ownFields ↔ FieldsApart root := by
  rw [map_fields_forms, List.map_inj_left]
  refine forall_congr' fun form => ?_
  rw [List.mem_filter, and_imp]
  refine imp_congr_right fun _ => imp_congr_right fun _ => ?_
  have hiff := @Rose.flatMap_near_eq_iff NodeData FormField isForm (fun _ => false)
    (fun node => (fieldOf node).toList) form
  rw [ownFields, List.filterMap_eq_flatMap_toList, List.filterMap_eq_flatMap_toList, eq_comm,
    Rose.nodes_eq form]
  refine hiff.trans (forall_congr' fun inner => imp_congr_right fun _ => imp_congr_right fun _ => ?_)
  rw [List.flatMap_eq_nil_iff]
  exact forall_congr' fun node => imp_congr_right fun _ => Option.toList_eq_nil_iff

theorem visible_flatMap (nodes : List Node) :
    visible (nodes.flatMap Node.text) = nodes.flatMap shownText := by
  induction nodes with
  | nil => rfl
  | cons node nodes ih => rw [List.flatMap_cons, List.flatMap_cons, visible_append, ih]; rfl

/-- **The texts of the links are reported once** if nothing that shows is in two. -/
theorem texts_once_iff : (links base root).map (fun link => visible link.text) =
    (root.nodes.filter isLink).map (fun link => visible (ownLinkText link)) ↔
      TextsApart root := by
  rw [map_text_links, List.map_inj_left]
  refine forall_congr' fun link => ?_
  rw [List.mem_filter, and_imp]
  refine imp_congr_right fun _ => imp_congr_right fun _ => ?_
  have hiff := @Rose.flatMap_near_eq_iff NodeData Char isLink Node.isSkipped shownText link
  rw [ownLinkText, visible_flatMap, eq_comm]
  refine hiff.trans (forall_congr' fun inner => imp_congr_right fun _ => imp_congr_right fun _ => ?_)
  exact List.flatMap_eq_nil_iff

/-- A field is an element. -/
theorem isElement_of_fieldOf {field : FormField} (h : fieldOf node = some field) :
    node.isElement = true := by
  obtain ⟨kind, hkind, -⟩ := Option.bind_eq_some_iff.mp h
  rcases htag : node.tag with _ | name
  · rw [fieldKind, htag] at hkind
    cases hkind
  · exact Node.isElement_of_tag htag

/-- **Reported once, there are no more fields than elements**: each has at most one nearest
form. -/
theorem sum_ownFields_le (root : Node) :
    ((root.nodes.filter isForm).map fun form => (ownFields form).length).sum ≤
      (root.nodes.filter Node.isElement).length := by
  have hperm := (Rose.reach_perm (fun _ => false) isForm root).filterMap fieldOf
  have hall : (root.nodes.filterMap fieldOf).length ≤
      (root.nodes.filter Node.isElement).length := by
    generalize root.nodes = nodes
    induction nodes with
    | nil => exact le_refl _
    | cons node nodes ih =>
      rcases hfield : fieldOf node with _ | field
      · rw [List.filterMap_cons_none hfield]
        exact ih.trans (List.Sublist.filter _ (List.sublist_cons_self _ _)).length_le
      · rw [List.filterMap_cons_some hfield,
          List.filter_cons_of_pos (isElement_of_fieldOf hfield)]
        exact Nat.succ_le_succ ih
  have hsum : ((root.nodes.filter isForm).map fun form => (ownFields form).length).sum =
      (((root.nodes.filter isForm).flatMap (Rose.near isForm)).filterMap fieldOf).length := by
    rw [List.filterMap_flatMap, List.length_flatMap]
    rfl
  rw [hsum]
  have hlength := hperm.length_eq
  rw [List.filterMap_append, List.length_append] at hlength
  refine le_trans ?_ hall
  refine le_trans (Nat.le_add_left _ _) hlength.ge

/-- **A page is reported once** exactly if no field of it is in two forms, and no text that
shows in two links. -/
theorem reportedOnce_iff (base : Option Base) (root : Node) :
    ReportedOnce base root ↔ FieldsApart root ∧ TextsApart root := by
  constructor
  · exact fun h => ⟨fields_once_iff.mp h.fields, texts_once_iff.mp h.texts⟩
  · rintro ⟨hfields, htexts⟩
    have hforms := (@fields_once_iff base root).mpr hfields
    refine ⟨hforms, ?_, texts_once_iff.mpr htexts⟩
    have hlengths := congrArg (fun fields => (fields.map List.length).sum) hforms
    simp only [List.map_map] at hlengths
    exact hlengths.trans_le (sum_ownFields_le root)

/-- A form in a form, with a field. -/
def nestedForms : Node :=
  .node (.element "form" []) [.node (.element "form" [])
    [.node (.element "input" [("name", ['q'])]) []]]

/-- The field is reported for both. -/
theorem not_reportedOnce : ¬∀ (base : Option Base) (root : Node), ReportedOnce base root := by
  intro h
  have hfields := (h none nestedForms).fields
  rw [map_fields_forms] at hfields
  exact absurd hfields (by decide +kernel)

end Syndeo.Dom
