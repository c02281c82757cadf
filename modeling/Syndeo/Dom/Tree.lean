import Syndeo.Data.Rose
import Syndeo.Http.Text

/-!
# The tree of a page

The nodes that the HTML parser builds, and what the traversals of a page ask of one:
its tag, an attribute, its text. A reference on the page is resolved against the URL
the page came from, which is the work of another package (`Syndeo.Dom.Base`).
-/

namespace Syndeo.Dom

open Text

/-- `NodeData`, as far as it is looked at: a doctype, a comment and a processing
instruction carry nothing that is read. -/
inductive NodeData
  | document
  | doctype
  | text (contents : List Char)
  | comment
  | element (name : String) (attrs : List (String × List Char))
  | processingInstruction
  deriving DecidableEq

/-- `Handle`: a node, with what is under it. -/
abbrev Node := Rose NodeData

namespace Node

/-- `tag`: the name of an element, in lower case. -/
def tag (node : Node) : Option String :=
  match node.label with
  | .element name _ => some (toAsciiLowercase name)
  | _ => none

/-- `attribute`: the value of the first attribute of that name. -/
def «attribute» (node : Node) (wanted : String) : Option (List Char) :=
  match node.label with
  | .element _ attrs => (attrs.find? fun attr => eqIgnoreAsciiCase attr.1 wanted).map Prod.snd
  | _ => none

/-- The contents of a text node. -/
def text (node : Node) : List Char :=
  match node.label with
  | .text contents => contents
  | _ => []

/-- A node that is text. -/
def isText (node : Node) : Bool :=
  match node.label with
  | .text _ => true
  | _ => false

/-- A node that is an element. -/
def isElement (node : Node) : Bool :=
  match node.label with
  | .element _ _ => true
  | _ => false

/-- A text node has no tag. -/
theorem text_of_tag {node : Node} {name : String} (h : node.tag = some name) : node.text = [] := by
  cases node with
  | node label children =>
    cases label with
    | element name attrs => rfl
    | _ => cases h

theorem isElement_of_tag {node : Node} {name : String} (h : node.tag = some name) :
    node.isElement = true := by
  cases node with
  | node label children =>
    cases label with
    | element name attrs => rfl
    | _ => cases h

end Node

/-- The URL that references are resolved against: a `url::Url`. -/
structure Base where
  /-- `Url::to_string`. -/
  text : List Char
  /-- `Url::join`, as a string. -/
  join : List Char → Option (List Char)

/-- `resolve`. -/
def resolve (base : Option Base) (reference : List Char) : List Char :=
  match base with
  | some base => (base.join reference).getD reference
  | none => reference

end Syndeo.Dom
