import Syndeo.Dom.Extract
import Syndeo.Net.Service

/-!
# A page

A parsed page, and what the rest of the program asks of it: its title, its text and its
blocks, what it links to, what it depends on, and which of that it declares a hash for.
-/

namespace Syndeo.Dom

open Text
open Rose (sweep sweep_eq)

/-- `CutShort`: how much of a page was parsed. -/
structure CutShort where
  parsed : ℕ
  «of» : ℕ
  deriving DecidableEq

/-- `Document`: a page, and the URL it came from. -/
structure Document where
  root : Node
  base : Option Base
  cutShort : Option CutShort

/-- `collect_text`: all the text at a node and under it, that of scripts included. -/
def collectText (node : Node) : List Char :=
  sweep (fun out node => out ++ Node.text node) [node] []

/-- The title that a node is, if it is one with text. -/
def titleOf (node : Node) : Option (List Char) :=
  match node.label with
  | .element "title" _ =>
    let text := trimChars (collectText node)
    if text.isEmpty then none else some text
  | _ => none

namespace Document

variable (self : Document)

/-- `title`: what is found first stays. -/
def title : Option (List Char) :=
  sweep (fun found node => if found.isSome then found else titleOf node) [self.root] none

/-- `text`. -/
def text : List Char := readable self.root

/-- `blocks`. -/
def blocks : Option (List TextBlock) := Dom.blocks self.root

/-- `links`. -/
def links : List Link := Dom.links self.base self.root

/-- `subresources`. -/
def subresources : List Subresource := Dom.subresources self.base self.root

/-- `forms`. -/
def forms : List Form := Dom.forms self.base self.root

variable {Value : Type} (service : Service Value)

/-- What a resource declares of its contents, if that can be used. -/
def declaredOf (resource : Subresource) : Option (List Char × Integrity) :=
  resource.integrity.bind fun raw =>
    match service.parseIntegrity (String.ofList raw) with
    | .error _ => none
    | .ok integrity => if integrity.isEmpty then none else some (resource.url, integrity)

/-- `integrity_map`. -/
def integrityMap : List (List Char × Integrity) := self.subresources.filterMap (declaredOf service)

variable {self} {service}

/-- **The title is the first there is**, of those with text. -/
theorem title_eq (self : Document) : self.title = self.root.nodes.findSome? titleOf := by
  have hfold : ∀ (nodes : List Node) (found : Option (List Char)),
      nodes.foldl (fun found node => if found.isSome then found else titleOf node) found =
        found.or (nodes.findSome? titleOf) := by
    intro nodes
    induction nodes with
    | nil => exact fun found => Option.or_none.symm
    | cons node nodes ih =>
      intro found
      rw [List.foldl_cons, ih, List.findSome?_cons]
      rcases found with _ | found
      · rcases titleOf node with _ | text <;> rfl
      · rfl
  rw [title, sweep_eq, hfold, Option.none_or]

/-- What is declared is declared by a resource of the page, and is a hash. -/
theorem mem_integrityMap {declared : List Char × Integrity}
    (h : declared ∈ self.integrityMap service) :
    (∃ resource ∈ self.subresources, resource.url = declared.1) ∧ declared.2.hashes ≠ [] := by
  obtain ⟨resource, hresource, hdeclared⟩ := List.mem_filterMap.mp h
  obtain ⟨raw, -, hparsed⟩ := Option.bind_eq_some_iff.mp hdeclared
  split at hparsed
  · cases hparsed
  · split at hparsed
    · cases hparsed
    · rename_i hempty
      rw [← Option.some.inj hparsed]
      refine ⟨⟨resource, hresource, rfl⟩, fun hnil => hempty ?_⟩
      rw [Integrity.isEmpty, hnil]
      rfl

end Document

end Syndeo.Dom
