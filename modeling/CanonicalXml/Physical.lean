import CanonicalXml.Canonical.Leaves
import CanonicalXml.Canonical.Request
import CanonicalXml.TagItem
import CanonicalXml.Transcript
/-! # Physical serialization

Writes a tree as it was spelled: attributes and declarations in source order,
comments kept, nothing added around the root. Only escaping is made uniform,
and empty elements get an end tag.

* `Physical.items` — the declarations and attributes of a start tag.
* `Physical.content` — siblings and all that is inside of them.
* `physical` — the serialization of an input.
-/

namespace CanonicalXml

namespace Physical

/-- The text of an attribute, with the space before it. -/
def writeAttribute (qname value : String) : String :=
  (WrittenAttribute.mk "" "" qname value).write

/-- The items of a start tag whose spelling is known, in the order of the spelling. The
values are those of the tree; attributes run parallel to the spelled ones. -/
def spelledItems (scope : Scope) : List RawAttribute → List Attribute → List String
  | [], _ => []
  | raw :: spelled, attributes =>
    match raw.declaredPrefix?, attributes with
    | some p, _ =>
      (Binding.mk p ((scope.uri? p).getD "")).write :: spelledItems scope spelled attributes
    -- More spelled attributes than the tree has; `items` does not ask for this.
    | none, [] => writeAttribute raw.qname "" :: spelledItems scope spelled []
    | none, a :: rest => writeAttribute raw.qname a.value :: spelledItems scope spelled rest

/-- The items of a start tag whose spelling is not known: declarations come first. -/
def inferredItems (e : Element) (names : Spelling) : List String :=
  names.declarations.map Binding.write ++
    (e.attributes.zip names.attributePrefixes).map fun (a, p) =>
      writeAttribute (QName.mk p a.localName).text a.value

def items (e : Element) (names : Spelling) : List String :=
  match e.tag with
  | some tag =>
    if tag.plain.length = e.attributes.length then spelledItems e.scope tag.attributes e.attributes
    else inferredItems e names
  | none => inferredItems e names

/-- Writes a leaf, except for text outside of the document element (`top`). The result is
the number of comments written. -/
def leaf (limits : Option Limits) (top : Bool) (comments : Nat) (l : Leaf) :
    Transcript String Nat := do
  match l with
  | .text _ =>
    if !top then .write l.write
    return comments
  | .comment _ =>
    .ofExcept (checkComments limits (comments + 1))
    .write l.write
    return comments + 1
  | .instruction _ _ =>
    .write l.write
    return comments

/-- Writes siblings inside of `depth` elements, the innermost of which has the scope
`outer`. -/
def content (limits : Option Limits) (depth : Nat) (top : Bool) (outer : Scope) (comments : Nat) :
    Content → Transcript String Nat
  | .nil => pure comments
  | .leaf l next => do
    let comments ← leaf limits top comments l
    content limits depth top outer comments next
  | .element e inner next => do
    let names := Spelling.of outer e
    let qname := names.name.text
    .ofExcept (checkAttributes limits qname (e.attributes.length + names.declarations.length))
    .ofExcept (checkDepth limits (depth + 1))
    .write ("<" ++ qname ++ String.join (items e names) ++ ">")
    let comments ← content limits (depth + 1) false e.scope comments inner
    .write ("</" ++ qname ++ ">")
    content limits depth top outer comments next

/-- The node that stands first, without its siblings. -/
def single : Content → Content
  | .nil => .nil
  | .leaf l _ => .leaf l .nil
  | .element e inner _ => .element e inner .nil

def tree (limits : Option Limits) : Place → Transcript String Nat
  | .document inner => content limits 0 true [] 0 inner
  | .node loc => content limits loc.ancestors.length loc.isTop loc.outerScope 0 (single loc.here)

end Physical

/-- The physical serialization of an input. Neither node sets nor prefix lists are taken. -/
def physical (input : Input) (params : Params) : Transcript String Nat :=
  let writable (p : Place) : Transcript String Nat :=
    if params.inclusivePrefixes.isEmpty then Physical.tree params.limits p
    else .failed (.physical .prefixList)
  match input with
  | .document d => writable (.document d.content)
  | .subtree apex => writable apex
  | .nodeSet _ _ => .failed (.physical .nodeSet)

end CanonicalXml
