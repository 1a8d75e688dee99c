import CanonicalXml.Tree
/-! # Places in a document

A node together with its surroundings.

* `Location` — a place among the children of the document node or of an
  element: the node that stands there, the siblings on both sides, and the
  ancestors.
* `Location.all` lists the places of a document in document order, and
  `Document.locate?` finds one by its number.
* `Place` — a location or the document node itself.
-/

namespace CanonicalXml

/-- An ancestor of a place, with its number in document order. -/
structure Ancestor where
  number : Nat
  element : Element
deriving DecidableEq

/-- The namespaces in scope inside the innermost of these elements. -/
def Ancestor.scope : List Ancestor → Scope
  | [] => []
  | a :: _ => a.element.scope

/-- A place in a document.

`here` holds the node that stands at the place followed by its later siblings;
`number` is that node's number. `before` gives the kinds of the earlier siblings,
nearest first, and `ancestors` the enclosing elements, innermost first. -/
structure Location where
  number : Nat
  ancestors : List Ancestor
  before : List NodeKind
  here : Content
deriving DecidableEq

namespace Location

/-- The first place among the children of the document node. -/
def top (content : Content) : Location :=
  ⟨1, [], [], content⟩

/-- The first place inside the element `e`, which stands at `loc` and has the children `inner`. -/
def inside (loc : Location) (e : Element) (inner : Content) : Location :=
  ⟨loc.number + 1, ⟨loc.number, e⟩ :: loc.ancestors, [], inner⟩

/-- The place after this one. At the end of the siblings it stays where it is. -/
def next (loc : Location) : Location :=
  match loc.here with
  | .nil => loc
  | .leaf l rest => ⟨loc.number + 1, loc.ancestors, l.kind :: loc.before, rest⟩
  | .element _ inner rest =>
    ⟨loc.number + inner.size + 1, loc.ancestors, .element :: loc.before, rest⟩

def after (loc : Location) : Content :=
  loc.next.here

def isTop (loc : Location) : Bool :=
  loc.ancestors.isEmpty

def outerScope (loc : Location) : Scope :=
  Ancestor.scope loc.ancestors

/-- All places from this one on, among its siblings and inside them, in document order. -/
def allFrom (number : Nat) (ancestors : List Ancestor) (before : List NodeKind) :
    Content → List Location
  | .nil => []
  | .leaf l next =>
    ⟨number, ancestors, before, .leaf l next⟩ ::
      allFrom (number + 1) ancestors (l.kind :: before) next
  | .element e inner next =>
    ⟨number, ancestors, before, .element e inner next⟩ ::
      (allFrom (number + 1) (⟨number, e⟩ :: ancestors) [] inner ++
        allFrom (number + inner.size + 1) ancestors (.element :: before) next)

/-- All places from this one on. -/
def all (loc : Location) : List Location :=
  allFrom loc.number loc.ancestors loc.before loc.here

/-- The places of the node that stands here and of its descendants. -/
def subtree (loc : Location) : List Location :=
  match loc.here with
  | .nil => []
  | .leaf _ _ => [loc]
  | .element e inner _ => loc :: (loc.inside e inner).all

end Location

namespace Document

def locations (d : Document) : List Location :=
  (Location.top d.content).all

/-- The place with this number. The document node has number zero and is no such place. -/
def locate? (d : Document) (number : Nat) : Option Location :=
  d.locations.find? (·.number = number)

end Document

/-- A node of a document: the document node, or one below it. -/
inductive Place where
  | document (content : Content)
  | node (loc : Location)
deriving DecidableEq

namespace Place

def number : Place → Nat
  | document _ => 0
  | node loc => loc.number

/-- The places below the document node that belong to the tree rooted here. -/
def locations : Place → List Location
  | document content => (Location.top content).all
  | node loc => loc.subtree

end Place

def Document.place? (d : Document) (number : Nat) : Option Place :=
  if number = 0 then some (.document d.content) else (d.locate? number).map .node

end CanonicalXml
