import CanonicalXml.StartTag
/-! # Document trees

The tree of a document as the XPath data model sees it: elements with their
attributes and the namespaces in scope, text, comments and processing
instructions.

* `Element`, `Leaf` — the nodes, without their surroundings.
* `Content` — a list of sibling nodes. It is written as a binary tree (first
  child, next sibling), so that one structural recursion visits all of it.
* `Document` — the children of the document node, with the text they were
  read from.

Nodes carry no identity of their own. A node is known by its number in
document order, where the document node is number zero, and `Content.size`
is all that is needed to count.
-/

namespace CanonicalXml

/-- An attribute that declares no namespace. `nsUri?` is the namespace of its name. -/
structure Attribute where
  nsUri? : Option String
  localName : String
  value : String
deriving DecidableEq

/-- An element without its children.

`attributes` are in source order. `scope` lists its own declarations first and
then the inherited bindings. `tag` is the start tag as spelled, when the source
text shows it at the place where the element was found. -/
structure Element where
  nsUri? : Option String
  localName : String
  attributes : List Attribute
  scope : Scope
  tag : Option StartTag
deriving DecidableEq

/-- A node without children. -/
inductive Leaf where
  | text (value : String)
  | comment (value : String)
  /-- A processing instruction; data, where present, is not empty. -/
  | instruction (target : String) (data : Option String)
deriving DecidableEq

inductive NodeKind where
  | element
  | text
  | comment
  | instruction
deriving DecidableEq

def Leaf.kind : Leaf → NodeKind
  | .text _ => .text
  | .comment _ => .comment
  | .instruction _ _ => .instruction

/-- A list of siblings in document order. -/
inductive Content where
  | nil
  | leaf (l : Leaf) (next : Content)
  | element (e : Element) (inner next : Content)
deriving DecidableEq

namespace Content

/-- The number of nodes, descendants included. -/
def size : Content → Nat
  | nil => 0
  | leaf _ next => next.size + 1
  | element _ inner next => inner.size + next.size + 1

/-- The siblings of `back` in reverse order, followed by those of `front`. Children are
not reversed. -/
def reverseOnto (front : Content) : Content → Content
  | nil => front
  | leaf l next => reverseOnto (leaf l front) next
  | element e inner next => reverseOnto (element e inner front) next

def reverse (c : Content) : Content :=
  reverseOnto nil c

def kinds : Content → List NodeKind
  | nil => []
  | leaf l next => l.kind :: next.kinds
  | element _ _ next => .element :: next.kinds

/-- Whether one of the siblings is an element. -/
def hasElement (c : Content) : Bool :=
  c.kinds.contains .element

end Content

/-- A document: its text, and the children of the document node. -/
structure Document where
  text : String
  content : Content
deriving DecidableEq

/-- The number of nodes of a document, the document node included. -/
def Document.size (d : Document) : Nat :=
  d.content.size + 1

end CanonicalXml
