import CanonicalXml.Limits
import CanonicalXml.NamespaceAxis
import CanonicalXml.NodeSet
import CanonicalXml.Spelling
/-! # Requests for a canonical form

* `Method` — what tells the algorithms of the family apart.
* `Input` — what is to be written: a document, a subtree of one, or the nodes
  of a set.
* `Request` — all that stays fixed during a walk, with the questions that the
  walk asks about a place: is it output, which namespaces are visible there.
-/

namespace CanonicalXml

inductive NamespaceRule where
  /-- All that are in scope and not yet rendered. -/
  | inclusive
  /-- Those that the tag visibly uses, and those of a list. -/
  | exclusive
deriving DecidableEq

/-- Which attributes of the XML namespace an element takes from ancestors that are not
output. -/
inductive InheritanceRule where
  | nothing
  /-- All of them. -/
  | everything
  /-- The language and the treatment of white space; base URIs are joined. -/
  | revised
deriving DecidableEq

structure Method where
  withComments : Bool
  namespaces : NamespaceRule
  inheritance : InheritanceRule
deriving DecidableEq

inductive Input where
  | document (d : Document)
  /-- The tree below a node. The namespaces and the attributes of the XML namespace
  around it stay in effect. -/
  | subtree (apex : Place)
  | nodeSet (d : Document) (s : NodeSet)

structure Params where
  /-- The prefixes that the exclusive methods treat inclusively. -/
  inclusivePrefixes : List String := []
  /-- Whether the exclusive methods render the default namespace at the root of a subtree. -/
  propagateDefault : Bool := false
  limits : Option Limits := none
deriving DecidableEq

/-- The name that stands for the default namespace in a list of prefixes. -/
def defaultPrefixToken : String := "#default"

/-- White space between the prefixes of a list: that of XML, and the form feed. -/
def separatesPrefixes (c : Char) : Bool :=
  Chars.isSpace c || c = '\x0c'

def splitPrefixList (list : String) : List String :=
  ((Text.segments separatesPrefixes list.toList).filter (! ·.isEmpty)).map String.ofList

/-- Which nodes a request reaches and writes. -/
inductive Extent where
  | document
  | subtree (apex : Nat)
  | nodeSet (s : NodeSet)
deriving DecidableEq

/-- What stays fixed during a walk. `listed` holds the prefixes that are treated
inclusively, the default one being empty. -/
structure Request where
  method : Method
  extent : Extent
  listed : List String
  propagateDefault : Bool
  limits : Option Limits

namespace Request

def extentOf : Input → Extent
  | .document _ => .document
  | .subtree apex => .subtree apex.number
  | .nodeSet _ s => .nodeSet s

/-- The request that a method, an input and settings make. Prefix lists and the propagation
of the default namespace are for exclusive methods only, the latter for subtrees only. -/
def of (method : Method) (input : Input) (params : Params) : Request where
  method := method
  extent := extentOf input
  listed := match method.namespaces with
    | .inclusive => []
    | .exclusive => params.inclusivePrefixes.map fun p => if p = defaultPrefixToken then "" else p
  propagateDefault := params.propagateDefault && method.namespaces = .exclusive &&
    (extentOf input matches .subtree _)
  limits := params.limits

/-! ## What is output -/

/-- The numbers of the neighbours of a place in the run of siblings of its kind, the place
itself included. Such a run has no descendants in between, so its numbers are
consecutive. -/
def run (loc : Location) (kind : NodeKind) : List Nat :=
  let earlier := (loc.before.takeWhile (· = kind)).length
  let here := (loc.here.kinds.takeWhile (· = kind)).length
  List.range' (loc.number - earlier) (earlier + here)

/-- Whether the node at a place is output. Of comments and of instructions whole runs of
adjacent siblings belong to a set, as soon as one of them is a member. -/
def isOutput (r : Request) (loc : Location) (kind : NodeKind) : Bool :=
  if kind = .comment && !r.method.withComments then false
  else match r.extent, kind with
    | .nodeSet s, .comment | .nodeSet s, .instruction => (run loc kind).any s.contains
    | .nodeSet s, _ => s.contains loc.number
    | _, _ => true

/-- Whether the first of these elements, the others being its ancestors, is output. -/
def ancestorIsOutput (r : Request) : List Ancestor → Bool
  | [] => false
  | a :: above =>
    match r.extent with
    | .document => true
    | .subtree apex => apex = 0 || (a :: above).any (·.number = apex)
    | .nodeSet s => s.contains a.number

/-- The ancestors up to the innermost one that is output, which is left out. -/
def omittedAncestors (r : Request) : List Ancestor → List Ancestor
  | [] => []
  | a :: above =>
    if r.ancestorIsOutput (a :: above) then [] else a :: r.omittedAncestors above

def excludesAttributes (r : Request) : Bool :=
  match r.extent with
  | .nodeSet s => s.excludesAttributes
  | _ => false

/-! ## Namespaces -/

def restrictsNamespaces (r : Request) : Bool :=
  match r.extent with
  | .nodeSet s => s.restrictsNamespaces
  | _ => false

/-- Whether the namespace node of a prefix is visible at the element with this number. -/
def isVisible (r : Request) (element : Nat) (nsPrefix : String) : Bool :=
  match r.extent with
  | .nodeSet s => s.isVisible element nsPrefix
  | _ => true

/-- Whether the default namespace has to be rendered at this element, because it is the
root of a propagating subtree. -/
def propagatesAt (r : Request) (element : Nat) : Bool :=
  r.propagateDefault && r.extent = .subtree element

/-- The prefixes that the exclusive methods declare on the element of these names. -/
def utilized (r : Request) (element : Nat) (names : Spelling) : List String :=
  names.name.nsPrefix :: r.listed ++
    (if r.excludesAttributes then [] else names.attributePrefixes.filter (! ·.isEmpty)) ++
    (if r.propagatesAt element then [""] else [])

/-- The declarations of a start tag that is output, and the namespaces rendered with it. -/
def declarations (r : Request) (axis : NamespaceAxis) (element : Nat) (names : Spelling) :
    List Binding × NamespaceAxis :=
  match r.method.namespaces with
  | .inclusive => axis.renderInclusive (r.isVisible element) r.restrictsNamespaces
  | .exclusive =>
    axis.renderExclusive (r.utilized element names) (r.isVisible element)
      (r.propagatesAt element && names.name.nsPrefix.isEmpty) r.restrictsNamespaces

/-- The declarations of an element that is not output. Where namespace nodes are selected
one by one, its visible ones are written all the same, though an empty default is not. -/
def bareDeclarations (r : Request) (axis : NamespaceAxis) (element : Nat) : List Binding :=
  let due :=
    if !r.restrictsNamespaces then []
    else match r.method.namespaces with
      | .inclusive => axis.pending (r.isVisible element)
      | .exclusive =>
        if r.listed.isEmpty then []
        else axis.pending fun p => r.listed.contains p && r.isVisible element p
  due.filter (! ·.uri.isEmpty)

end Request

end CanonicalXml
