import CanonicalXml.PrefixMap
/-! # The namespace axis during a walk

What a walk down a tree has to know about namespaces: the bindings in scope,
contributed by every ancestor, and the bindings rendered, which the written
start tags of ancestors show to a reader.

* `NamespaceAxis` holds both as one flat map each. Every open element has a
  frame that records how to undo its changes, so that leaving it needs no copy.
* `NamespaceAxis.due?` is the rule of both algorithms: what has to be declared
  for one prefix.
* `NamespaceAxis.renderInclusive`, `NamespaceAxis.renderExclusive` — the
  declarations of a start tag, which count as rendered from then on.
-/

namespace CanonicalXml

/-- A change of one of the maps, with what the prefix was bound to before. -/
inductive AxisChange where
  | inScope (nsPrefix : String) (before : Option String)
  | rendered (nsPrefix : String) (before : Option String)
deriving DecidableEq

/-- The namespaces at the element a walk has reached. `frames` has one list of changes for
each open element, innermost first; in each the last change comes first. -/
structure NamespaceAxis where
  inScope : PrefixMap
  rendered : PrefixMap
  frames : List (List AxisChange)

namespace NamespaceAxis

/-- The axis outside of any element. That there is no default namespace counts as
rendered, so that nothing has to be said about it. -/
def start : NamespaceAxis :=
  ⟨.empty, .single "" "", []⟩

def depth (axis : NamespaceAxis) : Nat :=
  axis.frames.length

/-- Adds a change to the innermost frame. Outside of any element nothing is recorded. -/
def record (axis : NamespaceAxis) (change : AxisChange) : NamespaceAxis :=
  match axis.frames with
  | [] => axis
  | frame :: frames => { axis with frames := (change :: frame) :: frames }

/-- Brings a declaration into scope. An empty URI takes the binding away; the prefix `xml`
cannot be declared. -/
def declare (axis : NamespaceAxis) (b : Binding) : NamespaceAxis :=
  if b.nsPrefix = xmlPrefix then axis
  else
    let changed := axis.record (.inScope b.nsPrefix (axis.inScope.get? b.nsPrefix))
    { changed with
      inScope := axis.inScope.set b.nsPrefix (if b.uri.isEmpty then none else some b.uri) }

def enter (axis : NamespaceAxis) (declarations : List Binding) : NamespaceAxis :=
  declarations.foldl declare { axis with frames := [] :: axis.frames }

def undo (axis : NamespaceAxis) : AxisChange → NamespaceAxis
  | .inScope p before => { axis with inScope := axis.inScope.set p before }
  | .rendered p before => { axis with rendered := axis.rendered.set p before }

/-- Leaves the innermost element: both maps are again as they were when it was entered. -/
def leave (axis : NamespaceAxis) : NamespaceAxis :=
  match axis.frames with
  | [] => axis
  | frame :: frames => { frame.foldl undo axis with frames := frames }

/-- The namespace that a prefix stands for at the current element. -/
def uri? (axis : NamespaceAxis) (nsPrefix : String) : Option String :=
  if nsPrefix = xmlPrefix then some xmlNamespace else axis.inScope.get? nsPrefix

/-- Makes a binding count as rendered, or as not rendered. -/
def setRendered (axis : NamespaceAxis) (nsPrefix : String) (uri? : Option String) :
    NamespaceAxis :=
  let changed := axis.record (.rendered nsPrefix (axis.rendered.get? nsPrefix))
  { changed with rendered := axis.rendered.set nsPrefix uri? }

def hasRenderedDefault (axis : NamespaceAxis) : Bool :=
  (axis.rendered.get? "").getD "" ≠ ""

/-- What has to be declared for a prefix: its binding, if that is visible and not rendered
like this. A default namespace that is rendered but not there to be seen has to be
undeclared; `force` asks for this also when none is rendered. -/
def due? (axis : NamespaceAxis) (visible : String → Bool) (force : Bool) (nsPrefix : String) :
    Option String :=
  match (axis.inScope.get? nsPrefix).filter fun _ => visible nsPrefix with
  | some uri => if axis.rendered.get? nsPrefix = some uri then none else some uri
  | none =>
    if nsPrefix.isEmpty && (force || axis.hasRenderedDefault) then some "" else none

/-- The declarations that the inclusive algorithm has to make here, by prefix: of all
prefixes in scope, and of the default. -/
def pending (axis : NamespaceAxis) (visible : String → Bool) : List Binding :=
  (PrefixMap.ofPrefixes ("" :: axis.inScope.prefixes) (axis.due? visible false)).bindings

/-- The declarations that the exclusive algorithm has to make here, by prefix: of the
utilized prefixes. -/
def pendingFor (axis : NamespaceAxis) (utilized : List String) (visible : String → Bool)
    (force : Bool) : List Binding :=
  (PrefixMap.ofPrefixes (utilized.filter (· ≠ xmlPrefix)) (axis.due? visible force)).bindings

/-- Makes declarations count as rendered. -/
def markRendered (axis : NamespaceAxis) (declarations : List Binding) : NamespaceAxis :=
  declarations.foldl (fun axis b => axis.setRendered b.nsPrefix (some b.uri)) axis

/-- Makes the prefixes count as not rendered, except for the default and those that are
visible. Elements further down that see them again will declare them again. -/
def forget (axis : NamespaceAxis) (prefixes : List String) (visible : String → Bool) :
    NamespaceAxis :=
  (prefixes.filter fun p => !p.isEmpty && p ≠ xmlPrefix && !visible p).foldl
    (·.setRendered · none) axis

/-- The declarations of a start tag under the inclusive algorithm. With `prune`, what is
rendered but hidden here is forgotten. -/
def renderInclusive (axis : NamespaceAxis) (visible : String → Bool) (prune : Bool) :
    List Binding × NamespaceAxis :=
  let declarations := axis.pending visible
  let axis := axis.markRendered declarations
  (declarations, if prune then axis.forget axis.rendered.prefixes visible else axis)

/-- The declarations of a start tag under the exclusive algorithm. With `prune`, utilized
prefixes that are hidden here are forgotten. -/
def renderExclusive (axis : NamespaceAxis) (utilized : List String) (visible : String → Bool)
    (force prune : Bool) : List Binding × NamespaceAxis :=
  let declarations := axis.pendingFor utilized visible force
  let axis := axis.markRendered declarations
  (declarations, if prune then axis.forget utilized visible else axis)

end NamespaceAxis

end CanonicalXml
