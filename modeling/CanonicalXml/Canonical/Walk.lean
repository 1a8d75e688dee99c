import CanonicalXml.Canonical.Attributes
import CanonicalXml.Canonical.Leaves
import CanonicalXml.Transcript
/-! # The canonical form

The walk that writes a canonical form: in document order, with a list of what
is still to be done instead of recursion, so that the depth of a document does
not matter.

* `Piece` — what is written at once, and for which place; `Piece.text` spells it.
* `Walk.startTag` — what entering an element checks, changes and writes. All
  checks come before the tag is written.
* `Walk.run` — the walk. `Walk.ofInput` starts it, and `canonicalize` writes its
  pieces as text.
-/

namespace CanonicalXml

/-- What a walk writes in one piece, and the place that it is written for. -/
inductive Piece where
  | startTag (loc : Location) (qname : String) (declarations : List Binding)
      (attributes : List WrittenAttribute)
  /-- Declarations of an element that is not output itself. -/
  | bare (loc : Location) (declarations : List Binding)
  | leaf (loc : Location) (l : Leaf)
  | endTag (qname : String)

def Piece.text : Piece → String
  | startTag _ qname declarations attributes =>
    "<" ++ qname ++ String.join (declarations.map Binding.write) ++
      String.join (attributes.map WrittenAttribute.write) ++ ">"
  | bare _ declarations => String.join (declarations.map Binding.write)
  | leaf loc l => loc.writeSeparated l
  | endTag qname => "</" ++ qname ++ ">"

/-- What a walk has to remember. -/
structure Walk where
  axis : NamespaceAxis
  comments : Nat

namespace Walk

/-- Something still to be done. `parentOutput` says whether the parent is output. -/
inductive Step where
  /-- Visit the node at a place and its later siblings. -/
  | siblings (loc : Location) (parentOutput : Bool)
  /-- Visit the node at a place. -/
  | node (loc : Location) (parentOutput : Bool)
  /-- Leave an element, and close its tag if one was written. -/
  | leave (closing : Option String)

/-- The namespace axis inside of these elements, none of which is output. -/
def seed : List Ancestor → NamespaceAxis
  | [] => .start
  | a :: above =>
    (seed above).enter (Spelling.of (Ancestor.scope above) a.element).declarations

/-- Enters the element that stands at a place. The result has the name to be closed, if
the start tag was written. -/
def startTag (r : Request) (w : Walk) (loc : Location) (e : Element) (parentOutput : Bool) :
    Transcript Piece (Walk × Option String) := do
  let names := loc.spelling e
  let qname := names.name.text
  .ofExcept (checkAttributes r.limits qname (e.attributes.length + names.declarations.length))
  let axis := w.axis.enter names.declarations
  .ofExcept (checkDepth r.limits axis.depth)
  -- What follows is written as one piece, after the last check.
  if r.isOutput loc .element then
    .ofExcept (axis.checkPrefix names.name.nsPrefix qname)
    let attributes ← .ofExcept (r.writtenAttributes axis loc e names parentOutput)
    let (declarations, axis) := r.declarations axis loc.number names
    .write (.startTag loc qname declarations attributes)
    return ({ w with axis }, some qname)
  else
    .write (.bare loc (r.bareDeclarations axis loc.number))
    return ({ w with axis }, none)

/-- Writes the leaf that stands at a place, if it is output. Text outside of the document
element is not. -/
def leaf (r : Request) (w : Walk) (loc : Location) (l : Leaf) : Transcript Piece Walk := do
  if !r.isOutput loc l.kind then return w
  match l with
  | .text _ =>
    if !loc.isTop then .write (.leaf loc l)
    return w
  | .comment _ =>
    .ofExcept (checkComments r.limits (w.comments + 1))
    .write (.leaf loc l)
    return { w with comments := w.comments + 1 }
  | .instruction _ _ =>
    .write (.leaf loc l)
    return w

def leave (w : Walk) (closing : Option String) : Transcript Piece Walk := do
  if let some qname := closing then .write (.endTag qname)
  return { w with axis := w.axis.leave }

/-- How much work a step is at most. -/
def Step.weight : Step → Nat
  | .siblings loc _ => 4 * loc.here.size + 1
  | .node loc _ =>
    match loc.here with
    | .nil => 1
    | .leaf _ _ => 1
    | .element _ inner _ => 4 * inner.size + 3
  | .leave _ => 1

def Step.totalWeight : List Step → Nat
  | [] => 0
  | step :: todo => step.weight + totalWeight todo

def run (r : Request) (w : Walk) : List Step → Transcript Piece Walk
  | [] => .done w
  | .leave closing :: todo => do
    let w ← w.leave closing
    run r w todo
  | .siblings loc parentOutput :: todo =>
    match _h : loc.here with
    | .nil => run r w todo
    | .leaf _ _ | .element _ _ _ =>
      run r w (.node loc parentOutput :: .siblings loc.next parentOutput :: todo)
  | .node loc parentOutput :: todo =>
    match _h : loc.here with
    | .nil => run r w todo
    | .leaf l _ => do
      let w ← w.leaf r loc l
      run r w todo
    | .element e inner _ => do
      let (w, closing) ← w.startTag r loc e parentOutput
      run r w (.siblings (loc.inside e inner) closing.isSome :: .leave closing :: todo)
termination_by steps => Step.totalWeight steps
decreasing_by
  all_goals
    simp only [Step.totalWeight, Step.weight, Location.inside,
      Location.next, Content.size, *]
    omega

def ofInput (method : Method) (input : Input) (params : Params) : Transcript Piece Walk :=
  let r := Request.of method input params
  match input with
  | .document d | .nodeSet d _ => run r ⟨.start, 0⟩ [.siblings (.top d.content) false]
  | .subtree (.document content) => run r ⟨.start, 0⟩ [.siblings (.top content) false]
  | .subtree (.node loc) => run r ⟨seed loc.ancestors, 0⟩ [.node loc false]

end Walk

def canonicalize (method : Method) (input : Input) (params : Params) : Transcript String Walk :=
  (Walk.ofInput method input params).render Piece.text

end CanonicalXml
