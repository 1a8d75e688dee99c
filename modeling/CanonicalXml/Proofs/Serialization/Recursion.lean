import CanonicalXml.Proofs.SecureValidation.Walks

/-! # The canonical form as a recursion

`Walk.run` takes steps from a list, and takes the namespace axis back whenever it leaves an
element.  The recursion over the tree says what this comes to: an element hands its axis down to
its children and to nothing else, so that there is nothing to be taken back.  Only the comments
are counted from one node to the next.

* `Serialization.leaf`, `Serialization.element` — what is written for a leaf, and for an element
  around its children.
* `Serialization.siblings`, `Serialization.ofInput` — for nodes in a row, and for an input.
* `Walk.render_siblings` — the walk writes the same, and comes back to the axis it started with.
* `canonicalize_eq_serialization` — so does the walk through a whole input.
-/

namespace CanonicalXml

/-! ## What is written -/

namespace Serialization

/-- The leaf that stands at a place before the siblings `rest`.  Outside of the document element
text is not written, and the others stand on lines of their own. -/
def leaf (r : Request) (loc : Location) (l : Leaf) (rest : Content) (comments : Nat) :
    Transcript String Nat :=
  let top := loc.ancestors.isEmpty
  let separated := (if top && loc.before.contains .element then "\n" else "") ++ l.write ++
    (if top && rest.hasElement then "\n" else "")
  if !r.isOutput loc l.kind then pure comments
  else match l with
    | .text value => do
      if !top then .write (escapeText value)
      return comments
    | .comment _ => do
      .ofExcept (checkComments r.limits (comments + 1))
      .write separated
      return comments + 1
    | .instruction _ _ => do
      .write separated
      return comments

/-- The element that stands at a place, where `axis` is the namespace axis outside of it.  What
is inside has to know whether the element is output, and the axis there. -/
def element {α : Type} (r : Request) (loc : Location) (e : Element) (parentOutput : Bool)
    (axis : NamespaceAxis) (inside : Bool → NamespaceAxis → Transcript String α) :
    Transcript String α := do
  let names := loc.spelling e
  let qname := names.name.text
  let axis := axis.enter names.declarations
  .ofExcept (checkAttributes r.limits qname (e.attributes.length + names.declarations.length))
  .ofExcept (checkDepth r.limits (loc.ancestors.length + 1))
  if r.isOutput loc .element then
    .ofExcept (axis.checkPrefix names.name.nsPrefix qname)
    let attributes ← .ofExcept (r.writtenAttributes axis loc e names parentOutput)
    let (declarations, axis) := r.declarations axis loc.number names
    .write ("<" ++ qname ++ String.join (declarations.map Binding.write) ++
      String.join (attributes.map WrittenAttribute.write) ++ ">")
    let a ← inside true axis
    .write ("</" ++ qname ++ ">")
    return a
  else
    .write (String.join ((r.bareDeclarations axis loc.number).map Binding.write))
    inside false axis

/-- Nodes in a row. All of them have the axis of their parent. -/
def siblings (r : Request) (parentOutput : Bool) (axis : NamespaceAxis) (number : Nat)
    (ancestors : List Ancestor) (before : List NodeKind) : Content → Nat → Transcript String Nat
  | .nil, comments => pure comments
  | .leaf l rest, comments => do
    let comments ← leaf r ⟨number, ancestors, before, .leaf l rest⟩ l rest comments
    siblings r parentOutput axis (number + 1) ancestors (l.kind :: before) rest comments
  | .element e inner rest, comments => do
    let comments ← element r ⟨number, ancestors, before, .element e inner rest⟩ e parentOutput
      axis fun output axis =>
        siblings r output axis (number + 1) (⟨number, e⟩ :: ancestors) [] inner comments
    siblings r parentOutput axis (number + inner.size + 1) ancestors (.element :: before) rest
      comments

/-- One node by itself. -/
def node (r : Request) (loc : Location) : Transcript String Nat :=
  match loc.here with
  | .nil => pure 0
  | .leaf l rest => leaf r loc l rest 0
  | .element e inner _ =>
    element r loc e false (Walk.seed loc.ancestors) fun output axis =>
      siblings r output axis (loc.number + 1) (⟨loc.number, e⟩ :: loc.ancestors) [] inner 0

/-- An input. The result is the number of comments. -/
def ofInput (method : Method) (input : Input) (params : Params) : Transcript String Nat :=
  let r := Request.of method input params
  match input with
  | .document d | .nodeSet d _ => siblings r false .start 1 [] [] d.content 0
  | .subtree (.document content) => siblings r false .start 1 [] [] content 0
  | .subtree (.node loc) => node r loc

end Serialization

/-! ## Rendering, one operation after another -/

namespace Transcript

variable {π α β : Type} (textOf : π → String)

theorem render_bind (t : Transcript π α) (f : α → Transcript π β) :
    (t >>= f).render textOf = t.render textOf >>= fun a => (f a).render textOf := by
  induction t with
  | done a => rfl
  | failed fault => rfl
  | wrote piece rest ih => exact congrArg (wrote (textOf piece)) ih

@[simp] theorem render_pure (a : α) : (pure a : Transcript π α).render textOf = pure a := rfl

@[simp] theorem render_write (piece : π) :
    (write piece).render textOf = write (textOf piece) := rfl

@[simp] theorem render_ofExcept (x : Except Fault α) :
    (ofExcept x : Transcript π α).render textOf = ofExcept x := by
  cases x with
  | ok a => rfl
  | error fault => rfl

end Transcript

/-! ## What the walk does -/

namespace Walk

open Transcript (render_bind render_ofExcept render_write render_pure)

variable {r : Request} {w : Walk}

theorem render_leaf {loc : Location} {l : Leaf} {rest : Content}
    (here : loc.here = .leaf l rest) :
    (w.leaf r loc l).render Piece.text =
      Serialization.leaf r loc l rest w.comments >>= fun comments => pure ⟨w.axis, comments⟩ := by
  have after : loc.after = rest := by
    unfold Location.after Location.next
    rw [here]
  have separated : (Piece.leaf loc l).text =
      (if loc.isTop && loc.before.contains .element then "\n" else "") ++ l.write ++
        (if loc.isTop && rest.hasElement then "\n" else "") := by
    rw [← after]
    rfl
  have top : loc.ancestors.isEmpty = loc.isTop := rfl
  simp only [Walk.leaf, Serialization.leaf]
  rw [top, ← separated]
  cases r.isOutput loc l.kind with
  | false => rfl
  | true =>
    cases l with
    | text value =>
      cases top : loc.isTop with
      | true => rfl
      | false =>
        -- Inside of the document element nothing is on a line of its own.
        have text : (Piece.leaf loc (.text value)).text = escapeText value := by
          rw [separated, top]
          exact (String.append_empty).trans String.empty_append
        show Transcript.wrote (Piece.leaf loc (.text value)).text _ = _
        rw [text]
        rfl
    | comment value =>
      cases checkComments r.limits (w.comments + 1) with
      | error fault => rfl
      | ok _ => rfl
    | instruction target data => rfl

/-- An element, for whose children this is known. -/
theorem render_element (loc : Location) (e : Element) (parentOutput : Bool) (w : Walk)
    (depth : w.axis.depth = loc.ancestors.length) {children : Bool → Walk → Transcript Piece Walk}
    {inside : Bool → NamespaceAxis → Transcript String Nat}
    (rendered : ∀ output axis, axis.depth = loc.ancestors.length + 1 →
      (children output ⟨axis, w.comments⟩).render Piece.text =
        inside output axis >>= fun comments => pure ⟨axis, comments⟩) :
    (do let (w, closing) ← w.startTag r loc e parentOutput
        let w ← children closing.isSome w
        w.leave closing : Transcript Piece Walk).render Piece.text =
      Serialization.element r loc e parentOutput w.axis inside >>= fun comments =>
        pure ⟨w.axis, comments⟩ := by
  have entered : (w.axis.enter (loc.spelling e).declarations).depth =
      loc.ancestors.length + 1 := by
    rw [NamespaceAxis.depth_enter, depth]
  have opened := NamespaceAxis.frames_enter_ne_nil w.axis (loc.spelling e).declarations
  simp only [startTag, Serialization.element]
  rw [entered]
  simp only [bind_assoc, render_bind, render_ofExcept]
  refine bind_congr fun _ => bind_congr fun _ => ?_
  split
  · simp only [bind_assoc, render_bind, render_ofExcept, render_write, render_pure, pure_bind]
    refine bind_congr fun _ => bind_congr fun attributes => bind_congr fun _ => ?_
    -- What the declarations of the tag do to the axis, leaving the element takes back.
    have back : (r.declarations (w.axis.enter (loc.spelling e).declarations) loc.number
        (loc.spelling e)).2.leave = w.axis :=
      (leave_declarations opened _ _).trans (NamespaceAxis.leave_enter _ _)
    refine (congrArg (· >>= _) (rendered true _ ?_)).trans ?_
    · rw [depth_declarations opened, entered]
    · rw [bind_assoc]
      refine bind_congr fun comments => ?_
      simp only [pure_bind, leave, render_bind, render_write, render_pure]
      rw [back]
      rfl
  · simp only [bind_assoc, render_bind, render_write, render_pure, pure_bind]
    refine bind_congr fun _ => ?_
    refine (congrArg (· >>= _) (rendered false _ entered)).trans ?_
    rw [bind_assoc]
    refine bind_congr fun comments => ?_
    simp only [pure_bind, leave, render_pure]
    rw [NamespaceAxis.leave_enter]

/-- The walk through siblings, by induction over the tree.  How deep the axis is, is all that
the recursion does not take from it. -/
theorem render_siblings {content : Content} : ∀ (parentOutput : Bool) (number : Nat)
    (ancestors : List Ancestor) (before : List NodeKind) (w : Walk),
    w.axis.depth = ancestors.length →
    (siblings r parentOutput number ancestors before content w).render Piece.text =
      Serialization.siblings r parentOutput w.axis number ancestors before content w.comments >>=
        fun comments => pure ⟨w.axis, comments⟩ := by
  induction content with
  | nil =>
    intro parentOutput number ancestors before w _
    rfl
  | leaf l rest ihRest =>
    intro parentOutput number ancestors before w depth
    simp only [siblings, Serialization.siblings]
    rw [render_bind, render_leaf rfl, bind_assoc, bind_assoc]
    refine bind_congr fun comments => ?_
    rw [pure_bind]
    exact ihRest _ _ _ _ ⟨w.axis, comments⟩ depth
  | element e inner rest ihInner ihRest =>
    intro parentOutput number ancestors before w depth
    have element := render_element (r := r) ⟨number, ancestors, before, .element e inner rest⟩ e
      parentOutput w depth fun output axis deeper =>
        ihInner output (number + 1) (⟨number, e⟩ :: ancestors) [] ⟨axis, w.comments⟩ deeper
    rw [siblings_element, render_bind]
    simp only [Serialization.siblings]
    refine (congrArg (· >>= _) element).trans ?_
    rw [bind_assoc, bind_assoc]
    refine bind_congr fun comments => ?_
    rw [pure_bind]
    exact ihRest _ _ _ _ ⟨w.axis, comments⟩ depth

theorem render_nodeAt (loc : Location) :
    (nodeAt r false loc ⟨seed loc.ancestors, 0⟩).render Piece.text =
      Serialization.node r loc >>= fun comments => pure ⟨seed loc.ancestors, comments⟩ := by
  have depth := depth_seed loc.ancestors
  obtain ⟨number, ancestors, before, here⟩ := loc
  cases here with
  | nil => rfl
  | leaf l rest => exact render_leaf rfl
  | element e inner rest =>
    exact render_element ⟨number, ancestors, before, .element e inner rest⟩ e false
      ⟨seed ancestors, 0⟩ depth fun output axis deeper =>
        render_siblings output (number + 1) (⟨number, e⟩ :: ancestors) [] ⟨axis, 0⟩ deeper

end Walk

/-- The canonical form is what the recursion writes, faults included, and in the end the axis is
as it was when the walk began. -/
theorem canonicalize_eq_serialization (method : Method) (input : Input) (params : Params) :
    canonicalize method input params = Serialization.ofInput method input params >>=
      fun comments => pure ⟨Walk.seed input.ancestors, comments⟩ := by
  have whole : ∀ (r : Request) (content : Content),
      (Walk.siblingsAt r false (.top content) ⟨.start, 0⟩).render Piece.text =
        Serialization.siblings r false .start 1 [] [] content 0 >>=
          fun comments => pure ⟨.start, comments⟩ :=
    fun r content => Walk.render_siblings _ _ _ _ ⟨.start, 0⟩ rfl
  unfold canonicalize
  cases input with
  | document d =>
    rw [Walk.ofInput_document]
    exact whole _ _
  | subtree apex =>
    cases apex with
    | document content =>
      rw [Walk.ofInput_root method ⟨"", content⟩ params]
      exact whole _ _
    | node loc =>
      rw [Walk.ofInput_node]
      exact Walk.render_nodeAt loc
  | nodeSet d s =>
    rw [Walk.ofInput_nodeSet]
    exact whole _ _

end CanonicalXml
