import CanonicalXml.Proofs.Comparison.Walks
import CanonicalXml.Proofs.InputForms.Requests
import CanonicalXml.Proofs.SecureValidation.Restrictions

/-! # Limited walks

A walk under limits is the unlimited walk, unless that one comes to an element which is not
allowed, or writes too many comments.

* `Limits.Forbids limits loc` — the element at a place carries too much, or lies too deep.
* `Transcript.reached`, `Transcript.comments` — which elements a walk comes to, and how many
  comments it writes, told from its pieces.
* `Walk.Guarded` — the limits restrict an operation exactly as they say about what it reaches;
  `Walk.Guarded.bind` — and the operation after it.
* `Walk.guarded_ofInput` — whole walks, by induction over the tree.
-/

namespace CanonicalXml

namespace Location

/-- The elements among these places. -/
def elementsOf (places : List Location) : List Location :=
  places.filter (·.element?.isSome)

variable (number : Nat) (ancestors : List Ancestor) (before : List NodeKind)

theorem elementsOf_leaf (l : Leaf) (next : Content) :
    elementsOf (allFrom number ancestors before (.leaf l next)) =
      elementsOf (allFrom (number + 1) ancestors (l.kind :: before) next) := rfl

theorem elementsOf_element (e : Element) (inner next : Content) :
    elementsOf (allFrom number ancestors before (.element e inner next)) =
      ⟨number, ancestors, before, .element e inner next⟩ ::
          elementsOf (allFrom (number + 1) (⟨number, e⟩ :: ancestors) [] inner) ++
        elementsOf (allFrom (number + inner.size + 1) ancestors (.element :: before) next) := by
  simp [elementsOf, allFrom, element?]

end Location

/-- The element at this place carries more attributes and declarations, or lies deeper below the
document node, than is allowed. -/
def Limits.Forbids (limits : Limits) (loc : Location) : Prop :=
  ∃ e, loc.element? = some e ∧
    (limits.maxAttributes < e.attributes.length + (loc.spelling e).declarations.length ∨
      limits.maxDepth < loc.ancestors.length + 1)

theorem Limits.forbids_iff {limits : Limits} {loc : Location} {e : Element}
    (here : loc.element? = some e) :
    limits.Forbids loc ↔
      limits.maxAttributes < e.attributes.length + (loc.spelling e).declarations.length ∨
        limits.maxDepth < loc.ancestors.length + 1 := by
  constructor
  · rintro ⟨e', here', forbidden⟩
    cases here.symm.trans here'
    exact forbidden
  · exact fun forbidden => ⟨e, here, forbidden⟩

/-- A call that comes to these elements, and writes so many comments, oversteps the limits. -/
def Limits.Exceeded (limits : Limits) (elements : List Location) (comments : Nat) : Prop :=
  (∃ loc ∈ elements, limits.Forbids loc) ∨ limits.maxComments < comments

/-- One part of a call comes to these elements, and then another one to the others. -/
theorem Limits.exceeded_append (limits : Limits) (here later : List Location) (n m : Nat) :
    limits.Exceeded (here ++ later) (n + m) ↔
      limits.Exceeded here n ∨ limits.Exceeded later (n + m) := by
  have more : n ≤ n + m := Nat.le_add_right n m
  simp only [Exceeded, List.mem_append, or_and_right, exists_or]
  constructor
  · rintro ((h | h) | h)
    · exact .inl (.inl h)
    · exact .inr (.inl h)
    · exact .inr (.inr h)
  · rintro ((h | h) | (h | h))
    · exact .inl (.inl h)
    · exact .inr (Nat.lt_of_lt_of_le h more)
    · exact .inl (.inr h)
    · exact .inr h

theorem Limits.exceeded_nil (limits : Limits) (n : Nat) :
    limits.Exceeded [] n ↔ limits.maxComments < n :=
  or_iff_right nofun

theorem Limits.exceeded_cons (limits : Limits) (loc : Location) (places : List Location) (n : Nat) :
    limits.Exceeded (loc :: places) n ↔ limits.Forbids loc ∨ limits.Exceeded places n := by
  simp only [Exceeded, List.mem_cons, or_and_right, exists_or, exists_eq_left, or_assoc]

def Piece.isComment : Piece → Bool
  | .leaf _ l => l.kind = .comment
  | _ => false

namespace Transcript

variable {α β : Type}

/-- The number of elements that something is written for. -/
def elements (t : Transcript Piece α) : Nat :=
  (t.pieces.filterMap Piece.element?).length

/-- The number of comments that are written. -/
def comments (t : Transcript Piece α) : Nat :=
  t.pieces.countP Piece.isComment

/-- Of the elements at these places those that a walk through them comes to: those that it
writes something for, and the next one, where it has failed if it is not through. -/
def reached (t : Transcript Piece α) (places : List Location) : List Location :=
  places.take (t.elements + 1)

theorem elements_bind (t : Transcript Piece α) (f : α → Transcript Piece β) :
    (t >>= f).elements = t.elements + match t.outcome with
      | .ok a => (f a).elements
      | .error _ => 0 := by
  simp only [elements]
  rw [pieces_bind, List.filterMap_append, List.length_append]
  cases t.outcome <;> rfl

theorem comments_bind (t : Transcript Piece α) (f : α → Transcript Piece β) :
    (t >>= f).comments = t.comments + match t.outcome with
      | .ok a => (f a).comments
      | .error _ => 0 := by
  simp only [comments]
  rw [pieces_bind, List.countP_append]
  cases t.outcome <;> rfl

end Transcript

/-- The request under these limits. -/
def Request.under (r : Request) (limits : Option Limits) : Request :=
  { r with limits }

theorem Request.writtenAttributes_under (r : Request) (limits : Option Limits)
    (axis : NamespaceAxis) (loc : Location) (e : Element) (names : Spelling)
    (parentOutput : Bool) :
    (r.under limits).writtenAttributes axis loc e names parentOutput =
      (r.under none).writtenAttributes axis loc e names parentOutput := by
  have around : (r.under limits).omittedAncestors loc.ancestors =
      (r.under none).omittedAncestors loc.ancestors :=
    omittedAncestors_congr fun outer _ => by cases outer <;> rfl
  unfold writtenAttributes
  rw [around]
  rfl

namespace Walk

open Transcript
open Location (elementsOf)

variable {α β : Type} {limits : Limits} {r : Request}

/-- An operation that comes to the elements at these places, once `n` comments are written, and
what the limits make of it.  The first transcript is that under the limits; `After` says what
holds of a result, and of the number of comments then. -/
structure Guarded (limits : Limits) (places : List Location) (n : Nat) (After : Nat → α → Prop)
    (strict free : Transcript Piece α) : Prop where
  restricts : n ≤ limits.maxComments →
    Restricts (limits.Exceeded (free.reached places) (n + free.comments)) strict free
  complete : ∀ a, free.outcome = .ok a →
    free.elements = places.length ∧ After (n + free.comments) a
  incomplete : ∀ fault, free.outcome = .error fault → free.elements < places.length

namespace Guarded

variable {places : List Location} {n : Nat} {After : Nat → α → Prop}

theorem mono {Last : Nat → α → Prop} {strict free : Transcript Piece α}
    (guarded : Guarded limits places n After strict free) (weaker : ∀ m a, After m a → Last m a) :
    Guarded limits places n Last strict free where
  restricts := guarded.restricts
  complete := fun a ends => ⟨(guarded.complete a ends).1, weaker _ a (guarded.complete a ends).2⟩
  incomplete := guarded.incomplete

/-- Where no element is come to and no comment written, no limit matters. -/
theorem of_uncounted {t : Transcript Piece α} {a : α} (ends : t.outcome = .ok a)
    (elements : t.elements = 0) (comments : t.comments = 0) (after : After n a) :
    Guarded limits [] n After t t where
  restricts := fun room => by
    refine .refl ?_ t
    rw [reached, List.take_nil, Limits.exceeded_nil, comments]
    exact Nat.not_lt.mpr room
  complete := fun b same => by
    cases ends.symm.trans same
    rw [comments]
    exact ⟨elements, after⟩
  incomplete := fun fault same => nomatch ends.symm.trans same

theorem pure {a : α} (after : After n a) :
    Guarded limits [] n After (Pure.pure a) (Pure.pure a) :=
  of_uncounted rfl rfl rfl after

section Bind

variable {later : List Location} {Last : Nat → β → Prop} {strict free : Transcript Piece α}
  {f g : α → Transcript Piece β}

/-- A walk that ends does so before the later places. -/
theorem bind_of_error (first : Guarded limits places n After strict free) {fault : Fault}
    (ends : free.outcome = .error fault) :
    Guarded limits (places ++ later) n Last (strict >>= f) (free >>= g) := by
  have short := first.incomplete fault ends
  have outcome : (free >>= g).outcome = .error fault := by
    rw [outcome_bind, ends]
    rfl
  have elements : (free >>= g).elements = free.elements := by rw [elements_bind, ends]; rfl
  have comments : (free >>= g).comments = free.comments := by rw [comments_bind, ends]; rfl
  have same : (free >>= g).reached (places ++ later) = free.reached places := by
    rw [reached, reached, elements, List.take_append_of_le_length short]
  refine ⟨fun room => ?_, fun a h => ?_, fun _ _ => ?_⟩
  · rw [same, comments]
    exact (first.restricts room).bind_error ends
  · cases outcome.symm.trans h
  · rw [elements, List.length_append]
    exact Nat.lt_of_lt_of_le short (Nat.le_add_right _ _)

/-- Of a walk that goes on all of the earlier places are reached, and what the rest comes to is
counted on from there. -/
theorem bind_of_ok (first : Guarded limits places n After strict free) {a : α}
    (ends : free.outcome = .ok a)
    (next : Guarded limits later (n + free.comments) Last (f a) (g a)) :
    Guarded limits (places ++ later) n Last (strict >>= f) (free >>= g) := by
  obtain ⟨all, -⟩ := first.complete a ends
  have outcome : (free >>= g).outcome = (g a).outcome := by
    rw [outcome_bind, ends]
    rfl
  have elements : (free >>= g).elements = places.length + (g a).elements := by
    rw [elements_bind, ends, all]
  have comments : (free >>= g).comments = free.comments + (g a).comments := by
    rw [comments_bind, ends]
  have here : free.reached places = places := by
    rw [reached, all]
    exact List.take_of_length_le (Nat.le_succ _)
  have both : (free >>= g).reached (places ++ later) = places ++ (g a).reached later := by
    rw [reached, reached, elements, List.take_append,
      List.take_of_length_le (by omega : places.length ≤ places.length + (g a).elements + 1)]
    congr 2
    omega
  refine ⟨fun room => ?_, fun b h => ?_, fun fault h => ?_⟩
  · have first := first.restricts room
    rw [here] at first
    rw [both, comments]
    refine (first.bind_ok ends fun fine => next.restricts ?_).congr ?_
    · exact Nat.le_of_not_lt fun many => fine (.inr many)
    · rw [← Nat.add_assoc, Limits.exceeded_append]
  · rw [outcome] at h
    rw [elements, comments, List.length_append, ← Nat.add_assoc]
    obtain ⟨rest, last⟩ := next.complete b h
    exact ⟨by rw [rest], last⟩
  · rw [outcome] at h
    rw [elements, List.length_append]
    exact Nat.add_lt_add_left (next.incomplete fault h) _

theorem bind (first : Guarded limits places n After strict free)
    (second : ∀ a m, After m a → Guarded limits later m Last (f a) (g a)) :
    Guarded limits (places ++ later) n Last (strict >>= f) (free >>= g) := by
  cases ends : free.outcome with
  | error fault => exact first.bind_of_error ends
  | ok a => exact first.bind_of_ok ends (second a _ (first.complete a ends).2)

end Bind

end Guarded

/-! ## One node -/

/-- After an element has been opened. -/
def Opened (w : Walk) (loc : Location) (n : Nat) (entered : Walk × Option String) : Prop :=
  entered.1.axis.leave = w.axis ∧ entered.1.axis.depth = loc.ancestors.length + 1 ∧
    entered.1.comments = n

/-- The axis is as before, and the comments are counted. -/
def Counted (w : Walk) (n : Nat) (w' : Walk) : Prop :=
  w'.axis = w.axis ∧ w'.comments = n

/-- Under limits two checks precede a start tag. -/
theorem startTag_limited (w : Walk) (loc : Location) (e : Element) (parentOutput : Bool) :
    w.startTag (r.under (some limits)) loc e parentOutput = (do
      let declared := (loc.spelling e).declarations
      .ofExcept (checkAttributes (some limits) (loc.spelling e).name.text
        (e.attributes.length + declared.length))
      .ofExcept (checkDepth (some limits) (w.axis.enter declared).depth)
      w.startTag (r.under none) loc e parentOutput) := by
  simp only [startTag, Request.writtenAttributes_under r (some limits)]
  rfl

/-- Without limits a start tag fails before it writes, or writes one piece for the element. -/
theorem startTag_unlimited (w : Walk) (loc : Location) (e : Element) (parentOutput : Bool)
    (depth : w.axis.depth = loc.ancestors.length) :
    (∃ fault, w.startTag (r.under none) loc e parentOutput = .failed fault) ∨
      ∃ piece entered, w.startTag (r.under none) loc e parentOutput =
        .wrote piece (.done entered) ∧ piece.element? = some loc ∧ piece.isComment = false ∧
        Opened w loc w.comments entered := by
  have opened := NamespaceAxis.frames_enter_ne_nil w.axis (loc.spelling e).declarations
  have deeper : (w.axis.enter (loc.spelling e).declarations).depth = loc.ancestors.length + 1 := by
    rw [NamespaceAxis.depth_enter, depth]
  have through : ∀ {piece entered},
      w.startTag (r.under none) loc e parentOutput = .wrote piece (.done entered) →
      entered.1.axis.leave = w.axis ∧ entered.1.comments = w.comments := by
    intro piece entered tag
    exact leave_startTag (r := r.under none) (by rw [tag]; rfl)
  have fails : ∀ {fault}, w.startTag (r.under none) loc e parentOutput = .failed fault →
      ∃ fault, w.startTag (r.under none) loc e parentOutput = .failed fault :=
    fun tag => ⟨_, tag⟩
  -- All checks come before the one piece, so that there is nothing written where one fails.
  simp only [startTag] at through fails ⊢
  cases output : (r.under none).isOutput loc .element with
  | false =>
    rw [output] at through
    exact .inr ⟨_, _, rfl, rfl, rfl, (through rfl).1, deeper, rfl⟩
  | true =>
    rw [output] at through fails
    cases bound : (w.axis.enter (loc.spelling e).declarations).checkPrefix
        (loc.spelling e).name.nsPrefix (loc.spelling e).name.text with
    | error fault =>
      rw [bound] at fails
      exact .inl (fails rfl)
    | ok _ =>
      cases attributes : (r.under none).writtenAttributes
          (w.axis.enter (loc.spelling e).declarations) loc e (loc.spelling e) parentOutput with
      | error fault =>
        rw [bound, attributes] at fails
        exact .inl (fails rfl)
      | ok attributes =>
        rw [bound, attributes] at through
        refine .inr ⟨_, _, rfl, rfl, rfl, (through rfl).1, ?_, rfl⟩
        exact (depth_declarations opened _ _).trans deeper

theorem guarded_startTag {w : Walk} {loc : Location} {e : Element} (here : loc.element? = some e)
    (parentOutput : Bool) (depth : w.axis.depth = loc.ancestors.length) :
    Guarded limits [loc] w.comments (Opened w loc)
      (w.startTag (r.under (some limits)) loc e parentOutput)
      (w.startTag (r.under none) loc e parentOutput) := by
  have checks : Restricts (limits.Forbids loc)
      (w.startTag (r.under (some limits)) loc e parentOutput)
      (w.startTag (r.under none) loc e parentOutput) := by
    rw [startTag_limited]
    refine (Restricts.check fun _ => Restricts.check fun _ => .refl id _).congr ?_
    rw [or_false, NamespaceAxis.depth_enter, depth, Limits.forbids_iff here]
  have tag := startTag_unlimited (r := r) w loc e parentOutput depth
  generalize w.startTag (r.under none) loc e parentOutput = free at checks tag
  -- The element is reached even if its own tag fails.
  have comes : free.reached [loc] = [loc] := List.take_of_length_le (Nat.le_add_left 1 _)
  have counted : free.comments = 0 := by
    rcases tag with ⟨fault, rfl⟩ | ⟨piece, entered, rfl, -, other, -⟩
    · rfl
    · simp [Transcript.comments, pieces, other]
  refine ⟨fun room => checks.congr ?_, fun entered ends => ?_, fun fault ends => ?_⟩
  · rw [comes, counted, Limits.exceeded_cons, Limits.exceeded_nil]
    exact (or_iff_left (Nat.not_lt.mpr room)).symm
  · rw [counted]
    rcases tag with ⟨fault, rfl⟩ | ⟨piece, entered, rfl, element, -, after⟩
    · cases ends
    · cases ends
      exact ⟨by simp [elements, pieces, element], after⟩
  · rcases tag with ⟨fault, rfl⟩ | ⟨piece, entered, rfl, -⟩
    · exact Nat.zero_lt_one
    · cases ends

theorem guarded_leaf (w : Walk) (loc : Location) (l : Leaf) :
    Guarded limits [] w.comments (Counted w) (w.leaf (r.under (some limits)) loc l)
      (w.leaf (r.under none) loc l) := by
  have output : (r.under (some limits)).isOutput loc l.kind =
      (r.under none).isOutput loc l.kind := rfl
  simp only [Walk.leaf]
  rw [output]
  cases (r.under none).isOutput loc l.kind with
  | false => exact .pure ⟨rfl, rfl⟩
  | true =>
    cases l with
    | text value =>
      cases loc.isTop with
      | false => exact .of_uncounted rfl rfl rfl ⟨rfl, rfl⟩
      | true => exact .pure ⟨rfl, rfl⟩
    | comment value =>
      refine ⟨fun _ => ?_, fun _ same => ?_, fun _ ends => ?_⟩
      · refine (Restricts.check fun _ => .refl id _).congr ?_
        rw [or_false, reached, List.take_nil, Limits.exceeded_nil]
        rfl
      · cases same
        exact ⟨rfl, rfl, rfl⟩
      · cases ends
    | instruction target data => exact .of_uncounted rfl rfl rfl ⟨rfl, rfl⟩

theorem guarded_leave {w : Walk} {closing : Option String} :
    Guarded limits [] w.comments (fun n w' => w'.axis = w.axis.leave ∧ w'.comments = n)
      (w.leave closing) (w.leave closing) := by
  cases closing with
  | none => exact .pure ⟨rfl, rfl⟩
  | some qname => exact .of_uncounted rfl rfl rfl ⟨rfl, rfl⟩

/-! ## Whole walks -/

/-- An operation that leaves the axis as it was, followed by another one. -/
theorem Guarded.bind_counted {places later : List Location} {w : Walk} {n : Nat}
    {strict free : Transcript Piece Walk} {f g : Walk → Transcript Piece Walk}
    (first : Guarded limits places n (Counted w) strict free)
    (second : ∀ v, v.axis = w.axis → Guarded limits later v.comments (Counted v) (f v) (g v)) :
    Guarded limits (places ++ later) n (Counted w) (strict >>= f) (free >>= g) := by
  refine first.bind ?_
  rintro v m ⟨same, rfl⟩
  refine (second v same).mono ?_
  rintro m w' ⟨same', counted⟩
  exact ⟨same'.trans same, counted⟩

/-- An element, whose children are known to be guarded from wherever they are entered. -/
theorem guarded_element {w : Walk} {loc : Location} {e : Element} {inner rest : Content}
    {inside : List Location} (here : loc.here = .element e inner rest) (parentOutput : Bool)
    (depth : w.axis.depth = loc.ancestors.length)
    (guarded : ∀ closing v, v.axis.depth = loc.ancestors.length + 1 →
      Guarded limits inside v.comments (Counted v)
        (siblingsAt (r.under (some limits)) closing (loc.inside e inner) v)
        (siblingsAt (r.under none) closing (loc.inside e inner) v)) :
    Guarded limits (loc :: inside) w.comments (Counted w)
      (nodeAt (r.under (some limits)) parentOutput loc w)
      (nodeAt (r.under none) parentOutput loc w) := by
  rw [nodeAt_element here, nodeAt_element here, ← List.singleton_append]
  refine (guarded_startTag (Location.element?_of_here here) parentOutput depth).bind ?_
  rintro ⟨v, closing⟩ n ⟨back, deeper, rfl⟩
  rw [← List.append_nil inside]
  refine (guarded _ v deeper).bind ?_
  rintro v' n ⟨same, rfl⟩
  refine guarded_leave.mono ?_
  rintro n w' ⟨left, counted⟩
  refine ⟨?_, counted⟩
  rw [left, same]
  exact back

/-- Walks through siblings, by induction over the tree. -/
theorem guarded_siblings {content : Content} : ∀ {number : Nat} {ancestors : List Ancestor}
    {before : List NodeKind} {parentOutput : Bool} {w : Walk},
    w.axis.depth = ancestors.length →
    Guarded limits (elementsOf (Location.allFrom number ancestors before content)) w.comments
      (Counted w) (siblings (r.under (some limits)) parentOutput number ancestors before content w)
      (siblings (r.under none) parentOutput number ancestors before content w) := by
  induction content with
  | nil =>
    intro number ancestors before parentOutput w depth
    exact .pure ⟨rfl, rfl⟩
  | leaf l rest ihRest =>
    intro number ancestors before parentOutput w depth
    refine (guarded_leaf w _ l).bind_counted fun v same => ?_
    rw [← same] at depth
    exact ihRest depth
  | element e inner rest ihInner ihRest =>
    intro number ancestors before parentOutput w depth
    rw [Location.elementsOf_element, siblings_element, siblings_element]
    refine (guarded_element rfl parentOutput depth fun closing v deeper => ?_).bind_counted
      fun v same => ihRest (same ▸ depth)
    exact ihInner deeper

theorem guarded_nodeAt {loc : Location} {parentOutput : Bool} {w : Walk}
    (depth : w.axis.depth = loc.ancestors.length) :
    Guarded limits (elementsOf loc.subtree) w.comments (Counted w)
      (nodeAt (r.under (some limits)) parentOutput loc w)
      (nodeAt (r.under none) parentOutput loc w) := by
  obtain ⟨number, ancestors, before, here⟩ := loc
  cases here with
  | nil => exact .pure ⟨rfl, rfl⟩
  | leaf l rest => exact guarded_leaf w _ l
  | element e inner rest =>
    exact guarded_element rfl parentOutput depth fun closing v deeper => guarded_siblings deeper

theorem depth_seed (ancestors : List Ancestor) : (seed ancestors).depth = ancestors.length := by
  induction ancestors with
  | nil => rfl
  | cons a above ih => rw [seed, NamespaceAxis.depth_enter, ih, List.length_cons]

/-- A walk under limits, whatever the input. -/
theorem guarded_ofInput (method : Method) (input : Input) (params : Params) (limits : Limits) :
    Guarded limits (elementsOf input.locations) 0 (fun _ _ => True)
      (ofInput method input { params with limits := some limits })
      (ofInput method input { params with limits := none }) := by
  have whole : ∀ d : Document, Guarded limits (elementsOf d.locations) 0 _
      (siblings ((Request.of method input params).under (some limits)) false 1 [] [] d.content
        ⟨.start, 0⟩)
      (siblings ((Request.of method input params).under none) false 1 [] [] d.content
        ⟨.start, 0⟩) := fun d => guarded_siblings (w := ⟨.start, 0⟩) rfl
  cases input with
  | document d =>
    rw [ofInput_document, ofInput_document]
    exact (whole d).mono fun _ _ _ => trivial
  | nodeSet d s =>
    rw [ofInput_nodeSet, ofInput_nodeSet]
    exact (whole d).mono fun _ _ _ => trivial
  | subtree apex =>
    cases apex with
    | document content =>
      have root := ofInput_root method ⟨"", content⟩
      rw [root, root]
      exact (whole ⟨"", content⟩).mono fun _ _ _ => trivial
    | node loc =>
      rw [ofInput_node, ofInput_node]
      have node : Guarded limits (elementsOf loc.subtree) 0 _
          (nodeAt ((Request.of method (.subtree (.node loc)) params).under (some limits)) false loc
            ⟨seed loc.ancestors, 0⟩)
          (nodeAt ((Request.of method (.subtree (.node loc)) params).under none) false loc
            ⟨seed loc.ancestors, 0⟩) :=
        guarded_nodeAt (w := ⟨seed loc.ancestors, 0⟩) (depth_seed _)
      exact node.mono fun _ _ _ => trivial

end Walk

end CanonicalXml
