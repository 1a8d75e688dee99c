import CanonicalXml.Proofs.Serialization.Recursion
import CanonicalXml.Proofs.Serialization.Steps

/-! # Tags that are written

The start tags and end tags of a canonical form are nested as the elements that are output are,
also where elements in between are not.

* `WrittenTag.ofInput` — the tags of an input, by recursion over the tree.
* `WrittenTag.openAfter` — which elements are open after some tags; `openAfter_ofInput` — none
  is after all of them.
* `Walk.Writes` — an operation writes certain tags, or the first of them if it fails;
  `Walk.writes_ofInput` — a walk writes the tags of its input.
* `canonicalize_recursive` — the walk is the recursion, in text, in depth and in tags.
-/

namespace CanonicalXml

/-- A tag of an element that is output, by its name. -/
inductive WrittenTag where
  | opening (qname : String)
  | closing (qname : String)
deriving DecidableEq

def Piece.tag? : Piece → Option WrittenTag
  | .startTag _ qname _ _ => some (.opening qname)
  | .endTag qname => some (.closing qname)
  | .bare _ _ | .leaf _ _ => none

/-- The tags that an operation writes. -/
def Transcript.tags {α : Type} (t : Transcript Piece α) : List WrittenTag :=
  t.pieces.filterMap Piece.tag?

namespace WrittenTag

/-! ## Tags of a tree -/

/-- The tags inside of an element, between its own ones if it is output. -/
def around (output : Bool) (qname : String) (inside : List WrittenTag) : List WrittenTag :=
  if output then .opening qname :: (inside ++ [.closing qname]) else inside

/-- The tags of nodes in a row. -/
def siblings (r : Request) (number : Nat) (ancestors : List Ancestor) (before : List NodeKind) :
    Content → List WrittenTag
  | .nil => []
  | .leaf l rest => siblings r (number + 1) ancestors (l.kind :: before) rest
  | .element e inner rest =>
    let loc : Location := ⟨number, ancestors, before, .element e inner rest⟩
    around (r.isOutput loc .element) (loc.spelling e).name.text
        (siblings r (number + 1) (⟨number, e⟩ :: ancestors) [] inner) ++
      siblings r (number + inner.size + 1) ancestors (.element :: before) rest

/-- The tags of one node. -/
def node (r : Request) (loc : Location) : List WrittenTag :=
  match loc.here with
  | .element e inner _ =>
    around (r.isOutput loc .element) (loc.spelling e).name.text
      (siblings r (loc.number + 1) (⟨loc.number, e⟩ :: loc.ancestors) [] inner)
  | .nil | .leaf _ _ => []

def ofInput (r : Request) : Input → List WrittenTag
  | .document d | .nodeSet d _ => siblings r 1 [] [] d.content
  | .subtree (.document content) => siblings r 1 [] [] content
  | .subtree (.node loc) => node r loc

/-! ## Open elements -/

/-- The names of the elements that are open after tags, innermost first, if there is an open
element for every end tag, and it has the right name. -/
def openAfter : List String → List WrittenTag → Option (List String)
  | names, [] => some names
  | names, .opening qname :: tags => openAfter (qname :: names) tags
  | [], .closing _ :: _ => none
  | name :: names, .closing qname :: tags => if qname = name then openAfter names tags else none

theorem openAfter_append (first second : List WrittenTag) : ∀ names : List String,
    openAfter names (first ++ second) =
      (openAfter names first).bind fun names => openAfter names second := by
  induction first with
  | nil => intro names; rfl
  | cons tag first ih =>
    intro names
    cases tag with
    | opening qname => exact ih _
    | closing qname =>
      cases names with
      | nil => rfl
      | cons name names =>
        simp only [List.cons_append, openAfter]
        split
        · exact ih names
        · rfl

/-- What is opened last is closed first. -/
theorem openAfter_around {inside : List WrittenTag}
    (settled : ∀ names, openAfter names inside = some names) (output : Bool) (qname : String)
    (names : List String) : openAfter names (around output qname inside) = some names := by
  cases output with
  | false => exact settled names
  | true =>
    show openAfter (qname :: names) (inside ++ [.closing qname]) = some names
    rw [openAfter_append, settled]
    exact if_pos rfl

theorem openAfter_siblings {r : Request} {content : Content} : ∀ (number : Nat)
    (ancestors : List Ancestor) (before : List NodeKind) (names : List String),
    openAfter names (siblings r number ancestors before content) = some names := by
  induction content with
  | nil => intro number ancestors before names; rfl
  | leaf l rest ihRest => exact fun _ _ _ => ihRest _ _ _
  | element e inner rest ihInner ihRest =>
    intro number ancestors before names
    simp only [siblings]
    rw [openAfter_append, openAfter_around (ihInner _ _ _)]
    exact ihRest _ _ _ names

/-- In the end no element is open. -/
theorem openAfter_ofInput (r : Request) (input : Input) :
    openAfter [] (ofInput r input) = some [] := by
  cases input with
  | document d => exact openAfter_siblings _ _ _ _
  | subtree apex =>
    cases apex with
    | document content => exact openAfter_siblings _ _ _ _
    | node loc =>
      obtain ⟨number, ancestors, before, here⟩ := loc
      cases here with
      | nil => rfl
      | leaf l rest => rfl
      | element e inner rest => exact openAfter_around (openAfter_siblings _ _ _) _ _ _
  | nodeSet d s => exact openAfter_siblings _ _ _ _

/-- However early a walk stops, no end tag is in the wrong place. -/
theorem openAfter_isSome {names names' : List String} {first tags : List WrittenTag}
    (start : first <+: tags) (settled : openAfter names tags = some names') :
    (openAfter names first).isSome = true := by
  obtain ⟨second, rfl⟩ := start
  rw [openAfter_append] at settled
  obtain ⟨between, opened, -⟩ := Option.bind_eq_some_iff.mp settled
  rw [opened]
  rfl

end WrittenTag

/-! ## Tags of a walk -/

namespace Walk

variable {r : Request} {α β : Type}

/-- The operation writes these tags, and if it fails the first of them. -/
def Writes (t : Transcript Piece α) (tags : List WrittenTag) : Prop :=
  t.tags <+: tags ∧ ∀ a, t.outcome = .ok a → t.tags = tags

namespace Writes

theorem pure (a : α) : Writes (Pure.pure a) [] :=
  ⟨List.prefix_refl _, fun _ _ => rfl⟩

theorem ofExcept (x : Except Fault α) : Writes (.ofExcept x) [] := by
  cases x with
  | ok a => exact pure a
  | error fault => exact ⟨List.prefix_refl _, nofun⟩

theorem write (piece : Piece) : Writes (.write piece) piece.tag?.toList := by
  have written : (Transcript.write piece).tags = piece.tag?.toList := by
    simp only [Transcript.tags, Transcript.write, Transcript.pieces]
    cases tag : piece.tag? <;> simp [tag]
  exact ⟨written ▸ List.prefix_refl _, fun _ _ => written⟩

theorem bind {t : Transcript Piece α} {f : α → Transcript Piece β}
    {first second : List WrittenTag} (here : Writes t first)
    (later : ∀ a, t.outcome = .ok a → Writes (f a) second) :
    Writes (t >>= f) (first ++ second) := by
  unfold Writes Transcript.tags
  rw [Transcript.pieces_bind, Transcript.outcome_bind, List.filterMap_append]
  cases ends : t.outcome with
  | error fault =>
    refine ⟨?_, fun b ends' => by cases ends'⟩
    rw [List.filterMap_nil, List.append_nil]
    exact here.1.trans (List.prefix_append _ _)
  | ok a =>
    obtain ⟨start, all⟩ := later a ends
    have wrote : t.pieces.filterMap Piece.tag? = first := here.2 a ends
    rw [wrote]
    exact ⟨(List.prefix_append_right_inj first).mpr start, fun b ends' =>
      congrArg (first ++ ·) (all b ends')⟩

/-- Something that writes no tags comes first. -/
theorem after {t : Transcript Piece α} {f : α → Transcript Piece β} {tags : List WrittenTag}
    (here : Writes t []) (later : ∀ a, Writes (f a) tags) : Writes (t >>= f) tags :=
  bind here fun a _ => later a

end Writes

theorem writes_leaf (w : Walk) (loc : Location) (l : Leaf) : Writes (w.leaf r loc l) [] := by
  have wrote : Writes (.write (.leaf loc l)) [] := .write _
  simp only [Walk.leaf]
  cases r.isOutput loc l.kind with
  | false => exact .pure w
  | true =>
    cases l with
    | text value =>
      cases loc.isTop with
      | true => exact .pure w
      | false => exact wrote.after fun _ => .pure w
    | comment value => exact (Writes.ofExcept _).after fun _ => wrote.after fun _ => .pure _
    | instruction target data => exact wrote.after fun _ => .pure w

/-- A start tag is written for an element that is output. -/
theorem writes_startTag (w : Walk) (loc : Location) (e : Element) (parentOutput : Bool) :
    Writes (w.startTag r loc e parentOutput)
      (if r.isOutput loc .element then [.opening (loc.spelling e).name.text] else []) := by
  simp only [startTag]
  refine (Writes.ofExcept _).after fun _ => (Writes.ofExcept _).after fun _ => ?_
  split
  · refine (Writes.ofExcept _).after fun _ => (Writes.ofExcept _).after fun attributes => ?_
    exact (Writes.write _).bind fun _ _ => .pure _
  · exact (Writes.write _).bind fun _ _ => .pure _

theorem writes_leave (w : Walk) (closing : Option String) :
    Writes (w.leave closing) (closing.map WrittenTag.closing).toList := by
  simp only [leave]
  cases closing with
  | none => exact .pure _
  | some qname => exact (Writes.write _).bind fun _ _ => .pure _

/-- An element, of whose children this is known. -/
theorem writes_nodeAt {loc : Location} {e : Element} {inner rest : Content}
    (here : loc.here = .element e inner rest) {inside : List WrittenTag}
    (children : ∀ output w, Writes (siblingsAt r output (loc.inside e inner) w) inside)
    (parentOutput : Bool) (w : Walk) :
    Writes (nodeAt r parentOutput loc w)
      (WrittenTag.around (r.isOutput loc .element) (loc.spelling e).name.text inside) := by
  rw [nodeAt_element here]
  have tags : WrittenTag.around (r.isOutput loc .element) (loc.spelling e).name.text inside =
      (if r.isOutput loc .element then [.opening (loc.spelling e).name.text] else []) ++
        (inside ++ (Option.map WrittenTag.closing
          (if r.isOutput loc .element then some (loc.spelling e).name.text else none)).toList) := by
    unfold WrittenTag.around
    cases r.isOutput loc .element <;> simp
  rw [tags]
  refine (writes_startTag w loc e parentOutput).bind ?_
  rintro ⟨w', closing⟩ ends
  rw [← (startTag_result ends).2]
  exact (children _ w').bind fun w'' _ => writes_leave w'' closing

theorem writes_siblings {content : Content} : ∀ (parentOutput : Bool) (number : Nat)
    (ancestors : List Ancestor) (before : List NodeKind) (w : Walk),
    Writes (siblings r parentOutput number ancestors before content w)
      (WrittenTag.siblings r number ancestors before content) := by
  induction content with
  | nil => exact fun _ _ _ _ w => .pure w
  | leaf l rest ihRest =>
    intro parentOutput number ancestors before w
    simp only [siblings]
    exact (writes_leaf w _ l).after fun w' => ihRest _ _ _ _ w'
  | element e inner rest ihInner ihRest =>
    intro parentOutput number ancestors before w
    rw [siblings_element]
    refine (writes_nodeAt rfl (fun output w' => ihInner output _ _ _ w') parentOutput w).bind ?_
    exact fun w' _ => ihRest _ _ _ _ w'

theorem writes_ofInput (method : Method) (input : Input) (params : Params) :
    Writes (ofInput method input params)
      (WrittenTag.ofInput (.of method input params) input) := by
  cases input with
  | document d =>
    rw [ofInput_document]
    exact writes_siblings _ _ _ _ _
  | subtree apex =>
    cases apex with
    | document content =>
      rw [ofInput_root method ⟨"", content⟩ params]
      exact writes_siblings _ _ _ _ _
    | node loc =>
      rw [ofInput_node]
      obtain ⟨number, ancestors, before, here⟩ := loc
      cases here with
      | nil => exact .pure _
      | leaf l rest => exact writes_leaf _ _ l
      | element e inner rest =>
        exact writes_nodeAt rfl (fun output w => writes_siblings output _ _ _ w) false _
  | nodeSet d s =>
    rw [ofInput_nodeSet]
    exact writes_siblings _ _ _ _ _

end Walk

/-- The walk over a list of steps is the recursion over the tree, however it ends: it writes the
same and fails alike, and if it succeeds the namespace axis is as it was in the beginning.
Where it comes to an element, this and its ancestors are what is open.  The tags are those of the
elements that are output, nested as these are, and each end tag has the name of its start tag. -/
theorem canonicalize_recursive (method : Method) (input : Input) (params : Params) :
    let r := Request.of method input params
    let walk := Walk.ofInput method input params
    canonicalize method input params = (Serialization.ofInput method input params >>=
      fun comments => pure ⟨Walk.seed input.ancestors, comments⟩) ∧
    (∀ w, walk.outcome = .ok w → w.axis = Walk.seed input.ancestors) ∧
    (∀ w, walk.outcome = .ok w ↔ Walk.Reaches r (Walk.begin input) (w, [])) ∧
    (∀ w loc e parentOutput todo,
      Walk.Reaches r (Walk.begin input) (w, .node loc parentOutput :: todo) →
      loc.element? = some e →
      loc ∈ input.locations ∧
      (w.axis.enter (loc.spelling e).declarations).depth = loc.ancestors.length + 1 ∧
      ∀ w' closing, (w.startTag r loc e parentOutput).outcome = .ok (w', closing) →
        w'.axis.depth = loc.ancestors.length + 1) ∧
    walk.tags <+: WrittenTag.ofInput r input ∧
    (WrittenTag.openAfter [] walk.tags).isSome = true ∧
    (∀ w, walk.outcome = .ok w → walk.tags = WrittenTag.ofInput r input ∧
      WrittenTag.openAfter [] walk.tags = some []) := by
  intro r walk
  have recursion := canonicalize_eq_serialization method input params
  obtain ⟨start, all⟩ := Walk.writes_ofInput method input params
  have settled := WrittenTag.openAfter_ofInput r input
  refine ⟨recursion, ?_, ?_, ?_, start, WrittenTag.openAfter_isSome start settled, ?_⟩
  · intro w ends
    have outcome : walk.outcome = _ := (Transcript.outcome_render Piece.text walk).symm.trans
      (congrArg Transcript.outcome recursion)
    rw [ends, Transcript.outcome_bind] at outcome
    cases result : (Serialization.ofInput method input params).outcome with
    | error fault =>
      rw [result] at outcome
      cases outcome
    | ok comments =>
      rw [result] at outcome
      cases outcome
      rfl
  · intro w
    have steps : walk = _ := Walk.ofInput_eq_run method input params
    rw [steps]
    exact Walk.reaches_end_iff.symm
  · intro w loc e parentOutput todo reached here
    obtain ⟨member, depth, inside⟩ := Walk.depth_of_reaches reached here
    exact ⟨member, (NamespaceAxis.depth_enter _ _).trans (congrArg (· + 1) depth), inside⟩
  · intro w ends
    have tags := all w ends
    exact ⟨tags, tags ▸ settled⟩

/-- A set without the element in the middle: what is inside of it is written inside of its
parent. -/
theorem canonicalize_recursive_sparse :
    let text := "<a xmlns:p='u'><p:b>t<c/></p:b></a><!--k-->"
    let method : Method := ⟨true, .inclusive, .everything⟩
    ∃ d, Document.read text = .ok d ∧
      let input := Input.nodeSet d (.ofList [1, 3, 4, 5])
      let r := Request.of method input {}
      (canonicalize method input {}).result =
        .ok "<a xmlns:p=\"u\">t<c></c></a>\n<!--k-->" ∧
      (Walk.ofInput method input {}).tags =
        [.opening "a", .opening "c", .closing "c", .closing "a"] ∧
      ∃ w loc e todo, Walk.Reaches r (Walk.begin input) (w, .node loc false :: todo) ∧
        loc.element? = some e ∧ loc ∈ input.locations ∧
        (w.axis.enter (loc.spelling e).declarations).depth = loc.ancestors.length + 1 := by
  intro text method
  let d := (Document.read text).toOption.getD ⟨"", .nil⟩
  let input := Input.nodeSet d (.ofList [1, 3, 4, 5])
  -- One evaluation, since each would read the text again.
  obtain ⟨parsed, element, result, tags⟩ : Document.read text = .ok d ∧
      (Location.top d.content).element?.isSome = true ∧
      (canonicalize method input {}).result =
        .ok "<a xmlns:p=\"u\">t<c></c></a>\n<!--k-->" ∧
      WrittenTag.ofInput (.of method input {}) input =
        [.opening "a", .opening "c", .closing "c", .closing "a"] := by decide +kernel
  obtain ⟨-, -, -, depth, -, -, written⟩ := canonicalize_recursive method input {}
  obtain ⟨w, ends⟩ : ∃ w, (Walk.ofInput method input {}).outcome = .ok w := by
    unfold canonicalize Transcript.result at result
    rw [Transcript.outcome_render] at result
    cases ends : (Walk.ofInput method input {}).outcome with
    | error fault =>
      rw [ends] at result
      cases result
    | ok w => exact ⟨w, rfl⟩
  obtain ⟨e, here⟩ := Option.isSome_iff_exists.mp element
  obtain ⟨inner, rest, content⟩ := Location.here_of_element? here
  have reached : Walk.Reaches (.of method input {}) (Walk.begin input)
      (⟨.start, 0⟩,
        [.node (.top d.content) false, .siblings (Location.top d.content).next false]) := by
    refine .single ?_
    show (Walk.step _ _ _ (.siblings (.top d.content) false)).outcome = _
    simp only [Walk.step]
    rw [content]
    rfl
  obtain ⟨member, deep, -⟩ := depth _ _ _ _ _ reached here
  exact ⟨d, parsed, result, (written w ends).1.trans tags, _, _, e, _, reached, here, member, deep⟩

end CanonicalXml
