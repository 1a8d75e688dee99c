import CanonicalXml.Canonical.Walk
import CanonicalXml.Proofs.Along
import CanonicalXml.Proofs.AxisFrames
import CanonicalXml.Proofs.Places

/-! # The walk as a traversal of the tree

`Walk.run` keeps a list of what is still to be done.  `Walk.siblings` is the same walk written
as a structural recursion: an element is its start tag, its children, and what closes it.

* `Walk.run_siblings`, `Walk.run_node` — the list of steps does what the recursion does.
* `Walk.Invariant` — what one step of the walk has to preserve so that the whole walk does.
* `Walk.Invariant.along_ofInput` — the induction over the tree, done once.
-/

namespace CanonicalXml

/-- The element that a piece is written for, be it output or not. -/
def Piece.element? : Piece → Option Location
  | .startTag loc _ _ _ | .bare loc _ => some loc
  | .leaf _ _ | .endTag _ => none

namespace Walk

/-! ## The recursion -/

/-- Walks through a place and its later siblings. -/
def siblings (r : Request) (parentOutput : Bool) (number : Nat) (ancestors : List Ancestor)
    (before : List NodeKind) : Content → Walk → Transcript Piece Walk
  | .nil, w => pure w
  | .leaf l rest, w => do
    let w ← w.leaf r ⟨number, ancestors, before, .leaf l rest⟩ l
    siblings r parentOutput (number + 1) ancestors (l.kind :: before) rest w
  | .element e inner rest, w => do
    let (w, closing) ←
      w.startTag r ⟨number, ancestors, before, .element e inner rest⟩ e parentOutput
    let w ← siblings r closing.isSome (number + 1) (⟨number, e⟩ :: ancestors) [] inner w
    let w ← w.leave closing
    siblings r parentOutput (number + inner.size + 1) ancestors (.element :: before) rest w

/-- The siblings from a place on. -/
def siblingsAt (r : Request) (parentOutput : Bool) (loc : Location) (w : Walk) :
    Transcript Piece Walk :=
  siblings r parentOutput loc.number loc.ancestors loc.before loc.here w

/-- The node at a place. -/
def nodeAt (r : Request) (parentOutput : Bool) (loc : Location) (w : Walk) :
    Transcript Piece Walk :=
  match loc.here with
  | .nil => pure w
  | .leaf l _ => w.leaf r loc l
  | .element e inner _ => do
    let (w, closing) ← w.startTag r loc e parentOutput
    let w ← siblingsAt r closing.isSome (loc.inside e inner) w
    w.leave closing

theorem run_siblings (r : Request) (loc : Location) (parentOutput : Bool) (todo : List Step)
    (w : Walk) :
    run r w (.siblings loc parentOutput :: todo) =
      siblingsAt r parentOutput loc w >>= fun w => run r w todo := by
  obtain ⟨number, ancestors, before, here⟩ := loc
  -- The steps that are left are a parameter: children are walked through with more of them.
  induction here generalizing number ancestors before parentOutput todo w with
  | nil => rw [run]; rfl
  | leaf l rest ihRest =>
    -- Siblings become a node and later siblings, in two steps of the list.
    rw [run]
    dsimp only
    rw [run]
    dsimp only [siblingsAt, siblings, Location.next]
    rw [bind_assoc]
    refine bind_congr fun w => ?_
    exact ihRest _ _ _ _ _ _
  | element e inner rest ihInner ihRest =>
    rw [run]
    dsimp only
    rw [run]
    dsimp only [siblingsAt, siblings, Location.next]
    rw [bind_assoc]
    refine bind_congr fun started => ?_
    obtain ⟨w, closing⟩ := started
    -- After the start tag come the children, what closes the element, and its later siblings.
    dsimp only [Location.inside]
    rw [ihInner]
    dsimp only [siblingsAt]
    simp only [bind_assoc]
    refine bind_congr fun w => ?_
    rw [run]
    refine bind_congr fun w => ?_
    exact ihRest _ _ _ _ _ _

theorem run_node (r : Request) (loc : Location) (parentOutput : Bool) (todo : List Step)
    (w : Walk) :
    run r w (.node loc parentOutput :: todo) =
      nodeAt r parentOutput loc w >>= fun w => run r w todo := by
  obtain ⟨number, ancestors, before, here⟩ := loc
  cases here with
  | nil => rw [run]; rfl
  | leaf l rest => rw [run]; rfl
  | element e inner rest =>
    rw [run]
    dsimp only [nodeAt]
    rw [bind_assoc]
    refine bind_congr fun started => ?_
    obtain ⟨w, closing⟩ := started
    dsimp only
    rw [run_siblings, bind_assoc]
    refine bind_congr fun w => ?_
    rw [run]

theorem run_nil (r : Request) (w : Walk) : run r w [] = pure w := by
  rw [run]
  rfl

/-! ## Invariants -/

/-- What every step of a walk preserves.  `Inv s chain axis` relates what an observer remembers,
the open elements and the axis inside of them. -/
structure Invariant {σ : Type} (r : Request) (visits : Location → Prop) (next : σ → Piece → σ)
    (ok : σ → Piece → Prop) (Inv : σ → List Ancestor → NamespaceAxis → Prop) : Prop where
  leaf : ∀ {s axis loc l}, visits loc → Inv s loc.ancestors axis →
    r.isOutput loc l.kind = true → ok s (.leaf loc l) ∧ next s (.leaf loc l) = s
  omitted : ∀ {s axis loc e}, visits loc → loc.element? = some e → Inv s loc.ancestors axis →
    r.isOutput loc .element = false →
    let entered := axis.enter (loc.spelling e).declarations
    let piece := Piece.bare loc (r.bareDeclarations entered loc.number)
    ok s piece ∧ next s piece = s ∧ Inv s (⟨loc.number, e⟩ :: loc.ancestors) entered
  output : ∀ {s axis loc e attributes}, visits loc → loc.element? = some e →
    Inv s loc.ancestors axis → r.isOutput loc .element = true →
    let names := loc.spelling e
    let entered := axis.enter names.declarations
    entered.checkPrefix names.name.nsPrefix names.name.text = .ok () →
    r.writtenAttributes entered loc e names (r.ancestorIsOutput loc.ancestors) = .ok attributes →
    let rendering := r.declarations entered loc.number names
    let piece := Piece.startTag loc names.name.text rendering.1 attributes
    ok s piece ∧ Inv (next s piece) (⟨loc.number, e⟩ :: loc.ancestors) rendering.2 ∧
      ok (next s piece) (.endTag names.name.text) ∧
      next (next s piece) (.endTag names.name.text) = s

open NamespaceAxis Transcript

theorem leave_declarations {r : Request} {axis : NamespaceAxis} (opened : axis.frames ≠ [])
    (element : Nat) (names : Spelling) :
    (r.declarations axis element names).2.leave = axis.leave := by
  simp only [Request.declarations]
  split
  · exact (leave_renderInclusive opened _ _).1
  · exact (leave_renderExclusive opened _ _ _ _).1

/-- Writing a start tag opens no further element. -/
theorem depth_declarations {r : Request} {axis : NamespaceAxis} (opened : axis.frames ≠ [])
    (element : Nat) (names : Spelling) :
    (r.declarations axis element names).2.depth = axis.depth := by
  simp only [Request.declarations]
  split
  · exact (leave_renderInclusive opened _ _).2
  · exact (leave_renderExclusive opened _ _ _ _).2

namespace Invariant

variable {σ : Type} {r : Request} {visits : Location → Prop} {next : σ → Piece → σ}
  {ok : σ → Piece → Prop} {Inv : σ → List Ancestor → NamespaceAxis → Prop}

theorem along_leaf (inv : Invariant r visits next ok Inv) {loc : Location} {l : Leaf} {w : Walk}
    {s : σ} (visited : visits loc) (holds : Inv s loc.ancestors w.axis) :
    Along next ok (fun s' w' => s' = s ∧ w'.axis = w.axis) s (w.leaf r loc l) := by
  simp only [Walk.leaf]
  by_cases output : r.isOutput loc l.kind = true
  · obtain ⟨fine, same⟩ := inv.leaf visited holds output
    cases l with
    | text value => cases top : loc.isTop <;> simp [output, fine, same]
    | comment value => simp [output, fine, same]
    | instruction target data => simp [output, fine, same]
  · simp [output]

/-- An element, whose children are known to preserve what they are entered with. -/
theorem along_element (inv : Invariant r visits next ok Inv) {loc : Location} {e : Element}
    {parentOutput : Bool} {w : Walk} {s : σ} (visited : visits loc)
    (here : loc.element? = some e) (holds : Inv s loc.ancestors w.axis)
    (parent : parentOutput = r.ancestorIsOutput loc.ancestors)
    (children : Bool → Walk → Transcript Piece Walk)
    (preserved : ∀ s w, Inv s (⟨loc.number, e⟩ :: loc.ancestors) w.axis →
      Along next ok (fun s' w' => s' = s ∧ w'.axis = w.axis) s
        (children (r.isOutput loc .element) w)) :
    Along next ok (fun s' w' => s' = s ∧ w'.axis = w.axis) s (do
      let (w, closing) ← w.startTag r loc e parentOutput
      let w ← children closing.isSome w
      w.leave closing) := by
  simp only [startTag]
  simp only [along_bind, along_ofExcept]
  intro _ _ _ _
  split
  · rename_i output
    simp only [along_bind, along_ofExcept, along_write, along_pure]
    -- Nothing is written before the checks of the tag have been passed.
    intro _ bound attributes written
    rw [parent] at written
    obtain ⟨fine, inside, closes, back⟩ := inv.output visited here holds output bound written
    refine ⟨fine, ?_⟩
    rw [output] at preserved
    refine Along.mono ?_ (preserved _ ⟨_, w.comments⟩ inside)
    rintro s' w' ⟨rfl, same⟩
    simp only [Walk.leave, along_bind, along_write, along_pure]
    -- Leaving the element takes back what entering it and its tag did to the axis.
    refine ⟨closes, back, ?_⟩
    rw [same]
    exact (leave_declarations (frames_enter_ne_nil _ _) _ _).trans (leave_enter _ _)
  · rename_i omitted
    rw [Bool.not_eq_true] at omitted
    simp only [along_bind, along_write, along_pure]
    obtain ⟨fine, back, inside⟩ := inv.omitted visited here holds omitted
    refine ⟨fine, ?_⟩
    rw [omitted] at preserved
    rw [back]
    refine Along.mono ?_ (preserved _ ⟨_, w.comments⟩ inside)
    rintro s' w' ⟨rfl, same⟩
    simp only [Walk.leave, along_pure]
    refine ⟨trivial, ?_⟩
    rw [same]
    exact leave_enter _ _

/-- The walk through siblings, by induction over the tree. -/
theorem along_siblings (inv : Invariant r visits next ok Inv)
    (outputs : ∀ loc e, visits loc → r.isOutput loc .element =
      r.ancestorIsOutput (⟨loc.number, e⟩ :: loc.ancestors))
    {content : Content} : ∀ {number : Nat} {ancestors : List Ancestor} {before : List NodeKind}
    {parentOutput : Bool} {w : Walk} {s : σ},
    (∀ loc ∈ Location.allFrom number ancestors before content, visits loc) →
    parentOutput = r.ancestorIsOutput ancestors → Inv s ancestors w.axis →
    Along next ok (fun s' w' => s' = s ∧ w'.axis = w.axis) s
      (siblings r parentOutput number ancestors before content w) := by
  induction content with
  | nil =>
    intro number ancestors before parentOutput w s _ _ _
    exact ⟨rfl, rfl⟩
  | leaf l rest ihRest =>
    intro number ancestors before parentOutput w s visited parent holds
    obtain ⟨here, later⟩ := List.forall_mem_cons.mp visited
    simp only [siblings]
    rw [along_bind]
    refine Along.mono ?_ (inv.along_leaf here holds)
    rintro s' w' ⟨rfl, same⟩
    rw [← same] at holds ⊢
    exact ihRest later parent holds
  | element e inner rest ihInner ihRest =>
    intro number ancestors before parentOutput w s visited parent holds
    obtain ⟨here, below⟩ := List.forall_mem_cons.mp visited
    obtain ⟨inside, later⟩ := List.forall_mem_append.mp below
    have element := inv.along_element here rfl holds parent
      (fun closing => siblings r closing (number + 1) (⟨number, e⟩ :: ancestors) [] inner)
      fun s w holds => ihInner inside (outputs _ e here) holds
    -- The three parts of the element are followed by its siblings.
    simp only [siblings]
    simp only [along_bind] at element ⊢
    refine Along.mono ?_ element
    rintro s' ⟨w', closing⟩ along
    refine Along.mono ?_ along
    intro s' w' along
    refine Along.mono ?_ along
    rintro s' w' ⟨rfl, same⟩
    rw [← same] at holds ⊢
    exact ihRest later parent holds

theorem along_nodeAt (inv : Invariant r visits next ok Inv)
    (outputs : ∀ loc e, visits loc → r.isOutput loc .element =
      r.ancestorIsOutput (⟨loc.number, e⟩ :: loc.ancestors))
    {loc : Location} {parentOutput : Bool} {w : Walk} {s : σ}
    (visited : ∀ other ∈ loc.subtree, visits other)
    (parent : parentOutput = r.ancestorIsOutput loc.ancestors)
    (holds : Inv s loc.ancestors w.axis) :
    Along next ok (fun s' w' => s' = s ∧ w'.axis = w.axis) s (nodeAt r parentOutput loc w) := by
  simp only [nodeAt]
  simp only [Location.subtree] at visited
  split
  · exact ⟨rfl, rfl⟩
  · rename_i l rest here
    rw [here] at visited
    exact inv.along_leaf (visited loc List.mem_cons_self) holds
  · rename_i e inner rest here
    rw [here] at visited
    obtain ⟨visitsHere, inside⟩ := List.forall_mem_cons.mp visited
    have element := Location.element?_of_here here
    exact inv.along_element visitsHere element holds parent
      (fun closing => siblingsAt r closing (loc.inside e inner))
      fun s w holds => inv.along_siblings outputs inside (outputs loc e visitsHere) holds

/-- A walk through an input taken from a document. -/
theorem along_ofInput {d : Document} {method : Method} {input : Input} {params : Params}
    (taken : input.Of d)
    (inv : Invariant (.of method input params) (· ∈ input.locations) next ok Inv) {s : σ}
    (holds : Inv s input.ancestors (seed input.ancestors)) :
    Along next ok (fun s' w => s' = s ∧ w.axis = seed input.ancestors) s
      (ofInput method input params) := by
  have outputs : ∀ loc e, loc ∈ input.locations →
      (Request.of method input params).isOutput loc .element =
        (Request.of method input params).ancestorIsOutput (⟨loc.number, e⟩ :: loc.ancestors) :=
    fun loc e member => Request.isOutput_eq taken member e
  have parent : false = (Request.of method input params).ancestorIsOutput input.ancestors :=
    (Request.ancestorIsOutput_of_suffix taken (List.suffix_refl _)).symm
  simp only [ofInput]
  cases taken with
  | document | root | nodeSet s =>
    simp only [run_siblings, run_nil, bind_pure]
    exact inv.along_siblings (w := ⟨.start, 0⟩) outputs (fun _ member => member) parent holds
  | node member =>
    simp only [run_node, run_nil, bind_pure]
    exact inv.along_nodeAt (w := ⟨seed _, 0⟩) outputs (fun _ member => member) parent holds

end Invariant

theorem ofInput_document (method : Method) (d : Document) (params : Params) :
    ofInput method (.document d) params =
      siblingsAt (.of method (.document d) params) false (.top d.content) ⟨.start, 0⟩ := by
  unfold ofInput
  dsimp only
  rw [run_siblings]
  simp only [run_nil, bind_pure]

theorem ofInput_root (method : Method) (d : Document) (params : Params) :
    ofInput method (.subtree (.document d.content)) params =
      siblingsAt (.of method (.subtree (.document d.content)) params) false (.top d.content)
        ⟨.start, 0⟩ := by
  unfold ofInput
  dsimp only
  rw [run_siblings]
  simp only [run_nil, bind_pure]

theorem ofInput_nodeSet (method : Method) (d : Document) (s : NodeSet) (params : Params) :
    ofInput method (.nodeSet d s) params =
      siblingsAt (.of method (.nodeSet d s) params) false (.top d.content) ⟨.start, 0⟩ := by
  unfold ofInput
  dsimp only
  rw [run_siblings]
  simp only [run_nil, bind_pure]

theorem ofInput_node (method : Method) (loc : Location) (params : Params) :
    ofInput method (.subtree (.node loc)) params =
      nodeAt (.of method (.subtree (.node loc)) params) false loc ⟨seed loc.ancestors, 0⟩ := by
  unfold ofInput
  dsimp only
  rw [run_node]
  simp only [run_nil, bind_pure]

end Walk

end CanonicalXml
