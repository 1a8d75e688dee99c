import CanonicalXml.Mode
import CanonicalXml.Proofs.DisjointTrees.Walks

/-! # The forms of an input

A document can be given as such, as the subtree below its document node or as the set of all its
nodes, and the tree of an element as a subtree or as a set.  Comments can be left out by the
method or by the set.

* `Walk.root_eq_document`, `Walk.all_eq_document` — the walks through a whole document.
* `Walk.tree_matches_subtree` — a walk from the document node to the tree of an element.
* `Walk.dropComments_eq` — a method without comments, and a set without comments.
* `Mode.input_forms_alike` — what this says about the canonical forms.
-/

namespace CanonicalXml

namespace Walk

open Transcript (Matches)

/-! ## Whole documents -/

/-- The root of a propagating subtree is an element, and the document node is none. -/
theorem agreeOn_root (method : Method) (d : Document) (params : Params) (propagate : Bool) :
    Request.AgreeOn d.locations
      (.of method (.subtree (.document d.content)) { params with propagateDefault := propagate })
      (.of method (.document d) params) where
  limits := rfl
  namespaces := rfl
  inheritance := rfl
  listed := rfl
  attributes := rfl
  restricts := rfl
  visible := rfl
  propagates := by
    intro loc member
    have positive := (Location.lt_of_mem_locations member).1
    simp [Request.propagatesAt, Request.of, Request.extentOf, Place.number,
      Nat.ne_of_lt positive]
  output := fun loc member kind here => rfl
  around := by
    intro loc member chain suffix
    cases chain with
    | nil => rfl
    | cons a above => rfl

theorem root_eq_document (method : Method) (d : Document) (params : Params) (propagate : Bool) :
    ofInput method (.subtree (.document d.content)) { params with propagateDefault := propagate } =
      ofInput method (.document d) params := by
  rw [ofInput_root, ofInput_document]
  exact siblings_congr (agreeOn_root method d params propagate) false _

theorem agreeOn_all (method : Method) (d : Document) (params : Params) :
    Request.AgreeOn d.locations (.of method (.nodeSet d (.all d)) params)
      (.of method (.document d) params) where
  limits := rfl
  namespaces := rfl
  inheritance := rfl
  listed := rfl
  attributes := (NodeSet.tree_axes _ _).2
  restricts := congrArg Option.isSome (NodeSet.tree_axes _ _).1
  visible := by
    funext element nsPrefix
    show (NodeSet.all d).isVisible element nsPrefix = true
    unfold NodeSet.isVisible NodeSet.all
    rw [(NodeSet.tree_axes _ _).1]
  propagates := by
    intro loc member
    simp [Request.propagatesAt, Request.of, Request.extentOf]
  output := by
    intro loc member kind here
    have contained := NodeSet.contains_all member
    have inRun : (Request.run loc kind).any (NodeSet.all d).contains = true :=
      List.any_eq_true.mpr ⟨_, Location.number_mem_run here, contained⟩
    unfold Request.isOutput Request.of Request.extentOf
    cases kind with
    | element => exact contained
    | text => exact contained
    | comment => simp [inRun]
    | instruction => exact inRun
  around := by
    intro loc member chain suffix
    cases chain with
    | nil => rfl
    | cons a above =>
      obtain ⟨⟨other, among, -, number, -⟩, -⟩ :=
        (Location.stands_of_mem_locations member).of_suffix suffix
      show (NodeSet.all d).contains a.number = true
      rw [← number]
      exact NodeSet.contains_all among

theorem all_eq_document (method : Method) (d : Document) (params : Params) :
    ofInput method (.nodeSet d (.all d)) params = ofInput method (.document d) params := by
  rw [ofInput_nodeSet, ofInput_document]
  exact siblings_congr (agreeOn_all method d params) false _

/-! ## Comments -/

/-- With the comments dropped a method that writes comments finds none. -/
theorem agreeOn_dropComments (family : Family) (d : Document) (s : NodeSet) (params : Params) :
    Request.AgreeOn d.locations (.of (Mode.method family false) (.nodeSet d s) params)
      (.of (Mode.method family true) (.nodeSet d (s.dropComments d)) params) := by
  refine Request.agreeOn_nodeSet ?_ ?_ (NodeSet.dropComments_axes d s).1.symm
    (NodeSet.dropComments_axes d s).2.symm ?_ ?_
  · cases family <;> rfl
  · cases family <;> rfl
  · intro loc member other
    exact (NodeSet.contains_dropComments_of_kind member other).symm
  · intro loc member comment
    have omits : (Request.of (Mode.method family false) (.nodeSet d s) params).isOutput loc
        .comment = false := by
      cases family <;> rfl
    rw [omits]
    symm
    show (if _ then false else (Request.run loc .comment).any (s.dropComments d).contains) = false
    split
    · rfl
    rw [List.any_eq_false]
    intro n inRun contained
    obtain ⟨other, among, rfl, is, -⟩ :=
      Location.mem_run member .comment (by decide) inRun
    rw [NodeSet.not_contains_dropComments among is] at contained
    exact Bool.false_ne_true contained

theorem dropComments_eq (family : Family) (d : Document) (s : NodeSet) (params : Params) :
    ofInput (Mode.method family false) (.nodeSet d s) params =
      ofInput (Mode.method family true) (.nodeSet d (s.dropComments d)) params := by
  rw [ofInput_nodeSet, ofInput_nodeSet]
  exact siblings_congr (agreeOn_dropComments family d s params) false _

/-! ## The tree of an element -/

section Trees

variable (method : Method) {d : Document} {loc : Location} (member : loc ∈ d.locations)
  (params : Params)
include member

/-- An element around a place of the tree belongs to it if it is the root, or has the root around
it. -/
theorem contains_ancestor_iff {other : Location} (below : other ∈ loc.subtree) {a : Ancestor}
    {above : List Ancestor} (suffix : a :: above <:+ other.ancestors) :
    (NodeSet.tree (.node loc) true).contains a.number = true ↔
      ∃ b ∈ a :: above, b.number = loc.number := by
  obtain ⟨⟨place, among, -, number, ancestors⟩, -⟩ :=
    (Location.stands_of_mem_locations (Location.subtree_subset member below)).of_suffix suffix
  have inTree := Location.mem_subtree_iff member among
  rw [ancestors] at inTree
  rw [NodeSet.contains_tree_node]
  constructor
  · rintro ⟨other', below', same, -⟩
    rw [Location.eq_of_number (Location.subtree_subset member below') among
      (same.trans number.symm)] at below'
    rcases inTree.mp below' with rfl | ⟨b, inChain, same⟩
    · exact ⟨a, List.mem_cons_self, number.symm⟩
    · exact ⟨b, List.mem_cons_of_mem _ inChain, same⟩
  · rintro ⟨b, inChain, same⟩
    refine ⟨place, inTree.mpr ?_, number, .inl rfl⟩
    rcases List.mem_cons.mp inChain with rfl | inChain
    · exact .inl (Location.eq_of_number among member (number.trans same))
    · exact .inr ⟨b, inChain, same⟩

/-- Below an element its tree, as a set, asks for what the subtree asks for. -/
theorem agreeOn_tree (calm : params.propagateDefault = false) :
    Request.AgreeOn loc.subtree (.of method (.subtree (.node loc)) params)
      (.of method (.nodeSet d (.tree (.node loc) true)) params) where
  limits := rfl
  namespaces := rfl
  inheritance := rfl
  listed := rfl
  attributes := (NodeSet.tree_axes _ _).2.symm
  restricts := congrArg Option.isSome (NodeSet.tree_axes _ _).1.symm
  visible := by
    funext element nsPrefix
    show true = (NodeSet.tree (.node loc) true).isVisible element nsPrefix
    unfold NodeSet.isVisible
    rw [(NodeSet.tree_axes _ _).1]
  propagates := by
    intro other below
    simp [Request.propagatesAt, Request.of, calm]
  output := by
    intro other below kind is
    have contained : (NodeSet.tree (.node loc) true).contains other.number = true :=
      NodeSet.contains_tree_node.mpr ⟨other, below, rfl, .inl rfl⟩
    have inRun : (Request.run other kind).any (NodeSet.tree (.node loc) true).contains = true :=
      List.any_eq_true.mpr ⟨_, Location.number_mem_run is, contained⟩
    unfold Request.isOutput Request.of Request.extentOf
    cases kind with
    | element => exact contained.symm
    | text => exact contained.symm
    | comment => simp [inRun]
    | instruction => exact inRun.symm
  around := by
    intro other below chain suffix
    cases chain with
    | nil => rfl
    | cons a above =>
      have positive := (Location.lt_of_mem_locations member).1
      show (decide (loc.number = 0) || (a :: above).any (·.number = loc.number)) =
        (NodeSet.tree (.node loc) true).contains a.number
      rw [decide_eq_false (Nat.ne_of_gt positive), Bool.false_or, Bool.eq_iff_iff, List.any_eq_true,
        contains_ancestor_iff member below suffix]
      simp only [decide_eq_true_eq]

end Trees

theorem tree_matches_subtree (method : Method) {d : Document} {loc : Location}
    (member : loc ∈ d.locations) {e : Element} (here : loc.element? = some e) (params : Params)
    (calm : params.propagateDefault = false) (limits : params.limits = none) :
    Matches Eq (fun _ _ => True) (ofInput method (.nodeSet d (.tree (.node loc) true)) params)
      (ofInput method (.subtree (.node loc)) params) := by
  obtain ⟨inner, next, content⟩ := Location.here_of_element? here
  rw [ofInput_node, nodeAt_congr content (agreeOn_tree method member params calm)]
  exact ofInput_tree method limits true member (Option.isSome_iff_exists.mpr ⟨e, here⟩)

end Walk

namespace Mode

open Transcript (Alike)

/-- A canonical form does not depend on the form in which the input is given, nor on whether
comments are left out by the algorithm or were never in the set. -/
theorem input_forms_alike (d : Document) (family : Family) (params : Params) :
    (∀ withComments propagate,
      Alike ((canonical family withComments).run (.subtree (.document d.content))
          { params with propagateDefault := propagate })
        ((canonical family withComments).run (.document d) params) ∧
      Alike ((canonical family withComments).run (.nodeSet d (.all d)) params)
        ((canonical family withComments).run (.document d) params)) ∧
    (∀ withComments, ∀ loc ∈ d.locations, loc.element?.isSome = true →
      params.propagateDefault = false → params.limits = none →
      Alike ((canonical family withComments).run (.subtree (.node loc)) params)
        ((canonical family withComments).run (.nodeSet d (.tree (.node loc) true)) params)) ∧
    (∀ s, Alike ((canonical family false).run (.nodeSet d s) params)
      ((canonical family true).run (.nodeSet d (s.dropComments d)) params)) ∧
    Alike ((canonical family false).run (.document d) params)
      ((canonical family true).run (.nodeSet d (.withoutComments d)) params) ∧
    (∀ loc ∈ d.locations, loc.element?.isSome = true →
      params.propagateDefault = false → params.limits = none →
      Alike ((canonical family false).run (.subtree (.node loc)) params)
        ((canonical family true).run (.nodeSet d (.tree (.node loc) false)) params)) := by
  have trees : ∀ withComments, ∀ loc ∈ d.locations, loc.element?.isSome = true →
      params.propagateDefault = false → params.limits = none →
      Alike ((canonical family withComments).run (.subtree (.node loc)) params)
        ((canonical family withComments).run (.nodeSet d (.tree (.node loc) true)) params) := by
    intro withComments loc member element calm limits
    obtain ⟨e, here⟩ := Option.isSome_iff_exists.mp element
    obtain ⟨text, outcome⟩ := run_alike
      (Walk.tree_matches_subtree (method family withComments) member here params calm limits)
    exact ⟨text.symm, outcome.symm⟩
  have comments : ∀ s, Alike ((canonical family false).run (.nodeSet d s) params)
      ((canonical family true).run (.nodeSet d (s.dropComments d)) params) :=
    fun s => run_alike_of_eq (Walk.dropComments_eq family d s params)
  have whole : ∀ withComments,
      Alike ((canonical family withComments).run (.nodeSet d (.all d)) params)
        ((canonical family withComments).run (.document d) params) :=
    fun withComments => run_alike_of_eq (Walk.all_eq_document _ d params)
  refine ⟨fun withComments propagate => ⟨?_, whole withComments⟩, trees, comments, ?_, ?_⟩
  · exact run_alike_of_eq (Walk.root_eq_document _ d params propagate)
  · -- The set without comments is the set of all nodes without its comments.
    obtain ⟨text, outcome⟩ := comments (.all d)
    rw [NodeSet.dropComments_all] at text outcome
    exact ⟨(whole false).1.symm.trans text, (whole false).2.symm.trans outcome⟩
  · intro loc member element calm limits
    obtain ⟨text, outcome⟩ := comments (.tree (.node loc) true)
    rw [NodeSet.dropComments_tree member] at text outcome
    have tree := trees false loc member element calm limits
    exact ⟨tree.1.trans text, tree.2.trans outcome⟩

/-- An element with a comment in it, whose prefix is declared around it. -/
theorem input_forms_alike_element :
    let text := "<a xmlns:p='u'>z<p:b><!-- x -->y</p:b></a>"
    let run := fun withComments => (canonical .exclusive withComments).run
    ∃ d loc, Document.read text = .ok d ∧ loc ∈ d.locations ∧ loc.element?.isSome = true ∧
      (run false (.subtree (.node loc)) {}).result = .ok "<p:b xmlns:p=\"u\">y</p:b>" ∧
      Alike (run true (.subtree (.node loc)) {})
        (run true (.nodeSet d (.tree (.node loc) true)) {}) ∧
      Alike (run false (.subtree (.node loc)) {})
        (run true (.nodeSet d (.tree (.node loc) false)) {}) := by
  intro text run
  let d := (Document.read text).toOption.getD ⟨"", .nil⟩
  let loc := (d.locate? 3).getD (.top d.content)
  have parsed : Document.read text = .ok d := by decide +kernel
  have member : loc ∈ d.locations := by decide +kernel
  have element : loc.element?.isSome = true := by decide +kernel
  have written : (run false (.subtree (.node loc)) {}).result =
      .ok "<p:b xmlns:p=\"u\">y</p:b>" := by decide +kernel
  obtain ⟨-, trees, -, -, dropped⟩ := input_forms_alike d .exclusive {}
  exact ⟨d, loc, parsed, member, element, written, trees true loc member element rfl rfl,
    dropped loc member element rfl rfl⟩

end Mode

end CanonicalXml
