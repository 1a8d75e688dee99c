import Mathlib.Data.List.Pairwise
import CanonicalXml.Proofs.InputForms.Requests
import CanonicalXml.Proofs.PlaceNumbers

/-! # Sets of several trees

Trees of a document of which none lies inside of another one, taken together as one node set.

* `Location.Apart` — one place before another in document order, and not around it.
* `Location.not_apart_of_common` — such trees have no place in common.
* `NodeSet.trees` — the set of all their nodes.
* `Walk.skips_beside` — outside of the trees nothing is output.
* `Walk.agreeOn_trees` — inside of one of them the set answers as the set of this tree alone.
-/

namespace CanonicalXml

namespace Location

/-- The first place comes before the second one in document order, and is not around it. -/
def Apart (first second : Location) : Prop :=
  first.number < second.number ∧ ∀ a ∈ second.ancestors, a.number ≠ first.number

instance (first second : Location) : Decidable (Apart first second) :=
  inferInstanceAs (Decidable (_ ∧ _))

variable {d : Document}

theorem not_mem_subtree_of_apart {first second : Location} (memberFirst : first ∈ d.locations)
    (memberSecond : second ∈ d.locations) (apart : Apart first second) :
    second ∉ first.subtree := by
  intro below
  rcases (mem_subtree_iff memberFirst memberSecond).mp below with rfl | ⟨a, above, same⟩
  · exact Nat.lt_irrefl _ apart.1
  · exact apart.2 a above same

/-- The places of the tree of an element are those with the numbers from its own number on. -/
theorem mem_subtree_iff_number {root loc : Location} {e : Element} {inner rest : Content}
    (memberRoot : root ∈ d.locations) (member : loc ∈ d.locations)
    (here : root.here = .element e inner rest) :
    loc ∈ root.subtree ↔ root.number ≤ loc.number ∧ loc.number ≤ root.number + inner.size := by
  have numbers : root.subtree.map (·.number) = List.range' root.number (inner.size + 1) := by
    rw [subtree_of_here here, List.range'_succ]
    exact congrArg (root.number :: ·) (numbers_allFrom _ _ _ _)
  have among : loc ∈ root.subtree ↔ loc.number ∈ root.subtree.map (·.number) := by
    refine ⟨fun below => List.mem_map_of_mem below, fun among => ?_⟩
    obtain ⟨other, below, same⟩ := List.mem_map.mp among
    rwa [← eq_of_number (subtree_subset memberRoot below) member same]
  rw [among, numbers, List.mem_range'_1]
  omega

/-- Two trees with a place in common are not apart: the later root would lie between the earlier
one and that place. -/
theorem not_apart_of_common {first second loc : Location} (memberFirst : first ∈ d.locations)
    (memberSecond : second ∈ d.locations) (elementFirst : first.element?.isSome = true)
    (elementSecond : second.element?.isSome = true) (belowFirst : loc ∈ first.subtree)
    (belowSecond : loc ∈ second.subtree) : ¬ Apart first second := by
  intro apart
  obtain ⟨e, here⟩ := Option.isSome_iff_exists.mp elementFirst
  obtain ⟨e', here'⟩ := Option.isSome_iff_exists.mp elementSecond
  obtain ⟨inner, rest, content⟩ := here_of_element? here
  obtain ⟨inner', rest', content'⟩ := here_of_element? here'
  have member := subtree_subset memberFirst belowFirst
  have range := (mem_subtree_iff_number memberFirst member content).mp belowFirst
  have range' := (mem_subtree_iff_number memberSecond member content').mp belowSecond
  refine not_mem_subtree_of_apart memberFirst memberSecond apart ?_
  exact (mem_subtree_iff_number memberFirst memberSecond content).mpr
    ⟨Nat.le_of_lt apart.1, Nat.le_trans range'.1 range.2⟩

/-- A sibling of a place that belongs to the tree of an element, and is no element itself, belongs
to it only if the place does. -/
theorem mem_subtree_of_sibling {root loc sibling : Location} {kind : NodeKind}
    (memberRoot : root ∈ d.locations) (element : root.element?.isSome = true)
    (member : loc ∈ d.locations) (among : sibling ∈ d.locations)
    (is : sibling.kind? = some kind) (markup : kind ≠ .element)
    (ancestors : sibling.ancestors = loc.ancestors) (below : sibling ∈ root.subtree) :
    loc ∈ root.subtree := by
  rcases (mem_subtree_iff memberRoot among).mp below with rfl | above
  · obtain ⟨e, here⟩ := Option.isSome_iff_exists.mp element
    rw [kind?_of_element? here] at is
    exact absurd (Option.some.inj is).symm markup
  · rw [ancestors] at above
    exact (mem_subtree_iff memberRoot member).mpr (.inr above)

end Location

namespace NodeSet

/-- The nodes of the trees of several places, with or without comments. -/
def trees (apexes : List Location) (comments : Bool) : NodeSet :=
  (apexes.map fun apex => tree (.node apex) comments).foldl union empty

theorem contains_foldl_union (sets : List NodeSet) (n : Nat) : ∀ s : NodeSet,
    (sets.foldl union s).contains n = true ↔
      s.contains n = true ∨ ∃ t ∈ sets, t.contains n = true := by
  induction sets with
  | nil => intro s; simp
  | cons t sets ih =>
    intro s
    rw [List.foldl_cons, ih, contains_union, Bool.or_eq_true, List.exists_mem_cons_iff, or_assoc]

theorem contains_trees {apexes : List Location} {comments : Bool} {n : Nat} :
    (trees apexes comments).contains n = true ↔
      ∃ apex ∈ apexes, (tree (.node apex) comments).contains n = true := by
  unfold trees
  rw [contains_foldl_union, contains_empty]
  simp

theorem trees_axes (apexes : List Location) (comments : Bool) :
    (trees apexes comments).visible? = none ∧
      (trees apexes comments).excludesAttributes = false := by
  have general : ∀ s : NodeSet, s.visible? = none → s.excludesAttributes = false →
      let t := (apexes.map fun apex => tree (.node apex) comments).foldl union s
      t.visible? = none ∧ t.excludesAttributes = false := by
    induction apexes with
    | nil => exact fun s visible attributes => ⟨visible, attributes⟩
    | cons apex apexes ih =>
      intro s visible attributes
      refine ih (s.union (tree (.node apex) comments)) ?_ ?_
      · simp only [union]
        rw [visible]
        rfl
      · simp only [union]
        rw [attributes]
        rfl
  exact general empty rfl rfl

/-- One tree is its own set. -/
theorem trees_singleton (apex : Location) (comments : Bool) :
    trees [apex] comments = tree (.node apex) comments := by
  obtain ⟨visible, attributes⟩ := trees_axes [apex] comments
  obtain ⟨visible', attributes'⟩ := tree_axes (.node apex) comments
  refine ext_contains (visible.trans visible'.symm) (attributes.trans attributes'.symm) fun n => ?_
  rw [Bool.eq_iff_iff, contains_trees]
  simp

end NodeSet

/-! ## Trees of one document -/

/-- Elements of the document, in document order, none of which is inside of another one. -/
structure Document.Disjoint (d : Document) (apexes : List Location) : Prop where
  among : ∀ apex ∈ apexes, apex ∈ d.locations
  elements : ∀ apex ∈ apexes, apex.element?.isSome = true
  apart : apexes.Pairwise Location.Apart

theorem Document.disjoint_singleton {d : Document} {apex : Location}
    (member : apex ∈ d.locations) (element : apex.element?.isSome = true) : d.Disjoint [apex] where
  among := List.forall_mem_singleton.mpr member
  elements := List.forall_mem_singleton.mpr element
  apart := List.pairwise_singleton _ _

namespace Document.Disjoint

variable {d : Document} {apexes : List Location} (disjoint : d.Disjoint apexes) {comments : Bool}
include disjoint

/-- Trees with a place in common are the same. -/
theorem eq_of_common {apex apex' loc : Location} (inList : apex ∈ apexes)
    (inList' : apex' ∈ apexes) (below : loc ∈ apex.subtree) (below' : loc ∈ apex'.subtree) :
    apex = apex' := by
  refine Decidable.byContradiction fun differ => ?_
  have member := disjoint.among apex inList
  have member' := disjoint.among apex' inList'
  have element := disjoint.elements apex inList
  have element' := disjoint.elements apex' inList'
  let Either : Location → Location → Prop := fun a b => Location.Apart a b ∨ Location.Apart b a
  have : Std.Symm Either := ⟨fun _ _ => Or.symm⟩
  have either : apexes.Pairwise Either := disjoint.apart.imp Or.inl
  rcases either.forall inList inList' differ with apart | apart
  · exact Location.not_apart_of_common member member' element element' below below' apart
  · exact Location.not_apart_of_common member' member element' element below' below apart

/-- Membership of a place that lies only in trees which have a place in common with this one: it
is a member of the union exactly if it is one of this tree. -/
theorem contains_eq {apex loc other : Location} (inList : apex ∈ apexes)
    (below : loc ∈ apex.subtree) (member : other ∈ d.locations)
    (drags : ∀ apex' ∈ apexes, other ∈ apex'.subtree → loc ∈ apex'.subtree) :
    (NodeSet.trees apexes comments).contains other.number =
      (NodeSet.tree (.node apex) comments).contains other.number := by
  rw [Bool.eq_iff_iff, NodeSet.contains_trees]
  refine ⟨?_, fun contained => ⟨apex, inList, contained⟩⟩
  rintro ⟨apex', inList', contained⟩
  obtain ⟨place, below', same, -⟩ := NodeSet.contains_tree_node.mp contained
  have place_eq := Location.eq_of_number
    (Location.subtree_subset (disjoint.among apex' inList') below') member same
  rw [place_eq] at below'
  rwa [disjoint.eq_of_common inList inList' below (drags apex' inList' below')]

/-- The members of a run of siblings around a place of the tree. -/
theorem any_run_eq {apex loc : Location} (inList : apex ∈ apexes) (below : loc ∈ apex.subtree)
    {kind : NodeKind} (markup : kind ≠ .element) :
    (Request.run loc kind).any (NodeSet.trees apexes comments).contains =
      (Request.run loc kind).any (NodeSet.tree (.node apex) comments).contains := by
  have member := Location.subtree_subset (disjoint.among apex inList) below
  rw [Bool.eq_iff_iff, List.any_eq_true, List.any_eq_true]
  refine exists_congr fun n => and_congr_right fun inRun => ?_
  obtain ⟨sibling, among, rfl, is, ancestors⟩ := Location.mem_run member kind markup inRun
  rw [disjoint.contains_eq inList below among fun apex' inList' =>
    Location.mem_subtree_of_sibling (disjoint.among apex' inList')
      (disjoint.elements apex' inList') member among is markup ancestors]

/-- An element around a place of the tree.  A tree that holds it holds the place. -/
theorem contains_ancestor_eq {apex loc : Location} (inList : apex ∈ apexes)
    (below : loc ∈ apex.subtree) {a : Ancestor} {above : List Ancestor}
    (suffix : a :: above <:+ loc.ancestors) :
    (NodeSet.trees apexes comments).contains a.number =
      (NodeSet.tree (.node apex) comments).contains a.number := by
  have member := Location.subtree_subset (disjoint.among apex inList) below
  obtain ⟨⟨place, among, -, number, ancestors⟩, -⟩ :=
    (Location.stands_of_mem_locations member).of_suffix suffix
  rw [← number]
  refine disjoint.contains_eq inList below among fun apex' inList' below' => ?_
  have memberApex := disjoint.among apex' inList'
  refine (Location.mem_subtree_iff memberApex member).mpr (.inr ?_)
  rcases (Location.mem_subtree_iff memberApex among).mp below' with rfl | ⟨b, inChain, same⟩
  · exact ⟨a, suffix.subset List.mem_cons_self, number.symm⟩
  · rw [ancestors] at inChain
    exact ⟨b, suffix.subset (List.mem_cons_of_mem _ inChain), same⟩

end Document.Disjoint

namespace Walk

/-- A request for which none of these places is output. -/
def Skips (r : Request) (places : List Location) : Prop :=
  ∀ loc ∈ places, ∀ kind, loc.kind? = some kind → r.isOutput loc kind = false

variable {d : Document} {apexes : List Location} (disjoint : d.Disjoint apexes) (method : Method)
  (params : Params) (comments : Bool)
include disjoint

/-- Outside of the trees nothing is output.  A run of siblings does not reach into one, since
they would all be inside. -/
theorem skips_beside {other : Location} (member : other ∈ d.locations)
    (outside : ∀ apex ∈ apexes, other ∉ apex.subtree) :
    Skips (.of method (.nodeSet d (.trees apexes comments)) params) [other] := by
  have reached : ∀ place ∈ d.locations,
      (NodeSet.trees apexes comments).contains place.number = true →
        ∃ apex ∈ apexes, place ∈ apex.subtree := by
    intro place among contained
    obtain ⟨apex, inList, contained⟩ := NodeSet.contains_trees.mp contained
    obtain ⟨place', below, same, -⟩ := NodeSet.contains_tree_node.mp contained
    have within := Location.subtree_subset (disjoint.among apex inList) below
    rw [Location.eq_of_number within among same] at below
    exact ⟨apex, inList, below⟩
  have absent : (NodeSet.trees apexes comments).contains other.number = false := by
    rw [← Bool.not_eq_true]
    intro contained
    obtain ⟨apex, inList, below⟩ := reached other member contained
    exact outside apex inList below
  have apart : ∀ kind, kind ≠ .element →
      (Request.run other kind).any (NodeSet.trees apexes comments).contains = false := by
    intro kind markup
    rw [List.any_eq_false]
    intro n inRun contained
    obtain ⟨sibling, among, rfl, is, ancestors⟩ := Location.mem_run member kind markup inRun
    obtain ⟨apex, inList, below⟩ := reached sibling among contained
    exact outside apex inList (Location.mem_subtree_of_sibling (disjoint.among apex inList)
      (disjoint.elements apex inList) member among is markup ancestors below)
  intro place inList kind is
  cases List.mem_singleton.mp inList
  unfold Request.isOutput Request.of Request.extentOf
  cases kind with
  | element => exact absent
  | text => exact absent
  | comment => simp [apart .comment (by decide)]
  | instruction => exact apart .instruction (by decide)

/-- Inside of one of the trees the set of all of them asks for what the set of this tree asks
for. -/
theorem agreeOn_trees {apex : Location} (inList : apex ∈ apexes) :
    Request.AgreeOn apex.subtree (.of method (.nodeSet d (.trees apexes comments)) params)
      (.of method (.nodeSet d (.tree (.node apex) comments)) params) where
  limits := rfl
  namespaces := rfl
  inheritance := rfl
  listed := rfl
  attributes := (NodeSet.trees_axes _ _).2.trans (NodeSet.tree_axes _ _).2.symm
  restricts :=
    congrArg Option.isSome ((NodeSet.trees_axes _ _).1.trans (NodeSet.tree_axes _ _).1.symm)
  visible := by
    funext element nsPrefix
    show (NodeSet.trees apexes comments).isVisible element nsPrefix =
      (NodeSet.tree (.node apex) comments).isVisible element nsPrefix
    unfold NodeSet.isVisible
    rw [(NodeSet.trees_axes _ _).1, (NodeSet.tree_axes _ _).1]
  propagates := by
    intro loc _
    simp [Request.propagatesAt, Request.of, Request.extentOf]
  output := by
    intro loc below kind here
    have member := Location.subtree_subset (disjoint.among apex inList) below
    have contained : (NodeSet.trees apexes comments).contains loc.number =
        (NodeSet.tree (.node apex) comments).contains loc.number :=
      disjoint.contains_eq inList below member fun _ _ => id
    have runs : kind ≠ .element →
        (Request.run loc kind).any (NodeSet.trees apexes comments).contains =
          (Request.run loc kind).any (NodeSet.tree (.node apex) comments).contains :=
      disjoint.any_run_eq inList below
    unfold Request.isOutput Request.of Request.extentOf
    cases kind with
    | element => exact contained
    | text => exact contained
    | comment => simp [runs nofun]
    | instruction => exact runs nofun
  around := by
    intro loc below chain suffix
    cases chain with
    | nil => rfl
    | cons a above => exact disjoint.contains_ancestor_eq inList below suffix

end Walk

end CanonicalXml
