import CanonicalXml.Proofs.NodeSets
import CanonicalXml.Proofs.Traversal

/-! # Requests that agree

A walk asks a request about the places that it visits, and about the elements around them.  Two
requests that give the same answers there make the same walk.

* `Request.AgreeOn places r₁ r₂` — the answers are the same for these places.
* `Walk.siblings_congr`, `Walk.nodeAt_congr` — and so are the walks through them.
* `Request.agreeOn_of_output`, `Request.agreeOn_nodeSet` — for two node sets it is enough to
  compare what is output, or the members.
-/

namespace CanonicalXml

/-- The elements from one of the ancestors outwards stand in the document as the others do. -/
theorem Ancestor.Stands.of_suffix {places : List Location} {chain inner : List Ancestor}
    (stands : Ancestor.Stands places inner) (around : chain <:+ inner) :
    Ancestor.Stands places chain := by
  induction inner with
  | nil =>
    cases List.suffix_nil.mp around
    exact stands
  | cons a above ih =>
    rcases List.suffix_cons_iff.mp around with rfl | around
    · exact stands
    · exact ih stands.2 around

theorem Location.kind?_of_element? {loc : Location} {e : Element} (here : loc.element? = some e) :
    loc.kind? = some .element := by
  obtain ⟨inner, next, content⟩ := Location.here_of_element? here
  unfold Location.kind?
  rw [content]
  rfl

namespace Request

/-- Both requests treat each of the places alike. -/
structure AgreeOn (places : List Location) (r₁ r₂ : Request) : Prop where
  limits : r₁.limits = r₂.limits
  namespaces : r₁.method.namespaces = r₂.method.namespaces
  inheritance : r₁.method.inheritance = r₂.method.inheritance
  listed : r₁.listed = r₂.listed
  attributes : r₁.excludesAttributes = r₂.excludesAttributes
  restricts : r₁.restrictsNamespaces = r₂.restrictsNamespaces
  visible : r₁.isVisible = r₂.isVisible
  propagates : ∀ loc ∈ places, r₁.propagatesAt loc.number = r₂.propagatesAt loc.number
  output : ∀ loc ∈ places, ∀ kind, loc.kind? = some kind →
    r₁.isOutput loc kind = r₂.isOutput loc kind
  around : ∀ loc ∈ places, ∀ chain, chain <:+ loc.ancestors →
    r₁.ancestorIsOutput chain = r₂.ancestorIsOutput chain

variable {places : List Location} {r₁ r₂ : Request}

theorem omittedAncestors_congr {chain : List Ancestor}
    (around : ∀ outer, outer <:+ chain → r₁.ancestorIsOutput outer = r₂.ancestorIsOutput outer) :
    r₁.omittedAncestors chain = r₂.omittedAncestors chain := by
  induction chain with
  | nil => rfl
  | cons a above ih =>
    simp only [omittedAncestors]
    have later := ih fun outer h => around outer (h.trans (List.suffix_cons _ _))
    rw [around _ (List.suffix_refl _), later]

namespace AgreeOn

theorem subset {fewer : List Location} (agree : AgreeOn places r₁ r₂) (within : fewer ⊆ places) :
    AgreeOn fewer r₁ r₂ :=
  { agree with
    propagates := fun loc member => agree.propagates loc (within member)
    output := fun loc member => agree.output loc (within member)
    around := fun loc member => agree.around loc (within member) }

theorem declarations (agree : AgreeOn places r₁ r₂) {loc : Location} (member : loc ∈ places)
    (axis : NamespaceAxis) (names : Spelling) :
    r₁.declarations axis loc.number names = r₂.declarations axis loc.number names := by
  simp only [Request.declarations, utilized]
  rw [agree.namespaces, agree.listed, agree.attributes, agree.restricts, agree.visible,
    agree.propagates loc member]

theorem bareDeclarations (agree : AgreeOn places r₁ r₂) (axis : NamespaceAxis) (element : Nat) :
    r₁.bareDeclarations axis element = r₂.bareDeclarations axis element := by
  simp only [Request.bareDeclarations]
  rw [agree.namespaces, agree.listed, agree.restricts, agree.visible]

theorem writtenAttributes (agree : AgreeOn places r₁ r₂) {loc : Location} (member : loc ∈ places)
    (axis : NamespaceAxis) (e : Element) (names : Spelling) (parentOutput : Bool) :
    r₁.writtenAttributes axis loc e names parentOutput =
      r₂.writtenAttributes axis loc e names parentOutput := by
  simp only [Request.writtenAttributes]
  rw [agree.attributes, agree.inheritance, omittedAncestors_congr (agree.around loc member)]

end AgreeOn

section NodeSets

variable {d : Document} {s t : NodeSet} {method₁ method₂ : Method} {params : Params}
  (namespaces : method₁.namespaces = method₂.namespaces)
  (inheritance : method₁.inheritance = method₂.inheritance) (visible : s.visible? = t.visible?)
  (attributes : s.excludesAttributes = t.excludesAttributes)
include namespaces inheritance visible attributes

/-- Node sets that say the same of namespaces and attributes, and let the same be output at each
place of a document. -/
theorem agreeOn_of_output (output : ∀ loc ∈ d.locations, ∀ kind, loc.kind? = some kind →
      (Request.of method₁ (.nodeSet d s) params).isOutput loc kind =
        (Request.of method₂ (.nodeSet d t) params).isOutput loc kind) :
    AgreeOn d.locations (.of method₁ (.nodeSet d s) params)
      (.of method₂ (.nodeSet d t) params) where
  limits := rfl
  namespaces := namespaces
  inheritance := inheritance
  listed := by
    unfold Request.of
    rw [namespaces]
  attributes := attributes
  restricts := by
    show s.visible?.isSome = t.visible?.isSome
    rw [visible]
  visible := by
    funext element nsPrefix
    show s.isVisible element nsPrefix = t.isVisible element nsPrefix
    unfold NodeSet.isVisible
    rw [visible]
  propagates := by
    intro loc _
    unfold propagatesAt Request.of extentOf
    simp
  output := output
  around := by
    intro loc member chain suffix
    cases chain with
    | nil => rfl
    | cons a above =>
      obtain ⟨⟨other, among, here, number, -⟩, -⟩ :=
        (Location.stands_of_mem_locations member).of_suffix suffix
      show s.contains a.number = t.contains a.number
      rw [← number]
      exact output other among .element (Location.kind?_of_element? here)

/-- Node sets, of which each place of a document and each element is a member of both or of
none.  Comments may belong to one of them only, if both methods leave comments out or the sets
have the same. -/
theorem agreeOn_nodeSet
    (members : ∀ loc ∈ d.locations, loc.kind? ≠ some .comment →
      s.contains loc.number = t.contains loc.number)
    (comments : ∀ loc ∈ d.locations, loc.kind? = some .comment →
      (Request.of method₁ (.nodeSet d s) params).isOutput loc .comment =
        (Request.of method₂ (.nodeSet d t) params).isOutput loc .comment) :
    AgreeOn d.locations (.of method₁ (.nodeSet d s) params)
      (.of method₂ (.nodeSet d t) params) := by
  refine agreeOn_of_output namespaces inheritance visible attributes ?_
  intro loc member kind here
  have same : kind ≠ .comment → s.contains loc.number = t.contains loc.number := fun other =>
    members loc member fun comment => other (Option.some.inj (here.symm.trans comment))
  cases kind with
  | element => exact same nofun
  | text => exact same nofun
  | comment => exact comments loc member here
  | instruction =>
    show (run loc .instruction).any s.contains = (run loc .instruction).any t.contains
    rw [Bool.eq_iff_iff, List.any_eq_true, List.any_eq_true]
    refine exists_congr fun n => and_congr_right fun inRun => ?_
    obtain ⟨other, among, rfl, is, -⟩ := Location.mem_run member .instruction
      (by decide) inRun
    rw [members other among fun comment => nomatch is.symm.trans comment]

end NodeSets

end Request

namespace Walk

variable {places : List Location} {r₁ r₂ : Request}

theorem startTag_congr (agree : Request.AgreeOn places r₁ r₂) {loc : Location}
    (member : loc ∈ places) {e : Element} (here : loc.element? = some e) (w : Walk)
    (parentOutput : Bool) :
    w.startTag r₁ loc e parentOutput = w.startTag r₂ loc e parentOutput := by
  have output := agree.output loc member .element (Location.kind?_of_element? here)
  simp only [startTag]
  rw [agree.limits, output]
  simp only [agree.writtenAttributes member, agree.declarations member, agree.bareDeclarations]

theorem leaf_congr (agree : Request.AgreeOn places r₁ r₂) {loc : Location}
    (member : loc ∈ places) {l : Leaf} {rest : Content} (here : loc.here = .leaf l rest)
    (w : Walk) : w.leaf r₁ loc l = w.leaf r₂ loc l := by
  have kind : loc.kind? = some l.kind := by
    unfold Location.kind?
    rw [here]
    rfl
  simp only [Walk.leaf]
  rw [agree.output loc member _ kind, agree.limits]

theorem siblings_congr {content : Content} : ∀ {number : Nat} {ancestors : List Ancestor}
    {before : List NodeKind},
    Request.AgreeOn (Location.allFrom number ancestors before content) r₁ r₂ →
    ∀ (parentOutput : Bool) (w : Walk),
      siblings r₁ parentOutput number ancestors before content w =
        siblings r₂ parentOutput number ancestors before content w := by
  induction content with
  | nil => intro number ancestors before _ parentOutput w; rfl
  | leaf l rest ihRest =>
    intro number ancestors before agree parentOutput w
    simp only [siblings]
    rw [leaf_congr agree List.mem_cons_self rfl]
    refine bind_congr fun w => ?_
    exact ihRest (agree.subset (List.subset_cons_self _ _)) parentOutput w
  | element e inner rest ihInner ihRest =>
    intro number ancestors before agree parentOutput w
    have below := agree.subset (List.subset_cons_self _ _)
    simp only [siblings]
    rw [startTag_congr agree List.mem_cons_self rfl]
    refine bind_congr fun started => ?_
    obtain ⟨w, closing⟩ := started
    dsimp only
    rw [ihInner (below.subset (List.subset_append_left _ _))]
    refine bind_congr fun w => bind_congr fun w => ?_
    exact ihRest (below.subset (List.subset_append_right _ _)) parentOutput w

theorem nodeAt_congr {loc : Location} {e : Element} {inner rest : Content}
    (here : loc.here = .element e inner rest) (agree : Request.AgreeOn loc.subtree r₁ r₂)
    (parentOutput : Bool) (w : Walk) :
    nodeAt r₁ parentOutput loc w = nodeAt r₂ parentOutput loc w := by
  rw [Location.subtree_of_here here] at agree
  have element := Location.element?_of_here here
  have inside := agree.subset (List.subset_cons_self _ _)
  simp only [nodeAt]
  rw [here]
  dsimp only
  rw [startTag_congr agree List.mem_cons_self element]
  refine bind_congr fun started => ?_
  obtain ⟨w, closing⟩ := started
  exact congrArg (· >>= _) (siblings_congr inside closing.isSome w)

end Walk

end CanonicalXml
