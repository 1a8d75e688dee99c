import CanonicalXml.Canonical.Request
import CanonicalXml.Selection

/-! # Places and their ancestors

Which places a document has, and how the ancestors of a place belong to it.

* `Location.HandedOn` — what a place hands on to the first place inside of it and to the one after
  it; `Location.HandedOn.of_mem_allFrom` — it holds of all places from one on.
* `Location.lt_of_mem_allFrom` — an ancestor comes before the place in document order.
* `Location.subtree_subset` — the places below a place of the document are places of it.
* `Ancestor.Stands` — every ancestor is the element at a place of the document, together with
  its own ancestors.
* `Input.Of` — an input taken from a document; `Input.locations` are the places it visits.
* `Request.isOutput_eq` — at these places the two tests of an element for being output agree.
-/

namespace CanonicalXml

namespace Location

theorem here_of_element? {loc : Location} {e : Element} (here : loc.element? = some e) :
    ∃ inner next, loc.here = .element e inner next := by
  unfold element? at here
  split at here
  · rename_i e inner next found
    cases here
    exact ⟨inner, next, found⟩
  · cases here

theorem element?_of_here {loc : Location} {e : Element} {inner next : Content}
    (here : loc.here = .element e inner next) : loc.element? = some e := by
  unfold element?
  rw [here]

/-! ## Moves -/

/-- Later siblings have the ancestors of the place itself. -/
theorem ancestors_next (loc : Location) : loc.next.ancestors = loc.ancestors := by
  simp only [next]
  split <;> rfl

theorem number_le_next (loc : Location) : loc.number ≤ loc.next.number := by
  simp only [next]
  split
  · exact Nat.le_refl _
  · exact Nat.le_succ _
  · rw [Nat.add_assoc]
    exact Nat.le_add_right _ _

/-- The places from one on are those of its own tree, and those of its later siblings. -/
theorem all_eq_append {loc : Location} (here : loc.here ≠ .nil) :
    loc.all = loc.subtree ++ loc.next.all := by
  obtain ⟨number, ancestors, before, content⟩ := loc
  cases content with
  | nil => exact absurd rfl here
  | leaf l rest => rfl
  | element e inner rest => rfl

theorem subtree_sublist_all (loc : Location) : loc.subtree.Sublist loc.all := by
  by_cases here : loc.here = .nil
  · unfold subtree
    rw [here]
    exact List.nil_sublist _
  · rw [all_eq_append here]
    exact List.sublist_append_left _ _

theorem all_next_sublist (loc : Location) : loc.next.all.Sublist loc.all := by
  by_cases here : loc.here = .nil
  · have same : loc.next = loc := by
      unfold next
      rw [here]
    exact same.symm ▸ List.Sublist.refl _
  · rw [all_eq_append here]
    exact List.sublist_append_right _ _

variable {loc : Location} {e : Element} {inner rest : Content}

theorem subtree_of_here (here : loc.here = .element e inner rest) :
    loc.subtree = loc :: (loc.inside e inner).all := by
  unfold subtree
  rw [here]

theorem mem_all_of_here (here : loc.here = .element e inner rest) : loc ∈ loc.all := by
  have first : loc ∈ loc.subtree := subtree_of_here here ▸ List.mem_cons_self
  exact (subtree_sublist_all loc).subset first

theorem all_inside_sublist (here : loc.here = .element e inner rest) :
    (loc.inside e inner).all.Sublist loc.all := by
  have below := subtree_sublist_all loc
  rw [subtree_of_here here] at below
  exact List.sublist_of_cons_sublist below

/-- What holds of a place and is handed on to the first place inside of it and to the one after
it. -/
structure HandedOn (P : Location → Prop) : Prop where
  next : ∀ {loc : Location}, P loc → P loc.next
  inside : ∀ {loc : Location} {e : Element} {inner rest : Content},
    loc.here = .element e inner rest → P loc → P (loc.inside e inner)

/-- What is handed on holds of all places from one on of which it holds. -/
theorem HandedOn.of_mem_allFrom {P : Location → Prop} (handed : HandedOn P) {content : Content} :
    ∀ {number : Nat} {ancestors : List Ancestor} {before : List NodeKind},
      P ⟨number, ancestors, before, content⟩ →
      ∀ loc ∈ allFrom number ancestors before content, P loc := by
  induction content with
  | nil => intro number ancestors before _ loc member; cases member
  | leaf l rest ihRest =>
    intro number ancestors before start loc member
    rcases List.mem_cons.mp member with rfl | member
    · exact start
    · exact ihRest (handed.next start) loc member
  | element e inner rest ihInner ihRest =>
    intro number ancestors before start loc member
    rcases List.mem_cons.mp member with rfl | member
    · exact start
    rcases List.mem_append.mp member with member | member
    · exact ihInner (handed.inside rfl start) loc member
    · exact ihRest (handed.next start) loc member

/-! ## Numbers -/

theorem lt_of_mem_allFrom {content : Content} {number : Nat} {ancestors : List Ancestor}
    {before : List NodeKind} (earlier : ∀ a ∈ ancestors, a.number < number) :
    ∀ loc ∈ allFrom number ancestors before content,
      number ≤ loc.number ∧ ∀ a ∈ loc.ancestors, a.number < loc.number := by
  have handed : HandedOn fun loc =>
      number ≤ loc.number ∧ ∀ a ∈ loc.ancestors, a.number < loc.number := by
    constructor
    case next =>
      rintro loc ⟨reached, earlier⟩
      rw [ancestors_next]
      exact ⟨Nat.le_trans reached loc.number_le_next,
        fun a above => Nat.lt_of_lt_of_le (earlier a above) loc.number_le_next⟩
    case inside =>
      rintro loc e inner rest - ⟨reached, earlier⟩
      refine ⟨Nat.le_succ_of_le reached, List.forall_mem_cons.mpr ⟨Nat.lt_succ_self _, ?_⟩⟩
      exact fun a above => Nat.lt_succ_of_lt (earlier a above)
  exact handed.of_mem_allFrom ⟨Nat.le_refl _, earlier⟩

theorem lt_of_mem_locations {d : Document} {loc : Location} (member : loc ∈ d.locations) :
    0 < loc.number ∧ ∀ a ∈ loc.ancestors, a.number < loc.number :=
  lt_of_mem_allFrom (by intro a h; cases h) loc member

/-! ## Subtrees -/

/-- What is below a place keeps its ancestors. -/
theorem suffix_of_mem_allFrom {content : Content} {number : Nat} {ancestors : List Ancestor}
    {before : List NodeKind} :
    ∀ loc ∈ allFrom number ancestors before content, ancestors <:+ loc.ancestors := by
  have handed : HandedOn fun loc => ancestors <:+ loc.ancestors := by
    constructor
    case next =>
      intro loc kept
      rwa [ancestors_next]
    case inside =>
      intro loc e inner rest _ kept
      exact kept.trans (List.suffix_cons _ _)
  exact handed.of_mem_allFrom (List.suffix_refl _)

theorem handedOn_subset (places : List Location) : HandedOn fun loc => loc.all ⊆ places where
  next within := List.Subset.trans (all_next_sublist _).subset within
  inside here within := List.Subset.trans (all_inside_sublist here).subset within

theorem subtree_subset_allFrom {content : Content} {number : Nat} {ancestors : List Ancestor}
    {before : List NodeKind} : ∀ loc ∈ allFrom number ancestors before content,
      loc.subtree ⊆ allFrom number ancestors before content := by
  intro loc member
  have within := (handedOn_subset _).of_mem_allFrom (List.Subset.refl _) loc member
  exact List.Subset.trans (subtree_sublist_all loc).subset within

theorem subtree_subset {d : Document} {loc : Location} (member : loc ∈ d.locations) :
    loc.subtree ⊆ d.locations :=
  subtree_subset_allFrom loc member

end Location

/-! ## Ancestors -/

/-- Each of the elements stands at one of the places, the later ones being its ancestors. -/
def Ancestor.Stands (places : List Location) : List Ancestor → Prop
  | [] => True
  | a :: above =>
    (∃ loc ∈ places, loc.element? = some a.element ∧ loc.number = a.number ∧
      loc.ancestors = above) ∧ Stands places above

theorem Ancestor.Stands.of_mem {places : List Location} {chain : List Ancestor}
    (stands : Ancestor.Stands places chain) {a : Ancestor} (member : a ∈ chain) :
    ∃ loc ∈ places, loc.element? = some a.element := by
  induction chain with
  | nil => cases member
  | cons b above ih =>
    obtain ⟨⟨loc, inPlaces, here, -⟩, rest⟩ := stands
    rcases List.mem_cons.mp member with rfl | member
    · exact ⟨loc, inPlaces, here⟩
    · exact ih rest member

theorem Location.stands_of_mem_locations {d : Document} {loc : Location}
    (member : loc ∈ d.locations) : Ancestor.Stands d.locations loc.ancestors := by
  have handed : HandedOn fun loc =>
      Ancestor.Stands d.locations loc.ancestors ∧ loc.all ⊆ d.locations := by
    constructor
    case next =>
      rintro loc ⟨stands, within⟩
      rw [ancestors_next]
      exact ⟨stands, (handedOn_subset _).next within⟩
    case inside =>
      rintro loc e inner rest here ⟨stands, within⟩
      have among := within (mem_all_of_here here)
      exact ⟨⟨⟨loc, among, element?_of_here here, rfl, rfl⟩, stands⟩,
        (handedOn_subset _).inside here within⟩
  have outside : Ancestor.Stands d.locations [] := trivial
  exact (handed.of_mem_allFrom ⟨outside, List.Subset.refl _⟩ loc member).1

/-! ## Inputs -/

namespace Input

/-- An input that is taken from a document. -/
inductive Of (d : Document) : Input → Prop where
  | document : Of d (.document d)
  | root : Of d (.subtree (.document d.content))
  | node {loc : Location} (member : loc ∈ d.locations) : Of d (.subtree (.node loc))
  | nodeSet (s : NodeSet) : Of d (.nodeSet d s)

/-- The elements around an input. -/
def ancestors : Input → List Ancestor
  | .subtree (.node loc) => loc.ancestors
  | _ => []

/-- The places that a walk through an input visits. -/
def locations : Input → List Location
  | .document d | .nodeSet d _ => d.locations
  | .subtree apex => apex.locations

theorem Of.locations_subset {d : Document} {input : Input} (taken : input.Of d) :
    input.locations ⊆ d.locations := by
  cases taken with
  | document => exact List.Subset.refl _
  | root => exact List.Subset.refl _
  | node member => exact Location.subtree_subset member
  | nodeSet s => exact List.Subset.refl _

end Input

/-! ## Output -/

namespace Request

variable {d : Document} {method : Method} {input : Input} {params : Params}

/-- A walk asks of places, and the rules of the axis ask of ancestors: both get the same
answer. -/
theorem isOutput_eq (taken : input.Of d) {loc : Location} (member : loc ∈ input.locations)
    (e : Element) :
    (Request.of method input params).isOutput loc .element =
      (Request.of method input params).ancestorIsOutput (⟨loc.number, e⟩ :: loc.ancestors) := by
  cases taken with
  | document => rfl
  | root => rfl
  | nodeSet s => rfl
  | @node apex _ =>
    have reached : loc.number = apex.number ∨ ∃ a ∈ loc.ancestors, a.number = apex.number := by
      change loc ∈ apex.subtree at member
      simp only [Location.subtree] at member
      split at member
      · cases member
      · exact .inl (List.mem_singleton.mp member ▸ rfl)
      · rcases List.mem_cons.mp member with rfl | member
        · exact .inl rfl
        · have kept := Location.suffix_of_mem_allFrom loc member
          exact .inr ⟨_, kept.subset List.mem_cons_self, rfl⟩
    simp only [isOutput, ancestorIsOutput]
    show true = (apex.number = 0 || _)
    simpa using .inr reached

/-- Nothing around an input is output. -/
theorem ancestorIsOutput_of_suffix (taken : input.Of d) {chain : List Ancestor}
    (around : chain <:+ input.ancestors) :
    (Request.of method input params).ancestorIsOutput chain = false := by
  cases chain with
  | nil => rfl
  | cons a above =>
    cases taken with
    | document => cases List.suffix_nil.mp around
    | root => cases List.suffix_nil.mp around
    | nodeSet s => cases List.suffix_nil.mp around
    | @node apex member =>
      obtain ⟨positive, earlier⟩ := Location.lt_of_mem_locations member
      simp only [ancestorIsOutput]
      show (apex.number = 0 || (a :: above).any fun b => b.number = apex.number) = false
      rw [Bool.or_eq_false_iff]
      constructor
      · exact decide_eq_false (Nat.ne_of_gt positive)
      · rw [List.any_eq_false]
        intro b inChain same
        have before := earlier b (around.subset inChain)
        exact Nat.lt_irrefl _ (of_decide_eq_true same ▸ before)

/-- Nothing around an input is output, so that its elements take from all of the elements around
it. -/
theorem omittedAncestors_of_suffix (taken : input.Of d) : ∀ {chain : List Ancestor},
    chain <:+ input.ancestors →
      (Request.of method input params).omittedAncestors chain = chain
  | [], _ => rfl
  | a :: above, around => by
    rw [omittedAncestors, ancestorIsOutput_of_suffix taken around,
      omittedAncestors_of_suffix taken ((List.suffix_cons a above).trans around)]
    rfl

end Request

end CanonicalXml
