import CanonicalXml.Canonical.Walk

/-! # Namespaces in scope, without a state

`Ancestor.inScope? chain p` is the namespace that the prefix `p` stands for at the first
element of `chain`, the others being its ancestors: what the innermost element says that
declares `p`.  An empty URI says that nothing is bound, and `xml` is left out.

* `InScopeAt.enter` — what the namespace axis has in scope is that, step by step.
* `inScopeAt_seed` — and it is so where a walk starts inside a document.
-/

namespace CanonicalXml

/-- The last of the declarations of a prefix, which is the one that counts. -/
def Binding.last? (declarations : List Binding) (p : String) : Option Binding :=
  declarations.reverse.find? (·.nsPrefix = p)

theorem Binding.of_last? {declarations : List Binding} {p : String} {b : Binding}
    (last : last? declarations p = some b) : b ∈ declarations ∧ b.nsPrefix = p := by
  refine ⟨List.mem_reverse.mp (List.mem_of_find?_eq_some last), ?_⟩
  have same := List.find?_some last
  exact of_decide_eq_true same

theorem Binding.find?_of_distinct {declarations : List Binding}
    (distinct : declarations.Pairwise (·.nsPrefix ≠ ·.nsPrefix)) {b : Binding}
    (member : b ∈ declarations) : declarations.find? (·.nsPrefix = b.nsPrefix) = some b := by
  induction declarations with
  | nil => cases member
  | cons c declarations ih =>
    obtain ⟨here, later⟩ := List.pairwise_cons.mp distinct
    rcases List.mem_cons.mp member with rfl | member
    · simp
    · rw [List.find?_cons_of_neg (by simpa using here b member)]
      exact ih later member

/-- Of distinct declarations the last one of a prefix is the only one. -/
theorem Binding.last?_of_distinct {declarations : List Binding}
    (distinct : declarations.Pairwise (·.nsPrefix ≠ ·.nsPrefix)) (p : String) :
    last? declarations p = declarations.find? (·.nsPrefix = p) := by
  cases last : last? declarations p with
  | none =>
    refine (List.find?_eq_none.mpr fun b member => ?_).symm
    exact List.find?_eq_none.mp last b (List.mem_reverse.mpr member)
  | some b =>
    obtain ⟨member, rfl⟩ := of_last? last
    exact (find?_of_distinct distinct member).symm

namespace Ancestor

/-- The names of an element with these ancestors, as they are to be written. -/
def spelling (a : Ancestor) (above : List Ancestor) : Spelling :=
  Spelling.of (scope above) a.element

/-- The namespace that a prefix stands for at the first of these elements. -/
def inScope? : List Ancestor → String → Option String
  | [], _ => none
  | a :: above, p =>
    if p = xmlPrefix then none
    else match Binding.last? (a.spelling above).declarations p with
      | some b => if b.uri = "" then none else some b.uri
      | none => inScope? above p

@[simp] theorem inScope?_xml (chain : List Ancestor) : inScope? chain xmlPrefix = none := by
  cases chain with
  | nil => rfl
  | cons a above => exact if_pos rfl

/-- Nothing is ever bound to the empty URI. -/
theorem inScope?_ne_empty (chain : List Ancestor) (p : String) : inScope? chain p ≠ some "" := by
  induction chain with
  | nil => exact nofun
  | cons a above ih =>
    simp only [inScope?]
    split
    · exact nofun
    · split
      · split
        · exact nofun
        · rename_i nonempty
          intro h
          exact nonempty (Option.some.inj h)
      · exact ih

end Ancestor

namespace NamespaceAxis

@[simp] theorem inScope_record (axis : NamespaceAxis) (change : AxisChange) :
    (axis.record change).inScope = axis.inScope := by
  simp only [record]
  split <;> rfl

@[simp] theorem rendered_record (axis : NamespaceAxis) (change : AxisChange) :
    (axis.record change).rendered = axis.rendered := by
  simp only [record]
  split <;> rfl

theorem inScope_declare (axis : NamespaceAxis) (b : Binding) (p : String) :
    (axis.declare b).inScope.get? p =
      if b.nsPrefix = p ∧ p ≠ xmlPrefix then (if b.uri = "" then none else some b.uri)
      else axis.inScope.get? p := by
  have set : b.nsPrefix ≠ xmlPrefix → (axis.declare b).inScope =
      axis.inScope.set b.nsPrefix (if b.uri = "" then none else some b.uri) := by
    intro notXml
    simp only [declare]
    rw [if_neg notXml]
    simp
  by_cases xml : b.nsPrefix = xmlPrefix
  · have unchanged : axis.declare b = axis := if_pos xml
    rw [unchanged, if_neg]
    rintro ⟨same, notXml⟩
    exact notXml (same ▸ xml)
  · rw [set xml, PrefixMap.get?_set]
    by_cases same : b.nsPrefix = p
    · rw [if_pos same]
      exact (if_pos ⟨same, same ▸ xml⟩).symm
    · rw [if_neg same, if_neg (fun h => same h.1)]

@[simp] theorem rendered_declare (axis : NamespaceAxis) (b : Binding) :
    (axis.declare b).rendered = axis.rendered := by
  simp only [declare]
  split
  · rfl
  · exact rendered_record axis _

@[simp] theorem rendered_enter (axis : NamespaceAxis) (declarations : List Binding) :
    (axis.enter declarations).rendered = axis.rendered := by
  have general : ∀ axis : NamespaceAxis,
      (declarations.foldl declare axis).rendered = axis.rendered := by
    induction declarations with
    | nil => intro axis; rfl
    | cons b declarations ih =>
      intro axis
      rw [List.foldl_cons, ih, rendered_declare]
  exact general _

/-- What is in scope inside an element: its own declarations, the last one of a prefix, and
otherwise what was in scope around it. -/
theorem get?_inScope_enter (axis : NamespaceAxis) (declarations : List Binding) {p : String}
    (notXml : p ≠ xmlPrefix) :
    (axis.enter declarations).inScope.get? p =
      match Binding.last? declarations p with
      | some b => if b.uri = "" then none else some b.uri
      | none => axis.inScope.get? p := by
  -- The declarations are taken from the last one on, since that is the one that counts.
  have general : ∀ (declarations : List Binding) (axis : NamespaceAxis),
      (declarations.reverse.foldl declare axis).inScope.get? p =
        match declarations.find? (·.nsPrefix = p) with
        | some b => if b.uri = "" then none else some b.uri
        | none => axis.inScope.get? p := by
    intro declarations axis
    induction declarations with
    | nil => rfl
    | cons b declarations ih =>
      rw [List.reverse_cons, List.foldl_append, List.foldl_cons, List.foldl_nil, inScope_declare]
      by_cases same : b.nsPrefix = p
      · rw [if_pos ⟨same, notXml⟩]
        simp [same]
      · rw [if_neg (fun h => same h.1), ih]
        simp [same]
  have reversed := general declarations.reverse { axis with frames := [] :: axis.frames }
  rw [List.reverse_reverse] at reversed
  exact reversed

theorem get?_inScope_enter_xml (axis : NamespaceAxis) (declarations : List Binding) :
    (axis.enter declarations).inScope.get? xmlPrefix = axis.inScope.get? xmlPrefix := by
  have general : ∀ axis : NamespaceAxis,
      (declarations.foldl declare axis).inScope.get? xmlPrefix =
        axis.inScope.get? xmlPrefix := by
    induction declarations with
    | nil => intro axis; rfl
    | cons b declarations ih =>
      intro axis
      rw [List.foldl_cons, ih, inScope_declare, if_neg (fun h => h.2 rfl)]
  exact general _

/-- The bindings of the axis are those in scope at the first of the elements. -/
def InScopeAt (chain : List Ancestor) (axis : NamespaceAxis) : Prop :=
  ∀ p, axis.inScope.get? p = Ancestor.inScope? chain p

theorem inScopeAt_start : InScopeAt [] .start := fun p => PrefixMap.get?_empty p

/-- Entering an element brings its declarations into scope. -/
theorem InScopeAt.enter {chain : List Ancestor} {axis : NamespaceAxis}
    (agrees : InScopeAt chain axis) (a : Ancestor) :
    InScopeAt (a :: chain) (axis.enter (a.spelling chain).declarations) := by
  intro p
  by_cases xml : p = xmlPrefix
  · subst xml
    rw [get?_inScope_enter_xml, agrees, Ancestor.inScope?_xml, Ancestor.inScope?_xml]
  · rw [get?_inScope_enter _ _ xml, agrees]
    exact (if_neg xml).symm

theorem inScopeAt_seed (chain : List Ancestor) : InScopeAt chain (Walk.seed chain) := by
  induction chain with
  | nil => exact inScopeAt_start
  | cons a above ih => exact ih.enter a

@[simp] theorem rendered_seed (chain : List Ancestor) :
    (Walk.seed chain).rendered = PrefixMap.single "" "" := by
  induction chain with
  | nil => rfl
  | cons a above ih => exact (rendered_enter _ _).trans ih

end NamespaceAxis

end CanonicalXml
