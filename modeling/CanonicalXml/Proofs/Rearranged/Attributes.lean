import CanonicalXml.Proofs.AttributeOrder
import CanonicalXml.Proofs.Comparison.Transcripts
import CanonicalXml.Proofs.Readback.Attributes
import CanonicalXml.Proofs.Rearranged.Elements

/-! # Attributes in another order

What is written of the attributes of an element, those included that it takes from ancestors, does
not depend on the order in which the source lists them.

* `Ancestor.inherited_perm`, `Ancestor.inheritedBase_eq` — what is taken from ancestors.
* `Element.carrying_distinct` — an element never takes an attribute that it has itself.
* `Request.writtenAttributes_rearranged` — the attributes of two start tags.
-/

namespace CanonicalXml

open Transcript (Ends)

/-! ## Entries by their names -/

section Entries

variable {entries entries₁ entries₂ : List (String × String)}

/-- The entries of a name are then the same in every order. -/
theorem filter_name_perm (perm : entries₁.Perm entries₂)
    (distinct : (entries₁.map Prod.fst).Nodup) (name : String) :
    entries₁.filter (·.1 = name) = entries₂.filter (·.1 = name) := by
  have single := (perm.filter (·.1 = name))
  rw [filter_name_eq distinct] at single ⊢
  cases found : entries₁.find? (·.1 = name) with
  | none =>
    rw [found] at single
    exact (List.nil_perm.mp single).symm
  | some entry =>
    rw [found] at single
    exact (List.perm_singleton.mp single.symm).symm

theorem mem_firstOfEach {entry : String × String} : entry ∈ Request.firstOfEach entries ↔
    (entries.filter (·.1 = entry.1)).head? = some entry := by
  induction entries with
  | nil => simp [Request.firstOfEach]
  | cons first rest ih =>
    simp only [Request.firstOfEach]
    by_cases same : first.1 = entry.1
    · rw [List.filter_cons_of_pos (by simpa using same), List.head?_cons, Option.some.injEq,
        List.mem_cons, List.mem_filter]
      constructor
      · rintro (equal | ⟨-, other⟩)
        · exact equal.symm
        · exact absurd same.symm (of_decide_eq_true other)
      · intro equal
        exact .inl equal.symm
    · have other : entry ≠ first := fun equal => same (congrArg Prod.fst equal.symm)
      rw [List.filter_cons_of_neg (by simpa using same), List.mem_cons, List.mem_filter, ih]
      simp [other, Ne.symm same]

/-- The first entries of each name are the same, if all entries of each name are. -/
theorem firstOfEach_perm
    (same : ∀ name, entries₁.filter (·.1 = name) = entries₂.filter (·.1 = name)) :
    (Request.firstOfEach entries₁).Perm (Request.firstOfEach entries₂) := by
  have nodup : ∀ entries, (Request.firstOfEach entries).Nodup := fun entries =>
    (firstOfEach_apart entries).imp fun different equal => different (congrArg Prod.fst equal)
  rw [List.perm_ext_iff_of_nodup (nodup _) (nodup _)]
  intro entry
  rw [mem_firstOfEach, mem_firstOfEach, same]

end Entries

/-! ## Ancestors -/

namespace Ancestor

theorem Twins.xmlAttributes_perm {a₁ a₂ : Ancestor} (twins : Twins a₁ a₂) :
    a₁.element.xmlAttributes.Perm a₂.element.xmlAttributes :=
  (twins.attributes.filter _).map _

theorem Twins.xmlAttributes_distinct {a₁ a₂ : Ancestor} (twins : Twins a₁ a₂) :
    (a₁.element.xmlAttributes.map Prod.fst).Nodup := by
  have distinct := List.pairwise_map.mp twins.distinct
  rw [Element.xmlAttributes, List.map_map]
  refine List.pairwise_map.mpr ((distinct.filter _).imp_of_mem ?_)
  intro a b inA inB different same
  refine different (Prod.ext ?_ same)
  have xmlA := of_decide_eq_true (List.mem_filter.mp inA).2
  have xmlB := of_decide_eq_true (List.mem_filter.mp inB).2
  simp only [Attribute.expandedName]
  rw [xmlA, xmlB]

variable {chain₁ chain₂ : List Ancestor} (twins : List.Forall₂ Twins chain₁ chain₂)
include twins

/-- All values of an attribute of the XML namespace, on whatever ancestors. -/
theorem xmlAttributes_named (name : String) :
    (chain₁.flatMap (·.element.xmlAttributes)).filter (·.1 = name) =
      (chain₂.flatMap (·.element.xmlAttributes)).filter (·.1 = name) := by
  induction twins with
  | nil => rfl
  | cons here above ih =>
    rw [List.flatMap_cons, List.flatMap_cons, List.filter_append, List.filter_append, ih,
      filter_name_perm here.xmlAttributes_perm here.xmlAttributes_distinct]

theorem inherited_perm (rule : InheritanceRule) :
    (Request.inherited rule chain₁).Perm (Request.inherited rule chain₂) := by
  refine firstOfEach_perm fun name => ?_
  rw [List.filter_comm, xmlAttributes_named twins, List.filter_comm]

theorem inheritedBase_eq : Request.inheritedBase chain₁ = Request.inheritedBase chain₂ := by
  simp only [Request.inheritedBase]
  rw [xmlAttributes_named twins]

/-- The elements that are not output are the same ones. -/
theorem omittedAncestors_twins (r : Request) :
    List.Forall₂ Twins (r.omittedAncestors chain₁) (r.omittedAncestors chain₂) := by
  have output : ∀ {chain₁ chain₂ : List Ancestor}, List.Forall₂ Twins chain₁ chain₂ →
      r.ancestorIsOutput chain₁ = r.ancestorIsOutput chain₂ := by
    intro chain₁ chain₂ twins
    have numbers : chain₁.map (·.number) = chain₂.map (·.number) := by
      induction twins with
      | nil => rfl
      | cons here above ih => rw [List.map_cons, List.map_cons, ih, here.number]
    cases twins with
    | nil => rfl
    | cons here above =>
      have reaches : ∀ (chain : List Ancestor) (apex : Nat),
          chain.any (·.number = apex) = (chain.map (·.number)).any (· = apex) := by
        intro chain apex
        rw [List.any_map]
        rfl
      simp only [Request.ancestorIsOutput, reaches]
      rw [numbers, here.number]
  induction twins with
  | nil => exact .nil
  | cons here above ih =>
    simp only [Request.omittedAncestors]
    rw [output (.cons here above)]
    split
    · exact .nil
    · exact .cons here ih

end Ancestor

/-! ## Elements with what they take from ancestors -/

section Carrying

variable {rule : InheritanceRule} {around around₁ around₂ : List Ancestor}
  {e e₁ e₂ : Element}

theorem expandedName_of_xml {a : Attribute} (xml : a.nsUri? = some xmlNamespace) :
    a.expandedName = (xmlNamespace, a.localName) := by
  rw [Attribute.expandedName, xml]
  rfl

/-- An element never takes an attribute that it has itself. -/
theorem Element.carrying_distinct (distinct : (e.attributes.map Attribute.expandedName).Nodup) :
    ((e.carrying rule around).attributes.map Attribute.expandedName).Nodup := by
  simp only [Element.carrying]
  rw [List.map_append, List.map_map]
  have names : Attribute.expandedName ∘ Element.joined rule around = Attribute.expandedName := by
    funext a
    obtain ⟨uri, localName⟩ := joined_names rule around a
    simp only [Function.comp_apply, Attribute.expandedName]
    rw [uri, localName]
  rw [names]
  refine List.nodup_append.mpr ⟨distinct, ?_, ?_⟩
  · refine List.pairwise_map.mpr ((taken_apart rule around e).imp_of_mem ?_)
    intro a b inA inB apart same
    rw [expandedName_of_xml (mem_taken inA).1, expandedName_of_xml (mem_taken inB).1] at same
    exact apart ⟨(mem_taken inA).1.trans (mem_taken inB).1.symm, congrArg Prod.snd same⟩
  · intro name own other taken
    rintro rfl
    obtain ⟨a, inElement, is⟩ := List.mem_map.mp own
    obtain ⟨b, inTaken, rfl⟩ := List.mem_map.mp taken
    obtain ⟨xml, unowned, -⟩ := mem_taken inTaken
    rw [expandedName_of_xml xml] at is
    -- An own attribute with this name would be in the XML namespace, too.
    have ownXml : a.nsUri? = some xmlNamespace := by
      have uri : a.nsUri?.getD "" = xmlNamespace := congrArg Prod.fst is
      cases namespaced : a.nsUri? with
      | none =>
        rw [namespaced] at uri
        exact absurd uri (by decide)
      | some u =>
        rw [namespaced] at uri
        exact congrArg some uri
    have owned := Element.hasXml_iff.mpr ⟨a, inElement, ownXml, congrArg Prod.snd is⟩
    rw [unowned] at owned
    cases owned

theorem hasXml_perm (perm : e₁.attributes.Perm e₂.attributes) (localName : String) :
    e₁.hasXml localName = e₂.hasXml localName := by
  rw [Bool.eq_iff_iff, Element.hasXml_iff, Element.hasXml_iff]
  simp only [perm.mem_iff]

/-- The attributes of an element and those that it takes, with their prefixes. -/
theorem carriedOwns_perm {owns₁ owns₂ : List (Attribute × String)}
    (twins : List.Forall₂ Ancestor.Twins around₁ around₂) (perm : owns₁.Perm owns₂)
    (attributes : e₁.attributes.Perm e₂.attributes) :
    (carriedOwns rule around₁ e₁ owns₁).Perm (carriedOwns rule around₂ e₂ owns₂) := by
  have base : Element.baseAround rule around₁ = Element.baseAround rule around₂ := by
    simp only [Element.baseAround]
    rw [Ancestor.inheritedBase_eq twins]
  have joined : Element.joined rule around₁ = Element.joined rule around₂ := by
    funext a
    simp only [Element.joined]
    rw [base]
  have taken : (e₁.taken rule around₁).Perm (e₂.taken rule around₂) := by
    simp only [Element.taken]
    rw [base]
    simp only [hasXml_perm attributes]
    exact (((Ancestor.inherited_perm twins rule).append_right _).filter _).map _
  simp only [carriedOwns]
  rw [joined]
  exact (perm.map _).append (taken.map _)

end Carrying

/-! ## Written attributes -/

namespace Request

/-- Checks of prefixes that are bound alike fail for both lists, though perhaps not at the same
attribute. -/
theorem ownAttributes_perm {axis₁ axis₂ : NamespaceAxis} (qname : String)
    {owns₁ owns₂ : List (Attribute × String)} (perm : owns₁.Perm owns₂)
    (bind : ∀ p, axis₁.inScope.get? p = axis₂.inScope.get? p) :
    Ends (fun _ _ => True)
      (fun a b => a = owns₁.map Attribute.written ∧ b = owns₂.map Attribute.written)
      (ownAttributes axis₁ qname owns₁) (ownAttributes axis₂ qname owns₂) := by
  have checks : ∀ p, axis₁.uri? p = axis₂.uri? p := by
    intro p
    simp only [NamespaceAxis.uri?]
    rw [bind]
  cases first : ownAttributes axis₁ qname owns₁ with
  | ok attributes₁ =>
    obtain ⟨is₁, bound⟩ := ownAttributes_eq_ok.mp first
    have second : ownAttributes axis₂ qname owns₂ = .ok (owns₂.map Attribute.written) :=
      ownAttributes_eq_ok.mpr ⟨rfl, fun own member => by
        rw [← checks]
        exact bound own (perm.mem_iff.mpr member)⟩
    rw [second]
    exact .ok ⟨is₁, rfl⟩
  | error fault =>
    cases second : ownAttributes axis₂ qname owns₂ with
    | error fault' => exact .error trivial
    | ok attributes₂ =>
      obtain ⟨-, bound⟩ := ownAttributes_eq_ok.mp second
      have found : ownAttributes axis₁ qname owns₁ = .ok (owns₁.map Attribute.written) :=
        ownAttributes_eq_ok.mpr ⟨rfl, fun own member => by
          rw [checks]
          exact bound own (perm.mem_iff.mp member)⟩
      rw [found] at first
      cases first

theorem sort_owns_eq {owns₁ owns₂ : List (Attribute × String)} (perm : owns₁.Perm owns₂)
    (distinct : ((owns₁.map Prod.fst).map Attribute.expandedName).Nodup) :
    WrittenAttribute.sort (owns₁.map Attribute.written) =
      WrittenAttribute.sort (owns₂.map Attribute.written) := by
  refine WrittenAttribute.sort_eq_of_perm (perm.map _) ?_
  rw [List.map_map] at distinct ⊢
  exact distinct

/-- The attributes that are written on rearranged elements. -/
theorem writtenAttributes_rearranged {r : Request} {loc₁ loc₂ : Location} {e₁ e₂ : Element}
    {tag₁ tag₂ : StartTag} {axis₁ axis₂ : NamespaceAxis} (parentOutput : Bool)
    (rearranged : Element.Rearranged loc₁.ancestors loc₂.ancestors tag₁ tag₂ e₁ e₂)
    (twins : List.Forall₂ Ancestor.Twins loc₁.ancestors loc₂.ancestors)
    (bind : ∀ p, axis₁.inScope.get? p = axis₂.inScope.get? p) :
    Ends (fun _ _ => True) Eq
      (r.writtenAttributes axis₁ loc₁ e₁ (loc₁.spelling e₁) parentOutput)
      (r.writtenAttributes axis₂ loc₂ e₂ (loc₂.spelling e₂) parentOutput) := by
  have name : (loc₁.spelling e₁).name = (loc₂.spelling e₂).name := rearranged.name_eq
  have prefixes₁ : (loc₁.spelling e₁).attributePrefixes = tag₁.attributePrefixes :=
    rearranged.shows₁.attributePrefixes_eq _
  have prefixes₂ : (loc₂.spelling e₂).attributePrefixes = tag₂.attributePrefixes :=
    rearranged.shows₂.attributePrefixes_eq _
  obtain ⟨fst₁, -⟩ := Element.Rearranged.zip_prefixes rearranged.shows₁
  obtain ⟨fst₂, -⟩ := Element.Rearranged.zip_prefixes rearranged.shows₂
  have owns := ownAttributes_perm (loc₂.spelling e₂).name.text rearranged.attributes bind
  simp only [writtenAttributes]
  rw [name, prefixes₁, prefixes₂]
  cases r.excludesAttributes with
  | true => exact .ok rfl
  | false =>
    revert owns
    generalize ownAttributes axis₁ (loc₂.spelling e₂).name.text _ = x
    generalize ownAttributes axis₂ (loc₂.spelling e₂).name.text _ = y
    intro owns
    cases owns with
    | error _ => exact .error trivial
    | ok related =>
      obtain ⟨rfl, rfl⟩ := related
      cases parentOutput with
      | true =>
        refine .ok (sort_owns_eq rearranged.attributes ?_)
        rw [fst₁]
        exact rearranged.distinct
      | false =>
        refine .ok ?_
        rw [inherit_eq fst₁, inherit_eq fst₂]
        refine sort_owns_eq (carriedOwns_perm (Ancestor.omittedAncestors_twins twins r)
          rearranged.attributes rearranged.attributes_perm) ?_
        rw [carriedOwns_fst fst₁]
        exact Element.carrying_distinct rearranged.distinct

end Request

end CanonicalXml
