import CanonicalXml.Proofs.Comparison.Tags

/-! # Start tags in another order

Two start tags may list the same attributes and declarations in different orders, and one may
repeat what is in scope around it.  Such tags have the same names, and the same is in scope
inside of them.

* `Attribute.expandedName` — what no two attributes of an element share.
* `Binding.Repeats` — a declaration of what holds around the element anyway.
* `Element.Rearranged` — elements whose start tags say the same.
* `Element.Rearranged.inScope?_eq` — the namespaces in scope inside of such elements.
* `Ancestor.Twins` — what is left of this for the elements inside.
-/

namespace CanonicalXml

/-- The namespace and the local name.  A name without namespace has the empty URI. -/
def Attribute.expandedName (a : Attribute) : String × String :=
  (a.nsUri?.getD "", a.localName)

/-- The declaration does not change what is in scope.  For `xml` none does. -/
def Binding.Repeats (above : List Ancestor) (b : Binding) : Prop :=
  b.nsPrefix = xmlPrefix ∨
    Ancestor.inScope? above b.nsPrefix = if b.uri = "" then none else some b.uri

instance (above : List Ancestor) (b : Binding) : Decidable (b.Repeats above) :=
  inferInstanceAs (Decidable (_ ∨ _))

/-- Start tags with one name, that differ in the order of their attributes and declarations, and
in declarations that repeat what is in scope around them. -/
structure Element.Rearranged (above₁ above₂ : List Ancestor) (tag₁ tag₂ : StartTag)
    (e₁ e₂ : Element) : Prop where
  shows₁ : e₁.Shows tag₁
  shows₂ : e₂.Shows tag₂
  name : tag₁.qname = tag₂.qname
  localName : e₁.localName = e₂.localName
  attributes : (e₁.attributes.zip tag₁.attributePrefixes).Perm
    (e₂.attributes.zip tag₂.attributePrefixes)
  distinct : (e₁.attributes.map Attribute.expandedName).Nodup
  once₁ : (tag₁.declarations.map Prod.fst).Nodup
  once₂ : (tag₂.declarations.map Prod.fst).Nodup
  declared₁ : ∀ b ∈ (Spelling.of (Ancestor.scope above₁) e₁).declarations,
    b ∈ (Spelling.of (Ancestor.scope above₂) e₂).declarations ∨ b.Repeats above₁
  declared₂ : ∀ b ∈ (Spelling.of (Ancestor.scope above₂) e₂).declarations,
    b ∈ (Spelling.of (Ancestor.scope above₁) e₁).declarations ∨ b.Repeats above₂

instance (above₁ above₂ : List Ancestor) (tag₁ tag₂ : StartTag) (e₁ e₂ : Element) :
    Decidable (Element.Rearranged above₁ above₂ tag₁ tag₂ e₁ e₂) :=
  decidable_of_iff (_ ∧ _ ∧ _ ∧ _ ∧ _ ∧ _ ∧ _ ∧ _ ∧ _ ∧ _)
    ⟨fun h => ⟨h.1, h.2.1, h.2.2.1, h.2.2.2.1, h.2.2.2.2.1, h.2.2.2.2.2.1, h.2.2.2.2.2.2.1,
        h.2.2.2.2.2.2.2.1, h.2.2.2.2.2.2.2.2.1, h.2.2.2.2.2.2.2.2.2⟩,
      fun h => ⟨h.shows₁, h.shows₂, h.name, h.localName, h.attributes, h.distinct, h.once₁,
        h.once₂, h.declared₁, h.declared₂⟩⟩

/-! ## Namespaces in scope -/

namespace Ancestor

variable {a : Ancestor} {above : List Ancestor} {b : Binding} {p : String}

/-- A declaration that is the only one of its prefix counts. -/
theorem inScope?_of_declared
    (once : ((a.spelling above).declarations.map (·.nsPrefix)).Nodup)
    (declared : b ∈ (a.spelling above).declarations) (notXml : b.nsPrefix ≠ xmlPrefix) :
    inScope? (a :: above) b.nsPrefix = if b.uri = "" then none else some b.uri := by
  have distinct := List.pairwise_map.mp once
  simp only [inScope?]
  rw [if_neg notXml, Binding.last?_of_distinct distinct,
    Binding.find?_of_distinct distinct declared]

/-- Declarations that repeat what is in scope change nothing. -/
theorem inScope?_of_repeats
    (repeats : ∀ b ∈ (a.spelling above).declarations, b.nsPrefix = p → b.Repeats above) :
    inScope? (a :: above) p = inScope? above p := by
  by_cases xml : p = xmlPrefix
  · rw [xml, inScope?_xml, inScope?_xml]
  simp only [inScope?]
  rw [if_neg xml]
  cases last : Binding.last? (a.spelling above).declarations p with
  | none => rfl
  | some b =>
    obtain ⟨member, same⟩ := Binding.of_last? last
    rcases repeats b member same with isXml | around
    · exact absurd (same.symm.trans isXml) xml
    · rw [same] at around
      exact around.symm

end Ancestor

namespace Element.Rearranged

variable {above₁ above₂ : List Ancestor} {tag₁ tag₂ : StartTag} {e₁ e₂ : Element}

/-- The attributes of an element with a known tag are those of the tag. -/
theorem zip_prefixes {e : Element} {tag : StartTag} (shows : e.Shows tag) :
    (e.attributes.zip tag.attributePrefixes).map Prod.fst = e.attributes ∧
      (e.attributes.zip tag.attributePrefixes).map Prod.snd = tag.attributePrefixes := by
  have lengths : e.attributes.length = tag.attributePrefixes.length := by
    have aligned := congrArg List.length shows.aligned
    rw [List.length_map, List.length_map] at aligned
    rw [StartTag.attributePrefixes, List.length_map, aligned]
  exact ⟨List.map_fst_zip (Nat.le_of_eq lengths), List.map_snd_zip (Nat.le_of_eq lengths.symm)⟩

theorem attributes_perm (rearranged : Rearranged above₁ above₂ tag₁ tag₂ e₁ e₂) :
    e₁.attributes.Perm e₂.attributes := by
  have perm := rearranged.attributes.map Prod.fst
  rwa [(zip_prefixes rearranged.shows₁).1, (zip_prefixes rearranged.shows₂).1] at perm

theorem attributePrefixes_perm (rearranged : Rearranged above₁ above₂ tag₁ tag₂ e₁ e₂) :
    tag₁.attributePrefixes.Perm tag₂.attributePrefixes := by
  have perm := rearranged.attributes.map Prod.snd
  rwa [(zip_prefixes rearranged.shows₁).2, (zip_prefixes rearranged.shows₂).2] at perm

theorem name_eq (rearranged : Rearranged above₁ above₂ tag₁ tag₂ e₁ e₂) :
    (Spelling.of (Ancestor.scope above₁) e₁).name =
      (Spelling.of (Ancestor.scope above₂) e₂).name := by
  rw [rearranged.shows₁.name_eq, rearranged.shows₂.name_eq, rearranged.localName, StartTag.name,
    StartTag.name, rearranged.name]

theorem once_declared {e : Element} {tag : StartTag} {outer : Scope} (shows : e.Shows tag)
    (once : (tag.declarations.map Prod.fst).Nodup) :
    ((Spelling.of outer e).declarations.map (·.nsPrefix)).Nodup := by
  rw [shows.declarations_eq, List.map_map]
  exact once

theorem inScope?_eq (rearranged : Rearranged above₁ above₂ tag₁ tag₂ e₁ e₂) {n₁ n₂ : Nat}
    {p : String} (around : Ancestor.inScope? above₁ p = Ancestor.inScope? above₂ p) :
    Ancestor.inScope? (⟨n₁, e₁⟩ :: above₁) p = Ancestor.inScope? (⟨n₂, e₂⟩ :: above₂) p := by
  by_cases xml : p = xmlPrefix
  · rw [xml, Ancestor.inScope?_xml, Ancestor.inScope?_xml]
  have once₁ : ((Ancestor.spelling ⟨n₁, e₁⟩ above₁).declarations.map (·.nsPrefix)).Nodup :=
    once_declared rearranged.shows₁ rearranged.once₁
  have once₂ : ((Ancestor.spelling ⟨n₂, e₂⟩ above₂).declarations.map (·.nsPrefix)).Nodup :=
    once_declared rearranged.shows₂ rearranged.once₂
  by_cases both : ∃ b ∈ (Ancestor.spelling ⟨n₁, e₁⟩ above₁).declarations,
      b ∈ (Ancestor.spelling ⟨n₂, e₂⟩ above₂).declarations ∧ b.nsPrefix = p
  · -- The prefix is declared alike on both tags.
    obtain ⟨b, on₁, on₂, rfl⟩ := both
    rw [Ancestor.inScope?_of_declared once₁ on₁ xml, Ancestor.inScope?_of_declared once₂ on₂ xml]
  · -- Each of the tags leaves the prefix as it is around.
    rw [Ancestor.inScope?_of_repeats, around, Ancestor.inScope?_of_repeats]
    · intro b on₂ same
      exact (rearranged.declared₂ b on₂).resolve_left fun on₁ => both ⟨b, on₁, on₂, same⟩
    · intro b on₁ same
      exact (rearranged.declared₁ b on₁).resolve_left fun on₂ => both ⟨b, on₁, on₂, same⟩

end Element.Rearranged

/-- Ancestors that stand at one place of two documents, with the same attributes. -/
structure Ancestor.Twins (a₁ a₂ : Ancestor) : Prop where
  number : a₁.number = a₂.number
  attributes : a₁.element.attributes.Perm a₂.element.attributes
  distinct : (a₁.element.attributes.map Attribute.expandedName).Nodup

/-- What rearranged elements settle on their tags. -/
theorem Request.settles_rearranged {r : Request} {above₁ above₂ : List Ancestor}
    {tag₁ tag₂ : StartTag} {a₁ a₂ : Ancestor} (number : a₁.number = a₂.number)
    (rearranged : Element.Rearranged above₁ above₂ tag₁ tag₂ a₁.element a₂.element) (p : String) :
    r.settles (a₁ :: above₁) p = r.settles (a₂ :: above₂) p := by
  have name : (a₁.spelling above₁).name = (a₂.spelling above₂).name := rearranged.name_eq
  have prefixes : (a₁.spelling above₁).attributePrefixes.contains p =
      (a₂.spelling above₂).attributePrefixes.contains p := by
    rw [Ancestor.spelling, Ancestor.spelling, rearranged.shows₁.attributePrefixes_eq,
      rearranged.shows₂.attributePrefixes_eq, Bool.eq_iff_iff, List.contains_iff_mem,
      List.contains_iff_mem]
    exact rearranged.attributePrefixes_perm.mem_iff
  simp only [settles, uses]
  rw [name, prefixes, number]

end CanonicalXml
