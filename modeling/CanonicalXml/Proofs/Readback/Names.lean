import CanonicalXml.Proofs.Readback.Scopes

/-! # The names of what is read back

A written start tag gives the element and its attributes the namespaces that they have in the
source.

* `Attribute.item` — an attribute as it is written with a prefix.
* `Stage.resolve_item`, `Stage.validAttribute` — it is read back, and it can be written.
* `Stage.elementUri`, `Stage.validTag` — the same for the tag.
-/

namespace CanonicalXml

/-- An attribute with a prefix, as it is written. -/
def Attribute.item (own : Attribute × String) : Item :=
  ⟨⟨own.2, own.1.localName⟩, own.1.value⟩

/-- The prefix stands for the namespace of the attribute. -/
def Ancestor.Agrees (chain : List Ancestor) (own : Attribute × String) : Prop :=
  (if own.2 = "" then none else namespace? chain own.2) = own.1.nsUri?

/-- An attribute that a start tag can have, with a prefix that has passed its check. -/
structure NamespaceAxis.Carries (axis : NamespaceAxis) (r : Request) (chain : List Ancestor)
    (own : Attribute × String) : Prop where
  agrees : Ancestor.Agrees chain own
  checked : own.2 = "" ∨ axis.uri? own.2 ≠ none
  used : own.2 ≠ "" → own.2 ≠ xmlPrefix → r.uses chain own.2 = true
  sound : own.1.Sound
  admitted : ∀ c ∈ own.1.value.toList, Chars.isXml c = true

namespace Stage

open NamespaceAxis

variable {r : Request} {tags : Reader.Tags} {scope : Scope} {a : Ancestor} {above : List Ancestor}
  {axis : NamespaceAxis} {own : Attribute × String}

/-- The scope of a reader inside of the tag. -/
abbrev inside (r : Request) (scope : Scope) (axis : NamespaceAxis) (a : Ancestor)
    (above : List Ancestor) : Scope :=
  Scope.extend (r.declarations axis a.number (a.spelling above)).1 scope

theorem attributeUri?_eq (stage : Stage tags scope (a :: above) axis)
    (free : r.restrictsNamespaces = false) (carries : axis.Carries r (a :: above) own) :
    own.2 ≠ xmlnsPrefix ∧
    (own.2 = "" ∨ own.2 = xmlPrefix ∨ (inside r scope axis a above).uri? own.2 ≠ none) ∧
    Form.attributeUri? (inside r scope axis a above) (Attribute.item own).name =
      own.1.nsUri? := by
  obtain ⟨named, p⟩ := own
  obtain ⟨agrees, checked, used, sound, -⟩ := carries
  simp only [Ancestor.Agrees] at agrees
  unfold Form.attributeUri? Attribute.item
  dsimp only at agrees checked used sound ⊢
  -- No prefix, the reserved prefix, or one that is in scope.
  by_cases unprefixed : p = ""
  · rw [if_pos unprefixed] at agrees ⊢
    subst unprefixed
    exact ⟨by decide, .inl rfl, agrees⟩
  rw [if_neg unprefixed] at agrees ⊢
  simp only [Ancestor.namespace?] at agrees
  by_cases xml : p = xmlPrefix
  · rw [if_pos xml] at agrees ⊢
    subst xml
    exact ⟨by decide, .inr (.inl rfl), agrees⟩
  rw [if_neg xml] at agrees ⊢
  have notXmlns : p ≠ xmlnsPrefix := by
    rintro rfl
    rw [if_pos rfl] at agrees
    exact sound.notXmlnsUri agrees.symm
  rw [if_neg notXmlns] at agrees
  -- The prefix is used and has been checked: the reader has seen what is in scope.
  have same := stage.uri?_eq free (used unprefixed xml) checked xml
  have bound : Ancestor.inScope? (a :: above) p ≠ none := by
    have found := checked.resolve_left unprefixed
    simp only [NamespaceAxis.uri?] at found
    rwa [if_neg xml, stage.follows.inScope] at found
  obtain ⟨u, found⟩ := Option.ne_none_iff_exists'.mp bound
  rw [found] at same agrees
  have read := (Option.filter_eq_some_iff.mp same).1
  refine ⟨notXmlns, .inr (.inr ?_), ?_⟩
  · rw [read]
    exact Option.some_ne_none _
  · rw [← agrees]
    exact read

theorem resolve_item (stage : Stage tags scope (a :: above) axis)
    (free : r.restrictsNamespaces = false) (carries : axis.Carries r (a :: above) own) :
    Form.resolve (inside r scope axis a above) (Attribute.item own) = own.1 := by
  simp only [Form.resolve]
  rw [(stage.attributeUri?_eq free carries).2.2]
  rfl

theorem resolve_items (stage : Stage tags scope (a :: above) axis)
    (free : r.restrictsNamespaces = false) {owns : List (Attribute × String)}
    (carries : ∀ own ∈ owns, axis.Carries r (a :: above) own) :
    (owns.map Attribute.item).map (Form.resolve (inside r scope axis a above)) =
      owns.map Prod.fst := by
  rw [List.map_map]
  exact List.map_congr_left fun own member => stage.resolve_item free (carries own member)

theorem validAttribute (stage : Stage tags scope (a :: above) axis)
    (free : r.restrictsNamespaces = false) (carries : axis.Carries r (a :: above) own) :
    Form.ValidAttribute (inside r scope axis a above) (Attribute.item own) := by
  obtain ⟨notXmlns, bound, -⟩ := stage.attributeUri?_eq free carries
  constructor
  · exact ⟨⟨stage.validPrefix carries.checked, carries.sound.localName⟩, carries.admitted⟩
  · exact ⟨notXmlns, carries.sound.notXmlns⟩
  · exact bound

/-! ## Elements -/

theorem getD_nonempty (uri? : Option String) : (uri?.filter (· ≠ "")).getD "" = uri?.getD "" := by
  cases uri? with
  | none => rfl
  | some u =>
    rw [Option.filter_some]
    by_cases empty : u = "" <;> simp [empty]

/-- An element has none of the reserved namespaces. -/
theorem nsUri_ne {e : Element} (sound : e.Sound) :
    e.nsUri?.getD "" ≠ xmlNamespace ∧ e.nsUri?.getD "" ≠ xmlnsNamespace := by
  cases uri : e.nsUri? with
  | none => exact ⟨by decide, by decide⟩
  | some u => exact sound.nsUri u uri

theorem elementPrefix (stage : Stage tags scope (a :: above) axis)
    (names : Ancestor.NamesAgree a above) :
    (a.spelling above).name.nsPrefix ≠ xmlPrefix ∧
      (a.spelling above).name.nsPrefix ≠ xmlnsPrefix := by
  obtain ⟨notXml, notXmlns⟩ := nsUri_ne (stage.sound a List.mem_cons_self)
  have agrees := names.element
  simp only [Ancestor.namespace?] at agrees
  constructor
  · intro xml
    rw [if_pos xml] at agrees
    exact notXml agrees.symm
  · intro xmlns
    rw [if_neg (by rw [xmlns]; decide), if_pos xmlns] at agrees
    exact notXmlns agrees.symm

theorem elementUri (stage : Stage tags scope (a :: above) axis)
    (free : r.restrictsNamespaces = false) (names : Ancestor.NamesAgree a above)
    (checked : (a.spelling above).name.nsPrefix = "" ∨
      axis.uri? (a.spelling above).name.nsPrefix ≠ none) :
    ((a.spelling above).name.nsPrefix = "" ∨
      (inside r scope axis a above).uri? (a.spelling above).name.nsPrefix ≠ none) ∧
    ((inside r scope axis a above).uri? (a.spelling above).name.nsPrefix).getD "" =
      a.element.nsUri?.getD "" := by
  obtain ⟨notXml, notXmlns⟩ := stage.elementPrefix names
  have same := stage.uri?_eq free (Reader.uses_elementPrefix r a above) checked notXml
  have agrees := names.element
  simp only [Ancestor.namespace?] at agrees
  rw [if_neg notXml, if_neg notXmlns, ← same] at agrees
  constructor
  · refine checked.imp_right fun bound nothing => bound ?_
    simp only [NamespaceAxis.uri?]
    rw [if_neg notXml, stage.follows.inScope, ← same, nothing]
    rfl
  · rw [← agrees, getD_nonempty]

/-- The start tag of the element can be written, with attributes that have different names. -/
theorem validTag (stage : Stage tags scope (a :: above) axis)
    (free : r.restrictsNamespaces = false) (names : Ancestor.NamesAgree a above)
    (checked : (a.spelling above).name.nsPrefix = "" ∨
      axis.uri? (a.spelling above).name.nsPrefix ≠ none)
    {owns : List (Attribute × String)} (carries : ∀ own ∈ owns, axis.Carries r (a :: above) own)
    (apart : (owns.map Prod.fst).Pairwise Attribute.Apart) :
    Form.ValidTag scope (a.spelling above).name
      (r.declarations axis a.number (a.spelling above)).1 (owns.map Attribute.item) := by
  have sorted := r.sorted_declarations axis a.number (a.spelling above)
  constructor
  · exact ⟨stage.validPrefix checked, (stage.sound a List.mem_cons_self).localName⟩
  · exact (stage.elementPrefix names).2
  · exact (stage.elementUri free names checked).1
  · exact fun b member => stage.validBinding member
  · -- Declarations are sorted by their prefixes, so that these are all different.
    refine sorted.imp ?_
    intro b c less same
    rw [same] at less
    exact String.lt_irrefl _ less
  · intro i member
    obtain ⟨own, inOwns, rfl⟩ := List.mem_map.mp member
    exact stage.validAttribute free (carries own inOwns)
  · have read := stage.resolve_items free carries
    simp only [inside] at read
    rw [read]
    exact apart

end Stage

end CanonicalXml
