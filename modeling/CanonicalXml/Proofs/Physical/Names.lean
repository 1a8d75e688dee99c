import CanonicalXml.Proofs.Lexical.Names

/-! # Names that can be written

The names under which an element is written mean the same to a reader as they do in the tree. The
declarations turn what is in scope around the element into what is in scope in it, and every prefix
is bound to the namespace that it stands for.

* `Element.Restorable` — an element for which this holds.
* `Spelling.Fits` — what it means.
* `Element.Known.fits`, `Element.Stems.fits_of_unknown` — it holds whether the names are those of
  the start tag or have been found in scope.
-/

namespace CanonicalXml

/-- An element whose start tag can be written so that it is read again.  A declaration of the
reserved prefix is written with an empty value, and an attribute with the local name `xmlns` is
taken for a declaration by the tree and not by the start tag; where the tag is not known, prefixes
are told from the first binding of a namespace, which may be the default one. -/
structure Element.Restorable (outer : Scope) (e : Element) : Prop where
  notXml : ∀ tag ∈ e.tag, ∀ raw ∈ tag.attributes, raw.declaredPrefix? ≠ some xmlPrefix
  declares : ∀ tag ∈ e.tag, ∀ raw ∈ tag.plain, raw.name.localName ≠ xmlnsPrefix
  /-- Where the tag is not known no prefix is bound twice. -/
  distinct : e.tag = none →
    outer.Pairwise (·.nsPrefix ≠ ·.nsPrefix) ∧ e.scope.Pairwise (·.nsPrefix ≠ ·.nsPrefix)
  /-- Where the tag is not known the prefix of declarations is not bound. -/
  notXmlns : e.tag = none → ∀ b ∈ e.scope, b.nsPrefix ≠ xmlnsPrefix
  /-- Where the tag is not known the first binding of an attribute's namespace has a prefix. -/
  fitting : e.tag = none → ∀ a ∈ e.attributes, ∀ uri ∈ a.nsUri?,
    ∀ b ∈ e.scope.find? (·.uri = uri), b.nsPrefix ≠ ""

instance (outer : Scope) (e : Element) : Decidable (e.Restorable outer) :=
  decidable_of_iff (_ ∧ _ ∧ _ ∧ _ ∧ _)
    ⟨fun h => ⟨h.1, h.2.1, h.2.2.1, h.2.2.2.1, h.2.2.2.2⟩,
      fun h => ⟨h.notXml, h.declares, h.distinct, h.notXmlns, h.fitting⟩⟩

/-- The prefix of an attribute stands for its namespace. -/
structure Attribute.Fits (scope : Scope) (own : Attribute × String) : Prop where
  notXmlns : own.2 ≠ xmlnsPrefix
  bound : own.2 = xmlPrefix ∨ scope.Binds (item own).name
  nsUri : Form.attributeUri? scope (item own).name = own.1.nsUri?

/-- The names of an element mean what the tree says. -/
structure Spelling.Fits (names : Spelling) (outer : Scope) (e : Element) : Prop where
  localName : names.name.localName = e.localName
  notXmlns : names.name.nsPrefix ≠ xmlnsPrefix
  bound : e.scope.Binds names.name
  nsUri : e.nsUri? = e.scope.uri? names.name.nsPrefix
  /-- The declarations are those that the tree has in scope, and all others are unchanged. -/
  declared : ∀ b ∈ names.declarations, e.scope.uri? b.nsPrefix = some b.uri
  unchanged : ∀ p, (∀ b ∈ names.declarations, b.nsPrefix ≠ p) → e.scope.uri? p = outer.uri? p
  distinct : Binding.Distinct names.declarations
  length : names.attributePrefixes.length = e.attributes.length
  attributes : ∀ own ∈ e.attributes.zip names.attributePrefixes, Attribute.Fits e.scope own

/-- A reader of the declarations has in scope what the tree has. -/
theorem Spelling.Fits.uri?_extend {names : Spelling} {outer : Scope} {e : Element}
    (fits : names.Fits outer e) {around : Scope} (same : ∀ p, around.uri? p = outer.uri? p)
    (p : String) : (Scope.extend names.declarations around).uri? p = e.scope.uri? p := by
  rw [Scope.uri?_extend, same]
  cases found : Scope.uri? names.declarations p with
  | some uri => exact (fits.declared _ (Scope.mem_of_uri? found)).symm
  | none =>
    rw [Option.none_or]
    refine (fits.unchanged p fun b member named => ?_).symm
    rw [Scope.uri?, Option.map_eq_none_iff, List.find?_eq_none] at found
    exact found b member (decide_eq_true named)

namespace Element

variable {outer : Scope} {e : Element}

/-- A name of an element that its scope binds. -/
theorem Sound.valid_of_binds (sound : e.Sound) {name : QName} (bound : e.scope.Binds name)
    (localName : Markup.NcName name.localName) : name.Valid := by
  refine ⟨?_, localName⟩
  rcases bound with unprefixed | bound
  · exact .inl unprefixed
  · obtain ⟨uri, found⟩ := Option.ne_none_iff_exists'.mp bound
    exact (sound.scope _ (Scope.mem_of_uri? found)).nsPrefix

/-- The reserved prefix is not in scope. -/
theorem Sound.ne_xmlPrefix (sound : e.Sound) {p uri : String} (bound : e.scope.uri? p = some uri) :
    p ≠ xmlPrefix :=
  (sound.scope _ (Scope.mem_of_uri? bound)).notXml

/-! ## Known tags -/

section Known

variable {tag : StartTag} {items : List Item} (known : e.Known outer tag items)
include known

/-- The prefixes that are declared on the tag are those that the tree has bindings of. -/
theorem Known.declaredPrefixes
    (notXml : ∀ raw ∈ tag.attributes, raw.declaredPrefix? ≠ some xmlPrefix) :
    (Spelling.of outer e).declarations.map (·.nsPrefix) =
      (Item.bindings items).map (·.nsPrefix) := by
  have onTag : (Spelling.of outer e).declarations.map (·.nsPrefix) =
      (tag.attributes.map RawAttribute.name).filterMap QName.declaredPrefix? := by
    rw [known.shows.declarations_eq, List.map_map, StartTag.declarations, List.map_filterMap,
      List.filterMap_map]
    refine List.filterMap_congr fun raw member => ?_
    rw [Option.map_map, Function.comp_apply, ← known.same raw member]
    exact Option.map_id'
  rw [onTag, known.names.items, List.filterMap_map, Item.bindings, List.map_filterMap]
  refine List.filterMap_congr fun i member => ?_
  -- An item that declares the reserved prefix would make no binding.
  have reserved : i.name.declaredPrefix? ≠ some xmlPrefix := by
    have named : i.name ∈ tag.attributes.map RawAttribute.name := by
      rw [known.names.items]
      exact List.mem_map_of_mem member
    obtain ⟨raw, onTag, same⟩ := List.mem_map.mp named
    rw [← same, ← known.same raw onTag]
    exact notXml raw onTag
  rw [Item.binding?, Option.map_map, Function.comp_apply]
  cases declared : i.name.declaredPrefix? with
  | none => rfl
  | some p =>
    rw [declared] at reserved
    rw [Option.filter_some_pos (by simpa using fun same => reserved (congrArg some same))]
    rfl

theorem Known.fits (restorable : e.Restorable outer) : (Spelling.of outer e).Fits outer e := by
  have made := known.made
  have name : (Spelling.of outer e).name = tag.name := by
    rw [known.shows.name_eq, made.localName]
  have prefixes := known.declaredPrefixes (restorable.notXml tag known.known)
  have declares {p : String} : (∃ b ∈ (Spelling.of outer e).declarations, b.nsPrefix = p) ↔
      ∃ b ∈ Item.bindings items, b.nsPrefix = p := by
    rw [← List.mem_map, ← List.mem_map, prefixes]
  have bindings (p : String) : e.scope.uri? p =
      (Scope.uri? (Item.bindings items) p).or (outer.uri? p) := by
    rw [made.scope, Scope.uri?_extend]
  constructor
  case localName => rw [name, made.localName]
  case notXmlns => exact name ▸ made.notXmlns
  case bound => exact name ▸ made.bound
  case nsUri => rw [name, made.nsUri]
  case declared =>
    intro b member
    -- What is declared is bound by the tree, and written with the namespace that it has there.
    obtain ⟨c, inItems, same⟩ := declares.mp ⟨b, member, rfl⟩
    have found : (Scope.uri? (Item.bindings items) b.nsPrefix).isSome := by
      rw [Scope.uri?, Option.isSome_map, List.find?_isSome]
      exact ⟨c, inItems, decide_eq_true same⟩
    obtain ⟨uri, found⟩ := Option.isSome_iff_exists.mp found
    rw [known.shows.declarations_eq] at member
    obtain ⟨⟨p, raw⟩, -, rfl⟩ := List.mem_map.mp member
    dsimp only at found ⊢
    rw [bindings, found]
    rfl
  case unchanged =>
    intro p undeclared
    have absent : Scope.uri? (Item.bindings items) p = none := by
      rw [Scope.uri?, Option.map_eq_none_iff, List.find?_eq_none]
      intro b member named
      obtain ⟨c, declared, same⟩ := declares.mpr ⟨b, member, of_decide_eq_true named⟩
      exact undeclared c declared same
    rw [bindings, absent, Option.none_or]
  case distinct =>
    have distinct := made.distinct
    rw [Binding.Distinct, ← List.pairwise_map (f := Binding.nsPrefix)
      (R := fun p q => q ≠ "" → p ≠ q)] at distinct ⊢
    rwa [prefixes]
  case length => exact known.length_attributePrefixes
  case attributes =>
    intro own member
    rw [known.zip_attributePrefixes] at member
    obtain ⟨i, plain, rfl⟩ := List.mem_map.mp member
    have declaresNothing := (List.mem_filter.mp plain).2
    refine ⟨fun xmlns => ?_, made.attributesBound i plain, rfl⟩
    rw [QName.declaredPrefix?, if_pos xmlns] at declaresNothing
    cases declaresNothing

end Known

/-! ## Unknown tags -/

theorem empty_ne_xmlns : "" ≠ xmlnsPrefix := by decide

theorem xml_ne_xmlns : xmlPrefix ≠ xmlnsPrefix := by decide

/-- The declarations that turn one scope into another are bindings of the second one. -/
theorem Stems.uri?_of_mem_scopeChanges (stems : e.Stems outer)
    (distinct : e.scope.Pairwise (·.nsPrefix ≠ ·.nsPrefix)) {b : Binding}
    (changed : b ∈ Spelling.scopeChanges outer e.scope) : e.scope.uri? b.nsPrefix = some b.uri := by
  obtain ⟨_, _, items, _, made, _⟩ := stems
  rcases List.mem_append.mp changed with new | gone
  · rw [Scope.uri?, Binding.find?_of_distinct distinct (List.mem_filter.mp new).1]
    rfl
  · -- A default namespace that is gone has been bound to the empty URI.
    have value := Spelling.uri_of_mem_scopeChanges distinct changed
    split at gone
    · rename_i undeclared
      obtain rfl := List.mem_singleton.mp gone
      rw [Bool.and_eq_true, List.any_eq_true] at undeclared
      obtain ⟨⟨c, inOuter, default⟩, -⟩ := undeclared
      rw [Bool.and_eq_true, String.isEmpty_iff] at default
      have around : outer.uri? "" ≠ none := by
        rw [Scope.uri?, ne_eq, Option.map_eq_none_iff, List.find?_eq_none]
        intro absent
        exact absent c inOuter (decide_eq_true default.1)
      have bound : e.scope.uri? "" ≠ none := by
        rw [made.scope, Scope.uri?_extend]
        intro nothing
        exact around (Option.or_eq_none_iff.mp nothing).2
      obtain ⟨uri, found⟩ := Option.ne_none_iff_exists'.mp bound
      dsimp only at value ⊢
      rw [found] at value ⊢
      exact congrArg some value.symm
    · cases gone

/-- A prefix that is found in scope fits the attribute. -/
theorem Stems.fits_fittingPrefix (stems : e.Stems outer) (sound : e.Sound)
    (restorable : e.Restorable outer) (unknown : e.tag = none) {a : Attribute}
    (member : a ∈ e.attributes) :
    Attribute.Fits e.scope (a, Spelling.fittingPrefix e.scope a) := by
  rcases stems.fittingPrefix_cases (restorable.distinct unknown).2 member with
    ⟨named, prefixed⟩ | ⟨named, prefixed⟩ | ⟨b, inScope, named, prefixed, found, bound⟩
  · rw [prefixed]
    exact ⟨empty_ne_xmlns, .inr (.inl rfl), named.symm⟩
  · rw [prefixed]
    exact ⟨xml_ne_xmlns, .inl rfl, named.symm⟩
  · have fits : b.nsPrefix ≠ "" := restorable.fitting unknown a member b.uri named b found
    rw [prefixed]
    refine ⟨restorable.notXmlns unknown b inScope, .inr (.inr ?_), ?_⟩
    · show e.scope.uri? b.nsPrefix ≠ none
      rw [bound]
      exact nofun
    · show Form.attributeUri? e.scope ⟨b.nsPrefix, a.localName⟩ = a.nsUri?
      rw [Form.attributeUri?, if_neg fits, if_neg (sound.ne_xmlPrefix bound), bound, named]

/-- The prefix that is found for the element itself stands for its namespace. -/
theorem Stems.elementPrefix_of_unknown (stems : e.Stems outer) (sound : e.Sound)
    (restorable : e.Restorable outer) (unknown : e.tag = none) :
    Spelling.elementPrefix e ≠ xmlnsPrefix ∧
      (Spelling.elementPrefix e = "" ∨ e.scope.uri? (Spelling.elementPrefix e) ≠ none) ∧
      e.nsUri? = e.scope.uri? (Spelling.elementPrefix e) := by
  rcases stems.elementPrefix_cases sound unknown (restorable.distinct unknown).2 with
    ⟨named, prefixed, unbound⟩ | ⟨b, member, named, prefixed, bound⟩
  · rw [named, prefixed]
    exact ⟨empty_ne_xmlns, .inl rfl, unbound.symm⟩
  · rw [named, prefixed, bound]
    exact ⟨restorable.notXmlns unknown b member, .inr (Option.some_ne_none _), rfl⟩

/-- Only the default namespace may be declared once more, to take it back. -/
theorem distinct_scopeChanges {inner : Scope}
    (distinct : inner.Pairwise (·.nsPrefix ≠ ·.nsPrefix)) :
    Binding.Distinct (Spelling.scopeChanges outer inner) := by
  have new : Binding.Distinct (inner.filter (! outer.contains ·)) := by
    refine (List.Pairwise.filter _ distinct).imp ?_
    exact fun different _ => different
  refine List.pairwise_append.mpr ⟨new, ?_, ?_⟩
  · split
    · exact List.pairwise_singleton _ _
    · exact .nil
  · intro b _ c gone prefixed
    split at gone
    · exact absurd (List.mem_singleton.mp gone ▸ rfl) prefixed
    · cases gone

theorem Stems.fits_of_unknown (stems : e.Stems outer) (sound : e.Sound)
    (restorable : e.Restorable outer) (unknown : e.tag = none) :
    (Spelling.of outer e).Fits outer e := by
  obtain ⟨outerDistinct, distinct⟩ := restorable.distinct unknown
  obtain ⟨notXmlns, bound, nsUri⟩ := stems.elementPrefix_of_unknown sound restorable unknown
  have declarations : (Spelling.of outer e).declarations = Spelling.scopeChanges outer e.scope := by
    simp only [Spelling.of, Spelling.declarationsOf]
    rw [unknown]
  constructor
  case localName => rfl
  case notXmlns => exact notXmlns
  case bound => exact bound
  case nsUri => exact nsUri
  case declared =>
    rw [declarations]
    exact fun b changed => stems.uri?_of_mem_scopeChanges distinct changed
  case unchanged =>
    rw [declarations]
    intro p undeclared
    obtain ⟨_, _, items, _, made, _⟩ := stems
    have kept : e.scope.uri? p = none → outer.uri? p = none := by
      rw [made.scope, Scope.uri?_extend]
      intro nothing
      exact (Option.or_eq_none_iff.mp nothing).2
    exact Spelling.uri?_of_unchanged outerDistinct kept undeclared
  case distinct =>
    rw [declarations]
    exact distinct_scopeChanges distinct
  case length => exact length_attributePrefixes_of_unknown unknown
  case attributes =>
    intro own member
    rw [zip_attributePrefixes_of_unknown unknown] at member
    obtain ⟨a, inElement, rfl⟩ := List.mem_map.mp member
    exact stems.fits_fittingPrefix sound restorable unknown inElement

/-- The names of an element fit. -/
theorem Stems.fits (stems : e.Stems outer) (sound : e.Sound) (restorable : e.Restorable outer) :
    (Spelling.of outer e).Fits outer e := by
  cases tag : e.tag with
  | none => exact stems.fits_of_unknown sound restorable tag
  | some tag =>
    obtain ⟨items, known⟩ := stems.known tag (restorable.declares _ tag)
    exact known.fits restorable

end Element

end CanonicalXml
