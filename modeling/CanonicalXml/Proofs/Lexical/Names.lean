import CanonicalXml.Proofs.Lexical.Scopes
import CanonicalXml.Proofs.Readback.Tags

/-! # Names as spelled and as parsed

The tree of a document resolves names; their prefixes are found again on the start tags, or told
from what is in scope. Both views agree on every regular element.

* `Spelling.Agrees` — the spelled names of an element mean what the tree says.
* `Document.spelling_agrees` — they do, in every document that was read.
* `Document.spelling_lost` — not so with an attribute that declares the default namespace under
  another name.
-/

namespace CanonicalXml

/-- The spelled names of an element mean what the tree says, given the namespaces that the
declarations of its ancestors and its own have brought into scope. -/
structure Spelling.Agrees (names : Spelling) (axis : NamespaceAxis) (e : Element) : Prop where
  /-- The declarations bind every prefix as the tree does; the empty URI is none. -/
  scope : ∀ p, p ≠ xmlPrefix → axis.uri? p = (e.scope.uri? p).filter (· ≠ "")
  /-- The prefix of the element is bound to its namespace. -/
  element : axis.uri? names.name.nsPrefix = e.nsUri?.filter (· ≠ "")
  /-- An element without namespace has no prefix. -/
  bare : e.nsUri?.filter (· ≠ "") = none → names.name.nsPrefix = ""
  length : names.attributePrefixes.length = e.attributes.length
  /-- An attribute has a prefix if it has a namespace, and the prefix is bound to that. -/
  attributes : ∀ own ∈ e.attributes.zip names.attributePrefixes,
    (own.2 ≠ "" ↔ own.1.nsUri? ≠ none) ∧ ∀ uri ∈ own.1.nsUri?, axis.uri? own.2 = some uri

/-! ## Bindings -/

namespace Scope

variable {scope : Scope} {uri : String}

/-- The first binding of a namespace that some prefix is bound to. -/
theorem exists_find?_uri {p : String} (bound : scope.uri? p = some uri) :
    ∃ b, scope.find? (·.uri = uri) = some b ∧ b ∈ scope ∧ b.uri = uri := by
  have some : (scope.find? (·.uri = uri)).isSome := by
    rw [List.find?_isSome]
    exact ⟨_, mem_of_uri? bound, decide_eq_true rfl⟩
  obtain ⟨b, found⟩ := Option.isSome_iff_exists.mp some
  have same := List.find?_some found
  exact ⟨b, found, List.mem_of_find?_eq_some found, of_decide_eq_true same⟩

theorem prefixOf_of_find? {b : Binding} (found : scope.find? (·.uri = uri) = some b)
    (notXml : uri ≠ xmlNamespace) : scope.prefixOf uri = b.nsPrefix := by
  rw [prefixOf, if_neg notXml, found]
  rfl

/-- The first binding of a namespace holds if no prefix is bound twice. -/
theorem exists_prefixOf (distinct : scope.Pairwise (·.nsPrefix ≠ ·.nsPrefix)) {p : String}
    (bound : scope.uri? p = some uri) (notXml : uri ≠ xmlNamespace) :
    ∃ b, scope.find? (·.uri = uri) = some b ∧ scope.prefixOf uri = b.nsPrefix ∧ b ∈ scope ∧
      b.uri = uri ∧ scope.uri? b.nsPrefix = some uri := by
  obtain ⟨b, found, member, same⟩ := exists_find?_uri bound
  refine ⟨b, found, prefixOf_of_find? found notXml, member, same, ?_⟩
  rw [uri?, Binding.find?_of_distinct distinct member, ← same]
  rfl

end Scope

theorem Spelling.prefixesOf_nil (scope : Scope) (attributes : List Attribute) :
    prefixesOf scope [] attributes = attributes.map (fittingPrefix scope) := by
  induction attributes with
  | nil =>
    simp only [prefixesOf]
    rfl
  | cons a attributes ih =>
    simp only [prefixesOf]
    rw [ih]
    rfl

/-! ## Elements -/

namespace Element

variable {outer : Scope} {e : Element} {axis : NamespaceAxis}

/-- The axis shows what the tree has in scope. -/
structure Shown (axis : NamespaceAxis) (e : Element) : Prop where
  scope : ∀ p, p ≠ xmlPrefix → axis.uri? p = (e.scope.uri? p).filter (· ≠ "")
  sound : e.Sound

theorem Shown.notXml (shown : e.Shown axis) {p uri : String} (bound : e.scope.uri? p = some uri) :
    p ≠ xmlPrefix :=
  (shown.sound.scope _ (Scope.mem_of_uri? bound)).notXml

theorem Shown.uri?_eq (shown : e.Shown axis) {p uri : String} (bound : e.scope.uri? p = some uri)
    (nonempty : uri ≠ "") : axis.uri? p = some uri := by
  rw [shown.scope p (shown.notXml bound), bound, Option.filter_some_pos (by simp [nonempty])]

/-- An attribute of the tree is one of an item, and its namespace is bound. -/
theorem MadeOf.nsUri_bound {name : QName} {items : List Item} (made : e.MadeOf outer name items)
    {a : Attribute} (member : a ∈ e.attributes) {uri : String} (named : a.nsUri? = some uri) :
    uri = xmlNamespace ∨ ∃ p, e.scope.uri? p = some uri := by
  rw [made.attributes] at member
  obtain ⟨i, -, rfl⟩ := List.mem_map.mp member
  simp only [Form.resolve, Form.attributeUri?] at named
  split at named
  · cases named
  split at named
  · cases named
    exact .inl rfl
  · exact .inr ⟨_, named⟩

/-- The attributes of a known tag with their prefixes. -/
theorem Known.zip_attributePrefixes {tag : StartTag} {items : List Item}
    (known : e.Known outer tag items) :
    e.attributes.zip (Spelling.of outer e).attributePrefixes =
      (Item.plain items).map fun i => (Form.resolve e.scope i, i.name.nsPrefix) := by
  have prefixes := congrArg (List.map QName.nsPrefix) known.plain
  rw [List.map_map, List.map_map] at prefixes
  have spelled : (Spelling.of outer e).attributePrefixes =
      (Item.plain items).map (·.name.nsPrefix) := by
    rw [known.shows.attributePrefixes_eq]
    exact prefixes
  rw [spelled, known.made.attributes, List.zip_map']

theorem Known.length_attributePrefixes {tag : StartTag} {items : List Item}
    (known : e.Known outer tag items) :
    (Spelling.of outer e).attributePrefixes.length = e.attributes.length := by
  have lengths := congrArg List.length known.plain
  rw [List.length_map, List.length_map] at lengths
  rw [known.shows.attributePrefixes_eq, known.made.attributes, StartTag.attributePrefixes,
    List.length_map, List.length_map, lengths]

/-- The attributes with their prefixes where the tag is not known. -/
theorem zip_attributePrefixes_of_unknown (unknown : e.tag = none) :
    e.attributes.zip (Spelling.of outer e).attributePrefixes =
      e.attributes.map fun a => (a, Spelling.fittingPrefix e.scope a) := by
  simp only [Spelling.of]
  rw [unknown, Option.map_none, Option.getD_none, Spelling.prefixesOf_nil, ← List.zip_map',
    List.map_id']

theorem length_attributePrefixes_of_unknown (unknown : e.tag = none) :
    (Spelling.of outer e).attributePrefixes.length = e.attributes.length := by
  simp only [Spelling.of]
  rw [unknown, Option.map_none, Option.getD_none, Spelling.prefixesOf_nil, List.length_map]

/-- Where the tag is not known an element without namespace has no prefix, and any other one a
prefix that is bound to its namespace. -/
theorem Stems.elementPrefix_cases (stems : e.Stems outer) (sound : e.Sound)
    (unknown : e.tag = none) (distinct : e.scope.Pairwise (·.nsPrefix ≠ ·.nsPrefix)) :
    (e.nsUri? = none ∧ Spelling.elementPrefix e = "" ∧ e.scope.uri? "" = none) ∨
    ∃ b ∈ e.scope, e.nsUri? = some b.uri ∧ Spelling.elementPrefix e = b.nsPrefix ∧
      e.scope.uri? b.nsPrefix = some b.uri := by
  obtain ⟨_, name, items, _, made, _⟩ := stems
  simp only [Spelling.elementPrefix]
  rw [unknown]
  cases named : e.nsUri? with
  | none =>
    have unbound := made.nsUri.symm.trans named
    have unprefixed : name.nsPrefix = "" := made.bound.resolve_right fun bound => bound unbound
    exact .inl ⟨rfl, rfl, unprefixed ▸ unbound⟩
  | some uri =>
    obtain ⟨b, -, prefixed, member, rfl, bound⟩ := Scope.exists_prefixOf distinct
      (made.nsUri.symm.trans named) (sound.nsUri uri named).1
    exact .inr ⟨b, member, rfl, prefixed, bound⟩

/-- So it is with the prefixes that are found for attributes, but that the namespace of XML has a
prefix of its own. -/
theorem Stems.fittingPrefix_cases (stems : e.Stems outer)
    (distinct : e.scope.Pairwise (·.nsPrefix ≠ ·.nsPrefix)) {a : Attribute}
    (member : a ∈ e.attributes) :
    (a.nsUri? = none ∧ Spelling.fittingPrefix e.scope a = "") ∨
    (a.nsUri? = some xmlNamespace ∧ Spelling.fittingPrefix e.scope a = xmlPrefix) ∨
    ∃ b ∈ e.scope, a.nsUri? = some b.uri ∧ Spelling.fittingPrefix e.scope a = b.nsPrefix ∧
      e.scope.find? (·.uri = b.uri) = some b ∧ e.scope.uri? b.nsPrefix = some b.uri := by
  obtain ⟨_, name, items, _, made, _⟩ := stems
  simp only [Spelling.fittingPrefix]
  cases named : a.nsUri? with
  | none => exact .inl ⟨rfl, rfl⟩
  | some uri =>
    dsimp only
    by_cases xml : uri = xmlNamespace
    · subst xml
      exact .inr (.inl ⟨rfl, if_pos rfl⟩)
    · obtain ⟨p, bound⟩ := (made.nsUri_bound member named).resolve_left xml
      obtain ⟨b, found, prefixed, inScope, rfl, bound⟩ := Scope.exists_prefixOf distinct bound xml
      exact .inr (.inr ⟨b, inScope, rfl, prefixed, found, bound⟩)

variable (shown : e.Shown axis) (regular : e.Regular outer)
include shown regular

/-- A known tag shows the names. -/
theorem Known.agrees {tag : StartTag} {items : List Item} (known : e.Known outer tag items) :
    (Spelling.of outer e).Agrees axis e := by
  have made := known.made
  have name : (Spelling.of outer e).name.nsPrefix = tag.name.nsPrefix := by
    rw [known.shows.name_eq]
  have notXml : tag.name.nsPrefix ≠ xmlPrefix := by
    intro xml
    rcases made.bound with unprefixed | bound
    · rw [xml] at unprefixed
      exact absurd unprefixed (by decide)
    · obtain ⟨uri, found⟩ := Option.ne_none_iff_exists'.mp bound
      exact shown.notXml found xml
  refine ⟨shown.scope, ?_, ?_, known.length_attributePrefixes, ?_⟩
  · rw [name, made.nsUri, shown.scope _ notXml]
  · intro bare
    rw [name]
    rcases made.bound with unprefixed | bound
    · exact unprefixed
    · -- A prefix that is bound to the empty URI is the default one.
      obtain ⟨uri, found⟩ := Option.ne_none_iff_exists'.mp bound
      rw [made.nsUri, found, Option.filter_eq_none_iff] at bare
      have empty : uri = "" := by simpa using bare uri rfl
      exact regular.bound _ (Scope.mem_of_uri? found) empty
  · intro own member
    rw [known.zip_attributePrefixes, List.mem_map] at member
    obtain ⟨i, plain, rfl⟩ := member
    dsimp only [Form.resolve]
    by_cases unprefixed : i.name.nsPrefix = ""
    · rw [Form.attributeUri?, if_pos unprefixed]
      exact ⟨by simp [unprefixed], by simp⟩
    by_cases xml : i.name.nsPrefix = xmlPrefix
    · rw [Form.attributeUri?, if_neg unprefixed, if_pos xml]
      refine ⟨by simp [unprefixed], fun uri same => ?_⟩
      rw [xml, NamespaceAxis.uri?, if_pos rfl]
      exact same
    · obtain ⟨uri, found⟩ := Option.ne_none_iff_exists'.mp
        (((made.attributesBound i plain).resolve_left xml).resolve_left unprefixed)
      have nonempty : uri ≠ "" := fun empty =>
        unprefixed (regular.bound _ (Scope.mem_of_uri? found) empty)
      rw [Form.attributeUri?, if_neg unprefixed, if_neg xml, found]
      refine ⟨by simp [unprefixed], fun uri' same => ?_⟩
      cases same
      exact shown.uri?_eq found nonempty

/-- Where the tag is not known prefixes are found that fit. -/
theorem Stems.agrees_of_unknown (stems : e.Stems outer) (unknown : e.tag = none) :
    (Spelling.of outer e).Agrees axis e := by
  have distinct := (regular.distinct unknown).2
  have element : axis.uri? (Spelling.elementPrefix e) = e.nsUri?.filter (· ≠ "") ∧
      (e.nsUri?.filter (· ≠ "") = none → Spelling.elementPrefix e = "") := by
    rcases stems.elementPrefix_cases shown.sound unknown distinct with
      ⟨named, prefixed, unbound⟩ | ⟨b, member, named, prefixed, bound⟩
    · rw [named, prefixed, shown.scope "" (by decide), unbound]
      exact ⟨rfl, fun _ => rfl⟩
    · rw [named, prefixed, shown.scope _ (shown.notXml bound), bound]
      refine ⟨rfl, fun bare => regular.bound b member ?_⟩
      rw [Option.filter_eq_none_iff] at bare
      simpa using bare b.uri rfl
  refine ⟨shown.scope, element.1, element.2, length_attributePrefixes_of_unknown unknown, ?_⟩
  intro own member
  rw [zip_attributePrefixes_of_unknown unknown] at member
  obtain ⟨a, inElement, rfl⟩ := List.mem_map.mp member
  dsimp only
  rcases stems.fittingPrefix_cases distinct inElement with
    ⟨named, prefixed⟩ | ⟨named, prefixed⟩ | ⟨b, inScope, named, prefixed, found, bound⟩
  · rw [named, prefixed]
    exact ⟨by simp, by simp⟩
  · rw [named, prefixed]
    refine ⟨by simp [xmlPrefix], fun uri same => ?_⟩
    cases same
    rw [NamespaceAxis.uri?, if_pos rfl]
  · have fits : b.nsPrefix ≠ "" := regular.fitting unknown a inElement b.uri named b found
    have nonempty : b.uri ≠ "" := fun empty => fits (regular.bound b inScope empty)
    rw [named, prefixed]
    refine ⟨by simp [fits], fun uri same => ?_⟩
    cases same
    exact shown.uri?_eq bound nonempty

end Element

/-! ## Documents -/

/-- The lexical view of names agrees with the parsed tree: for every element of a document that was
read, the spelled names mean what the tree says, be they taken from the start tag or told from what
is in scope.  No tag may be cut off by the end of an entity's text, and the elements have to be
regular. -/
theorem Document.spelling_agrees {text : String} {options : ReadOptions} {d : Document}
    (parsed : Document.read text options = .ok d) (finishes : Document.FinishesTags text)
    (regular : d.Regular) {loc : Location} (member : loc ∈ d.locations) {e : Element}
    (here : loc.element? = some e) :
    (loc.spelling e).Agrees (Walk.seed (⟨loc.number, e⟩ :: loc.ancestors)) e := by
  have stems := Document.stems_of_read parsed finishes
  have stemsHere := Document.stems_at stems member here
  have regularHere := regular loc member e here
  have stands : Ancestor.Stands d.locations (⟨loc.number, e⟩ :: loc.ancestors) :=
    ⟨⟨loc, member, here, rfl, rfl⟩, Location.stands_of_mem_locations member⟩
  have sound : e.Sound := by
    have found := (Document.sound_of_read parsed).1.allFrom loc member
    obtain ⟨inner, next, same⟩ := Location.here_of_element? here
    rw [same] at found
    exact found.1
  have shown : e.Shown (Walk.seed (⟨loc.number, e⟩ :: loc.ancestors)) := by
    refine ⟨fun p notXml => ?_, sound⟩
    rw [NamespaceAxis.uri?, if_neg notXml, NamespaceAxis.inScopeAt_seed]
    exact Ancestor.inScope?_eq stems regular notXml stands
  cases tag : e.tag with
  | none => exact stemsHere.agrees_of_unknown shown regularHere tag
  | some tag =>
    obtain ⟨items, known⟩ := stemsHere.known tag (regularHere.declares _ tag)
    exact known.agrees shown regularHere

/-- An element that is closed in the text of an entity, so that its tag is not known. -/
theorem Document.spelling_agrees_unread :
    let text := "<!DOCTYPE r [<!ENTITY e '<y q:b=\"2\"/></p:x>'>]>" ++
      "<r xmlns='d' xmlns:q='d'><p:x xmlns:p='u' a='1' p:a='2'>&e;</r>"
    ∃ d loc e, Document.read text = .ok d ∧ Document.FinishesTags text ∧ d.Regular ∧
      loc ∈ d.locations ∧ loc.element? = some e ∧ e.tag = none ∧
      (loc.spelling e).Agrees (Walk.seed (⟨loc.number, e⟩ :: loc.ancestors)) e := by
  intro text
  let d := (Document.read text).toOption.getD ⟨"", .nil⟩
  let loc := (d.locate? 2).getD (.top d.content)
  let scope : Scope := [⟨"p", "u"⟩, ⟨"", "d"⟩, ⟨"q", "d"⟩]
  let e : Element := ⟨some "u", "x", [⟨none, "a", "1"⟩, ⟨some "u", "a", "2"⟩], scope, none⟩
  have parsed : Document.read text = .ok d := by decide +kernel
  have finishes : Document.FinishesTags text := by decide +kernel
  have regular : d.Regular := by decide +kernel
  have member : loc ∈ d.locations := by decide +kernel
  have here : loc.element? = some e := by decide +kernel
  exact ⟨d, loc, e, parsed, finishes, regular, member, here, rfl,
    Document.spelling_agrees parsed finishes regular member here⟩

/-- The tree takes `p:xmlns` for a declaration of the default namespace, and the start tag does
not.  The declaration is lost, and the attribute behind it is compared with the wrong spelling and
gets no prefix. -/
theorem Document.spelling_lost :
    let text := "<r p:xmlns='v' xmlns:p='v' p:a='2'/>"
    ∃ d loc e, Document.read text = .ok d ∧ loc ∈ d.locations ∧ loc.element? = some e ∧
      e.scope.uri? "" = some "v" ∧
      (Walk.seed (⟨loc.number, e⟩ :: loc.ancestors)).uri? "" = none ∧
      e.attributes = [⟨some "v", "a", "2"⟩] ∧ (loc.spelling e).attributePrefixes = [""] ∧
      ¬ (loc.spelling e).Agrees (Walk.seed (⟨loc.number, e⟩ :: loc.ancestors)) e := by
  intro text
  let d := (Document.read text).toOption.getD ⟨"", .nil⟩
  let loc := (d.locate? 1).getD (.top d.content)
  let tag : StartTag := ⟨"r", [⟨"p:xmlns", "v"⟩, ⟨"xmlns:p", "v"⟩, ⟨"p:a", "2"⟩]⟩
  let e : Element :=
    ⟨some "v", "r", [⟨some "v", "a", "2"⟩], [⟨"", "v"⟩, ⟨"p", "v"⟩], some tag⟩
  have bound : e.scope.uri? "" = some "v" := by decide
  have parsed : Document.read text = .ok d ∧ loc ∈ d.locations ∧ loc.element? = some e ∧
      (Walk.seed (⟨loc.number, e⟩ :: loc.ancestors)).uri? "" = none ∧
      (loc.spelling e).attributePrefixes = [""] := by
    decide +kernel
  obtain ⟨read, member, here, unbound, prefixes⟩ := parsed
  refine ⟨d, loc, e, read, member, here, bound, unbound, rfl, prefixes, fun agrees => ?_⟩
  have same := agrees.scope "" (by decide)
  rw [unbound, bound] at same
  exact absurd same (by decide)

end CanonicalXml
