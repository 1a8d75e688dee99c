import CanonicalXml.Proofs.Comparison.Tags
import CanonicalXml.Proofs.Readback.Scopes

/-! # Start tags that were read from forms

A start tag that was read from a form shows all of its items, so that a second walk spells it as it
stands.

* `Binding.declaredPrefix?_item`, `Form.ValidAttribute.declaredPrefix?` — declarations are told from
  attributes.
* `Form.ValidTag.shows` — the tag shows the attributes of its element.
* `Form.spelling_elementOf` — the spelling of an element that was read from a form.
-/

namespace CanonicalXml

/-! ## Items -/

theorem QName.Valid.split_text {name : QName} (valid : name.Valid) :
    QName.split name.text =
      (if name.nsPrefix = "" then none else some name.nsPrefix, name.localName) := by
  simp only [QName.split]
  rw [valid.splitChars]
  by_cases unprefixed : name.nsPrefix = ""
  · simp [unprefixed]
  · simp [unprefixed]

/-- Only the name of a default declaration is spelled like that. -/
theorem QName.Valid.text_eq_xmlns {name : QName} (valid : name.Valid)
    (same : name.text = xmlnsPrefix) : name.nsPrefix = "" ∧ name.localName = xmlnsPrefix := by
  have parts := valid.split_text
  rw [same, show QName.split xmlnsPrefix = (none, xmlnsPrefix) by decide] at parts
  obtain ⟨before, after⟩ := Prod.mk.inj parts
  refine ⟨?_, after.symm⟩
  split at before
  · assumption
  · cases before

theorem Binding.declaredPrefix?_item (b : Binding) :
    b.item.raw.declaredPrefix? = some b.nsPrefix := by
  rw [RawAttribute.declaredPrefix?_eq_some]
  by_cases default : b.nsPrefix = ""
  · have name : b.item.name = ⟨"", xmlnsPrefix⟩ := if_pos default
    rw [default]
    exact .default (by rw [Item.raw, name, QName.text_unprefixed])
  · have name : b.item.name = ⟨xmlnsPrefix, b.nsPrefix⟩ := if_neg default
    exact .named (by rw [Item.raw, name, QName.text_prefixed (by decide)])

namespace Form

theorem ValidAttribute.declaredPrefix? {scope : Scope} {i : Item}
    (valid : ValidAttribute scope i) : i.raw.declaredPrefix? = none := by
  obtain ⟨notXmlns, notDefault⟩ := valid.notDeclaration
  have other : i.raw.qname ≠ xmlnsPrefix :=
    fun same => notDefault (valid.item.name.text_eq_xmlns same).2
  simp only [RawAttribute.declaredPrefix?]
  rw [if_neg other, show QName.split i.raw.qname = _ from valid.item.name.split_text]
  by_cases unprefixed : i.name.nsPrefix = ""
  · rw [if_pos unprefixed]
  · rw [if_neg unprefixed]
    exact if_neg notXmlns

/-! ## Elements -/

/-- The start tag of a form, as it is spelled. -/
def startTag (name : QName) (declarations : List Binding) (attributes : List Item) : StartTag :=
  ⟨name.text, (items declarations attributes).map Item.raw⟩

/-- The element of a start tag, at a place. -/
abbrev ancestorOf (outer : Scope) (name : QName) (declarations : List Binding)
    (attributes : List Item) (number : Nat) : Ancestor :=
  ⟨number, elementOf outer name declarations attributes⟩

/-- The attribute that an item stands for, with its prefix. -/
def own (scope : Scope) (i : Item) : Attribute × String :=
  (resolve scope i, i.name.nsPrefix)

variable {outer : Scope} {name : QName} {declarations : List Binding} {attributes : List Item}

/-- The declarations of the tag are those of the form. -/
theorem ValidTag.declared_startTag (valid : ValidTag outer name declarations attributes) :
    (startTag name declarations attributes).declarations.map Prod.fst =
      declarations.map (·.nsPrefix) := by
  have bindings : ∀ b ∈ declarations,
      ((·.declaredPrefix?) ∘ Item.raw ∘ Binding.item) b = some b.nsPrefix := by
    intro b member
    simp only [Function.comp_apply]
    exact b.declaredPrefix?_item
  have others : ∀ i ∈ attributes, ((·.declaredPrefix?) ∘ Item.raw) i = none := by
    intro i member
    simp only [Function.comp_apply]
    exact (valid.attributed i member).declaredPrefix?
  have prefixes (raws : List RawAttribute) :
      (StartTag.declarations ⟨name.text, raws⟩).map Prod.fst =
        raws.filterMap (·.declaredPrefix?) := by
    simp only [StartTag.declarations]
    rw [List.map_filterMap]
    simp [Function.comp_def]
  rw [startTag, prefixes, Form.items, List.map_append, List.filterMap_append, List.map_map,
    List.filterMap_map, List.filterMap_map, List.filterMap_eq_nil_iff.mpr others, List.append_nil]
  exact (List.filterMap_congr bindings).trans (congrFun List.filterMap_eq_map' _)

theorem ValidTag.plain_startTag (valid : ValidTag outer name declarations attributes) :
    (startTag name declarations attributes).plain = attributes.map Item.raw := by
  have bindings : ∀ raw ∈ (declarations.map Binding.item).map Item.raw,
      ¬ (!raw.isDeclaration) = true := by
    intro raw member
    obtain ⟨i, inItems, rfl⟩ := List.mem_map.mp member
    obtain ⟨b, declared, rfl⟩ := List.mem_map.mp inItems
    simp only [RawAttribute.isDeclaration]
    rw [b.declaredPrefix?_item]
    exact Bool.false_ne_true
  have others : ∀ raw ∈ attributes.map Item.raw, (!raw.isDeclaration) = true := by
    intro raw member
    obtain ⟨i, inItems, rfl⟩ := List.mem_map.mp member
    simp only [RawAttribute.isDeclaration]
    rw [(valid.attributed i inItems).declaredPrefix?]
    rfl
  simp only [StartTag.plain, startTag, Form.items]
  rw [List.map_append, List.filter_append, List.filter_eq_nil_iff.mpr bindings,
    List.filter_eq_self.mpr others, List.nil_append]

theorem ValidTag.shows (valid : ValidTag outer name declarations attributes) :
    (elementOf outer name declarations attributes).Shows
      (startTag name declarations attributes) := by
  refine ⟨rfl, ?_⟩
  show _ = (attributes.map (resolve (Scope.extend declarations outer))).map (·.localName)
  rw [valid.plain_startTag, List.map_map, List.map_map]
  refine List.map_congr_left fun i member => ?_
  show (QName.ofText i.name.text).localName = i.name.localName
  rw [(valid.attributed i member).item.name.ofText_text]

end Form

theorem Scope.uri?_of_mem {scope : Scope}
    (distinct : scope.Pairwise (·.nsPrefix ≠ ·.nsPrefix)) {b : Binding} (member : b ∈ scope) :
    scope.uri? b.nsPrefix = some b.uri :=
  congrArg (Option.map Binding.uri) (Binding.find?_of_distinct distinct member)

/-- A second walk spells an element as it stands in the form. -/
theorem Form.spelling_elementOf {outer : Scope} {name : QName} {declarations : List Binding}
    {attributes : List Item} (valid : ValidTag outer name declarations attributes)
    (around : Scope) : Spelling.of around (elementOf outer name declarations attributes) =
      ⟨name, declarations, attributes.map (·.name.nsPrefix)⟩ := by
  let scope := Scope.extend declarations outer
  have bound : ∀ b ∈ declarations,
      (⟨b.nsPrefix, (scope.uri? b.nsPrefix).getD ""⟩ : Binding) = b := by
    intro b member
    -- The declarations of the form come first in the scope of the element.
    rw [Scope.uri?_extend, Scope.uri?_of_mem valid.distinct member]
    rfl
  have declared : (startTag name declarations attributes).declarations.map
      (fun d => (⟨d.1, (scope.uri? d.1).getD ""⟩ : Binding)) = declarations := calc
    _ = ((startTag name declarations attributes).declarations.map Prod.fst).map
          fun p => ⟨p, (scope.uri? p).getD ""⟩ := by
        rw [List.map_map]
        rfl
    _ = declarations.map fun b => ⟨b.nsPrefix, (scope.uri? b.nsPrefix).getD ""⟩ := by
        rw [valid.declared_startTag, List.map_map]
        rfl
    _ = declarations := (List.map_congr_left bound).trans (List.map_id _)
  have spelledName := valid.shows.name_eq around
  have spelledDeclarations := (valid.shows.declarations_eq around).trans declared
  have spelledPrefixes := valid.shows.attributePrefixes_eq around
  have prefixes : (startTag name declarations attributes).attributePrefixes =
      attributes.map (·.name.nsPrefix) := by
    rw [StartTag.attributePrefixes, valid.plain_startTag, List.map_map]
    refine List.map_congr_left fun i member => ?_
    show (QName.ofText i.name.text).nsPrefix = i.name.nsPrefix
    rw [(valid.attributed i member).item.name.ofText_text]
  have named : (startTag name declarations attributes).name = name :=
    valid.wellNamed.ofText_text
  rw [named] at spelledName
  rw [prefixes] at spelledPrefixes
  calc Spelling.of around (elementOf outer name declarations attributes)
      = ⟨(Spelling.of around (elementOf outer name declarations attributes)).name,
          (Spelling.of around (elementOf outer name declarations attributes)).declarations,
          (Spelling.of around (elementOf outer name declarations attributes)).attributePrefixes⟩ :=
        rfl
    _ = ⟨name, declarations, attributes.map (·.name.nsPrefix)⟩ := by
        rw [spelledName, spelledDeclarations, spelledPrefixes]
        rfl

theorem Form.spelling_ancestorOf {outer : Scope} {name : QName} {declarations : List Binding}
    {attributes : List Item} (valid : ValidTag outer name declarations attributes) (number : Nat)
    (above : List Ancestor) :
    (ancestorOf outer name declarations attributes number).spelling above =
      ⟨name, declarations, attributes.map (·.name.nsPrefix)⟩ :=
  spelling_elementOf valid (Ancestor.scope above)

end CanonicalXml
