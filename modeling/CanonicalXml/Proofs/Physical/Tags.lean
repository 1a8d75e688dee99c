import CanonicalXml.Physical
import CanonicalXml.Proofs.FixedPoint.Spelling
import CanonicalXml.Proofs.Physical.Names

/-! # Start tags that are written as they were

The physical form writes the items of a start tag in the order of its spelling, each with the value
that the tree has. So a tag is an interleaving of declarations and attributes, and what a reader
makes of it does not depend on how they are interleaved.

* `Physical.parts` — the items as they are written.
* `Physical.Interleaves` — declarations and attributes in some order.
* `Element.Stems.interleaves` — the items of an element are its declarations and its attributes.
* `Element.Stems.map_qname_parts` — they have the names that they have on the tag.
-/

namespace CanonicalXml

/-- The text of an item, with the space before it. -/
def SpelledItem.write (s : SpelledItem) : String :=
  Physical.writeAttribute s.qname s.value

theorem SpelledItem.toList_write (s : SpelledItem) : s.write.toList = ' ' :: s.body := by
  simp [write, Physical.writeAttribute, WrittenAttribute.write, body]

theorem Binding.write_item (b : Binding) : b.item.spelled.write = b.write := by
  by_cases default : b.nsPrefix = ""
  · simp [SpelledItem.write, Physical.writeAttribute, WrittenAttribute.write, Binding.write,
      Item.spelled, Binding.item, default]
  · simp [SpelledItem.write, Physical.writeAttribute, WrittenAttribute.write, Binding.write,
      Item.spelled, Binding.item, default, QName.text_prefixed (show xmlnsPrefix ≠ "" by decide)]

theorem Binding.declaredPrefix?_spelled (b : Binding) :
    b.item.spelled.raw.declaredPrefix? = some b.nsPrefix :=
  b.declaredPrefix?_item

namespace Physical

/-- The items of a start tag whose spelling is known. -/
def spelledParts (scope : Scope) : List RawAttribute → List Attribute → List SpelledItem
  | [], _ => []
  | raw :: spelled, attributes =>
    match raw.declaredPrefix?, attributes with
    | some p, _ =>
      (Binding.mk p ((scope.uri? p).getD "")).item.spelled :: spelledParts scope spelled attributes
    | none, [] => ⟨raw.qname, ""⟩ :: spelledParts scope spelled []
    | none, a :: rest => ⟨raw.qname, a.value⟩ :: spelledParts scope spelled rest

section Parts

variable {scope : Scope} {raw : RawAttribute} {spelled : List RawAttribute}

theorem spelledParts_declares {p : String} (declared : raw.declaredPrefix? = some p)
    (attributes : List Attribute) : spelledParts scope (raw :: spelled) attributes =
      (Binding.mk p ((scope.uri? p).getD "")).item.spelled ::
        spelledParts scope spelled attributes := by
  conv => lhs; unfold spelledParts
  rw [declared]

theorem spelledParts_carries (plain : raw.declaredPrefix? = none) (a : Attribute)
    (attributes : List Attribute) : spelledParts scope (raw :: spelled) (a :: attributes) =
      ⟨raw.qname, a.value⟩ :: spelledParts scope spelled attributes := by
  conv => lhs; unfold spelledParts
  rw [plain]

end Parts

/-- The items of a start tag whose spelling is not known. -/
def inferredParts (e : Element) (names : Spelling) : List SpelledItem :=
  names.declarations.map (·.item.spelled) ++
    (e.attributes.zip names.attributePrefixes).map fun own => (Attribute.item own).spelled

/-- The items of a start tag. -/
def parts (e : Element) (names : Spelling) : List SpelledItem :=
  match e.tag with
  | some tag =>
    if tag.plain.length = e.attributes.length then spelledParts e.scope tag.attributes e.attributes
    else inferredParts e names
  | none => inferredParts e names

theorem spelledItems_eq (scope : Scope) (raws : List RawAttribute) :
    ∀ attributes, spelledItems scope raws attributes =
      (spelledParts scope raws attributes).map SpelledItem.write := by
  induction raws with
  | nil => exact fun _ => rfl
  | cons raw raws ih =>
    intro attributes
    unfold spelledItems spelledParts
    cases raw.declaredPrefix? with
    | some p =>
      dsimp only
      rw [ih, List.map_cons, Binding.write_item]
    | none =>
      cases attributes with
      | nil =>
        dsimp only
        rw [ih, List.map_cons]
        rfl
      | cons a rest =>
        dsimp only
        rw [ih, List.map_cons]
        rfl

theorem inferredItems_eq (e : Element) (names : Spelling) :
    inferredItems e names = (inferredParts e names).map SpelledItem.write := by
  rw [inferredItems, inferredParts, List.map_append, List.map_map, List.map_map]
  refine congrArg₂ (· ++ ·) (List.map_congr_left fun b _ => (Binding.write_item b).symm) ?_
  rfl

/-- The items of a tag are written one after the other. -/
theorem items_eq (e : Element) (names : Spelling) :
    items e names = (parts e names).map SpelledItem.write := by
  simp only [items, parts]
  cases e.tag with
  | none => exact inferredItems_eq e names
  | some tag =>
    dsimp only
    split
    · exact spelledItems_eq _ _ _
    · exact inferredItems_eq e names

theorem toList_items (e : Element) (names : Spelling) :
    (String.join (items e names)).toList = SpelledItem.spell (parts e names) := by
  rw [items_eq, String.toList_join, List.flatMap_map]
  simp only [SpelledItem.toList_write]
  rfl

/-! ## Interleaved items -/

/-- The item is an attribute to both readers of a tag. -/
structure Tells (s : SpelledItem) (own : Attribute × String) : Prop where
  item : s.item = Attribute.item own
  valid : s.Valid
  plain : s.item.name.declaredPrefix? = none
  unspelled : s.raw.declaredPrefix? = none

/-- The items are these declarations and these attributes, in some order. -/
inductive Interleaves : List SpelledItem → List Binding → List (Attribute × String) → Prop where
  | nil : Interleaves [] [] []
  | declares {parts : List SpelledItem} {b : Binding} {declarations : List Binding}
      {owns : List (Attribute × String)} (valid : Form.ValidBinding b)
      (later : Interleaves parts declarations owns) :
      Interleaves (b.item.spelled :: parts) (b :: declarations) owns
  | carries {s : SpelledItem} {parts : List SpelledItem} {declarations : List Binding}
      {own : Attribute × String} {owns : List (Attribute × String)} (tells : Tells s own)
      (later : Interleaves parts declarations owns) :
      Interleaves (s :: parts) declarations (own :: owns)

namespace Interleaves

variable {parts : List SpelledItem} {declarations : List Binding}
  {owns : List (Attribute × String)} (interleaves : Interleaves parts declarations owns)
include interleaves

theorem bindings : Item.bindings (Script.itemsOf parts) = declarations := by
  induction interleaves with
  | nil => rfl
  | @declares parts b declarations owns valid later ih =>
    show Item.bindings (b.item.spelled.item :: Script.itemsOf parts) = _
    rw [valid.item.item_spelled, Item.bindings_cons, valid.declares.2, ih]
    rfl
  | @carries s parts declarations own owns tells later ih =>
    show Item.bindings (s.item :: Script.itemsOf parts) = _
    rw [Item.bindings_cons, Item.binding?_of_plain tells.plain, ih]
    rfl

theorem plainItems : Item.plain (Script.itemsOf parts) = owns.map Attribute.item := by
  induction interleaves with
  | nil => rfl
  | @declares parts b declarations owns valid later ih =>
    show Item.plain (b.item.spelled.item :: Script.itemsOf parts) = _
    rw [valid.item.item_spelled, Item.plain_cons, valid.declares.1, ih]
    rfl
  | @carries s parts declarations own owns tells later ih =>
    show Item.plain (s.item :: Script.itemsOf parts) = _
    rw [Item.plain_cons, tells.plain, ih, List.map_cons, tells.item]
    rfl

theorem writable : ∀ s ∈ parts, s.Valid ∧ s.item.name.declaredPrefix? ≠ some xmlPrefix := by
  induction interleaves with
  | nil => exact List.forall_mem_nil _
  | declares valid later ih =>
    refine List.forall_mem_cons.mpr ⟨⟨valid.item.spelled, fun xml => ?_⟩, ih⟩
    rw [valid.item.item_spelled, valid.declares.1] at xml
    exact valid.notXml (Option.some.inj xml)
  | carries tells later ih =>
    refine List.forall_mem_cons.mpr ⟨⟨tells.valid, fun xml => ?_⟩, ih⟩
    rw [tells.plain] at xml
    cases xml

theorem validBindings : ∀ b ∈ declarations, Form.ValidBinding b := by
  induction interleaves with
  | nil => exact List.forall_mem_nil _
  | declares valid later ih => exact List.forall_mem_cons.mpr ⟨valid, ih⟩
  | carries tells later ih => exact ih

/-- The tolerant reader finds the declarations. -/
theorem declaredPrefixes :
    (parts.map SpelledItem.raw).filterMap (·.declaredPrefix?) = declarations.map (·.nsPrefix) := by
  induction interleaves with
  | nil => rfl
  | declares valid later ih =>
    rw [List.map_cons, List.filterMap_cons_some (Binding.declaredPrefix?_spelled _), ih,
      List.map_cons]
  | carries tells later ih => rw [List.map_cons, List.filterMap_cons_none tells.unspelled, ih]

/-- And it finds the attributes. -/
theorem plainNames :
    ((parts.map SpelledItem.raw).filter (! ·.isDeclaration)).map RawAttribute.name =
      owns.map fun own => (Attribute.item own).name := by
  induction interleaves with
  | nil => rfl
  | @declares parts b declarations owns valid later ih =>
    have declaration : (!b.item.spelled.raw.isDeclaration) = false := by
      rw [RawAttribute.isDeclaration, b.declaredPrefix?_spelled]
      rfl
    rw [List.map_cons, List.filter_cons_of_neg (by rw [declaration]; exact Bool.false_ne_true), ih]
  | @carries s parts declarations own owns tells later ih =>
    have attributed : (!s.raw.isDeclaration) = true := by
      rw [RawAttribute.isDeclaration, tells.unspelled]
      rfl
    have name : s.raw.name = (Attribute.item own).name := by
      rw [← tells.item]
      rfl
    rw [List.map_cons, List.filter_cons_of_pos (by exact attributed), List.map_cons, ih, name,
      List.map_cons]

/-- The items are written once more from their spelling and from the tree. -/
theorem spelledParts_eq {scope : Scope}
    (bound : ∀ b ∈ declarations, scope.uri? b.nsPrefix = some b.uri) :
    spelledParts scope (parts.map SpelledItem.raw) (owns.map Prod.fst) = parts := by
  induction interleaves with
  | nil => rfl
  | @declares parts b declarations owns valid later ih =>
    obtain ⟨here, others⟩ := List.forall_mem_cons.mp bound
    rw [List.map_cons, spelledParts_declares b.declaredPrefix?_spelled, ih others, here]
    rfl
  | @carries s parts declarations own owns tells later ih =>
    have value : own.1.value = s.value := congrArg Item.value tells.item.symm
    rw [List.map_cons, List.map_cons, spelledParts_carries tells.unspelled, ih bound, value]
    rfl

end Interleaves

/-! ## The items of an element -/

theorem interleaves_append {declarations : List Binding} {owns : List (Attribute × String)}
    (valid : ∀ b ∈ declarations, Form.ValidBinding b)
    (tells : ∀ own ∈ owns, Tells (Attribute.item own).spelled own) :
    Interleaves
      (declarations.map (·.item.spelled) ++ owns.map fun own => (Attribute.item own).spelled)
      declarations owns := by
  have attributes : Interleaves (owns.map fun own => (Attribute.item own).spelled) [] owns := by
    induction owns with
    | nil => exact .nil
    | cons own owns ih =>
      obtain ⟨here, later⟩ := List.forall_mem_cons.mp tells
      exact .carries here (ih later)
  induction declarations with
  | nil => exact attributes
  | cons b declarations ih =>
    obtain ⟨here, later⟩ := List.forall_mem_cons.mp valid
    exact .declares here (ih later)

/-- The declaration that is made by an attribute as spelled, with the namespace of the tree. -/
def declaration? (scope : Scope) (raw : RawAttribute) : Option Binding :=
  raw.declaredPrefix?.map fun p => ⟨p, (scope.uri? p).getD ""⟩

/-- Attributes of the tree run parallel to those that are spelled on the tag. -/
theorem interleaves_spelledParts {scope : Scope} {raws : List RawAttribute}
    (readable : ∀ raw ∈ raws, QName.Readable raw.qname)
    (same : ∀ raw ∈ raws, raw.declaredPrefix? = raw.name.declaredPrefix?)
    (valid : ∀ raw ∈ raws, ∀ b ∈ declaration? scope raw, Form.ValidBinding b) :
    ∀ {attributes : List Attribute},
    (raws.filter (! ·.isDeclaration)).map (·.name.localName) = attributes.map (·.localName) →
    (∀ a ∈ attributes, ∀ c ∈ a.value.toList, Chars.isXml c = true) →
    Interleaves (spelledParts scope raws attributes)
      (raws.filterMap (declaration? scope))
      (attributes.zip ((raws.filter (! ·.isDeclaration)).map (·.name.nsPrefix))) := by
  induction raws with
  | nil =>
    intro attributes aligned _
    obtain rfl := List.map_eq_nil_iff.mp aligned.symm
    exact .nil
  | cons raw raws ih =>
    intro attributes aligned admitted
    obtain ⟨readableHere, readableLater⟩ := List.forall_mem_cons.mp readable
    obtain ⟨sameHere, sameLater⟩ := List.forall_mem_cons.mp same
    obtain ⟨validHere, validLater⟩ := List.forall_mem_cons.mp valid
    have ih := @ih readableLater sameLater validLater
    cases declared : raw.declaredPrefix? with
    | some p =>
      -- A declaration leaves all attributes to the items behind it.
      have declaration : ¬ (!raw.isDeclaration) = true := by
        rw [RawAttribute.isDeclaration, declared]
        exact Bool.false_ne_true
      rw [List.filter_cons_of_neg (by exact declaration)] at aligned ⊢
      have made : declaration? scope raw = some ⟨p, (scope.uri? p).getD ""⟩ :=
        congrArg (Option.map _) declared
      rw [spelledParts_declares declared, List.filterMap_cons_some made]
      exact .declares (validHere _ made) (ih aligned admitted)
    | none =>
      -- Any other item takes the first of them.
      have attributed : (!raw.isDeclaration) = true := by
        rw [RawAttribute.isDeclaration, declared]
        rfl
      rw [List.filter_cons_of_pos (by exact attributed)] at aligned ⊢
      have nothing : declaration? scope raw = none := congrArg (Option.map _) declared
      rw [List.filterMap_cons_none nothing]
      cases attributes with
      | nil => cases aligned
      | cons a attributes =>
        rw [spelledParts_carries declared]
        obtain ⟨localName, rest⟩ := List.cons.inj aligned
        obtain ⟨admittedHere, admittedLater⟩ := List.forall_mem_cons.mp admitted
        refine .carries ⟨?_, ⟨readableHere, admittedHere⟩, ?_, declared⟩ (ih rest admittedLater)
        · have named : raw.name.localName = a.localName := localName
          show _ = Item.mk ⟨raw.name.nsPrefix, a.localName⟩ a.value
          rw [← named]
          rfl
        · exact sameHere ▸ declared

end Physical

/-! ## The names of the items -/

/-- A declaration is written under the name that it has on the tag. -/
theorem RawAttribute.text_of_declaredPrefix {raw : RawAttribute} {p : String}
    (readable : QName.Readable raw.qname) (declared : raw.declaredPrefix? = some p)
    (uri : String) : (Binding.mk p uri).item.name.text = raw.qname := by
  rcases RawAttribute.declaredPrefix?_eq_some.mp declared with default | prefixed
  · rw [default]
    rfl
  · -- A readable name has something behind its colon.
    have nonempty : p ≠ "" := by
      rintro rfl
      rw [prefixed] at readable
      exact absurd readable.valid.localName.ne_empty (by decide)
    have name : (Binding.mk p uri).item.name = ⟨xmlnsPrefix, p⟩ := if_neg nonempty
    rw [name, prefixed, QName.text_prefixed (by decide)]

theorem Physical.map_qname_spelledParts (scope : Scope) {raws : List RawAttribute}
    (readable : ∀ raw ∈ raws, QName.Readable raw.qname) : ∀ attributes,
    (spelledParts scope raws attributes).map (·.qname) = raws.map (·.qname) := by
  induction raws with
  | nil => exact fun _ => rfl
  | cons raw raws ih =>
    intro attributes
    obtain ⟨here, later⟩ := List.forall_mem_cons.mp readable
    cases declared : raw.declaredPrefix? with
    | some p =>
      rw [spelledParts_declares declared, List.map_cons, ih later, List.map_cons]
      exact congrArg (· :: _) (raw.text_of_declaredPrefix here declared _)
    | none =>
      cases attributes with
      | nil =>
        unfold spelledParts
        rw [declared]
        dsimp only
        rw [List.map_cons, ih later, List.map_cons]
      | cons a attributes =>
        rw [spelledParts_carries declared, List.map_cons, ih later, List.map_cons]

namespace Element

variable {outer : Scope} {e : Element}

/-- The names of the items on the start tag of an element: in the order of the tag, or with
declarations first where the tag is not known. -/
def itemNames (e : Element) (names : Spelling) : List String :=
  match e.tag with
  | some tag => tag.attributes.map (·.qname)
  | none => names.declarations.map (·.item.name.text) ++
      (e.attributes.zip names.attributePrefixes).map fun own => (Attribute.item own).name.text

/-- A binding that the tree has in scope can be written. -/
theorem Sound.validBinding (sound : e.Sound) (admitted : e.Admitted) {b : Binding}
    (bound : e.scope.uri? b.nsPrefix = some b.uri) : Form.ValidBinding b := by
  have member : b ∈ e.scope := Scope.mem_of_uri? bound
  obtain ⟨nsPrefix, notXml, notXmlUri, notXmlnsUri⟩ := sound.scope b member
  exact ⟨nsPrefix, notXml, notXmlUri, notXmlnsUri, admitted.scope b member⟩

theorem ncName_xml : Markup.NcName xmlPrefix := by decide

/-- An attribute whose prefix fits can be written under its own name. -/
theorem Sound.tells (sound : e.Sound) (admitted : e.Admitted) {own : Attribute × String}
    (member : own.1 ∈ e.attributes) (fits : Attribute.Fits e.scope own) :
    Physical.Tells (Attribute.item own).spelled own := by
  obtain ⟨localName, notXmlns, -⟩ := sound.attributes own.1 member
  have name : (Attribute.item own).name.Valid := by
    rcases fits.bound with xml | bound
    · have reserved : Markup.NcName own.2 := xml ▸ ncName_xml
      exact ⟨.inr reserved, localName⟩
    · exact sound.valid_of_binds bound localName
  have valid : Form.ValidAttribute e.scope (Attribute.item own) := by
    refine ⟨⟨name, admitted.attributes own.1 member⟩, ⟨fits.notXmlns, notXmlns⟩, ?_⟩
    rcases fits.bound with xml | unprefixed | bound
    · exact .inr (.inl xml)
    · exact .inl unprefixed
    · exact .inr (.inr bound)
  refine ⟨valid.item.item_spelled, valid.item.spelled, ?_, valid.declaredPrefix?⟩
  rw [valid.item.item_spelled]
  exact valid.plain

theorem Known.parts_eq {tag : StartTag} {items : List Item} (known : e.Known outer tag items)
    (names : Spelling) :
    Physical.parts e names = Physical.spelledParts e.scope tag.attributes e.attributes := by
  have counted := congrArg List.length known.shows.aligned
  rw [List.length_map, List.length_map] at counted
  rw [Physical.parts, known.known]
  exact if_pos counted

/-- The items that are written for an element are its declarations and its attributes. -/
theorem Stems.interleaves (stems : e.Stems outer) (sound : e.Sound) (admitted : e.Admitted)
    (restorable : e.Restorable outer) :
    Physical.Interleaves (Physical.parts e (Spelling.of outer e))
      (Spelling.of outer e).declarations
      (e.attributes.zip (Spelling.of outer e).attributePrefixes) := by
  have fits := stems.fits sound restorable
  have valid : ∀ b ∈ (Spelling.of outer e).declarations, Form.ValidBinding b :=
    fun b member => sound.validBinding admitted (fits.declared b member)
  cases shown : e.tag with
  | none =>
    rw [Physical.parts, shown]
    refine Physical.interleaves_append valid fun own member => ?_
    exact sound.tells admitted (List.of_mem_zip member).1 (fits.attributes own member)
  | some tag =>
    obtain ⟨items, known⟩ := stems.known shown (restorable.declares tag shown)
    have declarations : (Spelling.of outer e).declarations =
        tag.attributes.filterMap (Physical.declaration? e.scope) := by
      rw [known.shows.declarations_eq, StartTag.declarations, List.map_filterMap]
      refine List.filterMap_congr fun raw _ => ?_
      rw [Option.map_map]
      rfl
    rw [known.shows.attributePrefixes_eq, declarations, known.parts_eq]
    refine Physical.interleaves_spelledParts known.names.readable known.same ?_
      known.shows.aligned admitted.attributes
    intro raw member b declared
    refine valid b ?_
    rw [declarations]
    exact List.mem_filterMap.mpr ⟨raw, member, declared⟩

/-- The items are written under the names that they have on the tag. -/
theorem Stems.map_qname_parts (stems : e.Stems outer) (restorable : e.Restorable outer) :
    (Physical.parts e (Spelling.of outer e)).map (·.qname) =
      e.itemNames (Spelling.of outer e) := by
  cases shown : e.tag with
  | none =>
    rw [Physical.parts, itemNames, shown]
    dsimp only
    rw [Physical.inferredParts, List.map_append, List.map_map, List.map_map]
    rfl
  | some tag =>
    obtain ⟨items, known⟩ := stems.known shown (restorable.declares tag shown)
    rw [known.parts_eq, itemNames, shown]
    exact Physical.map_qname_spelledParts _ known.names.readable _

end Element

end CanonicalXml
