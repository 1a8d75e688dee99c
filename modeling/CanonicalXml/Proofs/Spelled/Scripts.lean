import CanonicalXml.Proofs.Spelled.Forms
import Mathlib.Data.List.Basic

/-! # Scripts

A script is content as it is written, like a form, but with declarations and attributes in any
order on its tags and with their names as they are spelled.

* `Item.bindings`, `Item.plain` — the items of a tag as the reader of documents takes them.
* `Script.spell`, `Script.tree` — the characters of a script, and the content that a reader makes
  of it.
* `Script.Valid` — what a script has to satisfy for that.
* `Form.script` — a form is a script that puts declarations first.
-/

namespace CanonicalXml

/-! ## Items -/

/-- The prefix that an attribute of this name declares to the reader of documents, empty for the
default namespace. -/
def QName.declaredPrefix? (name : QName) : Option String :=
  if name.nsPrefix = xmlnsPrefix then some name.localName
  else if name.localName = xmlnsPrefix then some ""
  else none

namespace Item

/-- The binding that an item makes.  The prefix `xml` is bound already. -/
def binding? (i : Item) : Option Binding :=
  (i.name.declaredPrefix?.filter (· ≠ xmlPrefix)).map (⟨·, i.value⟩)

/-- The bindings that the items of a tag make. -/
def bindings (items : List Item) : List Binding :=
  items.filterMap binding?

/-- The items of a tag that declare nothing. -/
def plain (items : List Item) : List Item :=
  items.filter (·.name.declaredPrefix?.isNone)

/-- An item that declares a prefix. -/
theorem binding?_of_declaredPrefix {i : Item} {p : String}
    (declared : i.name.declaredPrefix? = some p) (notXml : p ≠ xmlPrefix) :
    i.binding? = some ⟨p, i.value⟩ := by
  simp [binding?, declared, notXml]

theorem binding?_of_xml {i : Item} (declared : i.name.declaredPrefix? = some xmlPrefix) :
    i.binding? = none := by
  simp [binding?, declared]

theorem binding?_of_plain {i : Item} (plain : i.name.declaredPrefix? = none) :
    i.binding? = none := by
  simp [binding?, plain]

theorem bindings_cons (i : Item) (items : List Item) :
    bindings (i :: items) = i.binding?.toList ++ bindings items := by
  cases made : i.binding? <;> simp [bindings, made]

theorem plain_cons (i : Item) (items : List Item) :
    plain (i :: items) = (if i.name.declaredPrefix?.isNone then [i] else []) ++ plain items := by
  simp only [plain]
  rw [List.filter_cons]
  split <;> rfl

end Item

/-- No prefix is declared twice. A reader lets the default namespace pass. -/
def Binding.Distinct (declarations : List Binding) : Prop :=
  declarations.Pairwise fun b c => c.nsPrefix ≠ "" → b.nsPrefix ≠ c.nsPrefix

theorem Binding.Distinct.concat {declarations : List Binding} (distinct : Distinct declarations)
    {b : Binding} (fresh : ∀ c ∈ declarations, b.nsPrefix ≠ "" → c.nsPrefix ≠ b.nsPrefix) :
    Distinct (declarations ++ [b]) :=
  List.pairwise_append.mpr ⟨distinct, List.pairwise_singleton _ _, fun c member _ last =>
    List.mem_singleton.mp last ▸ fresh c member⟩

/-- The name can be resolved. -/
def Scope.Binds (scope : Scope) (name : QName) : Prop :=
  name.nsPrefix = "" ∨ scope.uri? name.nsPrefix ≠ none

/-- The element of a start tag whose spelling is not known yet. -/
def Item.element (outer : Scope) (name : QName) (items : List Item) : Element :=
  let scope := Scope.extend (bindings items) outer
  ⟨scope.uri? name.nsPrefix, name.localName, (plain items).map (Form.resolve scope), scope, none⟩

/-! ## Scripts -/

/-- Content as it is written, with spelled names. -/
inductive Script where
  | nil
  | text (value : String) (next : Script)
  | remark (r : Remark) (next : Script)
  | element (name : QName) (items : List SpelledItem) (inner next : Script)

namespace Script

/-- The items without their spelling. -/
abbrev itemsOf (items : List SpelledItem) : List Item :=
  items.map SpelledItem.item

/-- What follows the angle bracket of an element: its start tag, its content, and its end tag. -/
def elementText (name : QName) (items : List SpelledItem) (inner rest : List Char) : List Char :=
  name.text.toList ++ (SpelledItem.spell items ++
    '>' :: (inner ++ '<' :: '/' :: (name.text.toList ++ '>' :: rest)))

/-- The characters of a script. -/
def spell : Script → List Char
  | nil => []
  | text value next => (escapeText value).toList ++ next.spell
  | remark r next => '<' :: (r.body ++ next.spell)
  | element name items inner next => '<' :: elementText name items inner.spell next.spell

/-- The element of a start tag. -/
def elementOf (outer : Scope) (name : QName) (items : List SpelledItem) : Element :=
  { Item.element outer name (itemsOf items) with
    tag := some ⟨name.text, items.map SpelledItem.raw⟩ }

/-- The scope inside of an element. -/
abbrev scopeOf (outer : Scope) (items : List SpelledItem) : Scope :=
  Scope.extend (Item.bindings (itemsOf items)) outer

/-- The content of a script with some text before it.  Adjacent texts become one. -/
def tree (scope : Scope) : String → Script → Content
  | value, nil => Form.before value .nil
  | value, text more next => tree scope (value ++ more) next
  | value, remark r next => Form.before value (.leaf r.leaf (tree scope "" next))
  | value, element name items inner next =>
    Form.before value (.element (elementOf scope name items)
      (tree (scopeOf scope items) "" inner) (tree scope "" next))

/-- A start tag that can be written inside of the scope `outer`. -/
structure ValidTag (outer : Scope) (name : QName) (items : List SpelledItem) : Prop where
  wellNamed : name.Valid
  notXmlns : name.nsPrefix ≠ xmlnsPrefix
  bound : (scopeOf outer items).Binds name
  writable : ∀ s ∈ items, s.Valid
  /-- The reserved namespaces and the reserved prefix are not bound. -/
  notXml : ∀ s ∈ items, s.item.name.declaredPrefix? ≠ some xmlPrefix
  unreserved : ∀ b ∈ Item.bindings (itemsOf items), b.uri ≠ xmlNamespace ∧ b.uri ≠ xmlnsNamespace
  distinct : Binding.Distinct (Item.bindings (itemsOf items))
  attributed : ∀ i ∈ Item.plain (itemsOf items),
    i.name.nsPrefix = xmlPrefix ∨ (scopeOf outer items).Binds i.name
  named : ((Item.plain (itemsOf items)).map (Form.resolve (scopeOf outer items))).Pairwise
    fun a b => ¬ (a.nsUri? = b.nsUri? ∧ a.localName = b.localName)

/-- A script that can be written inside of a scope. -/
def Valid : Scope → Script → Prop
  | _, nil => True
  | scope, text value next => (∀ c ∈ value.toList, Chars.isXml c = true) ∧ Valid scope next
  | scope, remark r next => r.Valid ∧ Valid scope next
  | scope, element name items inner next =>
    ValidTag scope name items ∧ Valid (scopeOf scope items) inner ∧ Valid scope next

end Script

/-! ## Forms as scripts -/

namespace Form

variable {outer : Scope} {name : QName} {declarations : List Binding} {attributes : List Item}

/-- The items of a start tag, as they are spelled. -/
def spelledItems (declarations : List Binding) (attributes : List Item) : List SpelledItem :=
  (items declarations attributes).map Item.spelled

/-- A form puts declarations first. -/
def script : Form → Script
  | nil => .nil
  | text value next => .text value next.script
  | remark r next => .remark r next.script
  | element name declarations attributes inner next =>
    .element name (spelledItems declarations attributes) inner.script next.script

theorem ValidBinding.declares {b : Binding} (valid : ValidBinding b) :
    b.item.name.declaredPrefix? = some b.nsPrefix ∧ b.item.binding? = some b := by
  have declared : b.item.name.declaredPrefix? = some b.nsPrefix := by
    simp only [Binding.item]
    by_cases default : b.nsPrefix = ""
    · rw [if_pos default, default]
      decide
    · rw [if_neg default, QName.declaredPrefix?, if_pos rfl]
  exact ⟨declared, Item.binding?_of_declaredPrefix declared valid.notXml⟩

theorem ValidAttribute.plain {scope : Scope} {i : Item} (valid : ValidAttribute scope i) :
    i.name.declaredPrefix? = none := by
  rw [QName.declaredPrefix?, if_neg valid.notDeclaration.1, if_neg valid.notDeclaration.2]

namespace ValidTag

variable (valid : ValidTag outer name declarations attributes)
include valid

theorem itemsOf_spelled :
    Script.itemsOf (spelledItems declarations attributes) = Form.items declarations attributes := by
  show (spelledItems declarations attributes).map SpelledItem.item = _
  rw [spelledItems, List.map_map]
  exact (List.map_congr_left fun i member => (valid.items i member).item_spelled).trans
    (List.map_id' _)

theorem bindings_items : Item.bindings (Form.items declarations attributes) = declarations := by
  have declared : (declarations.map Binding.item).filterMap Item.binding? = declarations := by
    rw [List.filterMap_map]
    exact (List.filterMap_congr fun b member => (valid.declared b member).declares.2).trans
      List.filterMap_some
  have attributed : attributes.filterMap Item.binding? = [] := by
    rw [List.filterMap_eq_nil_iff]
    exact fun i member => Item.binding?_of_plain (valid.attributed i member).plain
  rw [Item.bindings, Form.items, List.filterMap_append, declared, attributed, List.append_nil]

theorem plain_items : Item.plain (Form.items declarations attributes) = attributes := by
  have declared : (declarations.map Binding.item).filter
      (·.name.declaredPrefix?.isNone) = [] := by
    rw [List.filter_eq_nil_iff]
    intro i member
    obtain ⟨b, inDeclarations, rfl⟩ := List.mem_map.mp member
    rw [(valid.declared b inDeclarations).declares.1]
    exact Bool.false_ne_true
  have attributed : attributes.filter (·.name.declaredPrefix?.isNone) = attributes := by
    rw [List.filter_eq_self]
    intro i member
    rw [(valid.attributed i member).plain]
    rfl
  rw [Item.plain, Form.items, List.filter_append, declared, attributed, List.nil_append]

theorem scopeOf_spelled :
    Script.scopeOf outer (spelledItems declarations attributes) =
      Scope.extend declarations outer := by
  show Scope.extend (Item.bindings (Script.itemsOf _)) outer = _
  rw [valid.itemsOf_spelled, valid.bindings_items]

theorem elementOf_spelled :
    Script.elementOf outer name (spelledItems declarations attributes) =
      elementOf outer name declarations attributes := by
  have raws : (spelledItems declarations attributes).map SpelledItem.raw =
      (Form.items declarations attributes).map Item.raw := by
    rw [spelledItems, List.map_map]
    rfl
  rw [Script.elementOf, valid.itemsOf_spelled, raws, Item.element, valid.bindings_items,
    valid.plain_items]
  rfl

theorem script : Script.ValidTag outer name (spelledItems declarations attributes) := by
  have bindings := valid.bindings_items
  have plain := valid.plain_items
  have scope := valid.scopeOf_spelled
  have itemsOf := valid.itemsOf_spelled
  refine ⟨valid.wellNamed, valid.notXmlns, ?_, ?_, ?_, ?_, ?_, ?_, ?_⟩
  · rw [scope]
    exact valid.bound
  · intro s member
    obtain ⟨i, inItems, rfl⟩ := List.mem_map.mp member
    exact (valid.items i inItems).spelled
  · intro s member xml
    obtain ⟨i, inItems, rfl⟩ := List.mem_map.mp member
    rw [(valid.items i inItems).item_spelled] at xml
    rcases List.mem_append.mp inItems with declared | attributed
    · obtain ⟨b, inDeclarations, rfl⟩ := List.mem_map.mp declared
      rw [(valid.declared b inDeclarations).declares.1] at xml
      exact (valid.declared b inDeclarations).notXml (Option.some.inj xml)
    · rw [(valid.attributed i attributed).plain] at xml
      cases xml
  · rw [itemsOf, bindings]
    exact fun b member =>
      ⟨(valid.declared b member).notXmlUri, (valid.declared b member).notXmlnsUri⟩
  · rw [itemsOf, bindings]
    refine valid.distinct.imp ?_
    exact fun different _ => different
  · rw [itemsOf, plain, scope]
    intro i member
    rcases (valid.attributed i member).bound with unprefixed | xml | bound
    · exact .inr (.inl unprefixed)
    · exact .inl xml
    · exact .inr (.inr bound)
  · rw [itemsOf, plain, scope]
    exact valid.named

end ValidTag

theorem spell_script (f : Form) : f.script.spell = f.spell := by
  induction f with
  | nil => rfl
  | text value next ih => rw [script, Script.spell, spell, ih]
  | remark r next ih => rw [script, Script.spell, spell, ih]
  | element name declarations attributes inner next ihInner ihNext =>
    rw [script, Script.spell, spell, Script.elementText, spelledItems,
      SpelledItem.spell_spelled, ihInner, ihNext]
    rfl

theorem tree_script {f : Form} : ∀ {scope : Scope} (value : String), f.Valid scope →
    f.script.tree scope value = f.tree scope value := by
  induction f with
  | nil => exact fun _ _ => rfl
  | text more next ih => exact fun value valid => ih (value ++ more) valid.2
  | remark r next ih =>
    intro scope value valid
    rw [script, Script.tree, tree, ih "" valid.2]
  | element name declarations attributes inner next ihInner ihNext =>
    intro scope value valid
    obtain ⟨validTag, validInner, validNext⟩ := valid
    rw [script, Script.tree, tree, validTag.elementOf_spelled, validTag.scopeOf_spelled,
      ihInner "" validInner, ihNext "" validNext]

theorem Valid.script {f : Form} : ∀ {scope : Scope}, f.Valid scope → f.script.Valid scope := by
  induction f with
  | nil => exact fun _ => trivial
  | text more next ih => exact fun valid => ⟨valid.1, ih valid.2⟩
  | remark r next ih => exact fun valid => ⟨valid.1, ih valid.2⟩
  | element name declarations attributes inner next ihInner ihNext =>
    intro scope valid
    obtain ⟨validTag, validInner, validNext⟩ := valid
    refine ⟨validTag.script, ?_, ihNext validNext⟩
    rw [validTag.scopeOf_spelled]
    exact ihInner validInner

end Form

end CanonicalXml
