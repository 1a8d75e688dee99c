import CanonicalXml.Proofs.Spelled.Leaves
import CanonicalXml.Proofs.Spelled.Tags

/-! # Forms

A form is content as it is written: text that is to be escaped, data that already is, and tags
with their items in order.

* `Remark` — a comment or an instruction.
* `Form.spell` — the characters of a form.
* `Form.tree` — the content that a reader makes of it, inside of a scope.
* `Form.Valid` — what a form has to satisfy for that.
-/

namespace CanonicalXml

/-- A declaration as it is written. -/
def Binding.item (b : Binding) : Item :=
  ⟨if b.nsPrefix = "" then ⟨"", xmlnsPrefix⟩ else ⟨xmlnsPrefix, b.nsPrefix⟩, b.uri⟩

/-- A comment or an instruction as it is written. -/
inductive Remark where
  | comment (data : String)
  /-- Empty data is not written. -/
  | instruction (target data : String)

namespace Remark

/-- The characters after the angle bracket. -/
def body : Remark → List Char
  | comment data => '!' :: '-' :: '-' :: (data.toList ++ ['-', '-', '>'])
  | instruction target data =>
    '?' :: (target.toList ++ (Markup.instructionData data.toList ++ ['?', '>']))

/-- The leaf that a reader makes of it. -/
def leaf : Remark → Leaf
  | comment data => .comment data
  | instruction target data => .instruction target (if data = "" then none else some data)

/-- A remark that can be written. -/
def Valid : Remark → Prop
  | comment data => Markup.CommentText data.toList
  | instruction target data => Markup.InstructionText target.toList data.toList

/-- The lexeme that is read. -/
def lexeme : Remark → Markup.Lexeme
  | comment data => .comment data.toList
  | instruction target data => .instruction target.toList data.toList

theorem markup?_append {r : Remark} (valid : r.Valid) (stop : Nat) (rest : List Char) :
    Markup.markup? stop (r.body ++ rest) = some (r.lexeme, rest) := by
  cases r with
  | comment data =>
    have spelled : (comment data).body ++ rest =
        '!' :: '-' :: '-' :: (data.toList ++ '-' :: '-' :: '>' :: rest) := by
      simp [body]
    rw [spelled]
    exact Markup.comment?_append valid rest
  | instruction target data =>
    have spelled : (instruction target data).body ++ rest =
        '?' :: (target.toList ++ (Markup.instructionData data.toList ++ '?' :: '>' :: rest)) := by
      simp [body]
    rw [spelled]
    exact Markup.instruction?_append valid rest

theorem levelAfter_lexeme (r : Remark) (level : Nat) : r.lexeme.levelAfter level = level := by
  cases r <;> rfl

end Remark

/-- Content as it is written. -/
inductive Form where
  | nil
  | text (value : String) (next : Form)
  | remark (r : Remark) (next : Form)
  | element (name : QName) (declarations : List Binding) (attributes : List Item)
      (inner next : Form)

namespace Form

/-- The items of a start tag. -/
def items (declarations : List Binding) (attributes : List Item) : List Item :=
  declarations.map Binding.item ++ attributes

/-- What follows the angle bracket of an element: its start tag, its content, and its end tag. -/
def elementText (name : QName) (items : List Item) (inner rest : List Char) : List Char :=
  name.text.toList ++ (Item.spell items ++
    '>' :: (inner ++ '<' :: '/' :: (name.text.toList ++ '>' :: rest)))

/-- The characters of a form. -/
def spell : Form → List Char
  | nil => []
  | text value next => (escapeText value).toList ++ next.spell
  | remark r next => '<' :: (r.body ++ next.spell)
  | element name declarations attributes inner next =>
    '<' :: elementText name (items declarations attributes) inner.spell next.spell

/-! ## The content of a form -/

/-- The namespace of an attribute's name. -/
def attributeUri? (scope : Scope) (name : QName) : Option String :=
  if name.nsPrefix = "" then none
  else if name.nsPrefix = xmlPrefix then some xmlNamespace
  else scope.uri? name.nsPrefix

/-- The attribute that an item stands for. -/
def resolve (scope : Scope) (i : Item) : Attribute :=
  ⟨attributeUri? scope i.name, i.name.localName, i.value⟩

/-- The element of a start tag whose spelling is not known yet. -/
def unspelled (outer : Scope) (name : QName) (declarations : List Binding)
    (attributes : List Item) : Element :=
  let scope := Scope.extend declarations outer
  ⟨scope.uri? name.nsPrefix, name.localName, attributes.map (resolve scope), scope, none⟩

/-- The element of a start tag. -/
def elementOf (outer : Scope) (name : QName) (declarations : List Binding)
    (attributes : List Item) : Element :=
  { unspelled outer name declarations attributes with
    tag := some ⟨name.text, (items declarations attributes).map Item.raw⟩ }

/-- Text before other content. -/
def before (value : String) (content : Content) : Content :=
  if value = "" then content else .leaf (.text value) content

/-- The content of a form with some text before it.  Adjacent texts become one. -/
def tree (scope : Scope) : String → Form → Content
  | value, nil => before value .nil
  | value, text more next => tree scope (value ++ more) next
  | value, remark r next => before value (.leaf r.leaf (tree scope "" next))
  | value, element name declarations attributes inner next =>
    before value (.element (elementOf scope name declarations attributes)
      (tree (Scope.extend declarations scope) "" inner) (tree scope "" next))

/-! ## Validity -/

/-- A declaration that can be written. -/
structure ValidBinding (b : Binding) : Prop where
  nsPrefix : b.nsPrefix = "" ∨ Markup.NcName b.nsPrefix
  notXml : b.nsPrefix ≠ xmlPrefix
  notXmlUri : b.uri ≠ xmlNamespace
  notXmlnsUri : b.uri ≠ xmlnsNamespace
  admitted : ∀ c ∈ b.uri.toList, Chars.isXml c = true

/-- An attribute that can be written. -/
structure ValidAttribute (scope : Scope) (i : Item) : Prop where
  item : i.Valid
  notDeclaration : i.name.nsPrefix ≠ xmlnsPrefix ∧ i.name.localName ≠ xmlnsPrefix
  bound : i.name.nsPrefix = "" ∨ i.name.nsPrefix = xmlPrefix ∨ scope.uri? i.name.nsPrefix ≠ none

/-- A start tag that can be written inside of the scope `outer`. -/
structure ValidTag (outer : Scope) (name : QName) (declarations : List Binding)
    (attributes : List Item) : Prop where
  wellNamed : name.Valid
  notXmlns : name.nsPrefix ≠ xmlnsPrefix
  bound : name.nsPrefix = "" ∨ (Scope.extend declarations outer).uri? name.nsPrefix ≠ none
  declared : ∀ b ∈ declarations, ValidBinding b
  distinct : declarations.Pairwise (·.nsPrefix ≠ ·.nsPrefix)
  attributed : ∀ i ∈ attributes, ValidAttribute (Scope.extend declarations outer) i
  named : (attributes.map (resolve (Scope.extend declarations outer))).Pairwise
    fun a b => ¬ (a.nsUri? = b.nsUri? ∧ a.localName = b.localName)

/-- A form that can be written inside of a scope. -/
def Valid : Scope → Form → Prop
  | _, nil => True
  | scope, text value next => (∀ c ∈ value.toList, Chars.isXml c = true) ∧ Valid scope next
  | scope, remark r next => r.Valid ∧ Valid scope next
  | scope, element name declarations attributes inner next =>
    ValidTag scope name declarations attributes ∧
      Valid (Scope.extend declarations scope) inner ∧ Valid scope next

theorem ncName_xmlns : Markup.NcName xmlnsPrefix := by decide

theorem ValidBinding.item {b : Binding} (valid : ValidBinding b) : b.item.Valid := by
  constructor
  · simp only [Binding.item]
    rcases valid.nsPrefix with default | named
    · rw [if_pos default]
      exact ⟨.inl rfl, ncName_xmlns⟩
    · rw [if_neg named.ne_empty]
      exact ⟨.inr ncName_xmlns, named⟩
  · exact valid.admitted

theorem ValidTag.items {outer : Scope} {name : QName} {declarations : List Binding}
    {attributes : List Item} (valid : ValidTag outer name declarations attributes) :
    ∀ i ∈ items declarations attributes, i.Valid := by
  intro i member
  rcases List.mem_append.mp member with member | member
  · obtain ⟨b, declared, rfl⟩ := List.mem_map.mp member
    exact (valid.declared b declared).item
  · exact (valid.attributed i member).item

end Form

end CanonicalXml
