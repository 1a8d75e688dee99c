import Mathlib.Data.Multiset.Basic
import CanonicalXml.Canonical.Attributes
import CanonicalXml.Proofs.InScope
import CanonicalXml.Proofs.Parsed.Sound
import CanonicalXml.Proofs.Places

/-! # What content says

Two texts say the same if they differ only in how it is spelled: in quotes, references, empty
tags, the order of attributes, the places of declarations, and text that is split.

* `View`, `Content.view` — what content says.
* `Content.written`, `Element.carrying`, `Input.part` — the content that is written of an input.
* `Document.NamesAgree`, `Input.NamesAgree` — names resolve as they were resolved when they were
  read.
* `Input.Rooted` — inputs that have one root.
* `Input.Writable` — inputs without characters that a reader refuses.
-/

namespace CanonicalXml

/-- What content says.  The attributes of an element have no order, and text that is not empty
stands between what is no text. -/
inductive View where
  | nil
  | leaf (l : Leaf) (next : View)
  | element (name : QName) (nsUri : String) (attributes : Multiset Attribute) (inner next : View)
deriving DecidableEq

namespace View

/-- Text before what is no text. -/
def before (value : String) (view : View) : View :=
  if value = "" then view else leaf (.text value) view

end View

namespace Content

/-- What content says in a scope, with some text before it. -/
def view (outer : Scope) : String → Content → View
  | value, nil => .before value .nil
  | value, leaf l next =>
    match l with
    | .text more => view outer (value ++ more) next
    | l => .before value (.leaf l (view outer "" next))
  | value, element e inner next =>
    .before value (.element (Spelling.of outer e).name (e.nsUri?.getD "") e.attributes
      (view e.scope "" inner) (view outer "" next))

theorem view_leaf {l : Leaf} (notText : l.kind ≠ .text) (outer : Scope) (value : String)
    (next : Content) :
    (leaf l next).view outer value = .before value (.leaf l (next.view outer "")) := by
  cases l with
  | text _ => exact absurd rfl notText
  | comment _ => rfl
  | instruction _ _ => rfl

end Content

/-! ## What is written -/

/-- A leaf with the carriage returns of its data replaced, where there are no references. -/
def Leaf.escaped : Leaf → Leaf
  | text value => text value
  | comment data => comment (escapeData data)
  | instruction target data => instruction target (data.map escapeData)

theorem Leaf.kind_escaped (l : Leaf) : l.escaped.kind = l.kind := by
  cases l <;> rfl

namespace Content

/-- The content that is written, with its comments or without them. -/
def written (comments : Bool) : Content → Content
  | nil => nil
  | leaf l next =>
    if l.kind = .comment && !comments then written comments next
    else leaf l.escaped (written comments next)
  | element e inner next => element e (written comments inner) (written comments next)

/-- Siblings without text between them. -/
def withoutText : Content → Content
  | nil => nil
  | leaf l next => if l.kind = .text then withoutText next else leaf l (withoutText next)
  | element e inner next => element e inner (withoutText next)

end Content

/-- An attribute of the XML namespace. -/
def Attribute.ofXml (entry : String × String) : Attribute :=
  ⟨some xmlNamespace, entry.1, entry.2⟩

namespace Element

/-- Whether the element has an attribute of this name in the XML namespace. -/
def hasXml (e : Element) (localName : String) : Bool :=
  e.xmlAttributes.any (·.1 = localName)

/-- The base URI that an element takes from the elements around it. -/
def baseAround (rule : InheritanceRule) (around : List Ancestor) : String :=
  if rule = .revised then Request.inheritedBase around else ""

/-- The attributes of the XML namespace that an element takes from the elements around it: those
that it has not itself. -/
def taken (rule : InheritanceRule) (around : List Ancestor) (e : Element) : List Attribute :=
  let base := baseAround rule around
  ((Request.inherited rule around ++ if base = "" then [] else [("base", base)]).filter
    fun entry => !e.hasXml entry.1).map .ofXml

/-- An own attribute, which a base URI from around the element is joined with if it is one. -/
def joined (rule : InheritanceRule) (around : List Ancestor) (a : Attribute) : Attribute :=
  let base := baseAround rule around
  if base ≠ "" ∧ a.nsUri? = some xmlNamespace ∧ a.localName = "base" then
    { a with value := joinUri base a.value }
  else a

/-- An element with what it takes from the elements around it. -/
def carrying (rule : InheritanceRule) (around : List Ancestor) (e : Element) : Element :=
  { e with attributes := e.attributes.map (joined rule around) ++ e.taken rule around }

end Element

/-- The content that is written of an input. -/
def Input.part (method : Method) : Input → Content
  | .document d => d.content.withoutText.written method.withComments
  | .subtree (.node loc) =>
    match loc.here with
    | .element e inner _ =>
      .element (e.carrying method.inheritance loc.ancestors)
        (inner.written method.withComments) .nil
    | _ => .nil
  | _ => .nil

theorem Input.part_element (method : Method) {loc : Location} {e : Element} {inner next : Content}
    (here : loc.here = .element e inner next) :
    part method (.subtree (.node loc)) = .element (e.carrying method.inheritance loc.ancestors)
      (inner.written method.withComments) .nil := by
  rw [part]
  simp only [here]

/-- The scope around an input. -/
def Input.scope (input : Input) : Scope :=
  Ancestor.scope input.ancestors

/-- An input with one root: a document with a single document element, or an element. -/
inductive Input.Rooted (d : Document) : Input → Prop where
  | document (single : d.content.kinds.count .element = 1) : Rooted d (.document d)
  | element {loc : Location} {e : Element} (member : loc ∈ d.locations)
      (here : loc.element? = some e) : Rooted d (.subtree (.node loc))

/-! ## Names -/

namespace Ancestor

/-- The namespace that a prefix stands for at the first of these elements, the two reserved
prefixes included. -/
def namespace? (chain : List Ancestor) (p : String) : Option String :=
  if p = xmlPrefix then some xmlNamespace
  else if p = xmlnsPrefix then some xmlnsNamespace
  else inScope? chain p

/-- The names of the first of these elements resolve to the namespaces that they were given.  An
attribute without a prefix has none. -/
structure NamesAgree (a : Ancestor) (above : List Ancestor) : Prop where
  element : (namespace? (a :: above) (a.spelling above).name.nsPrefix).getD "" =
    a.element.nsUri?.getD ""
  attributes : ∀ own ∈ a.element.attributes.zip (a.spelling above).attributePrefixes,
    (if own.2 = "" then none else namespace? (a :: above) own.2) = own.1.nsUri?

instance (a : Ancestor) (above : List Ancestor) : Decidable (NamesAgree a above) :=
  decidable_of_iff (_ ∧ _) ⟨fun h => ⟨h.1, h.2⟩, fun h => ⟨h.element, h.attributes⟩⟩

end Ancestor

/-- In a document all names resolve to the namespaces that they were given. -/
def Document.NamesAgree (d : Document) : Prop :=
  ∀ loc ∈ d.locations, ∀ e ∈ loc.element?, Ancestor.NamesAgree ⟨loc.number, e⟩ loc.ancestors

instance (d : Document) : Decidable d.NamesAgree :=
  inferInstanceAs (Decidable (∀ loc ∈ d.locations, ∀ e ∈ loc.element?,
    Ancestor.NamesAgree ⟨loc.number, e⟩ loc.ancestors))

/-- In what is visited of an input all names resolve to the namespaces that they were given. -/
def Input.NamesAgree (input : Input) : Prop :=
  ∀ loc ∈ input.locations, ∀ e ∈ loc.element?, Ancestor.NamesAgree ⟨loc.number, e⟩ loc.ancestors

instance : DecidablePred Input.NamesAgree := fun input =>
  inferInstanceAs (Decidable (∀ loc ∈ input.locations, ∀ e ∈ loc.element?,
    Ancestor.NamesAgree ⟨loc.number, e⟩ loc.ancestors))

theorem Input.Rooted.taken {d : Document} {input : Input} (rooted : input.Rooted d) :
    input.Of d := by
  cases rooted with
  | document single => exact .document
  | element member here => exact .node member

theorem Document.NamesAgree.input {d : Document} {input : Input} (names : d.NamesAgree)
    (taken : input.Of d) : input.NamesAgree :=
  fun loc member => names loc (taken.locations_subset member)

/-! ## Characters -/

/-- Attribute values and namespaces that can be written. -/
structure Element.Admitted (e : Element) : Prop where
  attributes : ∀ a ∈ e.attributes, ∀ c ∈ a.value.toList, Chars.isXml c = true
  scope : ∀ b ∈ e.scope, ∀ c ∈ b.uri.toList, Chars.isXml c = true

instance : DecidablePred Element.Admitted := fun e =>
  decidable_of_iff ((∀ a ∈ e.attributes, a.value.toList.all Chars.isXml = true) ∧
      ∀ b ∈ e.scope, b.uri.toList.all Chars.isXml = true)
    ⟨fun h => ⟨fun a member => List.all_eq_true.mp (h.1 a member),
        fun b member => List.all_eq_true.mp (h.2 b member)⟩,
      fun h => ⟨fun a member => List.all_eq_true.mpr (h.attributes a member),
        fun b member => List.all_eq_true.mpr (h.scope b member)⟩⟩

/-- An instruction with this name and with data would be read as a declaration. -/
def Leaf.Undeclaring : Leaf → Prop
  | instruction target (some _) => target ≠ "xml"
  | _ => True

instance : DecidablePred Leaf.Undeclaring
  | .text _ | .comment _ | .instruction _ none => .isTrue trivial
  | .instruction target (some _) => inferInstanceAs (Decidable (target ≠ "xml"))

/-- The content of an input: that of a document, or an element alone. -/
def Input.content : Input → Content
  | .document d => d.content
  | .subtree (.node loc) =>
    match loc.here with
    | .element e inner _ => .element e inner .nil
    | _ => .nil
  | _ => .nil

theorem Input.content_element {loc : Location} {e : Element} {inner next : Content}
    (here : loc.here = .element e inner next) :
    content (.subtree (.node loc)) = .element e inner .nil := by
  rw [content]
  simp only [here]

/-- An input that can be written in characters that a reader takes. -/
structure Input.Writable (input : Input) : Prop where
  around : ∀ a ∈ input.ancestors, a.element.Admitted
  content : input.content.All Leaf.Undeclaring Element.Admitted

instance : DecidablePred Input.Writable := fun _ =>
  decidable_of_iff (_ ∧ _) ⟨fun h => ⟨h.1, h.2⟩, fun h => ⟨h.around, h.content⟩⟩

end CanonicalXml
