import CanonicalXml.Proofs.Places
import CanonicalXml.Proofs.Spelled.Leaves

/-! # What a reader guarantees

The content of a document that was read has names, bindings and data that the syntax of a document
admits.  The values of attributes and the namespaces are left out: an entity can bring any
character into them.

* `Leaf.Sound`, `Element.Sound` — what holds of the nodes.
* `Content.All` — a property of all leaves and all elements.
-/

namespace CanonicalXml

open Markup

/-- A binding that a document can make. -/
structure Binding.Sound (b : Binding) : Prop where
  nsPrefix : b.nsPrefix = "" ∨ NcName b.nsPrefix
  notXml : b.nsPrefix ≠ xmlPrefix
  notXmlUri : b.uri ≠ xmlNamespace
  notXmlnsUri : b.uri ≠ xmlnsNamespace

theorem Scope.mem_of_uri? {scope : Scope} {p u : String} (bound : scope.uri? p = some u) :
    ⟨p, u⟩ ∈ scope := by
  obtain ⟨b, found, same⟩ := Option.map_eq_some_iff.mp bound
  have named := List.find?_some found
  rw [decide_eq_true_eq] at named
  rw [← named, ← same]
  exact List.mem_of_find?_eq_some found

/-- An attribute that a document can have. -/
structure Attribute.Sound (a : Attribute) : Prop where
  localName : NcName a.localName
  notXmlns : a.localName ≠ xmlnsPrefix
  notXmlnsUri : a.nsUri? ≠ some xmlnsNamespace

/-- Two attributes have different names. -/
def Attribute.Apart (a b : Attribute) : Prop :=
  ¬ (a.nsUri? = b.nsUri? ∧ a.localName = b.localName)

/-- An element that a document can have. -/
structure Element.Sound (e : Element) : Prop where
  localName : NcName e.localName
  scope : ∀ b ∈ e.scope, b.Sound
  nsUri : ∀ uri ∈ e.nsUri?, uri ≠ xmlNamespace ∧ uri ≠ xmlnsNamespace
  attributes : ∀ a ∈ e.attributes, a.Sound
  apart : e.attributes.Pairwise Attribute.Apart

/-- A leaf that a document can have. -/
def Leaf.Sound : Leaf → Prop
  | text value => ∀ c ∈ value.toList, Chars.isXml c = true
  | comment data => CommentText data.toList
  | instruction target none => IsName target.toList
  | instruction target (some data) =>
    data ≠ "" ∧ IsName target.toList ∧ (∀ c ∈ data.toList, Chars.isXml c = true) ∧
      Text.occurs ['?', '>'] data.toList = false ∧ Text.Ends Chars.isSpace data.toList

namespace Content

/-- All leaves and all elements have a property. -/
def All (leafOk : Leaf → Prop) (elementOk : Element → Prop) : Content → Prop
  | nil => True
  | leaf l next => leafOk l ∧ All leafOk elementOk next
  | element e inner next =>
    elementOk e ∧ All leafOk elementOk inner ∧ All leafOk elementOk next

variable {leafOk : Leaf → Prop} {elementOk : Element → Prop}

instance [DecidablePred leafOk] [DecidablePred elementOk] :
    DecidablePred (All leafOk elementOk) := decideAll
where
  decideAll : (c : Content) → Decidable (All leafOk elementOk c)
    | nil => .isTrue trivial
    | leaf l next =>
      have := decideAll next
      inferInstanceAs (Decidable (leafOk l ∧ All leafOk elementOk next))
    | element e inner next =>
      have := decideAll inner
      have := decideAll next
      inferInstanceAs (Decidable (elementOk e ∧ All leafOk elementOk inner ∧
        All leafOk elementOk next))

theorem All.reverseOnto {front c : Content} (before : All leafOk elementOk front)
    (all : All leafOk elementOk c) : All leafOk elementOk (reverseOnto front c) := by
  induction c generalizing front with
  | nil => exact before
  | leaf l next ih => exact ih ⟨all.1, before⟩ all.2
  | element e inner next _ ih => exact ih ⟨all.1, all.2.1, before⟩ all.2.2

theorem All.reverse {c : Content} (all : All leafOk elementOk c) :
    All leafOk elementOk c.reverse :=
  All.reverseOnto trivial all

theorem All.handedOn (leafOk : Leaf → Prop) (elementOk : Element → Prop) :
    Location.HandedOn fun loc => All leafOk elementOk loc.here where
  next {loc} all := by
    obtain ⟨number, ancestors, before, here⟩ := loc
    cases here with
    | nil => exact all
    | leaf l next => exact all.2
    | element e inner next => exact all.2.2
  inside here all := by
    rw [here] at all
    exact all.2.1

theorem All.allFrom {content : Content} (all : All leafOk elementOk content) {number : Nat}
    {ancestors : List Ancestor} {before : List NodeKind} :
    ∀ loc ∈ Location.allFrom number ancestors before content, All leafOk elementOk loc.here :=
  (All.handedOn leafOk elementOk).of_mem_allFrom all

end Content

/-- What holds of all elements of a document holds of that at a place. -/
theorem Location.of_element? {d : Document} {leafOk : Leaf → Prop} {elementOk : Element → Prop}
    (all : d.content.All leafOk elementOk) {loc : Location} (member : loc ∈ d.locations)
    {e : Element} (here : loc.element? = some e) : elementOk e := by
  obtain ⟨inner, next, same⟩ := here_of_element? here
  have found := all.allFrom loc member
  rw [same] at found
  exact found.1

/-- It holds of the ancestors of a place as well. -/
theorem Location.forall_ancestors {d : Document} {leafOk : Leaf → Prop}
    {elementOk : Element → Prop} (all : d.content.All leafOk elementOk) {loc : Location}
    (member : loc ∈ d.locations) : ∀ a ∈ loc.ancestors, elementOk a.element := by
  intro a above
  obtain ⟨outer, inDocument, here⟩ := (stands_of_mem_locations member).of_mem above
  exact of_element? all inDocument here

end CanonicalXml
