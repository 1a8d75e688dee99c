import CanonicalXml.Proofs.Settling

/-! # Elements whose start tag is known

Where the source shows the start tag of an element, and on it the attributes of the tree in
their order, all spelled names are read off the tag.

* `Element.Shows e tag` — the start tag of the element is known, and agrees with the tree.
* `Element.Shows.name_eq`, `Element.Shows.attributePrefixes_eq`,
  `Element.Shows.declarations_eq` — the spelling of such an element.
* `StartTag.utilizes`, `StartTag.declares` — the prefixes that a tag uses visibly, and those that
  it declares.
-/

namespace CanonicalXml

namespace StartTag

/-- The prefixes of the attributes, in source order. -/
def attributePrefixes (tag : StartTag) : List String :=
  tag.plain.map fun raw => (QName.ofText raw.qname).nsPrefix

/-- Whether a prefix is that of the name, or a named one of an attribute. -/
def utilizes (tag : StartTag) (p : String) : Bool :=
  p = tag.name.nsPrefix || (p ≠ "" && tag.attributePrefixes.contains p)

def declares (tag : StartTag) (p : String) : Bool :=
  tag.declarations.any (·.1 = p)

end StartTag

namespace Element

/-- The start tag of the element is known, and its attributes are those of the tree. -/
structure Shows (e : Element) (tag : StartTag) : Prop where
  known : e.tag = some tag
  aligned : tag.plain.map (fun raw => (QName.ofText raw.qname).localName) =
    e.attributes.map (·.localName)

instance (e : Element) (tag : StartTag) : Decidable (e.Shows tag) :=
  decidable_of_iff (_ ∧ _) ⟨fun h => ⟨h.1, h.2⟩, fun h => ⟨h.known, h.aligned⟩⟩

variable {e : Element} {tag : StartTag}

theorem Shows.name_eq (shows : e.Shows tag) (outer : Scope) :
    (Spelling.of outer e).name = ⟨tag.name.nsPrefix, e.localName⟩ := by
  simp only [Spelling.of, Spelling.elementPrefix]
  rw [shows.known]

theorem Shows.declarations_eq (shows : e.Shows tag) (outer : Scope) :
    (Spelling.of outer e).declarations =
      tag.declarations.map fun (p, _) => ⟨p, (e.scope.uri? p).getD ""⟩ := by
  simp only [Spelling.of, Spelling.declarationsOf]
  rw [shows.known]

theorem prefixesOf_of_aligned {scope : Scope} {raws : List RawAttribute} :
    ∀ {attributes : List Attribute},
      raws.map (fun raw => (QName.ofText raw.qname).localName) =
        attributes.map (·.localName) →
      Spelling.prefixesOf scope raws attributes =
        raws.map fun raw => (QName.ofText raw.qname).nsPrefix := by
  induction raws with
  | nil =>
    intro attributes aligned
    cases attributes with
    | nil => rfl
    | cons a attributes => cases aligned
  | cons raw raws ih =>
    intro attributes aligned
    cases attributes with
    | nil => cases aligned
    | cons a attributes =>
      obtain ⟨same, rest⟩ := List.cons_eq_cons.mp aligned
      simp only [Spelling.prefixesOf, List.map_cons]
      rw [if_pos same, ih rest]

theorem Shows.attributePrefixes_eq (shows : e.Shows tag) (outer : Scope) :
    (Spelling.of outer e).attributePrefixes = tag.attributePrefixes := by
  simp only [Spelling.of]
  rw [shows.known]
  exact prefixesOf_of_aligned shows.aligned

/-- A declaration of the element is one of the tag, and the other way round. -/
theorem Shows.last?_eq_none_iff (shows : e.Shows tag) (outer : Scope) (p : String) :
    Binding.last? (Spelling.of outer e).declarations p = none ↔ tag.declares p = false := by
  rw [shows.declarations_eq, Binding.last?, ← List.map_reverse, List.find?_map,
    Option.map_eq_none_iff, List.find?_eq_none, StartTag.declares, List.any_eq_false]
  simp only [List.mem_reverse]
  rfl

end Element

namespace Request

/-- What an element uses of whose tag is known, if its attributes are written and no default
namespace is propagated to it. -/
theorem uses_of_shows {r : Request} {a : Ancestor} {above : List Ancestor} {tag : StartTag}
    (shows : a.element.Shows tag) (included : r.excludesAttributes = false)
    (calm : r.propagateDefault = false) (p : String) :
    r.uses (a :: above) p = (r.listed.contains p || tag.utilizes p) := by
  have notThere : r.propagatesAt a.number = false := by
    simp [propagatesAt, calm]
  rw [uses, Ancestor.spelling, shows.name_eq, shows.attributePrefixes_eq, notThere, included]
  simp only [StartTag.utilizes]
  simp [Bool.or_assoc, Bool.or_left_comm]

end Request

end CanonicalXml
