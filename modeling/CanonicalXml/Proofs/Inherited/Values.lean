import CanonicalXml.Proofs.Readback.Tags

/-! # Values of attributes of the XML namespace

An attribute of the XML namespace is in effect inside of the element that has it, until an element
has another value for it.

* `Element.xmlAttribute?`, `Ancestor.xmlAttribute?` — the value on an element, and the value that
  is in effect there.
* `Element.xmlAttribute?_carrying` — the values on an element with what it takes from around it.
* `Request.writtenAttributes_sort` — a start tag has the attributes of `Request.carrier`, sorted.
* `Request.value_writtenAttributes` — the values on a start tag are those of `Request.carrier`.
-/

namespace CanonicalXml

/-- The value of an element's attribute of this name in the XML namespace. -/
def Element.xmlAttribute? (e : Element) (name : String) : Option String :=
  (e.attributes.find? fun a => a.nsUri? = some xmlNamespace ∧ a.localName = name).map (·.value)

/-- The value in effect at the first of these elements, the others being its ancestors. -/
def Ancestor.xmlAttribute? : List Ancestor → String → Option String
  | [], _ => none
  | a :: above, name => (a.element.xmlAttribute? name).or (xmlAttribute? above name)

/-! ## Values by their names -/

section Names

variable {rule : InheritanceRule} {around : List Ancestor} {e : Element} {name : String}

theorem Element.xmlAttribute?_eq :
    e.xmlAttribute? name = (e.xmlAttributes.find? (·.1 = name)).map (·.2) := by
  simp only [xmlAttribute?, xmlAttributes]
  rw [List.find?_map, List.find?_filter, Option.map_map]
  simp [Function.comp_def]

theorem Element.hasXml_eq : e.hasXml name = (e.xmlAttribute? name).isSome := by
  rw [xmlAttribute?_eq, Option.isSome_map, List.isSome_find?]
  rfl

theorem Ancestor.xmlAttribute?_eq : xmlAttribute? around name =
    ((around.flatMap (·.element.xmlAttributes)).find? (·.1 = name)).map (·.2) := by
  induction around with
  | nil => rfl
  | cons a above ih =>
    rw [xmlAttribute?, ih, Element.xmlAttribute?_eq, List.flatMap_cons, List.find?_append,
      Option.map_or]

theorem find?_firstOfEach (entries : List (String × String)) (name : String) :
    (Request.firstOfEach entries).find? (·.1 = name) = entries.find? (·.1 = name) := by
  induction entries with
  | nil => rfl
  | cons entry rest ih =>
    rw [Request.firstOfEach]
    by_cases same : entry.1 = name
    · rw [List.find?_cons_of_pos (by simpa using same),
        List.find?_cons_of_pos (by simpa using same)]
    · rw [List.find?_cons_of_neg (by simpa using same),
        List.find?_cons_of_neg (by simpa using same), ← ih, List.find?_filter]
      -- What is filtered out has the name of the first entry, which is another one.
      congr 1
      funext other
      by_cases is : other.1 = name <;> simp [is, Ne.symm same]

/-- The value that an element can take from these elements. -/
theorem find?_inherited (rule : InheritanceRule) (around : List Ancestor) (name : String) :
    ((Request.inherited rule around).find? (·.1 = name)).map (·.2) =
      if Request.inheritable rule name then Ancestor.xmlAttribute? around name else none := by
  rw [Request.inherited, find?_firstOfEach, List.find?_filter, Ancestor.xmlAttribute?_eq]
  split
  · rename_i inheritable
    congr 2
    funext entry
    by_cases is : entry.1 = name <;> simp [is, inheritable]
  · rename_i other
    rw [List.find?_eq_none.mpr, Option.map_none]
    intro entry _ found
    obtain ⟨inheritable, is⟩ := of_decide_eq_true found
    rw [of_decide_eq_true is] at inheritable
    exact other inheritable

end Names

/-! ## Elements with what they take -/

section Carrying

variable {rule : InheritanceRule} {around : List Ancestor} {e : Element} {name : String}

/-- What joining does to a value. -/
def joinedValue (base name value : String) : String :=
  if base ≠ "" ∧ name = "base" then joinUri base value else value

theorem find?_joined (rule : InheritanceRule) (around : List Ancestor) (e : Element)
    (name : String) :
    (Element.xmlAttribute? { e with attributes := e.attributes.map (Element.joined rule around) }
        name) =
      (e.xmlAttribute? name).map (joinedValue (Element.baseAround rule around) name) := by
  simp only [Element.xmlAttribute?]
  rw [List.find?_map, Option.map_map, Option.map_map]
  have names : (fun a : Attribute => decide (a.nsUri? = some xmlNamespace ∧ a.localName = name)) ∘
      Element.joined rule around =
        fun a => decide (a.nsUri? = some xmlNamespace ∧ a.localName = name) := by
    funext a
    obtain ⟨uri, localName⟩ := joined_names rule around a
    simp only [Function.comp_apply]
    rw [uri, localName]
  rw [names]
  refine Option.map_congr fun a found => ?_
  have is := List.find?_some found
  obtain ⟨xml, rfl⟩ := of_decide_eq_true is
  simp only [Function.comp_apply, Element.joined, joinedValue]
  split <;> rename_i base
  · rw [if_pos ⟨base.1, base.2.2⟩]
  · rw [if_neg fun h => base ⟨h.1, xml, h.2⟩]

/-- The value that an element takes if it has none itself. -/
def takenValue? (rule : InheritanceRule) (around : List Ancestor) (name : String) :
    Option String :=
  (if Request.inheritable rule name then Ancestor.xmlAttribute? around name else none).or
    (if Element.baseAround rule around ≠ "" ∧ name = "base" then
      some (Element.baseAround rule around) else none)

theorem find?_taken (rule : InheritanceRule) (around : List Ancestor)
    (unowned : e.xmlAttribute? name = none) :
    Element.xmlAttribute? { e with attributes := e.taken rule around } name =
      takenValue? rule around name := by
  have has : e.hasXml name = false := by
    rw [Element.hasXml_eq, unowned]
    rfl
  have named : (fun a : Attribute => decide (a.nsUri? = some xmlNamespace ∧ a.localName = name)) ∘
      Attribute.ofXml = fun entry => decide (entry.1 = name) := by
    funext entry
    exact decide_eq_decide.mpr (by simp [Attribute.ofXml])
  have kept : (fun entry : String × String => (!e.hasXml entry.1) && decide (entry.1 = name)) =
      fun entry => decide (entry.1 = name) := by
    funext entry
    by_cases is : entry.1 = name <;> simp [is, has]
  simp only [Element.xmlAttribute?, Element.taken, takenValue?]
  rw [← find?_inherited, List.find?_map, named, List.find?_filter, Option.map_map]
  simp only [Bool.decide_and, Bool.decide_eq_true, kept]
  rw [List.find?_append, Option.map_or]
  congr 1
  by_cases empty : Element.baseAround rule around = ""
  · simp [empty]
  · by_cases is : name = "base" <;> simp [empty, is, Attribute.ofXml, eq_comm]

/-- The value on an element with what it takes from around it. -/
theorem Element.xmlAttribute?_carrying (rule : InheritanceRule) (around : List Ancestor)
    (e : Element) (name : String) :
    (e.carrying rule around).xmlAttribute? name =
      ((e.xmlAttribute? name).map (joinedValue (baseAround rule around) name)).or
        (takenValue? rule around name) := by
  have parts : (e.carrying rule around).xmlAttribute? name =
      (xmlAttribute? { e with attributes := e.attributes.map (joined rule around) } name).or
        (xmlAttribute? { e with attributes := e.taken rule around } name) := by
    simp only [xmlAttribute?, carrying]
    rw [List.find?_append, Option.map_or]
  rw [parts, find?_joined]
  cases owned : e.xmlAttribute? name with
  | none => rw [find?_taken rule around owned]
  | some value => rfl

end Carrying

/-! ## Written values -/

namespace WrittenAttribute

theorem find?_isXml_sort (attributes : List WrittenAttribute) (name : String) :
    (sort attributes).find? (·.isXml name) = attributes.find? (·.isXml name) := by
  rw [← List.head?_filter, ← List.head?_filter, filter_sort]
  intro a b xmlA xmlB
  simp only [isXml] at xmlA xmlB
  rw [Bool.and_eq_true, decide_eq_true_iff, decide_eq_true_iff] at xmlA xmlB
  rw [precedes_iff]
  exact .inr ⟨xmlA.1.trans xmlB.1.symm, xmlA.2.trans xmlB.2.symm ▸ String.le_refl _⟩

end WrittenAttribute

namespace Request

variable {r : Request} {axis : NamespaceAxis} {loc : Location} {e : Element}
  {parentOutput : Bool} {attributes : List WrittenAttribute}

/-- The attributes of a start tag are those of the carrier, sorted. -/
theorem writtenAttributes_sort (included : r.excludesAttributes = false)
    (written : r.writtenAttributes axis loc e (loc.spelling e) parentOutput = .ok attributes) :
    ∃ owns : List (Attribute × String),
      attributes = WrittenAttribute.sort (owns.map Attribute.written) ∧
        owns.map Prod.fst = (r.carrier parentOutput loc.ancestors e).attributes := by
  have aligned : e.attributes.length = (loc.spelling e).attributePrefixes.length :=
    (Spelling.length_prefixesOf _ _ _).symm
  obtain ⟨owns, sorted, same, -⟩ := exists_owns included aligned written
  exact ⟨owns, sorted, same⟩

/-- What a start tag says of an attribute of the XML namespace is what the carrier says. -/
theorem value_writtenAttributes (included : r.excludesAttributes = false)
    (written : r.writtenAttributes axis loc e (loc.spelling e) parentOutput = .ok attributes)
    (name : String) : (attributes.find? (·.isXml name)).map (·.value) =
      (r.carrier parentOutput loc.ancestors e).xmlAttribute? name := by
  obtain ⟨owns, rfl, same⟩ := writtenAttributes_sort included written
  rw [WrittenAttribute.find?_isXml_sort, List.find?_map, Option.map_map, Element.xmlAttribute?,
    ← same, List.find?_map, Option.map_map]
  have xml : (fun a : WrittenAttribute => a.isXml name) ∘ Attribute.written =
      (fun a : Attribute => decide (a.nsUri? = some xmlNamespace ∧ a.localName = name)) ∘
        Prod.fst := by
    funext own
    rw [Bool.eq_iff_iff, Function.comp_apply, Attribute.isXml_written]
    simp
  rw [xml]
  rfl

end Request

end CanonicalXml
