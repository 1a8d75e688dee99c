import CanonicalXml.Mode
import CanonicalXml.Proofs.Inherited.Values
import CanonicalXml.Proofs.Traversal

/-! # Attributes that elements inherit

Omitting elements changes no value that is inherited from them: an element whose parent is not
output takes it from the omitted ancestors, and what is not there is in effect around it.

* `AttributeReader.next` — what a reader of the written start tags remembers;
  `AttributeReader.value?` — the value that is in effect for it.
* `Family.Preserves`, `Family.Adds` — what the families say about inherited attributes.
* `AttributeReader.Follows` — the reader sees what the source has, but for the omitted elements.
* `Walk.inherited_values` — the reader finds every inherited value, and nothing that is not there.
-/

namespace CanonicalXml

open NamespaceAxis Transcript

/-! ## The reader -/

namespace AttributeReader

/-- The open tags, innermost first: the number of the element, and the attributes. -/
abbrev Tags := List (Nat × List WrittenAttribute)

def next (tags : Tags) : Piece → Tags
  | .startTag loc _ _ attributes => (loc.number, attributes) :: tags
  | .endTag _ => tags.tail
  | .bare _ _ | .leaf _ _ => tags

/-- The value of an attribute of the XML namespace on the innermost tag that has it. -/
def value? : Tags → String → Option String
  | [], _ => none
  | (_, attributes) :: tags, name =>
    ((attributes.find? (·.isXml name)).map (·.value)).or (value? tags name)

/-- The innermost open tag is that of the parent. -/
def InParent (tags : Tags) (loc : Location) : Prop :=
  tags.head?.map (·.1) = loc.ancestors.head?.map (·.number)

end AttributeReader

/-- The attributes of the XML namespace whose values a family preserves. -/
def Family.Preserves : Family → String → Prop
  | .inclusive, _ => True
  | .inclusive11, name => name = "lang" ∨ name = "space"
  | .exclusive, _ => False

/-- The attributes of the XML namespace that a family adds to an element. -/
def Family.Adds : Family → String → Prop
  | .inclusive, _ => True
  | .inclusive11, name => name = "lang" ∨ name = "space" ∨ name = "base"
  | .exclusive, _ => False

/-- The element has an attribute of this name. -/
def Element.Carries (e : Element) (a : WrittenAttribute) : Prop :=
  ∃ own ∈ e.attributes, own.nsUri?.getD "" = a.nsUri ∧ own.localName = a.localName

namespace AttributeReader

/-- What the reader expects of a piece: the inherited values of the source, and no attributes that
the element has not itself, unless its parent is not output and the family adds them. -/
def Inherits (family : Family) (tags : Tags) : Piece → Prop
  | .startTag loc _ _ attributes =>
    ∃ e, loc.element? = some e ∧
      (∀ name, family.Preserves name → value? ((loc.number, attributes) :: tags) name =
        Ancestor.xmlAttribute? (⟨loc.number, e⟩ :: loc.ancestors) name) ∧
      ∀ a ∈ attributes, e.Carries a ∨
        ¬ InParent tags loc ∧ a.nsUri = xmlNamespace ∧ family.Adds a.localName
  | .bare _ _ | .leaf _ _ | .endTag _ => True

end AttributeReader

/-! ## What the families say -/

namespace Family

variable {family : Family} {withComments : Bool} {around : List Ancestor} {name : String}

theorem Preserves.inheritable (preserved : family.Preserves name) (withComments : Bool) :
    Request.inheritable (Mode.method family withComments).inheritance name = true := by
  cases family with
  | inclusive => rfl
  | inclusive11 =>
    rcases preserved with rfl | rfl
    · rfl
    · rfl
  | exclusive => cases preserved

/-- No base URI is joined with a value that is preserved. -/
theorem Preserves.unjoined (preserved : family.Preserves name) (withComments : Bool)
    (around : List Ancestor) :
    ¬ (Element.baseAround (Mode.method family withComments).inheritance around ≠ "" ∧
      name = "base") := by
  rintro ⟨nonempty, rfl⟩
  cases family with
  | inclusive => exact nonempty rfl
  | inclusive11 => exact absurd preserved (by simp [Preserves])
  | exclusive => cases preserved

/-- A preserved value is the own one, or it is taken from these elements. -/
theorem Preserves.xmlAttribute?_carrying (preserved : family.Preserves name) (withComments : Bool)
    (around : List Ancestor) (e : Element) :
    (e.carrying (Mode.method family withComments).inheritance around).xmlAttribute? name =
      (e.xmlAttribute? name).or (Ancestor.xmlAttribute? around name) := by
  have unjoined := preserved.unjoined withComments around
  have same : joinedValue (Element.baseAround (Mode.method family withComments).inheritance around)
      name = id := by
    funext value
    exact if_neg unjoined
  rw [Element.xmlAttribute?_carrying, same, Option.map_id, takenValue?,
    if_pos (preserved.inheritable withComments), if_neg unjoined, Option.or_none]
  rfl

/-- What an element takes from around it is what the family adds. -/
theorem adds_of_taken {e : Element} {a : Attribute}
    (taken : a ∈ e.taken (Mode.method family withComments).inheritance around) :
    family.Adds a.localName := by
  cases family with
  | inclusive => trivial
  | inclusive11 =>
    obtain ⟨-, -, inherited | ⟨base, -⟩⟩ := mem_taken taken
    · have inheritable := (List.mem_filter.mp (Request.firstOfEach_subset _ inherited)).2
      rcases (Bool.or_eq_true _ _).mp inheritable with lang | space
      · exact .inl (of_decide_eq_true lang)
      · exact .inr (.inl (of_decide_eq_true space))
    · exact .inr (.inr base)
  | exclusive =>
    have nothing : e.taken .nothing around = [] := by
      simp [Element.taken, Request.inherited, Request.inheritable, Element.baseAround,
        Request.firstOfEach]
    rw [Mode.method, nothing] at taken
    cases taken

end Family

/-! ## What the reader sees -/

namespace AttributeReader

/-- What the source has in effect is what is in effect among the omitted elements, and otherwise
what the reader sees. -/
structure Follows (r : Request) (family : Family) (tags : Tags) (chain : List Ancestor) : Prop where
  values : ∀ name, family.Preserves name → Ancestor.xmlAttribute? chain name =
    (Ancestor.xmlAttribute? (r.omittedAncestors chain) name).or (value? tags name)
  within : ∀ tag ∈ tags, ∃ a ∈ chain, a.number = tag.1
  innermost : ∀ a ∈ chain.head?, tags.head?.map (·.1) = some a.number →
    r.ancestorIsOutput chain = true

variable {r : Request} {family : Family} {tags : Tags} {above : List Ancestor}
  {attributes : List WrittenAttribute}

/-- An omitted element gives its values to those inside of it. -/
theorem Follows.omit (follows : Follows r family tags above) {a : Ancestor}
    (omitted : r.ancestorIsOutput (a :: above) = false)
    (later : ∀ b ∈ above, b.number < a.number) : Follows r family tags (a :: above) := by
  constructor
  · intro name preserved
    rw [Request.omittedAncestors, omitted, if_neg Bool.false_ne_true, Ancestor.xmlAttribute?,
      Ancestor.xmlAttribute?, follows.values name preserved, Option.or_assoc]
  · intro tag opened
    obtain ⟨b, inAbove, same⟩ := follows.within tag opened
    exact ⟨b, List.mem_cons_of_mem _ inAbove, same⟩
  · intro b first innermost
    cases Option.some.inj first
    -- All open tags are those of elements around this one.
    obtain ⟨tag, head, number⟩ := Option.map_eq_some_iff.mp innermost
    obtain ⟨b, inAbove, same⟩ := follows.within tag (List.mem_of_mem_head? head)
    exact absurd (same.trans number) (Nat.ne_of_lt (later b inAbove))

section Output

variable {withComments : Bool} {axis : NamespaceAxis} {loc : Location} {e : Element}
  (kind : r.method = Mode.method family withComments) (included : r.excludesAttributes = false)
  (written : r.writtenAttributes axis loc e (loc.spelling e) (r.ancestorIsOutput loc.ancestors) =
    .ok attributes)
include kind included written

/-- An element shows its own values, and otherwise those of the omitted elements around it. -/
theorem value_written {name : String} (preserved : family.Preserves name) :
    (attributes.find? (·.isXml name)).map (·.value) = (e.xmlAttribute? name).or
      (Ancestor.xmlAttribute? (r.omittedAncestors loc.ancestors) name) := by
  rw [Request.value_writtenAttributes included written, Request.carrier]
  cases parent : r.ancestorIsOutput loc.ancestors with
  | true =>
    rw [if_pos rfl, Request.omittedAncestors_of_output parent, Ancestor.xmlAttribute?,
      Option.or_none]
  | false =>
    rw [if_neg Bool.false_ne_true, kind, preserved.xmlAttribute?_carrying]

/-- An attribute that is not the element's own comes from around it. -/
theorem carries_or_adds {a : WrittenAttribute} (member : a ∈ attributes) :
    e.Carries a ∨ r.ancestorIsOutput loc.ancestors = false ∧ loc.ancestors ≠ [] ∧
      a.nsUri = xmlNamespace ∧ family.Adds a.localName := by
  obtain ⟨owns, rfl, same⟩ := Request.writtenAttributes_sort included written
  obtain ⟨own, inOwns, rfl⟩ := List.mem_map.mp (List.mem_mergeSort.mp member)
  have carried := List.mem_map_of_mem (f := Prod.fst) inOwns
  rw [same] at carried
  by_cases top : loc.ancestors = []
  · rw [top, Request.carrier_top] at carried
    exact .inl ⟨own.1, carried, rfl, rfl⟩
  rw [Request.carrier] at carried
  cases parent : r.ancestorIsOutput loc.ancestors with
  | true =>
    rw [parent, if_pos rfl] at carried
    exact .inl ⟨own.1, carried, rfl, rfl⟩
  | false =>
    rw [parent, if_neg Bool.false_ne_true, kind] at carried
    rcases List.mem_append.mp carried with joined | taken
    · obtain ⟨a, inElement, is⟩ := List.mem_map.mp joined
      obtain ⟨uri, localName⟩ := joined_names (Mode.method family withComments).inheritance
        (r.omittedAncestors loc.ancestors) a
      rw [is] at uri localName
      refine .inl ⟨a, inElement, ?_, localName.symm⟩
      rw [← uri]
      rfl
    · refine .inr ⟨rfl, top, ?_, Family.adds_of_taken taken⟩
      show own.1.nsUri?.getD "" = xmlNamespace
      rw [(mem_taken taken).1]
      rfl

theorem Follows.value?_eq (follows : Follows r family tags loc.ancestors) {name : String}
    (preserved : family.Preserves name) : value? ((loc.number, attributes) :: tags) name =
      Ancestor.xmlAttribute? (⟨loc.number, e⟩ :: loc.ancestors) name := by
  rw [value?, value_written kind included written preserved, Ancestor.xmlAttribute?,
    follows.values name preserved, Option.or_assoc]

/-- What is written shows every value that is in effect inside of the element. -/
theorem Follows.render (follows : Follows r family tags loc.ancestors)
    (output : r.ancestorIsOutput (⟨loc.number, e⟩ :: loc.ancestors) = true) :
    Follows r family ((loc.number, attributes) :: tags) (⟨loc.number, e⟩ :: loc.ancestors) := by
  constructor
  · intro name preserved
    rw [Request.omittedAncestors_of_output output, Ancestor.xmlAttribute?, Option.none_or]
    exact (follows.value?_eq kind included written preserved).symm
  · refine List.forall_mem_cons.mpr ⟨⟨_, List.mem_cons_self, rfl⟩, ?_⟩
    intro tag opened
    obtain ⟨b, inAbove, same⟩ := follows.within tag opened
    exact ⟨b, List.mem_cons_of_mem _ inAbove, same⟩
  · intro b first _
    exact output

theorem Follows.inherits (follows : Follows r family tags loc.ancestors)
    (here : loc.element? = some e) (qname : String) (declarations : List Binding) :
    Inherits family tags (.startTag loc qname declarations attributes) := by
  refine ⟨e, here, fun name => follows.value?_eq kind included written, ?_⟩
  intro a member
  refine (carries_or_adds kind included written member).imp_right ?_
  rintro ⟨parent, inside, known⟩
  refine ⟨?_, known⟩
  intro inParent
  obtain ⟨b, above, chain⟩ := List.exists_cons_of_ne_nil inside
  -- The parent would be output if its tag were the innermost one.
  rw [InParent, chain] at inParent
  rw [follows.innermost b (chain ▸ rfl) inParent] at parent
  cases parent

end Output

end AttributeReader

namespace Walk

open AttributeReader

variable {d : Document} {family : Family} {withComments : Bool} {input : Input} {params : Params}

/-- The invariant of the walk: the reader follows the source. -/
theorem invariant_inherits (taken : input.Of d)
    (included : (Request.of (Mode.method family withComments) input params).excludesAttributes =
      false) :
    Invariant (.of (Mode.method family withComments) input params) (· ∈ input.locations)
      AttributeReader.next (Inherits family)
      fun tags chain _ => Follows (.of (Mode.method family withComments) input params) family tags
        chain := by
  constructor
  · intro tags _ loc l _ _ _
    exact ⟨trivial, rfl⟩
  · intro tags _ loc e visited here follows omitted
    rw [Request.isOutput_eq taken visited e] at omitted
    have later := (Location.lt_of_mem_locations (taken.locations_subset visited)).2
    exact ⟨trivial, rfl, follows.omit omitted later⟩
  · intro tags _ loc e attributes visited here follows output _ _ _ written
    rw [Request.isOutput_eq taken visited e] at output
    exact ⟨follows.inherits rfl included written here _ _,
      follows.render rfl included written output, trivial, rfl⟩

/-- Omitting elements changes no inherited value: a reader of the start tags that a walk writes
finds the values of the source, on whatever elements they are written.  Nothing is added to an
element whose parent is output, and otherwise only what the family adds. -/
theorem inherited_values (taken : input.Of d)
    (included : (Request.of (Mode.method family withComments) input params).excludesAttributes =
      false) :
    Along AttributeReader.next (Inherits family) (fun tags _ => tags = []) []
      (ofInput (Mode.method family withComments) input params) := by
  refine Along.mono (fun _ _ h => h.1)
    ((invariant_inherits taken included).along_ofInput taken (s := []) ?_)
  constructor
  · intro name _
    rw [Request.omittedAncestors_of_suffix taken (List.suffix_refl _), value?, Option.or_none]
  · exact nofun
  · exact nofun

/-- The language is that of an element that is not output, and the treatment of white space that
of the element around it. -/
theorem inherited_values_omitted :
    let b : Element := ⟨none, "b", [], [], none⟩
    let a : Element := ⟨none, "a", [⟨some xmlNamespace, "lang", "de"⟩], [], none⟩
    let root : Element := ⟨none, "r", [⟨some xmlNamespace, "lang", "en"⟩,
      ⟨some xmlNamespace, "space", "preserve"⟩], [], none⟩
    let d : Document := ⟨"", .element root (.element a (.element b .nil .nil) .nil) .nil⟩
    let input := Input.nodeSet d (.ofList [1, 3])
    input.Of d ∧
      (Request.of (Mode.method .inclusive11 false) input {}).excludesAttributes = false ∧
      Along AttributeReader.next (Inherits .inclusive11) (fun tags _ => tags = []) []
        (ofInput (Mode.method .inclusive11 false) input {}) := by
  intro b a root d input
  have taken : input.Of d := .nodeSet _
  have included : (Request.of (Mode.method .inclusive11 false) input {}).excludesAttributes =
      false := by decide
  exact ⟨taken, included, inherited_values taken included⟩

end Walk

end CanonicalXml
