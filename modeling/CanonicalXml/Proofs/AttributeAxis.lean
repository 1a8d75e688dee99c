import CanonicalXml.Canonical.Attributes

/-! # Where written attributes come from

* `QName.ofText_text` — a name without colons in its parts is read back as it was written.
* `Request.mem_ownAttributes` — own attributes are written with the prefixes of the spelling,
  each of which has passed its check.
* `Request.writtenAttributes_cases` — what the attributes of a start tag are made of.
* `Request.mem_inherit`, `Request.mem_writtenAttributes` — every written attribute has the name
  of an own one, or it is one of the XML namespace from an ancestor.
-/

namespace CanonicalXml

/-! ## Names -/

/-- A text that can stand on either side of the colon of a name. -/
def QName.Colonless (text : String) : Prop :=
  ':' ∉ text.toList

instance (text : String) : Decidable (QName.Colonless text) :=
  inferInstanceAs (Decidable (':' ∉ text.toList))

namespace QName

theorem splitChars_of_colonless {cs : List Char} (colonless : ':' ∉ cs) :
    splitChars cs = (none, cs) := by
  have nothing : cs.dropWhile (· ≠ ':') = [] := by
    have all : ∀ c ∈ cs, decide (c ≠ ':') = true := by
      intro c member
      exact decide_eq_true fun h => colonless (h ▸ member)
    rw [← List.append_nil cs, List.dropWhile_append_of_pos all]
    rfl
  simp only [splitChars]
  rw [nothing]

theorem splitChars_append {before after : List Char} (colonless : ':' ∉ before) :
    splitChars (before ++ ':' :: after) = (some before, after) := by
  have all : ∀ c ∈ before, decide (c ≠ ':') = true := by
    intro c member
    exact decide_eq_true fun h => colonless (h ▸ member)
  simp only [splitChars]
  rw [List.dropWhile_append_of_pos all, List.takeWhile_append_of_pos all]
  simp

@[simp] theorem text_unprefixed (localName : String) : text ⟨"", localName⟩ = localName := by
  simp [text]

theorem text_prefixed {nsPrefix : String} (prefixed : nsPrefix ≠ "") (localName : String) :
    text ⟨nsPrefix, localName⟩ = nsPrefix ++ ":" ++ localName := by
  simp [text, prefixed]

theorem ofText_text {nsPrefix localName : String} (plainPrefix : Colonless nsPrefix)
    (plainLocal : Colonless localName) :
    ofText (text ⟨nsPrefix, localName⟩) = ⟨nsPrefix, localName⟩ := by
  simp only [ofText, split]
  by_cases unprefixed : nsPrefix = ""
  · subst unprefixed
    rw [text_unprefixed, splitChars_of_colonless plainLocal]
    simp
  · have spelled : (nsPrefix ++ ":" ++ localName).toList =
        nsPrefix.toList ++ ':' :: localName.toList := by simp
    rw [text_prefixed unprefixed, spelled, splitChars_append plainPrefix]
    simp

end QName

/-! ## Attributes -/

namespace NamespaceAxis

theorem checkPrefix_eq_ok {axis : NamespaceAxis} {p qname : String} :
    axis.checkPrefix p qname = .ok () ↔ p = "" ∨ axis.uri? p ≠ none := by
  simp only [checkPrefix]
  by_cases unprefixed : p = "" <;> simp [unprefixed, Option.isSome_iff_ne_none]

end NamespaceAxis

namespace Request

theorem mem_ownAttributes {axis : NamespaceAxis} {qname : String}
    {pairs : List (Attribute × String)} {own : List WrittenAttribute}
    (written : ownAttributes axis qname pairs = .ok own) :
    ∀ a ∈ own, ∃ pair ∈ pairs, a = .of pair.1 pair.2 ∧
      axis.checkPrefix pair.2 qname = .ok () := by
  induction pairs generalizing own with
  | nil =>
    cases written
    intro a member
    cases member
  | cons pair pairs ih =>
    obtain ⟨a, p⟩ := pair
    simp only [ownAttributes] at written
    cases checked : axis.checkPrefix p qname with
    | error fault =>
      rw [checked] at written
      cases written
    | ok _ =>
      rw [checked] at written
      cases later : ownAttributes axis qname pairs with
      | error fault =>
        rw [later] at written
        cases written
      | ok rest =>
        rw [later] at written
        cases written
        intro b member
        rcases List.mem_cons.mp member with rfl | member
        · exact ⟨(a, p), List.mem_cons_self, rfl, checked⟩
        · obtain ⟨pair, inPairs, eq, bound⟩ := ih later b member
          exact ⟨pair, List.mem_cons_of_mem _ inPairs, eq, bound⟩

/-- An attribute of the XML namespace on one of these elements. -/
def OnAncestor (ancestors : List Ancestor) (localName : String) : Prop :=
  ∃ b ∈ ancestors, ∃ entry ∈ b.element.xmlAttributes, entry.1 = localName

theorem onAncestor_of_mem {ancestors : List Ancestor} {entry : String × String}
    (member : entry ∈ ancestors.flatMap (·.element.xmlAttributes)) :
    OnAncestor ancestors entry.1 := by
  obtain ⟨b, inAncestors, onElement⟩ := List.mem_flatMap.mp member
  exact ⟨b, inAncestors, entry, onElement, rfl⟩

theorem firstOfEach_subset (entries : List (String × String)) : firstOfEach entries ⊆ entries := by
  induction entries with
  | nil => exact List.Subset.refl _
  | cons entry rest ih =>
    exact List.cons_subset_cons _ fun other member => ih (List.mem_filter.mp member).1

theorem mem_inherited {rule : InheritanceRule} {ancestors : List Ancestor}
    {entry : String × String} (member : entry ∈ inherited rule ancestors) :
    OnAncestor ancestors entry.1 :=
  onAncestor_of_mem (List.mem_filter.mp (firstOfEach_subset _ member)).1

theorem onAncestor_of_inheritedBase {ancestors : List Ancestor}
    (joined : inheritedBase ancestors ≠ "") : OnAncestor ancestors "base" := by
  simp only [inheritedBase] at joined
  cases bases : (ancestors.flatMap (·.element.xmlAttributes)).filter (·.1 = "base") with
  | nil => simp [bases] at joined
  | cons entry rest =>
    have member : entry ∈ (ancestors.flatMap (·.element.xmlAttributes)).filter
        (·.1 = "base") := by
      rw [bases]
      exact List.mem_cons_self
    obtain ⟨onElement, base⟩ := List.mem_filter.mp member
    exact of_decide_eq_true base ▸ onAncestor_of_mem onElement

/-- An inherited attribute, or one that has the name of an own attribute. -/
def Known (ancestors : List Ancestor) (own : List WrittenAttribute) (a : WrittenAttribute) :
    Prop :=
  (∃ b ∈ own, a.nsUri = b.nsUri ∧ a.localName = b.localName ∧ a.qname = b.qname) ∨
    (a.nsUri = xmlNamespace ∧ a.qname = (QName.mk xmlPrefix a.localName).text ∧
      OnAncestor ancestors a.localName)

theorem mem_joinBase {base : String} {attributes : List WrittenAttribute} {a : WrittenAttribute}
    (member : a ∈ joinBase base attributes) :
    (∃ b ∈ attributes, a.nsUri = b.nsUri ∧ a.localName = b.localName ∧ a.qname = b.qname) ∨
      (base ≠ "" ∧ a = .ofXml "base" base) := by
  simp only [joinBase] at member
  split at member
  · exact .inl ⟨a, member, rfl, rfl, rfl⟩
  · rename_i nonempty
    split at member
    · obtain ⟨b, inAttributes, rfl⟩ := List.mem_map.mp member
      refine .inl ⟨b, inAttributes, ?_⟩
      split
      · exact ⟨rfl, rfl, rfl⟩
      · exact ⟨rfl, rfl, rfl⟩
    · rcases List.mem_append.mp member with member | member
      · exact .inl ⟨a, member, rfl, rfl, rfl⟩
      · exact .inr ⟨by simpa using nonempty, List.mem_singleton.mp member⟩

theorem mem_inherit {rule : InheritanceRule} {ancestors : List Ancestor}
    {own : List WrittenAttribute} {a : WrittenAttribute}
    (member : a ∈ inherit rule ancestors own) : Known ancestors own a := by
  have unjoined : ∀ b ∈ own ++ ((inherited rule ancestors).filter fun entry =>
      !own.any (·.isXml entry.1)).map fun entry => WrittenAttribute.ofXml entry.1 entry.2,
      Known ancestors own b := by
    intro b member
    rcases List.mem_append.mp member with member | member
    · exact .inl ⟨b, member, rfl, rfl, rfl⟩
    · obtain ⟨⟨name, value⟩, added, rfl⟩ := List.mem_map.mp member
      exact .inr ⟨rfl, rfl, mem_inherited (List.mem_filter.mp added).1⟩
  unfold inherit at member
  dsimp only at member
  split at member
  · rcases mem_joinBase member with ⟨b, inAttributes, sameUri, sameName, sameText⟩ | ⟨joined, rfl⟩
    · simp only [Known]
      rw [sameUri, sameName, sameText]
      exact unjoined b inAttributes
    · exact .inr ⟨rfl, rfl, onAncestor_of_inheritedBase joined⟩
  · exact unjoined a member

theorem omittedAncestors_subset (r : Request) (ancestors : List Ancestor) :
    r.omittedAncestors ancestors ⊆ ancestors := by
  induction ancestors with
  | nil => exact List.Subset.refl _
  | cons a above ih =>
    simp only [omittedAncestors]
    split
    · exact List.nil_subset _
    · exact List.cons_subset_cons _ ih

/-- Nothing is omitted between an element and its parent. -/
theorem omittedAncestors_of_output {r : Request} {chain : List Ancestor}
    (output : r.ancestorIsOutput chain = true) : r.omittedAncestors chain = [] := by
  cases chain with
  | nil => rfl
  | cons a above => rw [omittedAncestors, if_pos output]

theorem OnAncestor.mono {inner outer : List Ancestor} {localName : String} (within : inner ⊆ outer)
    (inherits : OnAncestor inner localName) : OnAncestor outer localName := by
  obtain ⟨b, member, found⟩ := inherits
  exact ⟨b, within member, found⟩

/-- No attributes are written where they are excluded.  Where they are not, those of the element
are, with those that it takes if its parent is not output, in order. -/
theorem writtenAttributes_cases {r : Request} {axis : NamespaceAxis} {loc : Location}
    {e : Element} {names : Spelling} {parentOutput : Bool} {attributes : List WrittenAttribute}
    (written : r.writtenAttributes axis loc e names parentOutput = .ok attributes) :
    (r.excludesAttributes = true ∧ attributes = []) ∨
    (r.excludesAttributes = false ∧ ∃ own,
      ownAttributes axis names.name.text (e.attributes.zip names.attributePrefixes) = .ok own ∧
      attributes = WrittenAttribute.sort (if parentOutput then own
        else inherit r.method.inheritance (r.omittedAncestors loc.ancestors) own)) := by
  simp only [writtenAttributes] at written
  cases excludes : r.excludesAttributes with
  | true =>
    rw [excludes] at written
    cases written
    exact .inl ⟨rfl, rfl⟩
  | false =>
    rw [excludes] at written
    cases found : ownAttributes axis names.name.text
        (e.attributes.zip names.attributePrefixes) with
    | error fault =>
      rw [found] at written
      cases written
    | ok own =>
      rw [found] at written
      refine .inr ⟨rfl, own, rfl, ?_⟩
      cases parentOutput with
      | true =>
        cases written
        rfl
      | false =>
        cases written
        rfl

/-- All attributes that are written are known. -/
theorem mem_writtenAttributes {r : Request} {axis : NamespaceAxis} {loc : Location}
    {e : Element} {names : Spelling} {parentOutput : Bool} {attributes : List WrittenAttribute}
    (written : r.writtenAttributes axis loc e names parentOutput = .ok attributes)
    {a : WrittenAttribute} (member : a ∈ attributes) :
    r.excludesAttributes = false ∧
      ∃ own, ownAttributes axis names.name.text (e.attributes.zip names.attributePrefixes) =
        .ok own ∧ Known loc.ancestors own a := by
  rcases writtenAttributes_cases written with ⟨-, rfl⟩ | ⟨included, own, found, rfl⟩
  · cases member
  refine ⟨included, own, found, ?_⟩
  have unsorted := List.mem_mergeSort.mp member
  cases parentOutput with
  | true => exact .inl ⟨a, unsorted, rfl, rfl, rfl⟩
  | false =>
    rcases mem_inherit unsorted with own | ⟨uri, text, inherits⟩
    · exact .inl own
    · exact .inr ⟨uri, text, inherits.mono (r.omittedAncestors_subset _)⟩

end Request

end CanonicalXml
