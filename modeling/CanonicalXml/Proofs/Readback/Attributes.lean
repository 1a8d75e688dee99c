import CanonicalXml.Proofs.AttributeAxis
import CanonicalXml.Proofs.AttributeOrder
import CanonicalXml.Proofs.BaseCharacters
import CanonicalXml.Proofs.Readback.Names

/-! # The attributes of what is read back

A written start tag has the attributes of the element, and at the apex of a subtree those that the
element takes from around it.

* `Request.ownAttributes_eq_ok`, `Request.inherit_eq` — what is written, attribute by attribute.
* `Element.Sound.carrying` — what an element takes from around it leaves it sound.
* `Request.exists_owns`, `Request.writtenAttributes_eq` — a start tag has the attributes of
  `Element.carrying`, sorted.
-/

namespace CanonicalXml

/-- An attribute as it is written with a prefix. -/
def Attribute.written (own : Attribute × String) : WrittenAttribute :=
  .of own.1 own.2

/-! ## Own attributes -/

namespace Request

/-- The attributes of an element can be written if all of their prefixes are bound. -/
theorem ownAttributes_eq_ok {axis : NamespaceAxis} {qname : String}
    {owns : List (Attribute × String)} {attributes : List WrittenAttribute} :
    ownAttributes axis qname owns = .ok attributes ↔
      attributes = owns.map Attribute.written ∧
        ∀ own ∈ owns, own.2 = "" ∨ axis.uri? own.2 ≠ none := by
  induction owns generalizing attributes with
  | nil =>
    constructor
    · rintro written
      cases written
      exact ⟨rfl, nofun⟩
    · rintro ⟨rfl, -⟩
      rfl
  | cons own owns ih =>
    obtain ⟨a, p⟩ := own
    simp only [ownAttributes]
    constructor
    · intro written
      cases checked : axis.checkPrefix p qname with
      | error fault =>
        rw [checked] at written
        cases written
      | ok _ =>
        cases later : ownAttributes axis qname owns with
        | error fault =>
          rw [checked, later] at written
          cases written
        | ok rest =>
          rw [checked, later] at written
          cases written
          obtain ⟨rfl, bound⟩ := ih.mp later
          exact ⟨rfl, List.forall_mem_cons.mpr
            ⟨NamespaceAxis.checkPrefix_eq_ok.mp checked, bound⟩⟩
    · rintro ⟨rfl, bound⟩
      obtain ⟨here, later⟩ := List.forall_mem_cons.mp bound
      rw [NamespaceAxis.checkPrefix_eq_ok.mpr here, ih.mpr ⟨rfl, later⟩]
      rfl

end Request

/-! ## Attributes from around the element -/

section Inherit

variable {rule : InheritanceRule} {around : List Ancestor} {e : Element}
  {owns : List (Attribute × String)} {localName : String}

theorem Attribute.isXml_written {own : Attribute × String} :
    (written own).isXml localName = true ↔
      own.1.nsUri? = some xmlNamespace ∧ own.1.localName = localName := by
  have namespaced : own.1.nsUri?.getD "" = xmlNamespace ↔ own.1.nsUri? = some xmlNamespace := by
    cases own.1.nsUri? with
    | none =>
      constructor
      · intro empty
        exact absurd empty (by decide)
      · exact nofun
    | some uri => simp
  unfold WrittenAttribute.isXml written WrittenAttribute.of
  simp [namespaced]

theorem Element.hasXml_iff : e.hasXml localName = true ↔
    ∃ a ∈ e.attributes, a.nsUri? = some xmlNamespace ∧ a.localName = localName := by
  simp only [hasXml, xmlAttributes]
  simp

theorem any_isXml (attributes : owns.map Prod.fst = e.attributes) (localName : String) :
    (owns.map Attribute.written).any (·.isXml localName) = e.hasXml localName := by
  rw [Bool.eq_iff_iff, Element.hasXml_iff, ← attributes]
  simp [Attribute.isXml_written]

theorem mem_inherited_revised {entry : String × String}
    (member : entry ∈ Request.inherited .revised around) : entry.1 ≠ "base" := by
  have inheritable := (List.mem_filter.mp (Request.firstOfEach_subset _ member)).2
  rintro base
  rw [base] at inheritable
  exact absurd inheritable (by decide)

/-- The attributes that are written: those of the element, and those from around it. -/
def carriedOwns (rule : InheritanceRule) (around : List Ancestor) (e : Element)
    (owns : List (Attribute × String)) : List (Attribute × String) :=
  owns.map (fun own => (Element.joined rule around own.1, own.2)) ++
    (e.taken rule around).map (·, xmlPrefix)

theorem carriedOwns_fst (attributes : owns.map Prod.fst = e.attributes) :
    (carriedOwns rule around e owns).map Prod.fst = (e.carrying rule around).attributes := by
  simp only [carriedOwns, Element.carrying]
  rw [← attributes]
  simp [Function.comp_def]

theorem carriedOwns_snd : (carriedOwns rule around e owns).map Prod.snd =
    owns.map Prod.snd ++ (e.taken rule around).map fun _ => xmlPrefix := by
  simp [carriedOwns, Function.comp_def]

/-- Attributes of the XML namespace, as they are written. -/
def writtenXml (entries : List (String × String)) : List WrittenAttribute :=
  ((entries.map Attribute.ofXml).map (·, xmlPrefix)).map Attribute.written

theorem added_eq (attributes : owns.map Prod.fst = e.attributes)
    (entries : List (String × String)) :
    (entries.filter fun (name, _) => !(owns.map Attribute.written).any (·.isXml name)).map
      (fun (name, value) => WrittenAttribute.ofXml name value) =
    writtenXml (entries.filter fun entry => !e.hasXml entry.1) := by
  simp only [writtenXml]
  rw [List.map_map, List.map_map]
  congr 1
  refine List.filter_congr fun (name, value) _ => ?_
  dsimp only
  rw [any_isXml attributes]

theorem joined_of_base (empty : Element.baseAround rule around = "") (a : Attribute) :
    Element.joined rule around a = a := by
  simp only [Element.joined]
  rw [empty]
  exact if_neg fun h => h.1 rfl

theorem inherit_unjoined (empty : Element.baseAround rule around = "") :
    (carriedOwns rule around e owns).map Attribute.written =
      owns.map Attribute.written ++
        writtenXml ((Request.inherited rule around).filter fun entry => !e.hasXml entry.1) := by
  simp only [carriedOwns, Element.taken, writtenXml]
  rw [empty]
  simp [joined_of_base empty]

theorem written_joined (nonempty : Element.baseAround rule around ≠ "")
    (own : Attribute × String) :
    Attribute.written (Element.joined rule around own.1, own.2) =
      if (Attribute.written own).isXml "base" then
        { Attribute.written own with
          value := joinUri (Element.baseAround rule around) (Attribute.written own).value }
      else Attribute.written own := by
  simp only [Element.joined]
  by_cases base : own.1.nsUri? = some xmlNamespace ∧ own.1.localName = "base"
  · rw [if_pos (Attribute.isXml_written.mpr base), if_pos ⟨nonempty, base⟩]
    rfl
  · rw [if_neg (mt Attribute.isXml_written.mp base), if_neg fun h => base h.2]

theorem not_isXml_base {a : WrittenAttribute}
    (member : a ∈ writtenXml ((Request.inherited .revised around).filter
      fun entry => !e.hasXml entry.1)) : a.isXml "base" = false := by
  simp only [writtenXml] at member
  rw [List.map_map, List.map_map] at member
  obtain ⟨entry, inherited, rfl⟩ := List.mem_map.mp member
  rw [Bool.eq_false_iff]
  intro base
  exact mem_inherited_revised (List.mem_filter.mp inherited).1 (Attribute.isXml_written.mp base).2

theorem map_written_joined (nonempty : Element.baseAround rule around ≠ "")
    (owns : List (Attribute × String)) :
    (owns.map fun own => (Element.joined rule around own.1, own.2)).map Attribute.written =
      (owns.map Attribute.written).map fun a =>
        if a.isXml "base" then
          { a with value := joinUri (Element.baseAround rule around) a.value } else a := by
  rw [List.map_map, List.map_map]
  exact List.map_congr_left fun own _ => written_joined nonempty own

theorem written_taken (nonempty : Element.baseAround rule around ≠ "") :
    ((e.taken rule around).map (·, xmlPrefix)).map Attribute.written =
      writtenXml ((Request.inherited rule around).filter fun entry => !e.hasXml entry.1) ++
        if e.hasXml "base" then [] else [.ofXml "base" (Element.baseAround rule around)] := by
  unfold Element.taken
  dsimp only
  rw [if_neg nonempty, List.filter_append, List.map_append, List.map_append, List.map_append]
  -- Both are the inherited attributes, and the base URI unless there is one.
  congr 1
  cases own : e.hasXml "base" with
  | true => simp [own]
  | false =>
    rw [List.filter_cons_of_pos (by simp [own])]
    rfl

theorem joinBase_eq (attributes : owns.map Prod.fst = e.attributes)
    (nonempty : Element.baseAround .revised around ≠ "") :
    Request.joinBase (Element.baseAround .revised around) (owns.map Attribute.written ++
      writtenXml ((Request.inherited .revised around).filter fun entry => !e.hasXml entry.1)) =
    (carriedOwns .revised around e owns).map Attribute.written := by
  simp only [carriedOwns]
  rw [List.map_append, map_written_joined nonempty, written_taken nonempty]
  generalize added : writtenXml ((Request.inherited .revised around).filter
    fun entry => !e.hasXml entry.1) = others
  have notBase : ∀ a ∈ others, a.isXml "base" = false := by
    rw [← added]
    exact fun a => not_isXml_base
  have found : (owns.map Attribute.written ++ others).any (·.isXml "base") = e.hasXml "base" := by
    rw [List.any_append, any_isXml attributes, List.any_eq_false.mpr fun a member => by
      rw [notBase a member]
      exact Bool.false_ne_true, Bool.or_false]
  simp only [Request.joinBase]
  rw [if_neg (by simpa using nonempty), found]
  cases own : e.hasXml "base" with
  | true =>
    -- The own base URI is joined, and no other attribute is a base URI.
    rw [if_pos rfl, if_pos rfl, List.map_append, List.append_nil]
    congr 1
    refine (List.map_congr_left fun a member => ?_).trans (List.map_id others)
    rw [notBase a member]
    rfl
  | false =>
    -- There is nothing to join, and the base URI is added.
    rw [if_neg Bool.false_ne_true, if_neg Bool.false_ne_true, List.append_assoc]
    congr 1
    rw [← any_isXml attributes, List.any_eq_false] at own
    refine ((List.map_congr_left fun a member => ?_).trans (List.map_id _)).symm
    exact if_neg (own a member)

theorem inherit_eq (attributes : owns.map Prod.fst = e.attributes) :
    Request.inherit rule around (owns.map Attribute.written) =
      (carriedOwns rule around e owns).map Attribute.written := by
  unfold Request.inherit
  rw [added_eq attributes]
  dsimp only
  split
  · rename_i revised
    subst revised
    by_cases empty : Element.baseAround .revised around = ""
    · rw [inherit_unjoined empty]
      exact if_pos (String.isEmpty_iff.mpr empty)
    · exact joinBase_eq attributes empty
  · rename_i other
    exact (inherit_unjoined (if_neg other)).symm

end Inherit

/-! ## Soundness -/

section Carrying

variable {rule : InheritanceRule} {around : List Ancestor} {e : Element}
  {entry : String × String}

theorem baseAround_ne_empty (nonempty : Element.baseAround rule around ≠ "") :
    rule = .revised ∧ Element.baseAround rule around = Request.inheritedBase around := by
  by_cases revised : rule = .revised
  · exact ⟨revised, if_pos revised⟩
  · exact absurd (if_neg revised) nonempty

theorem mem_xmlAttributes (member : entry ∈ around.flatMap (·.element.xmlAttributes)) :
    ∃ a ∈ around, ∃ own ∈ a.element.attributes, (own.localName, own.value) = entry := by
  obtain ⟨a, inAround, onElement⟩ := List.mem_flatMap.mp member
  obtain ⟨own, inAttributes, same⟩ := List.mem_map.mp onElement
  exact ⟨a, inAround, own, (List.mem_filter.mp inAttributes).1, same⟩

theorem mem_inherited (member : entry ∈ Request.inherited rule around) :
    ∃ a ∈ around, ∃ own ∈ a.element.attributes, (own.localName, own.value) = entry :=
  mem_xmlAttributes (List.mem_filter.mp (Request.firstOfEach_subset _ member)).1

theorem firstOfEach_apart (entries : List (String × String)) :
    (Request.firstOfEach entries).Pairwise (·.1 ≠ ·.1) := by
  induction entries with
  | nil => exact List.Pairwise.nil
  | cons entry rest ih =>
    refine List.pairwise_cons.mpr ⟨?_, ih.filter _⟩
    intro other member same
    have different := (List.mem_filter.mp member).2
    rw [same] at different
    simp at different

/-- Where no name occurs twice, the entries of a name are the first one, if there is any. -/
theorem filter_name_eq {entries : List (String × String)}
    (distinct : (entries.map Prod.fst).Nodup) (name : String) :
    entries.filter (·.1 = name) = (entries.find? (·.1 = name)).toList := by
  induction entries with
  | nil => rfl
  | cons entry rest ih =>
    obtain ⟨other, rest'⟩ := List.nodup_cons.mp distinct
    by_cases same : entry.1 = name
    · have absent : rest.filter (·.1 = name) = [] := by
        rw [List.filter_eq_nil_iff]
        intro later member equal
        exact other (List.mem_map.mpr ⟨later, member, (of_decide_eq_true equal).trans same.symm⟩)
      rw [List.filter_cons_of_pos (by simpa using same), absent,
        List.find?_cons_of_pos (by simpa using same)]
      rfl
    · rw [List.filter_cons_of_neg (by simpa using same), ih rest',
        List.find?_cons_of_neg (by simpa using same)]

/-- The attributes that an element takes come from the elements around it, except for a base URI,
which is joined. -/
theorem mem_taken {a : Attribute} (member : a ∈ e.taken rule around) :
    a.nsUri? = some xmlNamespace ∧ e.hasXml a.localName = false ∧
    ((a.localName, a.value) ∈ Request.inherited rule around ∨
      a.localName = "base" ∧ a.value = Request.inheritedBase around) := by
  obtain ⟨entry, kept, rfl⟩ := List.mem_map.mp member
  obtain ⟨inEntries, unowned⟩ := List.mem_filter.mp kept
  rw [Bool.not_eq_true'] at unowned
  refine ⟨rfl, unowned, ?_⟩
  rcases List.mem_append.mp inEntries with inherited | base
  · exact .inl inherited
  · split at base
    · cases base
    · rename_i nonempty
      rw [List.mem_singleton.mp base]
      exact .inr ⟨rfl, (baseAround_ne_empty nonempty).2⟩

theorem taken_apart (rule : InheritanceRule) (around : List Ancestor) (e : Element) :
    (e.taken rule around).Pairwise Attribute.Apart := by
  have entries : (Request.inherited rule around ++ if Element.baseAround rule around = "" then []
      else [("base", Element.baseAround rule around)]).Pairwise (·.1 ≠ ·.1) := by
    refine List.pairwise_append.mpr ⟨firstOfEach_apart _, ?_, ?_⟩
    · split
      · exact List.Pairwise.nil
      · exact List.pairwise_singleton _ _
    · intro entry inherited other base
      split at base
      · cases base
      · rename_i nonempty
        rw [(baseAround_ne_empty nonempty).1] at inherited
        rw [List.mem_singleton.mp base]
        exact mem_inherited_revised inherited
  simp only [Element.taken]
  refine List.pairwise_map.mpr ((entries.filter _).imp ?_)
  intro entry other different same
  exact different same.2

theorem joined_names (rule : InheritanceRule) (around : List Ancestor) (a : Attribute) :
    (Element.joined rule around a).nsUri? = a.nsUri? ∧
      (Element.joined rule around a).localName = a.localName := by
  unfold Element.joined
  dsimp only
  split
  · exact ⟨rfl, rfl⟩
  · exact ⟨rfl, rfl⟩

theorem sound_joined {own : Attribute} (sound : own.Sound) :
    (Element.joined rule around own).Sound := by
  obtain ⟨uri, localName⟩ := joined_names rule around own
  obtain ⟨named, notXmlns, notXmlnsUri⟩ := sound
  exact ⟨localName ▸ named, localName ▸ notXmlns, uri ▸ notXmlnsUri⟩

theorem sound_taken (others : ∀ a ∈ around, a.element.Sound) {a : Attribute}
    (member : a ∈ e.taken rule around) : a.Sound := by
  obtain ⟨uri, -, source⟩ := mem_taken member
  have notXmlnsUri : a.nsUri? ≠ some xmlnsNamespace := by
    rw [uri]
    decide
  rcases source with inherited | ⟨base, -⟩
  · obtain ⟨b, inAround, own, inAttributes, same⟩ := mem_inherited inherited
    have localName : own.localName = a.localName := congrArg Prod.fst same
    obtain ⟨named, notXmlns, -⟩ := (others b inAround).attributes own inAttributes
    exact ⟨localName ▸ named, localName ▸ notXmlns, notXmlnsUri⟩
  · refine ⟨?_, ?_, notXmlnsUri⟩
    · rw [base]
      decide
    · rw [base]
      decide

theorem joined_apart (apart : e.attributes.Pairwise Attribute.Apart) :
    (e.attributes.map (Element.joined rule around)).Pairwise Attribute.Apart := by
  refine List.pairwise_map.mpr (apart.imp ?_)
  intro a b different same
  rw [(joined_names rule around a).1, (joined_names rule around b).1,
    (joined_names rule around a).2, (joined_names rule around b).2] at same
  exact different same

/-- An element takes no attribute that it has itself. -/
theorem apart_of_taken {a b : Attribute}
    (joined : a ∈ e.attributes.map (Element.joined rule around)) (taken : b ∈ e.taken rule around) :
    a.Apart b := by
  intro same
  obtain ⟨own, inAttributes, rfl⟩ := List.mem_map.mp joined
  obtain ⟨uri, unowned, -⟩ := mem_taken taken
  obtain ⟨sameUri, sameName⟩ := joined_names rule around own
  rw [sameUri, uri, sameName] at same
  have owned := Element.hasXml_iff.mpr ⟨own, inAttributes, same⟩
  rw [unowned] at owned
  cases owned

theorem Element.Sound.carrying (sound : e.Sound) (others : ∀ a ∈ around, a.element.Sound) :
    (e.carrying rule around).Sound := by
  refine ⟨sound.localName, sound.scope, sound.nsUri, ?_, ?_⟩
  · refine List.forall_mem_append.mpr ⟨?_, fun a => sound_taken others⟩
    intro a member
    obtain ⟨own, inAttributes, rfl⟩ := List.mem_map.mp member
    exact sound_joined (sound.attributes own inAttributes)
  · exact List.pairwise_append.mpr ⟨joined_apart sound.apart, taken_apart rule around e,
      fun a joined b taken => apart_of_taken joined taken⟩

theorem isXml_marks : ∀ c ∈ UriParts.marks, Chars.isXml c = true :=
  List.all_eq_true.mp (by decide)

theorem admitted_inheritedBase (others : ∀ a ∈ around, a.element.Admitted) :
    ∀ c ∈ (Request.inheritedBase around).toList, Chars.isXml c = true := by
  simp only [Request.inheritedBase]
  have values : ∀ entry ∈ (around.flatMap (·.element.xmlAttributes)).filter (·.1 = "base"),
      ∀ c ∈ entry.2.toList, Chars.isXml c = true := by
    intro entry member
    obtain ⟨a, inAround, own, inAttributes, rfl⟩ := mem_xmlAttributes (List.mem_filter.mp member).1
    exact (others a inAround).attributes own inAttributes
  generalize (around.flatMap (·.element.xmlAttributes)).filter (·.1 = "base") = entries
    at values ⊢
  -- The URIs are joined one after the other, the innermost last.
  induction entries with
  | nil => exact List.forall_mem_nil _
  | cons entry entries ih =>
    obtain ⟨here, later⟩ := List.forall_mem_cons.mp values
    exact forall_mem_joinUri isXml_marks (ih later) here

theorem Element.Admitted.carrying (admitted : e.Admitted)
    (others : ∀ a ∈ around, a.element.Admitted) : (e.carrying rule around).Admitted := by
  refine ⟨?_, admitted.scope⟩
  refine List.forall_mem_append.mpr ⟨?_, ?_⟩
  · intro a member
    obtain ⟨own, inAttributes, rfl⟩ := List.mem_map.mp member
    unfold Element.joined
    dsimp only
    split
    · rename_i base
      rw [(baseAround_ne_empty base.1).2]
      exact forall_mem_joinUri isXml_marks (admitted_inheritedBase others)
        (admitted.attributes own inAttributes)
    · exact admitted.attributes own inAttributes
  · intro a member
    obtain ⟨-, -, inherited | ⟨-, value⟩⟩ := mem_taken member
    · obtain ⟨b, inAround, own, inAttributes, same⟩ := mem_inherited inherited
      have value : own.value = a.value := congrArg Prod.snd same
      rw [← value]
      exact (others b inAround).attributes own inAttributes
    · rw [value]
      exact admitted_inheritedBase others

end Carrying

/-! ## Written attributes -/

/-- The element whose attributes a start tag has: at the apex of a subtree it takes some from the
elements around it. -/
def Request.carrier (r : Request) (parentOutput : Bool) (around : List Ancestor) (e : Element) :
    Element :=
  if parentOutput then e else e.carrying r.method.inheritance (r.omittedAncestors around)

/-- Around a document element there is nothing to take. -/
theorem Request.carrier_top (r : Request) (parentOutput : Bool) (e : Element) :
    r.carrier parentOutput [] e = e := by
  have noBase : Element.baseAround r.method.inheritance [] = "" := by
    simp only [Element.baseAround]
    split
    · rfl
    · rfl
  have nothing : e.taken r.method.inheritance [] = [] := by
    simp only [Element.taken]
    rw [noBase]
    rfl
  simp only [Request.carrier]
  split
  · rfl
  · show e.carrying r.method.inheritance [] = e
    simp only [Element.carrying]
    rw [nothing, List.append_nil, List.map_congr_left fun a _ => joined_of_base noBase a]
    exact congrArg (fun attributes => { e with attributes }) (List.map_id _)

theorem sort_written (owns : List (Attribute × String)) :
    ∃ sorted : List (Attribute × String), sorted.Perm owns ∧
      WrittenAttribute.sort (owns.map Attribute.written) = sorted.map Attribute.written := by
  refine ⟨owns.mergeSort fun a b => (Attribute.written a).precedes (Attribute.written b),
    List.mergeSort_perm _ _, ?_⟩
  symm
  apply List.map_mergeSort
  intro a _ b _
  rfl

/-- The attributes of a start tag are those of the carrier with their prefixes: the element's own,
a base perhaps joined, and those that it takes from around it. -/
theorem Request.exists_owns {r : Request} {axis : NamespaceAxis} {loc : Location}
    {e : Element} {names : Spelling} {parentOutput : Bool} {attributes : List WrittenAttribute}
    (included : r.excludesAttributes = false)
    (aligned : e.attributes.length = names.attributePrefixes.length)
    (written : r.writtenAttributes axis loc e names parentOutput = .ok attributes) :
    ∃ owns : List (Attribute × String),
      attributes = WrittenAttribute.sort (owns.map Attribute.written) ∧
      owns.map Prod.fst = (r.carrier parentOutput loc.ancestors e).attributes ∧
      names.attributePrefixes ⊆ owns.map Prod.snd ∧
      ∀ own ∈ owns, (own.2 = xmlPrefix ∧ own.1.nsUri? = some xmlNamespace) ∨
        ∃ unjoined, (unjoined, own.2) ∈ e.attributes.zip names.attributePrefixes ∧
          own.1.nsUri? = unjoined.nsUri? ∧ (own.2 = "" ∨ axis.uri? own.2 ≠ none) := by
  rcases writtenAttributes_cases written with ⟨excluded, -⟩ | ⟨-, own, found, rfl⟩
  · rw [included] at excluded
    cases excluded
  obtain ⟨rfl, checked⟩ := ownAttributes_eq_ok.mp found
  have attributes : (e.attributes.zip names.attributePrefixes).map Prod.fst = e.attributes :=
    List.map_fst_zip (Nat.le_of_eq aligned)
  have prefixes : (e.attributes.zip names.attributePrefixes).map Prod.snd =
      names.attributePrefixes := List.map_snd_zip (Nat.le_of_eq aligned.symm)
  cases parentOutput with
  | true =>
    refine ⟨_, rfl, attributes, ?_, fun own member => .inr ?_⟩
    · rw [prefixes]
      exact List.Subset.refl _
    · exact ⟨own.1, member, rfl, checked own member⟩
  | false =>
    -- The element stands at an apex, and takes attributes from around it.
    refine ⟨carriedOwns r.method.inheritance (r.omittedAncestors loc.ancestors) e
      (e.attributes.zip names.attributePrefixes), ?_, carriedOwns_fst attributes, ?_, ?_⟩
    · rw [← inherit_eq attributes]
      rfl
    · rw [carriedOwns_snd, prefixes]
      exact List.subset_append_left _ _
    · intro own member
      rcases List.mem_append.mp member with spelled | added
      · obtain ⟨unjoined, inElement, rfl⟩ := List.mem_map.mp spelled
        exact .inr ⟨unjoined.1, inElement, (joined_names _ _ _).1, checked unjoined inElement⟩
      · obtain ⟨a, inTaken, rfl⟩ := List.mem_map.mp added
        exact .inl ⟨rfl, (mem_taken inTaken).1⟩

/-- The attributes with their prefixes, in canonical order. -/
theorem Request.writtenAttributes_eq {r : Request} {axis : NamespaceAxis} {loc : Location}
    {e : Element} {names : Spelling} {parentOutput : Bool} {attributes : List WrittenAttribute}
    (included : r.excludesAttributes = false)
    (aligned : e.attributes.length = names.attributePrefixes.length)
    (written : r.writtenAttributes axis loc e names parentOutput = .ok attributes) :
    ∃ owns : List (Attribute × String), attributes = owns.map Attribute.written ∧
      (owns.map Attribute.written).Pairwise (fun a b => a.precedes b = true) ∧
      (owns.map Prod.fst).Perm (r.carrier parentOutput loc.ancestors e).attributes ∧
      names.attributePrefixes ⊆ owns.map Prod.snd ∧
      ∀ own ∈ owns, (own.2 = xmlPrefix ∧ own.1.nsUri? = some xmlNamespace) ∨
        ∃ unjoined, (unjoined, own.2) ∈ e.attributes.zip names.attributePrefixes ∧
          own.1.nsUri? = unjoined.nsUri? ∧ (own.2 = "" ∨ axis.uri? own.2 ≠ none) := by
  obtain ⟨owns, rfl, attributes, prefixes, known⟩ := exists_owns included aligned written
  obtain ⟨sorted, perm, same⟩ := sort_written owns
  refine ⟨sorted, same, same ▸ WrittenAttribute.sorted_sort _, ?_, ?_, ?_⟩
  · exact attributes ▸ perm.map Prod.fst
  · exact List.Subset.trans prefixes (perm.map Prod.snd).symm.subset
  · exact fun own member => known own (perm.subset member)

end CanonicalXml
