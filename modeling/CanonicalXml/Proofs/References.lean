import CanonicalXml.Selection
import CanonicalXml.Proofs.Parsed.Drafts
import Mathlib.Data.List.Basic
import Mathlib.Data.List.Pairwise

/-! # What a reference selects

A reference names an identifier or is about no element.  The element that it selects is the last
one in document order that carries the identifier, in an attribute in no namespace that has the
name of an identifier.

* `Attribute.Holds`, `Location.Carries`, `Document.carrier?` — the elements with an identifier.
* `Reference.Names` — the texts that point to an identifier; `Reference.pointerId?_eq_some` — how
  they are read.
* `IdTable.find?_ids` — the table of a document finds the last element.
* `Document.select_cases` — all that a reference can come to; `Document.select_carrier` — what it
  selects in a document that was read.
* `Document.select_misses_prefixed` — an attribute with a prefix is not found.
-/

namespace CanonicalXml

/-! ## Identifiers -/

/-- The attribute is in no namespace, has one of the names, and its value is the identifier. -/
def Attribute.Holds (names : List String) (id : String) (a : Attribute) : Prop :=
  a.nsUri? = none ∧ a.localName ∈ names ∧ a.value = id

instance (names : List String) (id : String) : DecidablePred (Attribute.Holds names id) :=
  fun a => inferInstanceAs (Decidable (a.nsUri? = none ∧ a.localName ∈ names ∧ a.value = id))

/-- An element stands there with an attribute that holds the identifier. -/
def Location.Carries (names : List String) (id : String) (loc : Location) : Prop :=
  ∃ e ∈ loc.element?, ∃ a ∈ e.attributes, a.Holds names id

instance (names : List String) (id : String) : DecidablePred (Location.Carries names id) :=
  fun loc => inferInstanceAs (Decidable (∃ e ∈ loc.element?, ∃ a ∈ e.attributes, a.Holds names id))

/-- The last element in document order that carries the identifier. -/
def Document.carrier? (d : Document) (names : List String) (id : String) : Option Location :=
  (d.locations.filter (·.Carries names id)).getLast?

namespace Reference

/-- The pointer to an identifier. -/
def idPointer (quote : Char) (id : String) : String :=
  "xpointer(id(" ++ String.singleton quote ++ id ++ String.singleton quote ++ "))"

/-- The quotes that a pointer can have. -/
def quotes : List Char := ['\'', '"']

/-- The references to an identifier: a pointer with either quote, and the identifier itself where
it is not taken for a pointer. -/
inductive Names (id : String) : String → Prop where
  | pointer {quote : Char} (known : quote ∈ quotes) : Names id ("#" ++ idPointer quote id)
  | bare (notRoot : id ≠ "xpointer(/)")
      (noPointer : ∀ quote ∈ quotes, ∀ other, id ≠ idPointer quote other) : Names id ("#" ++ id)

end Reference

/-! ## Reading references -/

namespace Text

theorem stripEnd?_eq_some {mark cs rest : List Char} :
    stripEnd? mark cs = some rest ↔ cs = rest ++ mark := by
  rw [stripEnd?, Option.map_eq_some_iff]
  constructor
  · rintro ⟨reversed, strips, rfl⟩
    rw [strip?_eq_some] at strips
    simpa using congrArg List.reverse strips
  · rintro rfl
    exact ⟨rest.reverse, by rw [List.reverse_append, strip?_append], rest.reverse_reverse⟩

end Text

namespace Reference

theorem quotedBy?_eq_some {quote : Char} {cs rest : List Char} :
    quotedBy? quote cs = some rest ↔ cs = quote :: (rest ++ [quote]) := by
  simp only [quotedBy?, Option.bind_eq_some_iff, Text.strip?_eq_some, Text.stripEnd?_eq_some]
  constructor
  · rintro ⟨inner, rfl, rfl⟩
    rfl
  · rintro rfl
    exact ⟨_, rfl, rfl⟩

/-- A text is quoted in one way only. -/
theorem quoted_iff {inner rest : List Char} :
    (quotedBy? '\'' inner).or (quotedBy? '"' inner) = some rest ↔
      ∃ quote ∈ quotes, inner = quote :: (rest ++ [quote]) := by
  have either : (∃ quote ∈ quotes, inner = quote :: (rest ++ [quote])) ↔
      inner = '\'' :: (rest ++ ['\'']) ∨ inner = '"' :: (rest ++ ['"']) := by
    simp [quotes]
  rw [either, Option.or_eq_some_iff, quotedBy?_eq_some, quotedBy?_eq_some]
  refine or_congr_right ⟨And.right, fun double => ⟨?_, double⟩⟩
  rw [double]
  rfl

theorem toList_idPointer (quote : Char) (id : String) :
    (idPointer quote id).toList =
      "xpointer(id(".toList ++ (quote :: (id.toList ++ [quote]) ++ "))".toList) := by
  delta idPointer
  simp

/-- An identifier is read off exactly the pointers to it. -/
theorem pointerId?_eq_some {pointer id : String} :
    pointerId? pointer = some id ↔ ∃ quote ∈ quotes, pointer = idPointer quote id := by
  simp only [pointerId?, Option.bind_eq_some_iff, Option.map_eq_some_iff, Text.strip?_eq_some,
    Text.stripEnd?_eq_some, quoted_iff]
  constructor
  · rintro ⟨inner, ⟨behind, split, rfl⟩, rest, ⟨quote, known, rfl⟩, rfl⟩
    refine ⟨quote, known, String.toList_inj.mp ?_⟩
    rw [split, toList_idPointer, String.toList_ofList (l := rest)]
  · rintro ⟨quote, known, rfl⟩
    exact ⟨_, ⟨_, toList_idPointer quote id, rfl⟩, id.toList, ⟨quote, known, rfl⟩,
      String.ofList_toList⟩

theorem fragment?_eq_some {reference fragment : String} :
    fragment? reference = some fragment ↔ reference = "#" ++ fragment := by
  simp only [fragment?, Option.map_eq_some_iff, Text.strip?_eq_some]
  constructor
  · rintro ⟨cs, split, rfl⟩
    exact String.toList_inj.mp (split.trans (by simp))
  · rintro rfl
    exact ⟨fragment.toList, by simp, String.ofList_toList⟩

/-- What a fragment other than the pointer to the root refers to. -/
theorem names_fragment {fragment : String} (notRoot : fragment ≠ "xpointer(/)") :
    Names ((pointerId? fragment).getD fragment) ("#" ++ fragment) := by
  cases read : pointerId? fragment with
  | some id =>
    obtain ⟨quote, known, rfl⟩ := pointerId?_eq_some.mp read
    exact .pointer known
  | none =>
    refine .bare notRoot fun quote known other same => ?_
    have pointer := pointerId?_eq_some.mpr ⟨quote, known, same⟩
    exact nomatch read.symm.trans pointer

/-- What a reference names is what is read off it. -/
theorem Names.fragment {id reference : String} (names : Names id reference) :
    ∃ fragment, reference = "#" ++ fragment ∧ fragment ≠ "xpointer(/)" ∧
      (pointerId? fragment).getD fragment = id := by
  cases names with
  | @pointer quote known =>
    have read : pointerId? (idPointer quote id) = some id :=
      pointerId?_eq_some.mpr ⟨quote, known, rfl⟩
    refine ⟨_, rfl, fun same => ?_, by rw [read]; rfl⟩
    have noPointer : pointerId? "xpointer(/)" = none := by decide
    rw [same, noPointer] at read
    cases read
  | bare notRoot noPointer =>
    refine ⟨id, rfl, notRoot, ?_⟩
    cases read : pointerId? id with
    | none => rfl
    | some other =>
      obtain ⟨quote, known, same⟩ := pointerId?_eq_some.mp read
      exact absurd same (noPointer quote known other)

end Reference

/-! ## Looking up identifiers -/

/-- No two attributes have the same name, so that the first one of a name is the only one. -/
theorem Element.attribute?_eq_some {e : Element} (apart : e.attributes.Pairwise Attribute.Apart)
    {name value : String} :
    e.attribute? name = some value ↔
      ∃ a ∈ e.attributes, a.nsUri? = none ∧ a.localName = name ∧ a.value = value := by
  let isNamed := fun a : Attribute => a.nsUri?.isNone && decide (a.localName = name)
  have isNamed_iff : ∀ a, isNamed a = true ↔ a.nsUri? = none ∧ a.localName = name := by
    intro a
    rw [Bool.and_eq_true, Option.isNone_iff_eq_none, decide_eq_true_eq]
  rw [attribute?, Option.map_eq_some_iff]
  constructor
  · rintro ⟨a, found, same⟩
    have picked : isNamed a = true := List.find?_some found
    obtain ⟨plain, named⟩ := (isNamed_iff a).mp picked
    exact ⟨a, List.mem_of_find?_eq_some found, plain, named, same⟩
  · rintro ⟨a, member, plain, named, same⟩
    have picks : (e.attributes.find? isNamed).isSome :=
      List.find?_isSome.mpr ⟨a, member, (isNamed_iff a).mpr ⟨plain, named⟩⟩
    obtain ⟨first, found⟩ := Option.isSome_iff_exists.mp picks
    obtain ⟨plain', named'⟩ := (isNamed_iff first).mp (List.find?_some found)
    have symmetric : Std.Symm Attribute.Apart :=
      ⟨fun a b apart same => apart ⟨same.1.symm, same.2.symm⟩⟩
    have only : first = a := by
      by_contra different
      exact apart.forall (List.mem_of_find?_eq_some found) member different
        ⟨plain'.trans plain.symm, named'.trans named.symm⟩
    exact ⟨first, found, only ▸ same⟩

namespace Location

variable {names : List String} {id : String} {loc other : Location}

theorem mem_idsAt (apart : ∀ e ∈ loc.element?, e.attributes.Pairwise Attribute.Apart) :
    (id, other) ∈ loc.idsAt names ↔ loc.Carries names id ∧ other = loc := by
  simp only [idsAt, Carries, Attribute.Holds]
  cases here : loc.element? with
  | none => simp
  | some e =>
    simp only [List.mem_filterMap, Option.map_eq_some_iff,
      Element.attribute?_eq_some (apart e here)]
    constructor
    · rintro ⟨name, known, value, ⟨a, member, plain, named, same⟩, pair⟩
      cases pair
      exact ⟨⟨e, rfl, a, member, plain, named ▸ known, same⟩, rfl⟩
    · rintro ⟨⟨_, ⟨⟩, a, member, plain, known, same⟩, rfl⟩
      exact ⟨a.localName, known, id, ⟨a, member, plain, rfl, same⟩, rfl⟩

/-- The part of the table that comes from one place. -/
theorem lookup_idsAt (apart : ∀ e ∈ loc.element?, e.attributes.Pairwise Attribute.Apart) :
    (loc.idsAt names).reverse.lookup id = if loc.Carries names id then some loc else none := by
  split
  · rename_i carries
    have member := List.mem_reverse.mpr ((mem_idsAt apart).mpr ⟨carries, rfl⟩)
    cases found : (loc.idsAt names).reverse.lookup id with
    | none => exact absurd (List.lookup_eq_none_iff.mp found _ member) (by simp)
    | some first =>
      obtain ⟨before, after, split, -⟩ := List.lookup_eq_some_iff.mp found
      have listed : (id, first) ∈ (loc.idsAt names).reverse := by simp [split]
      rw [((mem_idsAt apart).mp (List.mem_reverse.mp listed)).2]
  · rename_i missing
    refine List.lookup_eq_none_iff.mpr fun entry member => bne_iff_ne.mpr ?_
    rintro rfl
    exact missing ((mem_idsAt apart).mp (List.mem_reverse.mp member)).1

/-- A later place takes an identifier from an earlier one. -/
theorem lookup_flatMap_idsAt {locs : List Location}
    (apart : ∀ loc ∈ locs, ∀ e ∈ loc.element?, e.attributes.Pairwise Attribute.Apart) :
    (locs.flatMap (idsAt names)).reverse.lookup id =
      (locs.filter (·.Carries names id)).getLast? := by
  induction locs with
  | nil => rfl
  | cons loc locs ih =>
    obtain ⟨apartHere, apart⟩ := List.forall_mem_cons.mp apart
    rw [List.flatMap_cons, List.reverse_append, List.lookup_append, ih apart,
      lookup_idsAt apartHere]
    by_cases carries : loc.Carries names id
    · rw [if_pos carries, List.filter_cons_of_pos (by simpa using carries), List.getLast?_cons]
      cases (locs.filter (·.Carries names id)).getLast? with
      | none => rfl
      | some last => rfl
    · rw [if_neg carries, List.filter_cons_of_neg (by simpa using carries), Option.or_none]

end Location

/-- The table of a document that was read has the last element for each identifier. -/
theorem IdTable.find?_ids {text : String} {options : ReadOptions} {d : Document}
    (parsed : Document.read text options = .ok d) (names : List String) (id : String) :
    IdTable.find? (d.ids names) id = d.carrier? (defaultIdNames ++ names) id := by
  refine Location.lookup_flatMap_idsAt fun loc member e here => ?_
  exact (Location.of_element? (Document.sound_of_read parsed).1 member here).apart

/-! ## Selecting -/

namespace Document

variable {d : Document}

theorem mem_of_carrier? {names : List String} {id : String} {loc : Location}
    (last : d.carrier? names id = some loc) : loc ∈ d.locations ∧ loc.Carries names id := by
  have member := List.mem_of_getLast? last
  rw [List.mem_filter, decide_eq_true_eq] at member
  exact member

theorem select_of_names (ids : IdTable) {id reference : String}
    (names : Reference.Names id reference) :
    d.select ids reference =
      (ids.find? id).elim (.error (.unknownId id)) fun loc => .ok (.node loc) := by
  obtain ⟨fragment, rfl, notRoot, read⟩ := names.fragment
  have nonempty : ("#" ++ fragment).isEmpty = false := by simp
  simp only [select, nonempty, Reference.fragment?_eq_some.mpr rfl, if_neg notRoot, read]
  cases ids.find? id with
  | none => rfl
  | some loc => rfl

theorem select_foreign (ids : IdTable) {reference : String} (nonempty : reference ≠ "")
    (foreign : Reference.fragment? reference = none) :
    d.select ids reference = .error (.foreignReference reference) := by
  simp [select, nonempty, foreign]

/-- All that a reference can come to. -/
theorem select_cases (d : Document) (ids : IdTable) (reference : String) :
    d.select ids reference = .ok (.document d.content) ∨
      d.select ids reference = .error (.foreignReference reference) ∨
      ∃ id, Reference.Names id reference ∧ d.select ids reference =
        (ids.find? id).elim (.error (.unknownId id)) fun loc => .ok (.node loc) := by
  by_cases empty : reference = ""
  · rw [empty]
    exact .inl rfl
  cases split : Reference.fragment? reference with
  | none => exact .inr (.inl (select_foreign ids empty split))
  | some fragment =>
    obtain rfl := Reference.fragment?_eq_some.mp split
    by_cases root : fragment = "xpointer(/)"
    · rw [root]
      exact .inl rfl
    · have named := Reference.names_fragment root
      exact .inr (.inr ⟨_, named, select_of_names ids named⟩)

/-- A reference that selects an element names an identifier. -/
theorem names_of_select {ids : IdTable} {reference : String} {loc : Location}
    (selects : d.select ids reference = .ok (.node loc)) :
    ∃ id, Reference.Names id reference ∧ ids.find? id = some loc := by
  rcases d.select_cases ids reference with whole | foreign | ⟨id, named, same⟩
  · cases whole.symm.trans selects
  · cases foreign.symm.trans selects
  · refine ⟨id, named, ?_⟩
    have result := same.symm.trans selects
    cases found : ids.find? id with
    | none =>
      rw [found] at result
      cases result
    | some first =>
      rw [found] at result
      cases result
      rfl

theorem message_foreignReference (reference : String) :
    (Fault.foreignReference reference).message =
      "invalid XML structure: " ++ ("not a same-document reference: " ++ reference) := by
  have wording : "invalid XML structure: " ++ "not a same-document reference: " =
      "invalid XML structure: not a same-document reference: " := by decide +kernel
  rw [← String.append_assoc, wording]
  rfl

theorem message_unknownId (id : String) :
    (Fault.unknownId id).message = "invalid XML structure: " ++ ("ID not found: " ++ id) := by
  have wording : "invalid XML structure: " ++ "ID not found: " =
      "invalid XML structure: ID not found: " := by decide +kernel
  rw [← String.append_assoc, wording]
  rfl

/-- Whatever is wrong with a reference, the report is about the structure of the document. -/
theorem message_of_select {ids : IdTable} {reference : String} {fault : Fault}
    (fails : d.select ids reference = .error fault) :
    ∃ cause, fault.message = "invalid XML structure: " ++ cause := by
  rcases d.select_cases ids reference with whole | foreign | ⟨id, named, same⟩
  · cases whole.symm.trans fails
  · cases foreign.symm.trans fails
    exact ⟨_, message_foreignReference reference⟩
  · have result := same.symm.trans fails
    cases found : ids.find? id with
    | none =>
      rw [found] at result
      cases result
      exact ⟨_, message_unknownId id⟩
    | some first =>
      rw [found] at result
      cases result

/-- Which place a reference selects in a document that was read.  The names given are those that
attributes with identifiers have besides the usual ones. -/
theorem select_carrier {text : String} {options : ReadOptions}
    (parsed : Document.read text options = .ok d) (names : List String) :
    let ids := d.ids names
    let idNames := defaultIdNames ++ names
    (∀ id reference, Reference.Names id reference →
      d.select ids reference =
        (d.carrier? idNames id).elim (.error (.unknownId id)) fun loc => .ok (.node loc)) ∧
    (∀ reference, reference ≠ "" → reference.toList.head? ≠ some '#' →
      d.select ids reference = .error (.foreignReference reference)) ∧
    (∀ reference fault, d.select ids reference = .error fault →
      ∃ cause, fault.message = "invalid XML structure: " ++ cause) ∧
    ∀ reference loc, d.select ids reference = .ok (.node loc) →
      ∃ id, Reference.Names id reference ∧ loc ∈ d.locations ∧ loc.Carries idNames id := by
  intro ids idNames
  refine ⟨?_, ?_, fun _ _ => message_of_select, ?_⟩
  · intro id reference named
    rw [select_of_names ids named, IdTable.find?_ids parsed]
  · intro reference nonempty foreign
    refine select_foreign ids nonempty ?_
    refine Option.eq_none_iff_forall_ne_some.mpr fun fragment found => foreign ?_
    rw [Reference.fragment?_eq_some.mp found]
    simp
  · intro reference loc selects
    obtain ⟨id, named, found⟩ := names_of_select selects
    rw [IdTable.find?_ids parsed] at found
    exact ⟨id, named, mem_of_carrier? found⟩

/-- An identifier that occurs twice, under two names and once in a pointer's syntax. -/
theorem select_carrier_repeated :
    let text := "<r><a Id=\"'))\"/><b own=\"'))\"/><c own='))'/></r>"
    ∃ d loc, Document.read text = .ok d ∧ d.locate? 3 = some loc ∧
      d.select (d.ids ["own"]) "#'))" = .ok (.node loc) ∧
      d.select (d.ids ["own"]) "#xpointer(id(''))'))" = .ok (.node loc) ∧
      (∃ id, Reference.Names id "#'))" ∧ loc.Carries (defaultIdNames ++ ["own"]) id) ∧
      d.select (d.ids ["own"]) "x#'))" = .error (.foreignReference "x#'))") := by
  intro text
  let d := (Document.read text).toOption.getD ⟨"", .nil⟩
  let loc := (d.locate? 3).getD (.top d.content)
  have parsed : Document.read text = .ok d := by decide +kernel
  have located : d.locate? 3 = some loc := by decide +kernel
  have last : d.carrier? (defaultIdNames ++ ["own"]) "'))" = some loc := by decide +kernel
  have bare : Reference.Names "'))" "#'))" := @Reference.names_fragment "'))" (by decide)
  have known : '\'' ∈ Reference.quotes := by decide
  have pointer : Reference.Names "'))" "#xpointer(id(''))'))" := .pointer known
  obtain ⟨finds, refuses, -, carries⟩ := select_carrier parsed ["own"]
  have byBare := finds _ _ bare
  have byPointer := finds _ _ pointer
  rw [last] at byBare byPointer
  obtain ⟨id, named, -, carried⟩ := carries _ _ byBare
  exact ⟨d, loc, parsed, located, byBare, byPointer, ⟨id, named, carried⟩,
    refuses "x#'))" (by decide) (by decide)⟩

/-- An attribute with a prefix is in a namespace.  The table does not have its identifier, although
`Id` is a usual name and given once more. -/
theorem select_misses_prefixed :
    let text := "<r xmlns:wsu='u'><a wsu:Id='one'/></r>"
    ∃ d loc, Document.read text = .ok d ∧
      (d.locations.filter fun loc => ∃ e ∈ loc.element?, ∃ a ∈ e.attributes,
        a.localName ∈ defaultIdNames ++ ["Id"] ∧ a.value = "one").getLast? = some loc ∧
      d.select (d.ids ["Id"]) "#one" = .error (.unknownId "one") := by
  intro text
  let d := (Document.read text).toOption.getD ⟨"", .nil⟩
  let loc := (d.locate? 2).getD (.top d.content)
  refine ⟨d, loc, ?_⟩
  decide +kernel

end Document

end CanonicalXml
