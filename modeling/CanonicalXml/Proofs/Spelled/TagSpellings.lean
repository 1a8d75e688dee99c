import CanonicalXml.Proofs.Spelled.Names
import CanonicalXml.StartTag

/-! # Spellings of start tags

A start tag leaves open how much white space there is, which quotes are used and how the tag ends.
The reader of spelled tags finds the same in all spellings, and whatever follows them.

* `AttributeSpelling`, `TagSpelling` — what can be chosen.
* `Text.until?_append`, `Text.trimEnd_append` — delimiters are found where they were put.
* `StartTag.attributes?_spellings`, `StartTag.readChars?_spelling` — what was spelled is read.
* `StartTag.Splits` — declarations and other attributes, told apart by their names.
* `StartTag.read?_spelling` — a tag is read with its attributes, which are split in order.
-/

namespace CanonicalXml

namespace Text

/-- White space, if anything. -/
def IsBlank (cs : List Char) : Prop :=
  ∀ c ∈ cs, Chars.isSpace c = true

instance : DecidablePred IsBlank := fun _ =>
  decidable_of_iff _ List.all_eq_true

variable {spaces cs rest : List Char}

theorem skipSpace_append (blank : IsBlank spaces) (ends : Ends Chars.isSpace rest) :
    skipSpace (spaces ++ rest) = rest :=
  dropWhile_append blank ends

theorem until?_append {c : Char} {before : List Char} (absent : c ∉ before) (rest : List Char) :
    until? [c] (before ++ c :: rest) = some (before, rest) := by
  induction before with
  | nil =>
    rw [List.nil_append, until?]
    have found : strip? [c] (c :: rest) = some rest := strip?_append [c] rest
    rw [found]
  | cons d before ih =>
    have different : c ≠ d := fun h => absent (h ▸ List.mem_cons_self)
    have later : c ∉ before := fun h => absent (List.mem_cons_of_mem d h)
    have notHere : strip? [c] (d :: (before ++ c :: rest)) = none := by
      rw [strip?, if_neg different]
    rw [List.cons_append, until?, notHere]
    dsimp only
    rw [ih later]
    rfl

theorem trimEnd_append (solid : ∀ c ∈ cs, Chars.isSpace c = false) (blank : IsBlank spaces) :
    trimEnd (cs ++ spaces) = cs := by
  have ends : Ends Chars.isSpace cs.reverse := fun c first =>
    solid c (List.mem_reverse.mp (List.mem_of_mem_head? first))
  have trailing : IsBlank spaces.reverse := fun c member => blank c (List.mem_reverse.mp member)
  rw [trimEnd, List.reverse_append, skipSpace_append trailing ends, List.reverse_reverse]

end Text

open Text

/-! ## Spellings -/

/-- A name that has none of the characters around names in a tag. -/
structure IsTagName (name : String) : Prop where
  nonempty : name ≠ ""
  solid : ∀ c ∈ name.toList, Chars.isSpace c = false ∧ c ≠ '=' ∧ c ≠ '/' ∧ c ≠ '>'

instance : DecidablePred IsTagName := fun name =>
  decidable_of_iff (name ≠ "" ∧ (name.toList.all fun c =>
      !Chars.isSpace c && c ≠ '=' && c ≠ '/' && c ≠ '>') = true) (by
    simp only [List.all_eq_true, Bool.and_eq_true, Bool.not_eq_true', decide_eq_true_eq, and_assoc]
    exact ⟨fun h => ⟨h.1, h.2⟩, fun h => ⟨h.nonempty, h.solid⟩⟩)

/-- An attribute with the white space before it and around its equals sign. -/
structure AttributeSpelling where
  gap : List Char
  qname : String
  beforeEquals : List Char
  afterEquals : List Char
  quote : Char
  value : String

namespace AttributeSpelling

structure Valid (s : AttributeSpelling) : Prop where
  apart : s.gap ≠ []
  gap : IsBlank s.gap
  qname : IsTagName s.qname
  beforeEquals : IsBlank s.beforeEquals
  afterEquals : IsBlank s.afterEquals
  quote : s.quote = '"' ∨ s.quote = '\''
  value : s.quote ∉ s.value.toList

instance : DecidablePred Valid := fun s =>
  decidable_of_iff (s.gap ≠ [] ∧ IsBlank s.gap ∧ IsTagName s.qname ∧ IsBlank s.beforeEquals ∧
      IsBlank s.afterEquals ∧ (s.quote = '"' ∨ s.quote = '\'') ∧ s.quote ∉ s.value.toList)
    ⟨fun ⟨apart, gap, qname, before, after, quote, value⟩ =>
      ⟨apart, gap, qname, before, after, quote, value⟩,
    fun ⟨apart, gap, qname, before, after, quote, value⟩ =>
      ⟨apart, gap, qname, before, after, quote, value⟩⟩

/-- The characters behind the gap. -/
def body (s : AttributeSpelling) : List Char :=
  s.qname.toList ++ s.beforeEquals ++
    '=' :: (s.afterEquals ++ s.quote :: (s.value.toList ++ [s.quote]))

def chars (s : AttributeSpelling) : List Char :=
  s.gap ++ s.body

/-- The attribute that is spelled. -/
def raw (s : AttributeSpelling) : RawAttribute :=
  ⟨s.qname, s.value⟩

end AttributeSpelling

/-- A start tag with the white space before its end; `closed` if it is an end tag as well. -/
structure TagSpelling where
  qname : String
  attributes : List AttributeSpelling
  gap : List Char
  closed : Bool

namespace TagSpelling

structure Valid (s : TagSpelling) : Prop where
  qname : IsTagName s.qname
  attributes : ∀ a ∈ s.attributes, a.Valid
  gap : IsBlank s.gap

instance : DecidablePred Valid := fun s =>
  decidable_of_iff (IsTagName s.qname ∧ s.attributes.all (·.Valid) = true ∧ IsBlank s.gap) (by
    simp only [List.all_eq_true, decide_eq_true_eq]
    exact ⟨fun ⟨qname, attributes, gap⟩ => ⟨qname, attributes, gap⟩,
      fun ⟨qname, attributes, gap⟩ => ⟨qname, attributes, gap⟩⟩)

def ending (s : TagSpelling) : List Char :=
  s.gap ++ if s.closed then ['/', '>'] else ['>']

def chars (s : TagSpelling) : List Char :=
  '<' :: (s.qname.toList ++ (s.attributes.flatMap AttributeSpelling.chars ++ s.ending))

def text (s : TagSpelling) : String :=
  String.ofList s.chars

/-- The tag that is spelled. -/
def tag (s : TagSpelling) : StartTag :=
  ⟨s.qname, s.attributes.map AttributeSpelling.raw⟩

end TagSpelling

/-! ## Reading -/

namespace IsTagName

variable {name : String}

theorem toList_ne_nil (isName : IsTagName name) : name.toList ≠ [] :=
  mt String.toList_eq_nil_iff.mp isName.nonempty

theorem not_endsName (isName : IsTagName name) :
    ∀ c ∈ name.toList, (!StartTag.endsName c) = true := by
  intro c member
  obtain ⟨notSpace, -, notSlash, notBracket⟩ := isName.solid c member
  simp [StartTag.endsName, notSpace, notSlash, notBracket]

end IsTagName

theorem Markup.IsName.isTagName {name : String} (isName : IsName name.toList) : IsTagName name where
  nonempty := mt String.toList_eq_nil_iff.mpr isName.ne_nil
  solid := fun c member =>
    have named := isName.all c member
    ⟨Chars.not_isSpace_of_isName named, Chars.ne_of_isName named (by decide),
      Chars.ne_of_isName named (by decide), Chars.ne_of_isName named (by decide)⟩

namespace StartTag

variable {cs rest : List Char}

theorem attributes?_of_atEnd (ends : atEnd (skipSpace cs) = true) : attributes? cs = some [] := by
  rw [attributes?, if_pos ends]

theorem attributes?_of_attribute? {raw : RawAttribute} (goesOn : atEnd (skipSpace cs) = false)
    (read : attribute? (skipSpace cs) = some (raw, rest)) :
    attributes? cs = (attributes? rest).map (raw :: ·) := by
  rw [attributes?, goesOn, if_neg Bool.false_ne_true]
  split
  · rename_i nothing
    rw [read] at nothing
    cases nothing
  · rename_i found
    rw [read] at found
    cases found
    rfl

section Attributes

variable {s : AttributeSpelling}

/-- An attribute begins with a character of its name. -/
theorem exists_body_append (valid : s.Valid) (rest : List Char) :
    ∃ c cs, s.body ++ rest = c :: cs ∧ Chars.isSpace c = false ∧ c ≠ '/' ∧ c ≠ '>' := by
  obtain ⟨c, cs, same⟩ := List.exists_cons_of_ne_nil valid.qname.toList_ne_nil
  obtain ⟨notSpace, -, notSlash, notBracket⟩ :=
    valid.qname.solid c (same ▸ List.mem_cons_self)
  have begins : ∃ later, s.body ++ rest = c :: later := by
    rw [AttributeSpelling.body, same]
    exact ⟨_, rfl⟩
  obtain ⟨later, begins⟩ := begins
  exact ⟨c, later, begins, notSpace, notSlash, notBracket⟩

theorem skipSpace_chars (valid : s.Valid) (rest : List Char) :
    skipSpace (s.chars ++ rest) = s.body ++ rest := by
  obtain ⟨c, cs, same, notSpace, -⟩ := exists_body_append valid rest
  rw [AttributeSpelling.chars, List.append_assoc, same]
  exact skipSpace_append valid.gap (ends_cons notSpace)

theorem not_atEnd_body (valid : s.Valid) (rest : List Char) : atEnd (s.body ++ rest) = false := by
  obtain ⟨c, cs, same, -, notSlash, notBracket⟩ := exists_body_append valid rest
  rw [same]
  simp only [atEnd]
  split
  · rename_i closes
    exact absurd (List.cons.inj closes).1 notBracket
  · rename_i closes
    exact absurd (List.cons.inj closes).1 notSlash
  · rfl

theorem attribute?_body (valid : s.Valid) (rest : List Char) :
    attribute? (s.body ++ rest) = some (s.raw, rest) := by
  have solid : ∀ c ∈ s.qname.toList, Chars.isSpace c = false :=
    fun c member => (valid.qname.solid c member).1
  have noEquals : '=' ∉ s.qname.toList ++ s.beforeEquals := by
    rw [List.mem_append, not_or]
    exact ⟨fun member => (valid.qname.solid _ member).2.1 rfl,
      fun member => absurd (valid.beforeEquals _ member) (by decide)⟩
  have notSpace : Chars.isSpace s.quote = false := by
    rcases valid.quote with quote | quote <;> rw [quote] <;> decide
  have spelled : s.body ++ rest = s.qname.toList ++ s.beforeEquals ++
      '=' :: (s.afterEquals ++ s.quote :: (s.value.toList ++ s.quote :: rest)) := by
    simp [AttributeSpelling.body]
  rw [attribute?, spelled, until?_append noEquals, Option.bind_some]
  dsimp only
  rw [skipSpace_append valid.afterEquals (ends_cons notSpace)]
  dsimp only
  rw [if_pos valid.quote, until?_append valid.value, trimEnd_append solid valid.beforeEquals]
  simp [AttributeSpelling.raw]

/-- The attributes are read one after the other, up to the end of the tag. -/
theorem attributes?_spellings {spellings : List AttributeSpelling} (valid : ∀ s ∈ spellings, s.Valid)
    (ends : atEnd (skipSpace rest) = true) :
    attributes? (spellings.flatMap AttributeSpelling.chars ++ rest) =
      some (spellings.map AttributeSpelling.raw) := by
  induction spellings with
  | nil => exact attributes?_of_atEnd ends
  | cons s spellings ih =>
    obtain ⟨here, later⟩ := List.forall_mem_cons.mp valid
    rw [List.flatMap_cons, List.append_assoc]
    rw [attributes?_of_attribute? (by rw [skipSpace_chars here, not_atEnd_body here])
      (by rw [skipSpace_chars here, attribute?_body here]), ih later]
    rfl

end Attributes

section Tags

variable {s : TagSpelling}

theorem atEnd_ending (blank : IsBlank s.gap) (rest : List Char) :
    atEnd (skipSpace (s.ending ++ rest)) = true := by
  rw [TagSpelling.ending, List.append_assoc]
  cases s.closed with
  | true =>
    have skipped : skipSpace (s.gap ++ '/' :: '>' :: rest) = '/' :: '>' :: rest :=
      skipSpace_append blank (ends_cons (by decide))
    exact congrArg atEnd skipped
  | false =>
    have skipped : skipSpace (s.gap ++ '>' :: rest) = '>' :: rest :=
      skipSpace_append blank (ends_cons (by decide))
    exact congrArg atEnd skipped

/-- White space, or what ends the tag. -/
theorem exists_afterName (valid : s.Valid) (rest : List Char) :
    ∃ c cs, s.attributes.flatMap AttributeSpelling.chars ++ (s.ending ++ rest) = c :: cs ∧
      endsName c = true := by
  have blank {spaces : List Char} (some : spaces ≠ []) (blank : IsBlank spaces)
      (rest : List Char) : ∃ c cs, spaces ++ rest = c :: cs ∧ endsName c = true := by
    obtain ⟨c, cs, rfl⟩ := List.exists_cons_of_ne_nil some
    refine ⟨c, cs ++ rest, rfl, ?_⟩
    simp [endsName, blank c List.mem_cons_self]
  cases attributes : s.attributes with
  | nil =>
    rw [TagSpelling.ending, List.append_assoc]
    by_cases gap : s.gap = []
    · rw [gap]
      cases s.closed with
      | true => exact ⟨'/', _, rfl, by decide⟩
      | false => exact ⟨'>', _, rfl, by decide⟩
    · exact blank gap valid.gap _
  | cons a later =>
    have here : a.Valid := valid.attributes a (by rw [attributes]; exact List.mem_cons_self)
    rw [List.flatMap_cons, AttributeSpelling.chars, List.append_assoc, List.append_assoc]
    exact blank here.apart here.gap _

/-- A tag is read as it was spelled, whatever follows. -/
theorem readChars?_spelling (valid : s.Valid) (rest : List Char) :
    readChars? (s.chars ++ rest) = some s.tag := by
  obtain ⟨c, cs, afterName, outside⟩ := exists_afterName valid rest
  have boundary : Ends (fun c => !endsName c) (c :: cs) := ends_cons (by rw [outside]; rfl)
  have spelled : s.chars ++ rest = '<' :: (s.qname.toList ++ (c :: cs)) := by
    rw [← afterName]
    simp [TagSpelling.chars]
  have someName : s.qname.toList.isEmpty = false :=
    List.isEmpty_eq_false_iff.mpr valid.qname.toList_ne_nil
  rw [spelled, readChars?, takeWhile_append valid.qname.not_endsName boundary,
    dropWhile_append valid.qname.not_endsName boundary, someName, ← afterName,
    attributes?_spellings valid.attributes (atEnd_ending valid.gap rest)]
  rw [afterName]
  simp [TagSpelling.tag]

end Tags

end StartTag

/-! ## Declarations and other attributes -/

namespace RawAttribute

/-- An attribute of the name declares the prefix. -/
inductive Declares (qname : String) : String → Prop where
  | default (unprefixed : qname = xmlnsPrefix) : Declares qname ""
  | named {p : String} (prefixed : qname = xmlnsPrefix ++ ":" ++ p) : Declares qname p

theorem declaredPrefix?_eq_some {raw : RawAttribute} {p : String} :
    raw.declaredPrefix? = some p ↔ Declares raw.qname p := by
  constructor
  · intro declared
    simp only [declaredPrefix?] at declared
    split at declared
    · rename_i default
      cases declared
      exact .default default
    · split at declared
      · rename_i before after parts
        split at declared
        · rename_i xmlns
          cases declared
          exact .named (xmlns ▸ QName.eq_append_of_split parts)
        · cases declared
      · cases declared
  · rintro (default | prefixed)
    · rw [declaredPrefix?, if_pos default]
    · have parts : QName.split raw.qname = (some xmlnsPrefix, p) := by
        rw [prefixed]
        exact QName.split_append (by decide) p
      have notDefault : raw.qname ≠ xmlnsPrefix := by
        intro default
        rw [default] at parts
        cases parts
      rw [declaredPrefix?, if_neg notDefault, parts]
      exact if_pos rfl

end RawAttribute

namespace StartTag

open RawAttribute

/-- The attributes are the declarations and the others, which are in the same order. -/
inductive Splits : List RawAttribute → List (String × String) → List RawAttribute → Prop where
  | nil : Splits [] [] []
  | declaration {raw : RawAttribute} {p : String} {raws plain : List RawAttribute}
      {declarations : List (String × String)} (declares : Declares raw.qname p)
      (later : Splits raws declarations plain) :
      Splits (raw :: raws) ((p, raw.value) :: declarations) plain
  | plain {raw : RawAttribute} {raws plain : List RawAttribute}
      {declarations : List (String × String)} (other : ∀ p, ¬ Declares raw.qname p)
      (later : Splits raws declarations plain) :
      Splits (raw :: raws) declarations (raw :: plain)

theorem splits (tag : StartTag) : Splits tag.attributes tag.declarations tag.plain := by
  obtain ⟨qname, raws⟩ := tag
  simp only [declarations, plain]
  induction raws with
  | nil => exact .nil
  | cons raw raws ih =>
    rw [List.filterMap_cons, List.filter_cons, isDeclaration]
    cases declared : raw.declaredPrefix? with
    | some p => exact .declaration (declaredPrefix?_eq_some.mp declared) ih
    | none =>
      refine .plain (fun p declares => ?_) ih
      rw [declaredPrefix?_eq_some.mpr declares] at declared
      cases declared

/-- A tag that is spelled in any way is read with its name and its attributes, in order and with
the values between the quotes, whatever text follows. -/
theorem read?_spelling {s : TagSpelling} (valid : s.Valid) (following : String) :
    ∃ tag, read? (s.text ++ following) = some tag ∧ tag.qname = s.qname ∧
      tag.attributes = s.attributes.map (fun a => ⟨a.qname, a.value⟩) ∧
      Splits tag.attributes tag.declarations tag.plain := by
  refine ⟨s.tag, ?_, rfl, rfl, splits s.tag⟩
  rw [read?, String.toList_append, TagSpelling.text, String.toList_ofList]
  exact readChars?_spelling valid following.toList

/-- Delimiters in the values and around them, and another tag behind. -/
theorem read?_spelling_delimiters :
    let s : TagSpelling :=
      ⟨"p:e", [⟨[' ', '\n'], "xmlns:p", [], ['\t'], '\'', "a=\"/>"⟩,
        ⟨[' '], "b", [' ', '\r'], [], '"', "1>2'<"⟩, ⟨['\n'], "xmlns", [], [], '"', ""⟩,
        ⟨[' '], "p:xmlns", [], [], '"', "&#9;"⟩], [' '], true⟩
    s.Valid ∧
      s.text = "<p:e \nxmlns:p=\t'a=\"/>' b \r=\"1>2'<\"\nxmlns=\"\" p:xmlns=\"&#9;\" />" ∧
      ∃ tag, read? (s.text ++ " c='d'><x y=\"z\">") = some tag ∧ tag.qname = "p:e" ∧
        tag.declarations = [("p", "a=\"/>"), ("", "")] ∧
        tag.plain = [⟨"b", "1>2'<"⟩, ⟨"p:xmlns", "&#9;"⟩] := by
  intro s
  have valid : s.Valid := by decide
  obtain ⟨tag, read, qname, attributes, -⟩ := read?_spelling valid " c='d'><x y=\"z\">"
  refine ⟨valid, by decide, tag, read, qname, ?_, ?_⟩
  · rw [declarations, attributes]
    decide
  · rw [plain, attributes]
    decide

end StartTag

end CanonicalXml
