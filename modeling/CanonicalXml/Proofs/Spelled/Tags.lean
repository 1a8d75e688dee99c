import CanonicalXml.Markup.Tag
import CanonicalXml.Proofs.Spelled.Escapes
import CanonicalXml.Proofs.Spelled.TagSpellings

/-! # Reading written tags

A written tag has a space before each item, double quotes around each value, and nothing else
that could be spelled in more than one way.

* `Item` — an attribute or a declaration as it is written.
* `SpelledItem` — the same with its name as it is spelled, which may have a colon in front.
* `Markup.tagRest?_items` — the document's reader finds the items again.
* `StartTag.readChars?_items` — so does the reader of spelled tags.
-/

namespace CanonicalXml

open Text

/-! ## Items -/

/-- An attribute or a declaration as it is written. -/
structure Item where
  name : QName
  value : String
deriving DecidableEq

namespace Item

/-- The characters after the space before an item. -/
def body (i : Item) : List Char :=
  i.name.text.toList ++ '=' :: '"' :: ((escapeAttribute i.value).toList ++ ['"'])

def spell (items : List Item) : List Char :=
  items.flatMap fun i => ' ' :: i.body

structure Valid (i : Item) : Prop where
  name : i.name.Valid
  value : ∀ c ∈ i.value.toList, Chars.isXml c = true

/-- The item in a start tag as spelled. -/
def raw (i : Item) : RawAttribute :=
  ⟨i.name.text, escapeAttribute i.value⟩

end Item

/-- The spelling is read as a name up to its end. -/
def QName.Readable (qname : String) : Prop :=
  Markup.qname? qname.toList = some (ofText qname, [])

/-- An attribute or a declaration as it is written, with the spelling of its name. -/
structure SpelledItem where
  qname : String
  value : String
deriving DecidableEq

/-- An item with the one spelling of its name that has no colon in front. -/
def Item.spelled (i : Item) : SpelledItem :=
  ⟨i.name.text, i.value⟩

namespace SpelledItem

/-- The item without its spelling. -/
def item (s : SpelledItem) : Item :=
  ⟨QName.ofText s.qname, s.value⟩

/-- The characters after the space before an item. -/
def body (s : SpelledItem) : List Char :=
  s.qname.toList ++ '=' :: '"' :: ((escapeAttribute s.value).toList ++ ['"'])

def spell (items : List SpelledItem) : List Char :=
  items.flatMap fun s => ' ' :: s.body

structure Valid (s : SpelledItem) : Prop where
  name : QName.Readable s.qname
  value : ∀ c ∈ s.value.toList, Chars.isXml c = true

/-- The item in a start tag as spelled. -/
def raw (s : SpelledItem) : RawAttribute :=
  ⟨s.qname, escapeAttribute s.value⟩

theorem spell_spelled (items : List Item) : spell (items.map Item.spelled) = Item.spell items := by
  simp only [spell, Item.spell, List.flatMap_map]
  rfl

end SpelledItem

namespace QName

theorem readable_text {name : QName} (valid : name.Valid) : Readable name.text := by
  have read := Markup.qname?_append valid ends_nil
  rw [List.append_nil] at read
  rw [Readable, valid.ofText_text]
  exact read

/-- A readable spelling is a name, colons allowed. -/
theorem Readable.isName {qname : String} (readable : Readable qname) :
    Markup.IsName qname.toList := by
  simp only [Readable, Markup.qname?] at readable
  split at readable
  · rename_i conditions
    have rest : qname.toList.dropWhile Chars.isName = [] :=
      congrArg Prod.snd (Option.some.inj readable)
    have whole : qname.toList.takeWhile Chars.isName = qname.toList := by
      have split := List.takeWhile_append_dropWhile (p := Chars.isName) (l := qname.toList)
      rwa [rest, List.append_nil] at split
    have all : ∀ c ∈ qname.toList, Chars.isName c = true := by
      rw [← whole]
      exact List.all_eq_true.mp List.all_takeWhile
    refine ⟨?_, all⟩
    rw [whole] at conditions
    -- The spelling begins as its prefix does, or with a colon, or as its local name does.
    simp only [QName.splitChars] at conditions
    cases spelled : qname.toList with
    | nil =>
      rw [spelled] at conditions
      exact absurd conditions (by decide)
    | cons c cs =>
      by_cases colon : c = ':'
      · rw [colon]
        show Chars.isNameStart ':' = true
        decide
      · rw [spelled, List.dropWhile_cons_of_pos (by simpa using colon),
          List.takeWhile_cons_of_pos (by simpa using colon)] at conditions
        split at conditions
        · simp only [Option.getD_none, List.isEmpty_nil, Bool.true_or, Bool.true_and,
            Bool.and_eq_true] at conditions
          exact conditions.1
        · simp only [Option.getD_some, List.isEmpty_cons, Bool.false_or, Bool.and_eq_true]
            at conditions
          exact conditions.1.1
  · cases readable

theorem Readable.valid {qname : String} (readable : Readable qname) : (ofText qname).Valid :=
  Markup.valid_of_qname? readable

end QName

theorem Markup.qname?_spelled {qname : String} (readable : QName.Readable qname) {rest : List Char}
    (ends : Ends Chars.isName rest) :
    qname? (qname.toList ++ rest) = some (QName.ofText qname, rest) := by
  have all := readable.isName.all
  have whole : qname.toList.takeWhile Chars.isName = qname.toList := by
    have taken := takeWhile_append all (ends_nil (p := Chars.isName))
    rwa [List.append_nil] at taken
  simp only [QName.Readable, qname?] at readable ⊢
  rw [takeWhile_append all ends, dropWhile_append all ends]
  rw [whole] at readable
  split at readable
  · rename_i conditions
    rw [if_pos conditions]
    obtain ⟨named, -⟩ := Prod.mk.inj (Option.some.inj readable)
    rw [named]
  · cases readable

namespace SpelledItem

variable {s : SpelledItem}

theorem body_append (s : SpelledItem) (rest : List Char) :
    s.body ++ rest =
      s.qname.toList ++ '=' :: '"' :: ((escapeAttribute s.value).toList ++ '"' :: rest) := by
  simp [body]

theorem notMem_value {c : Char} (special : c = '<' ∨ c = '"') (value : String) :
    c ∉ (escapeAttribute value).toList := by
  rw [escapeAttribute, Escape.toList_escapeWith]
  exact Escape.not_mem_escapedAttribute special _

theorem Valid.beginsName (valid : s.Valid) (rest : List Char) :
    Markup.beginsName (s.body ++ rest) = true := by
  rw [body_append]
  exact Markup.beginsName_append valid.name.isName.begins _

end SpelledItem

theorem Item.Valid.spelled {i : Item} (valid : i.Valid) : i.spelled.Valid :=
  ⟨QName.readable_text valid.name, valid.value⟩

theorem Item.Valid.item_spelled {i : Item} (valid : i.Valid) : i.spelled.item = i := by
  simp only [Item.spelled, SpelledItem.item]
  rw [valid.name.ofText_text]

/-! ## The document's reader -/

namespace Markup

theorem not_isSpace_of_beginsName {cs : List Char} (begins : beginsName cs = true) :
    Ends Chars.isSpace cs := by
  intro c first
  cases cs with
  | nil => cases first
  | cons d cs =>
    cases first
    exact Chars.not_isSpace_of_isName (Chars.isName_of_isNameStart begins)

theorem skipSpace_of_beginsName {cs : List Char} (begins : beginsName cs = true) :
    skipSpace cs = cs :=
  skipSpace_of_ends (not_isSpace_of_beginsName begins)

theorem attribute?_append {i : SpelledItem} (valid : i.Valid) (rest : List Char) :
    attribute? (i.body ++ rest) =
      some ((i.item.name, (escapeAttribute i.value).toList), rest) := by
  have boundary : Ends Chars.isName
      ('=' :: '"' :: ((escapeAttribute i.value).toList ++ '"' :: rest)) :=
    ends_cons (by decide)
  -- The value ends at the next quote, and it has neither quotes nor angle brackets.
  have quoted : quoted? ('"' :: ((escapeAttribute i.value).toList ++ '"' :: rest)) =
      some ((escapeAttribute i.value).toList, rest) := by
    rw [quoted?, if_pos (.inl rfl)]
    exact until?_append (SpelledItem.notMem_value (.inr rfl) _) rest
  have noTag : (escapeAttribute i.value).toList.contains '<' = false := by
    simpa using SpelledItem.notMem_value (.inl rfl) i.value
  have admitted : (escapeAttribute i.value).toList.all Chars.isXml = true := by
    rw [List.all_eq_true, escapeAttribute, Escape.toList_escapeWith]
    exact Escape.isXml_escaped Escape.admits_attributeReference valid.value
  have value : attributeValue? ('=' :: '"' :: ((escapeAttribute i.value).toList ++ '"' :: rest)) =
      some ((escapeAttribute i.value).toList, rest) := by
    simp only [attributeValue?]
    rw [skipSpace_cons (by decide)]
    show ((some ('"' :: ((escapeAttribute i.value).toList ++ '"' :: rest))).bind _) = _
    rw [Option.bind_some, skipSpace_cons (by decide), quoted, Option.bind_some]
    dsimp only
    rw [noTag, admitted]
    rfl
  rw [SpelledItem.body_append, attribute?, qname?_spelled valid.name boundary, Option.bind_some]
  dsimp only
  rw [value]
  rfl

theorem tagRest?_cons {stop : Nat} {body rest : List Char} {name : QName} {value : List Char}
    (begins : beginsName body = true) (read : attribute? body = some ((name, value), rest)) :
    tagRest? stop (' ' :: body) =
      (tagRest? stop rest).map fun (attributes, ending, tail) =>
        (⟨name, value, stop - body.length⟩ :: attributes, ending, tail) := by
  have skipped : skipSpace (' ' :: body) = body := skipSpace_of_beginsName begins
  have space : space? (' ' :: body) = some body := by
    rw [space?, if_pos (by decide)]
    exact congrArg some (skipSpace_of_beginsName begins)
  have found : (space? (' ' :: body)).bind attribute? = some ((name, value), rest) := by
    rw [space]
    exact read
  rw [tagRest?, if_neg (by simp)]
  -- What begins with a name is no end of a tag.
  split
  · rename_i closes
    rw [skipped] at closes
    rw [closes] at begins
    cases begins
  · rename_i closes
    rw [skipped] at closes
    rw [closes] at begins
    cases begins
  · split
    · rename_i nothing
      rw [found] at nothing
      cases nothing
    · rename_i other
      rw [found] at other
      cases other
      rw [skipped]

theorem tagRest?_close (stop : Nat) (rest : List Char) :
    tagRest? stop ('>' :: rest) = some ([], .opens, rest) := by
  have skipped : skipSpace ('>' :: rest) = '>' :: rest := skipSpace_cons (by decide) rest
  rw [tagRest?, if_neg (by simp)]
  split
  · rename_i closes
    rw [skipped] at closes
    cases closes
    rfl
  · rename_i closes
    rw [skipped] at closes
    cases closes
  · rename_i opens _
    exact absurd skipped (opens rest)

/-- The items of a written tag are read back. -/
theorem tagRest?_items {items : List SpelledItem} (valid : ∀ i ∈ items, i.Valid) (stop : Nat)
    (rest : List Char) :
    ∃ attributes, tagRest? stop (SpelledItem.spell items ++ '>' :: rest) =
        some (attributes, .opens, rest) ∧
      attributes.map (fun a => (a.name, a.value)) =
        items.map fun i => (i.item.name, (escapeAttribute i.value).toList) := by
  induction items with
  | nil => exact ⟨[], tagRest?_close stop rest, rfl⟩
  | cons i items ih =>
    obtain ⟨here, later⟩ := List.forall_mem_cons.mp valid
    obtain ⟨attributes, read, same⟩ := ih later
    have spelled : SpelledItem.spell (i :: items) ++ '>' :: rest =
        ' ' :: (i.body ++ (SpelledItem.spell items ++ '>' :: rest)) := by
      simp [SpelledItem.spell]
    rw [spelled, tagRest?_cons (here.beginsName _) (attribute?_append here _), read]
    refine ⟨_, rfl, ?_⟩
    rw [List.map_cons, List.map_cons, same]

/-- The start tag after its angle bracket.  What it says of its place is left open. -/
theorem startTag?_append {name : QName} (valid : name.Valid) {items : List SpelledItem}
    (validItems : ∀ i ∈ items, i.Valid) (stop : Nat) (rest : List Char) :
    let text := name.text.toList ++ (SpelledItem.spell items ++ '>' :: rest)
    ∃ tag : Tag, startTag? stop text = some (.startTag tag, rest) ∧ tag.name = name ∧
      tag.text = '<' :: text ∧ tag.start = stop - (text.length + 1) ∧ tag.ending = .opens ∧
      tag.attributes.map (fun a => (a.name, a.value)) =
        items.map fun i => (i.item.name, (escapeAttribute i.value).toList) := by
  intro text
  have boundary : Ends Chars.isName (SpelledItem.spell items ++ '>' :: rest) := by
    cases items with
    | nil => exact ends_cons (by decide)
    | cons i items => exact ends_cons (by decide)
  obtain ⟨attributes, read, same⟩ := tagRest?_items validItems stop rest
  refine ⟨⟨name, '<' :: text, stop - (text.length + 1), attributes, .opens,
    stop - rest.length⟩, ?_, rfl, rfl, rfl, rfl, same⟩
  simp only [startTag?]
  rw [qname?_append valid boundary, Option.bind_some]
  dsimp only
  rw [read]
  rfl

theorem endTag?_append {name : QName} (valid : name.Valid) (stop : Nat) (rest : List Char) :
    endTag? stop (name.text.toList ++ '>' :: rest) =
      some (.endTag name (stop - rest.length), rest) := by
  simp only [endTag?]
  rw [qname?_append valid (ends_cons (by decide)), Option.bind_some]
  dsimp only
  rw [skipSpace_cons (by decide)]
  rfl

end Markup

/-! ## The reader of spelled tags -/

namespace StartTag

open Markup

/-- An item as it is written, which is one of its spellings. -/
def attributeSpelling (i : SpelledItem) : AttributeSpelling :=
  ⟨[' '], i.qname, [], [], '"', escapeAttribute i.value⟩

theorem valid_attributeSpelling {i : SpelledItem} (valid : i.Valid) :
    (attributeSpelling i).Valid where
  apart := List.cons_ne_nil _ _
  gap := (by decide : IsBlank [' '])
  qname := valid.name.isName.isTagName
  beforeEquals := List.forall_mem_nil _
  afterEquals := List.forall_mem_nil _
  quote := .inl rfl
  value := SpelledItem.notMem_value (.inr rfl) i.value

/-- A written start tag is read back as spelled. -/
theorem readChars?_items {name : QName} (valid : name.Valid) {items : List SpelledItem}
    (validItems : ∀ i ∈ items, i.Valid) (rest : List Char) :
    readChars? ('<' :: (name.text.toList ++ (SpelledItem.spell items ++ '>' :: rest))) =
      some ⟨name.text, items.map SpelledItem.raw⟩ := by
  let s : TagSpelling := ⟨name.text, items.map attributeSpelling, [], false⟩
  have validSpelling : s.Valid :=
    ⟨valid.isName_text.isTagName, List.forall_mem_map.mpr fun i member =>
      valid_attributeSpelling (validItems i member), List.forall_mem_nil _⟩
  have attributes : s.attributes.flatMap AttributeSpelling.chars = SpelledItem.spell items := by
    simp only [s, List.flatMap_map, SpelledItem.spell]
    congr 1
    funext i
    simp [attributeSpelling, AttributeSpelling.chars, AttributeSpelling.body, SpelledItem.body]
  have spelled : s.chars ++ rest =
      '<' :: (name.text.toList ++ (SpelledItem.spell items ++ '>' :: rest)) := by
    rw [TagSpelling.chars, attributes]
    simp [s, TagSpelling.ending]
  have raws : s.attributes.map AttributeSpelling.raw = items.map SpelledItem.raw :=
    List.map_map.trans rfl
  rw [← spelled, readChars?_spelling validSpelling, TagSpelling.tag, raws]

end StartTag

end CanonicalXml
