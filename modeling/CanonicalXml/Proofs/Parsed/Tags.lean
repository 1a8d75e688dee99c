import CanonicalXml.Proofs.Spelled.Leaves
import CanonicalXml.Proofs.Spelled.Tags

/-! # Two readers of a start tag

A start tag is read twice: by the reader of documents, which takes it apart into names and values,
and by the tolerant reader that looks for its delimiters only. What the first one takes for a tag is
a spelling of one, and so the second one finds the same.

* `Markup.attribute?_spelled`, `Markup.tagRest?_spelled` — the attributes of a tag as spelled.
* `Markup.startTag?_spelled` — a whole tag.
-/

namespace CanonicalXml

/-- The name of an attribute as the parts that its spelling has. -/
def RawAttribute.name (raw : RawAttribute) : QName :=
  QName.ofText raw.qname

namespace StartTag

/-- A start tag as spelled has the names and the raw values of the tag that was read. -/
structure Shows (spelled : StartTag) (tag : Markup.Tag) : Prop where
  name : spelled.name = tag.name
  readable : ∀ raw ∈ spelled.attributes, QName.Readable raw.qname
  attributes : spelled.attributes.map (fun raw => (raw.name, raw.value)) =
    tag.attributes.map fun a => (a.name, String.ofList a.value)

end StartTag

namespace Markup

open Text

variable {cs rest value : List Char}

theorem qname?_eq_some {name : QName} (read : qname? cs = some (name, rest)) :
    QName.ofText (String.ofList (cs.takeWhile Chars.isName)) = name ∧
      rest = cs.dropWhile Chars.isName := by
  simp only [qname?] at read
  split at read
  · cases read
    refine ⟨?_, rfl⟩
    simp only [QName.ofText, QName.split]
    rw [String.toList_ofList]
    cases (QName.splitChars (cs.takeWhile Chars.isName)).1 with
    | none => rfl
    | some before => rfl
  · cases read

/-- What was read as a name can be read again. -/
theorem readable_of_qname? {name : QName} (read : qname? cs = some (name, rest)) :
    QName.Readable (String.ofList (cs.takeWhile Chars.isName)) := by
  obtain ⟨named, -⟩ := qname?_eq_some read
  have all : ∀ c ∈ cs.takeWhile Chars.isName, Chars.isName c = true :=
    List.all_eq_true.mp List.all_takeWhile
  have taken := takeWhile_append all (ends_nil (p := Chars.isName))
  have dropped := dropWhile_append all (ends_nil (p := Chars.isName))
  rw [List.append_nil] at taken dropped
  rw [QName.Readable, named, String.toList_ofList]
  simp only [qname?] at read ⊢
  rw [taken, dropped]
  split at read
  · rename_i conditions
    rw [if_pos conditions, ← (Prod.mk.inj (Option.some.inj read)).1]
  · cases read

/-- A literal is what stands between two quotes that it does not have itself. -/
theorem quoted?_eq_some (read : quoted? cs = some (value, rest)) :
    ∃ quote, (quote = '"' ∨ quote = '\'') ∧ quote ∉ value ∧
      cs = quote :: (value ++ quote :: rest) := by
  cases cs with
  | nil => cases read
  | cons quote body =>
    rw [quoted?] at read
    split at read
    · rename_i isQuote
      obtain ⟨rfl, absent⟩ := until?_eq_some (List.cons_ne_nil _ _) read
      exact ⟨quote, isQuote, notMem_of_not_occurs absent, rfl⟩
    · cases read

theorem exists_blank (cs : List Char) : ∃ blank, IsBlank blank ∧ cs = blank ++ skipSpace cs :=
  ⟨cs.takeWhile Chars.isSpace, List.all_eq_true.mp List.all_takeWhile,
    List.takeWhile_append_dropWhile.symm⟩

theorem attributeValue?_eq_some (read : attributeValue? cs = some (value, rest)) :
    ∃ before after quote, IsBlank before ∧ IsBlank after ∧ (quote = '"' ∨ quote = '\'') ∧
      quote ∉ value ∧ cs = before ++ '=' :: (after ++ quote :: (value ++ quote :: rest)) := by
  obtain ⟨afterEquals, strips, read⟩ := Option.bind_eq_some_iff.mp read
  obtain ⟨⟨found, tail⟩, quoted, read⟩ := Option.bind_eq_some_iff.mp read
  obtain ⟨before, blank, split⟩ := exists_blank cs
  obtain ⟨after, blank', split'⟩ := exists_blank afterEquals
  dsimp only at read
  split at read
  · cases read
  · cases read
    obtain ⟨quote, isQuote, absent, body⟩ := quoted?_eq_some quoted
    refine ⟨before, after, quote, blank, blank', isQuote, absent, ?_⟩
    rw [← body, ← split', split, strip?_eq_some.mp strips]
    rfl

theorem space?_eq_some (read : space? cs = some rest) :
    ∃ gap, gap ≠ [] ∧ IsBlank gap ∧ cs = gap ++ rest := by
  cases cs with
  | nil => cases read
  | cons c cs =>
    rw [space?] at read
    split at read
    · rename_i space
      cases read
      obtain ⟨blank, isBlank, split⟩ := exists_blank cs
      exact ⟨c :: blank, List.cons_ne_nil c blank, List.forall_mem_cons.mpr ⟨space, isBlank⟩,
        congrArg (c :: ·) split⟩
    · cases read

/-- What is taken for an attribute is a spelling of it. -/
theorem attribute?_spelled {name : QName}
    (read : (space? cs).bind attribute? = some ((name, value), rest)) :
    ∃ s : AttributeSpelling, s.Valid ∧ cs = s.chars ++ rest ∧ QName.Readable s.qname ∧
      s.raw.name = name ∧ s.value = String.ofList value := by
  obtain ⟨body, space, read⟩ := Option.bind_eq_some_iff.mp read
  obtain ⟨⟨_, afterName⟩, qname, read⟩ := Option.bind_eq_some_iff.mp read
  obtain ⟨⟨_, _⟩, valued, same⟩ := Option.map_eq_some_iff.mp read
  cases same
  obtain ⟨gap, apart, blank, rfl⟩ := space?_eq_some space
  obtain ⟨named, ends⟩ := qname?_eq_some qname
  obtain ⟨before, after, quote, blankBefore, blankAfter, isQuote, absent, split⟩ :=
    attributeValue?_eq_some valued
  have readable := readable_of_qname? qname
  refine ⟨⟨gap, String.ofList (body.takeWhile Chars.isName), before, after, quote,
    String.ofList value⟩, ⟨apart, blank, readable.isName.isTagName, blankBefore, blankAfter, isQuote,
    by rwa [String.toList_ofList]⟩, ?_, readable, named, rfl⟩
  have whole : body = body.takeWhile Chars.isName ++ afterName := by
    rw [ends, List.takeWhile_append_dropWhile]
  rw [AttributeSpelling.chars, AttributeSpelling.body, List.append_assoc]
  congr 1
  conv => lhs; rw [whole, split]
  simp

/-- What is taken for the rest of a tag is a spelling of its attributes and of its end. -/
theorem tagRest?_spelled {stop : Nat} {attributes : List TagAttribute} {ending : TagEnding}
    (read : tagRest? stop cs = some (attributes, ending, rest)) (finished : ending ≠ .unfinished) :
    ∃ (spellings : List AttributeSpelling) (gap : List Char) (closed : Bool),
      cs = spellings.flatMap AttributeSpelling.chars ++
        (gap ++ ((if closed then ['/', '>'] else ['>']) ++ rest)) ∧ IsBlank gap ∧
      (∀ s ∈ spellings, s.Valid ∧ QName.Readable s.qname) ∧
      spellings.map (fun s => (s.raw.name, s.value)) =
        attributes.map fun a => (a.name, String.ofList a.value) := by
  -- The text ends, the tag ends in one of two ways, it goes on badly, or an attribute follows.
  fun_induction tagRest? stop cs generalizing attributes ending rest with
  | case1 =>
    cases read
    exact absurd rfl finished
  | case2 cs _ tail closes =>
    cases read
    obtain ⟨gap, blank, split⟩ := exists_blank cs
    rw [closes] at split
    exact ⟨[], gap, false, split, blank, List.forall_mem_nil _, rfl⟩
  | case3 cs _ tail closes =>
    obtain ⟨_, strips, same⟩ := Option.map_eq_some_iff.mp read
    cases same
    obtain ⟨gap, blank, split⟩ := exists_blank cs
    rw [closes, strip?_eq_some.mp strips] at split
    exact ⟨[], gap, true, split, blank, List.forall_mem_nil _, rfl⟩
  | case4 => cases read
  | case5 cs _ name value tail found _ _ ih =>
    obtain ⟨⟨later, _, _⟩, readLater, same⟩ := Option.map_eq_some_iff.mp read
    cases same
    obtain ⟨spellings, gap, closed, splitLater, blank, validLater, agree⟩ := ih readLater finished
    obtain ⟨s, valid, split, readable, named, valued⟩ := attribute?_spelled found
    refine ⟨s :: spellings, gap, closed, ?_, blank,
      List.forall_mem_cons.mpr ⟨⟨valid, readable⟩, validLater⟩, ?_⟩
    · rw [split, splitLater, List.flatMap_cons, List.append_assoc]
    · rw [List.map_cons, List.map_cons, agree, named, valued]

/-- What is taken for a tag is a spelling of it, and so the tolerant reader finds the same. -/
theorem startTag?_spelled {stop : Nat} {tag : Tag}
    (read : startTag? stop cs = some (.startTag tag, rest))
    (finished : tag.ending ≠ .unfinished) :
    ∃ spelled, StartTag.readChars? tag.text = some spelled ∧ spelled.Shows tag := by
  obtain ⟨⟨name, afterName⟩, qname, read⟩ := Option.bind_eq_some_iff.mp read
  obtain ⟨⟨attributes, ending, tail⟩, tagRest, same⟩ := Option.map_eq_some_iff.mp read
  cases same
  obtain ⟨named, ends⟩ := qname?_eq_some qname
  obtain ⟨spellings, gap, closed, split, blank, valid, agree⟩ := tagRest?_spelled tagRest finished
  have readable := readable_of_qname? qname
  let s : TagSpelling := ⟨String.ofList (cs.takeWhile Chars.isName), spellings, gap, closed⟩
  have validSpelling : s.Valid :=
    ⟨readable.isName.isTagName, fun a member => (valid a member).1, blank⟩
  have spelled : '<' :: cs = s.chars ++ rest := by
    have whole : cs = cs.takeWhile Chars.isName ++ afterName := by
      rw [ends, List.takeWhile_append_dropWhile]
    conv => lhs; rw [whole, split]
    simp [s, TagSpelling.chars, TagSpelling.ending]
  refine ⟨s.tag, ?_, named, ?_, ?_⟩
  · show StartTag.readChars? ('<' :: cs) = _
    rw [spelled]
    exact StartTag.readChars?_spelling validSpelling rest
  · exact List.forall_mem_map.mpr fun a member => (valid a member).2
  · rw [← agree]
    exact List.map_map

end Markup

end CanonicalXml
