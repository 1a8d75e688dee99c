import CanonicalXml.Markup.Name
import CanonicalXml.Proofs.AttributeAxis

/-! # Reading written names

A reader stops where a character does not belong to what it reads.  So a written name is read
back whole, if what follows it cannot belong to a name.

* `Text.takeWhile_append`, `Text.dropWhile_append` — reading up to a boundary.
* `Markup.NcName` — names without colons, and `QName.Valid` for names made of them.
* `Markup.name?_append`, `Markup.qname?_append` — written names are read back.
* `Markup.valid_of_qname?` — every name that is read is made of names without colons.
-/

namespace CanonicalXml

namespace Text

variable {p : Char → Bool} {cs rest : List Char}

/-- The text does not begin with a character of the class. -/
def Ends (p : Char → Bool) (rest : List Char) : Prop :=
  ∀ c, rest.head? = some c → p c = false

theorem ends_nil : Ends p [] := by
  intro c first
  cases first

theorem ends_cons {c : Char} (outside : p c = false) : Ends p (c :: rest) := by
  intro d first
  cases first
  exact outside

theorem takeWhile_append (inside : ∀ c ∈ cs, p c = true) (ends : Ends p rest) :
    (cs ++ rest).takeWhile p = cs := by
  rw [List.takeWhile_append_of_pos inside]
  cases rest with
  | nil => simp
  | cons c rest =>
    have outside : p c = false := ends c rfl
    simp [outside]

theorem dropWhile_append (inside : ∀ c ∈ cs, p c = true) (ends : Ends p rest) :
    (cs ++ rest).dropWhile p = rest := by
  rw [List.dropWhile_append_of_pos inside]
  cases rest with
  | nil => rfl
  | cons c rest =>
    have outside : p c = false := ends c rfl
    simp [outside]

theorem skipSpace_of_ends (ends : Ends Chars.isSpace rest) : skipSpace rest = rest := by
  have nothing : ∀ c ∈ ([] : List Char), Chars.isSpace c = true := by
    intro c member
    cases member
  exact dropWhile_append nothing ends

theorem skipSpace_cons {c : Char} (outside : Chars.isSpace c = false) (cs : List Char) :
    skipSpace (c :: cs) = c :: cs :=
  skipSpace_of_ends (ends_cons outside)

theorem strip?_append (mark rest : List Char) : strip? mark (mark ++ rest) = some rest := by
  induction mark with
  | nil => rfl
  | cons c mark ih =>
    unfold strip?
    rw [List.cons_append]
    dsimp only
    rw [if_pos rfl]
    exact ih

end Text

/-! ## Characters -/

namespace Chars

theorem isName_of_isNameStart {c : Char} (starts : isNameStart c = true) : isName c = true := by
  simp only [isName]
  rw [starts]
  rfl

/-- No name contains a character that separates markup. -/
theorem ne_of_isName {c d : Char} (name : isName c = true) (other : isName d = false) : c ≠ d := by
  rintro rfl
  rw [name] at other
  cases other

theorem isName_of_isSpace {c : Char} (space : isSpace c = true) : isName c = false := by
  simp only [isSpace] at space
  simp only [Bool.or_eq_true, decide_eq_true_eq] at space
  rcases space with ((rfl | rfl) | rfl) | rfl
  · decide
  · decide
  · decide
  · decide

theorem not_isSpace_of_isName {c : Char} (name : isName c = true) : isSpace c = false := by
  cases space : isSpace c with
  | false => rfl
  | true =>
    rw [isName_of_isSpace space] at name
    cases name

end Chars

/-! ## Names -/

namespace Markup

open Text

/-- A name, colons allowed. -/
structure IsName (cs : List Char) : Prop where
  begins : beginsName cs = true
  all : ∀ c ∈ cs, Chars.isName c = true

/-- A name without colons. -/
structure NcName (text : String) : Prop where
  isName : IsName text.toList
  colonless : QName.Colonless text

instance : DecidablePred IsName := fun cs =>
  decidable_of_iff (beginsName cs = true ∧ cs.all Chars.isName = true)
    ⟨fun h => ⟨h.1, List.all_eq_true.mp h.2⟩, fun h => ⟨h.begins, List.all_eq_true.mpr h.all⟩⟩

instance : DecidablePred NcName := fun text =>
  decidable_of_iff (IsName text.toList ∧ QName.Colonless text)
    ⟨fun h => ⟨h.1, h.2⟩, fun h => ⟨h.isName, h.colonless⟩⟩

theorem beginsName_append {cs : List Char} (begins : beginsName cs = true) (rest : List Char) :
    beginsName (cs ++ rest) = true := by
  cases cs with
  | nil => cases begins
  | cons c cs => exact begins

theorem IsName.ne_nil {cs : List Char} (name : IsName cs) : cs ≠ [] := by
  rintro rfl
  cases name.begins

theorem NcName.ne_empty {text : String} (name : NcName text) : text ≠ "" := by
  rintro rfl
  exact name.isName.ne_nil rfl

theorem name?_append {cs rest : List Char} (name : IsName cs) (ends : Ends Chars.isName rest) :
    name? (cs ++ rest) = some (cs, rest) := by
  obtain ⟨begins, all⟩ := name
  cases cs with
  | nil => cases begins
  | cons c cs =>
    have starts : Chars.isNameStart c = true := begins
    have inside : ∀ d ∈ cs, Chars.isName d = true := fun d member =>
      all d (List.mem_cons_of_mem c member)
    rw [List.cons_append, name?, if_pos starts, takeWhile_append inside ends,
      dropWhile_append inside ends]

end Markup

/-- A name whose parts are names without colons; the prefix may be missing. -/
structure QName.Valid (name : QName) : Prop where
  nsPrefix : name.nsPrefix = "" ∨ Markup.NcName name.nsPrefix
  localName : Markup.NcName name.localName

namespace QName

variable {name : QName}

theorem Valid.colonlessPrefix (valid : name.Valid) : Colonless name.nsPrefix := by
  rcases valid.nsPrefix with unprefixed | prefixed
  · rw [unprefixed]
    decide
  · exact prefixed.colonless

theorem toList_text_prefixed {nsPrefix : String} (prefixed : nsPrefix ≠ "") (localName : String) :
    (text ⟨nsPrefix, localName⟩).toList = nsPrefix.toList ++ ':' :: localName.toList := by
  rw [text_prefixed prefixed]
  simp

theorem eq_append_of_splitChars {cs before after : List Char}
    (split : splitChars cs = (some before, after)) : cs = before ++ ':' :: after := by
  simp only [splitChars] at split
  split at split
  · cases split
  · rename_i c rest found
    cases split
    have colon : c = ':' := by
      have stops := List.head?_dropWhile_not (· ≠ ':') cs
      rw [found, List.head?_cons] at stops
      simpa using stops
    calc cs = cs.takeWhile (· ≠ ':') ++ cs.dropWhile (· ≠ ':') :=
          List.takeWhile_append_dropWhile.symm
      _ = _ := by rw [found, colon]

theorem eq_append_of_split {spelling before after : String}
    (parts : split spelling = (some before, after)) : spelling = before ++ ":" ++ after := by
  rw [split] at parts
  cases found : splitChars spelling.toList with
  | mk before? rest =>
    rw [found] at parts
    cases before? with
    | none => cases parts
    | some first =>
      cases parts
      rw [← String.toList_inj, eq_append_of_splitChars found]
      simp

theorem split_append {before : String} (colonless : Colonless before) (after : String) :
    split (before ++ ":" ++ after) = (some before, after) := by
  have spelled : (before ++ ":" ++ after).toList = before.toList ++ ':' :: after.toList := by simp
  rw [split, spelled, splitChars_append colonless]
  simp

theorem Valid.splitChars (valid : name.Valid) :
    splitChars name.text.toList =
      (if name.nsPrefix = "" then none else some name.nsPrefix.toList, name.localName.toList) := by
  obtain ⟨nsPrefix, localName⟩ := name
  rcases valid.nsPrefix with unprefixed | prefixed
  · dsimp only at unprefixed
    subst unprefixed
    rw [text_unprefixed, if_pos rfl]
    exact splitChars_of_colonless valid.localName.colonless
  · dsimp only at prefixed ⊢
    rw [toList_text_prefixed prefixed.ne_empty, if_neg prefixed.ne_empty]
    exact splitChars_append prefixed.colonless

theorem Valid.isName_text (valid : name.Valid) : Markup.IsName name.text.toList := by
  obtain ⟨nsPrefix, localName⟩ := name
  rcases valid.nsPrefix with unprefixed | prefixed
  · dsimp only at unprefixed
    subst unprefixed
    rw [text_unprefixed]
    exact valid.localName.isName
  · dsimp only at prefixed
    rw [toList_text_prefixed prefixed.ne_empty]
    refine ⟨Markup.beginsName_append prefixed.isName.begins _, ?_⟩
    -- A character of the prefix, the colon, or one of the local name.
    intro c member
    rcases List.mem_append.mp member with member | member
    · exact prefixed.isName.all c member
    rcases List.mem_cons.mp member with rfl | member
    · decide
    · exact valid.localName.isName.all c member

theorem Valid.ofText_text (valid : name.Valid) : ofText name.text = name :=
  QName.ofText_text valid.colonlessPrefix valid.localName.colonless

end QName

namespace Markup

open Text

theorem qname?_append {name : QName} (valid : name.Valid) {rest : List Char}
    (ends : Ends Chars.isName rest) : qname? (name.text.toList ++ rest) = some (name, rest) := by
  have inside := valid.isName_text.all
  have beginsLocal := valid.localName.isName.begins
  have colonless : name.localName.toList.contains ':' = false := by
    simpa [QName.Colonless] using valid.localName.colonless
  simp only [qname?]
  -- What is taken is the whole name, and it is split at the colon that it was joined with.
  rw [takeWhile_append inside ends, dropWhile_append inside ends, valid.splitChars]
  dsimp only
  rw [beginsLocal, colonless]
  rcases valid.nsPrefix with unprefixed | prefixed
  · obtain ⟨nsPrefix, localName⟩ := name
    dsimp only at unprefixed
    subst unprefixed
    simp
  · have beginsPrefix := prefixed.isName.begins
    rw [if_neg prefixed.ne_empty]
    simp [beginsPrefix]

theorem mem_of_splitChars {cs after : List Char} {before : Option (List Char)}
    (split : QName.splitChars cs = (before, after)) :
    (∀ c ∈ before.getD [], c ∈ cs ∧ c ≠ ':') ∧ ∀ c ∈ after, c ∈ cs := by
  simp only [QName.splitChars] at split
  split at split
  · cases split
    exact ⟨nofun, fun c member => member⟩
  · rename_i first rest found
    cases split
    constructor
    · intro c member
      have colonless := List.all_eq_true.mp List.all_takeWhile c member
      exact ⟨List.takeWhile_subset _ member, of_decide_eq_true colonless⟩
    · intro c member
      apply (List.dropWhile_sublist (· ≠ ':')).subset
      rw [found]
      exact List.mem_cons_of_mem first member

theorem ncName_of_chars {cs : List Char} (begins : beginsName cs = true)
    (all : ∀ c ∈ cs, Chars.isName c = true) (colonless : ':' ∉ cs) : NcName (String.ofList cs) := by
  constructor
  · rw [String.toList_ofList]
    exact ⟨begins, all⟩
  · simp only [QName.Colonless]
    rwa [String.toList_ofList]

theorem valid_of_qname? {cs rest : List Char} {name : QName}
    (read : qname? cs = some (name, rest)) : name.Valid := by
  have named : ∀ c ∈ cs.takeWhile Chars.isName, Chars.isName c = true :=
    List.all_eq_true.mp List.all_takeWhile
  simp only [qname?] at read
  -- The name is split at its first colon, and what follows must have none.
  generalize cs.takeWhile Chars.isName = spelled at named read
  cases split : QName.splitChars spelled with
  | mk before after =>
    rw [split] at read
    obtain ⟨inPrefix, inLocal⟩ := mem_of_splitChars split
    dsimp only at read
    split at read
    · rename_i conditions
      cases read
      simp only [Bool.and_eq_true, Bool.or_eq_true, Bool.not_eq_true', List.contains_eq_mem,
        decide_eq_false_iff_not] at conditions
      obtain ⟨⟨beginsPrefix, beginsLocal⟩, colonless⟩ := conditions
      constructor
      · rcases beginsPrefix with empty | begins
        · rw [List.isEmpty_iff.mp empty]
          exact .inl rfl
        · exact .inr (ncName_of_chars begins (fun c member => named c (inPrefix c member).1)
            fun colon => (inPrefix ':' colon).2 rfl)
      · exact ncName_of_chars beginsLocal (fun c member => named c (inLocal c member)) colonless
    · cases read

end Markup

end CanonicalXml
