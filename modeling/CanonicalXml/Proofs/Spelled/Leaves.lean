import CanonicalXml.Canonical.Leaves
import CanonicalXml.Markup.Content
import CanonicalXml.Proofs.Spelled.Escapes

/-! # Reading written leaves

Comments and instructions end with a mark that their own text may not contain, and character data
ends with the next tag.

* `Markup.CommentText`, `Markup.InstructionText` — texts that can be written between their marks.
* `Markup.comment?_append`, `Markup.instruction?_append`, `Markup.text?_append` — they are read
  back as they are written.
* `CommentText.escape`, `InstructionText.escape` — escaping keeps a text writable.
-/

namespace CanonicalXml

namespace Text

theorem strip?_eq_some {mark cs rest : List Char} :
    strip? mark cs = some rest ↔ cs = mark ++ rest := by
  constructor
  · intro found
    induction mark generalizing cs with
    | nil =>
      cases found
      rfl
    | cons m mark ih =>
      cases cs with
      | nil => cases found
      | cons c cs =>
        simp only [strip?] at found
        split at found
        · rename_i same
          rw [same, ih found]
          rfl
        · contradiction
  · rintro rfl
    exact strip?_append mark rest

theorem occurs_cons (mark : List Char) (c : Char) (cs : List Char) :
    occurs mark (c :: cs) = ((strip? mark (c :: cs)).isSome || occurs mark cs) := by
  simp only [occurs]
  rw [until?]
  cases strip? mark (c :: cs) with
  | some rest => rfl
  | none => simp

theorem occurs_of_notMem {mark cs : List Char} {c : Char} (needed : c ∈ mark) (absent : c ∉ cs) :
    occurs mark cs = false := by
  induction cs with
  | nil =>
    simp only [occurs]
    rw [until?]
    cases mark with
    | nil => cases needed
    | cons m mark => rfl
  | cons d cs ih =>
    rw [occurs_cons, ih fun member => absent (List.mem_cons_of_mem d member), Bool.or_false]
    cases found : strip? mark (d :: cs) with
    | none => rfl
    | some rest =>
      rw [strip?_eq_some] at found
      exact absurd (found ▸ List.mem_append_left rest needed) absent

/-- A text ends at the first place where the mark begins. -/
theorem until?_of_first {mark before rest : List Char}
    (first : ∀ earlier later c, before = earlier ++ c :: later →
      strip? mark (c :: (later ++ (mark ++ rest))) = none) (nonempty : mark ≠ []) :
    until? mark (before ++ (mark ++ rest)) = some (before, rest) := by
  induction before with
  | nil =>
    cases mark with
    | nil => exact absurd rfl nonempty
    | cons m mark =>
      have found : strip? (m :: mark) (m :: (mark ++ rest)) = some rest :=
        strip?_append (m :: mark) rest
      rw [List.nil_append, List.cons_append, until?, found]
  | cons c before ih =>
    have notHere := first [] before c rfl
    have later := ih fun earlier later d split => by
      refine first (c :: earlier) later d ?_
      rw [split]
      rfl
    rw [List.cons_append, until?, notHere]
    dsimp only
    rw [later]
    rfl

/-- The mark occurs at no place of a text in which it does not occur. -/
theorem strip?_of_not_occurs {mark cs : List Char} (absent : occurs mark cs = false) :
    ∀ earlier later c, cs = earlier ++ c :: later → strip? mark (c :: later) = none := by
  induction cs with
  | nil =>
    intro earlier later c split
    cases earlier <;> cases split
  | cons d cs ih =>
    rw [occurs_cons, Bool.or_eq_false_iff] at absent
    intro earlier later c split
    cases earlier with
    | nil =>
      cases split
      exact Option.isNone_iff_eq_none.mp (Option.isSome_eq_false_iff.mp absent.1)
    | cons e earlier =>
      cases split
      exact ih absent.2 earlier later c rfl

/-- A text goes up to a mark that begins with two characters which do not occur in it one after the
other. -/
theorem until?_of_pair {a b : Char} (more : List Char) {before rest : List Char}
    (absent : occurs [a, b] before = false)
    (apart : ∀ c, strip? (a :: b :: more) (c :: a :: b :: (more ++ rest)) = none) :
    until? (a :: b :: more) (before ++ a :: b :: (more ++ rest)) = some (before, rest) := by
  refine until?_of_first ?_ (by simp)
  intro earlier later c split
  have notHere := strip?_of_not_occurs absent earlier later c split
  cases later with
  | nil =>
    -- The mark would begin with the last character of the text.
    exact apart c
  | cons d later =>
    cases found : strip? (a :: b :: more) (c :: (d :: later ++ (a :: b :: more ++ rest))) with
    | none => rfl
    | some tail =>
      -- The first two characters of the mark would stand in the text.
      rw [strip?_eq_some] at found
      simp only [List.cons_append, List.cons.injEq] at found
      obtain ⟨rfl, rfl, -⟩ := found
      have here : strip? [c, d] (c :: d :: later) = some later := strip?_append [c, d] later
      rw [here] at notHere
      cases notHere

/-- The text before a mark does not have it. -/
theorem until?_eq_some {mark cs before rest : List Char} (nonempty : mark ≠ [])
    (found : until? mark cs = some (before, rest)) :
    cs = before ++ (mark ++ rest) ∧ occurs mark before = false := by
  induction cs generalizing before with
  | nil =>
    obtain ⟨tail, strips, -⟩ := Option.map_eq_some_iff.mp found
    rw [strip?_eq_some] at strips
    cases mark with
    | nil => exact absurd rfl nonempty
    | cons m mark => cases strips
  | cons c cs ih =>
    rw [until?] at found
    split at found
    · rename_i tail strips
      cases found
      rw [strip?_eq_some] at strips
      refine ⟨strips, ?_⟩
      cases mark with
      | nil => exact absurd rfl nonempty
      | cons m mark => rfl
    · rename_i absent
      -- The mark does not begin here, and so it does not in what stands before its first place.
      obtain ⟨⟨inner, tail⟩, later, same⟩ := Option.map_eq_some_iff.mp found
      cases same
      obtain ⟨split, noMark⟩ := ih later
      refine ⟨congrArg (c :: ·) split, ?_⟩
      rw [occurs_cons, noMark, Bool.or_false]
      cases strips : strip? mark (c :: inner) with
      | none => rfl
      | some rest' =>
        rw [strip?_eq_some] at strips
        have here : strip? mark (c :: cs) = some (rest' ++ (mark ++ rest)) := by
          rw [strip?_eq_some, split, ← List.cons_append, strips, List.append_assoc]
        rw [absent] at here
        cases here

theorem notMem_of_not_occurs {c : Char} {cs : List Char} (absent : occurs [c] cs = false) :
    c ∉ cs := by
  intro member
  obtain ⟨before, after, rfl⟩ := List.append_of_mem member
  have split : strip? [c] (c :: after) = none := strip?_of_not_occurs absent before after c rfl
  have here : strip? [c] (c :: after) = some after := strip?_append [c] after
  rw [here] at split
  cases split

end Text

namespace Markup

open Text

/-! ## Comments -/

/-- What a comment can say. -/
structure CommentText (cs : List Char) : Prop where
  admitted : ∀ c ∈ cs, Chars.isXml c = true
  noHyphens : occurs ['-', '-'] cs = false
  last : cs.getLast? ≠ some '-'

theorem comment?_append {cs : List Char} (text : CommentText cs) (rest : List Char) :
    comment? (cs ++ '-' :: '-' :: '>' :: rest) = some (.comment cs, rest) := by
  have ends : until? ['-', '-', '>'] (cs ++ '-' :: '-' :: '>' :: rest) = some (cs, rest) :=
    until?_of_pair ['>'] text.noHyphens fun c => by simp [strip?]
  have admitted : cs.all Chars.isXml = true := List.all_eq_true.mpr text.admitted
  simp only [comment?]
  rw [ends, Option.bind_some]
  dsimp only
  rw [admitted, text.noHyphens]
  simp [text.last]

/-! ## Instructions -/

/-- What an instruction can say.  One named `xml` would be taken for a declaration, if it said
something. -/
structure InstructionText (target data : List Char) : Prop where
  named : IsName target
  admitted : ∀ c ∈ data, Chars.isXml c = true
  noMark : occurs ['?', '>'] data = false
  first : Ends Chars.isSpace data
  notDeclaration : target = ['x', 'm', 'l'] → data = []

/-- The characters between the target and the end mark. -/
def instructionData (data : List Char) : List Char :=
  if data = [] then [] else ' ' :: data

theorem until?_instruction {data : List Char} (noMark : occurs ['?', '>'] data = false)
    (rest : List Char) :
    until? ['?', '>'] (data ++ '?' :: '>' :: rest) = some (data, rest) :=
  until?_of_pair [] noMark fun c => by simp [strip?]

theorem instruction?_append {target data : List Char} (text : InstructionText target data)
    (rest : List Char) :
    instruction? (target ++ (instructionData data ++ '?' :: '>' :: rest)) =
      some (.instruction target data, rest) := by
  have boundary : Ends Chars.isName (instructionData data ++ '?' :: '>' :: rest) := by
    simp only [instructionData]
    split
    · exact ends_cons (by decide)
    · exact ends_cons (by decide)
  have skipped : skipSpace (instructionData data ++ '?' :: '>' :: rest) =
      data ++ '?' :: '>' :: rest := by
    simp only [instructionData]
    split
    · rename_i empty
      rw [empty]
      exact skipSpace_cons (by decide) _
    · have unspaced : Ends Chars.isSpace (data ++ '?' :: '>' :: rest) := by
        cases data with
        | nil => exact ends_cons (by decide)
        | cons c data => exact ends_cons (text.first c rfl)
      exact skipSpace_of_ends unspaced
  have admitted : data.all Chars.isXml = true := List.all_eq_true.mpr text.admitted
  have notDeclaration : strip? ['x', 'm', 'l', ' ']
      (target ++ (instructionData data ++ '?' :: '>' :: rest)) = none := by
    cases found : strip? ['x', 'm', 'l', ' ']
        (target ++ (instructionData data ++ '?' :: '>' :: rest)) with
    | none => rfl
    | some tail =>
      rw [strip?_eq_some] at found
      have xml : ∀ c ∈ ['x', 'm', 'l'], Chars.isName c = true :=
        List.all_eq_true.mp (by decide)
      -- The target is what can be read of a name.
      have named := congrArg (List.takeWhile Chars.isName) found
      rw [takeWhile_append text.named.all boundary,
        show ['x', 'm', 'l', ' '] ++ tail = ['x', 'm', 'l'] ++ ' ' :: tail from rfl,
        takeWhile_append xml (ends_cons (by decide))] at named
      rw [named, text.notDeclaration named] at found
      cases found
  simp only [instruction?]
  rw [notDeclaration, name?_append text.named boundary, if_neg (by simp), Option.bind_some]
  dsimp only
  rw [skipped, until?_instruction text.noMark, Option.bind_some]
  dsimp only
  rw [admitted]
  rfl

/-! ## Character data -/

theorem text?_append {value : String} (admitted : ∀ c ∈ value.toList, Chars.isXml c = true)
    (rest : List Char) :
    text? ((escapeText value).toList ++ '<' :: rest) =
      some (.text (escapeText value).toList, '<' :: rest) := by
  have spelled : (escapeText value).toList = value.toList.flatMap (Escape.chars textReference) :=
    Escape.toList_escapeWith _ _
  have inside : ∀ c ∈ (escapeText value).toList, decide (c ≠ '<') = true := by
    intro c member
    apply decide_eq_true
    rintro rfl
    rw [spelled] at member
    exact Escape.not_mem_escapedText (.inl rfl) _ member
  have noMark : occurs [']', ']', '>'] (escapeText value).toList = false := by
    refine occurs_of_notMem (c := '>') (by simp) fun member => ?_
    rw [spelled] at member
    exact Escape.not_mem_escapedText (.inr rfl) _ member
  have admittedText : (escapeText value).toList.all Chars.isXml = true := by
    rw [List.all_eq_true, spelled]
    exact Escape.isXml_escaped Escape.admits_textReference admitted
  unfold text?
  rw [takeWhile_append inside (ends_cons (by decide)),
    dropWhile_append inside (ends_cons (by decide))]
  dsimp only
  rw [admittedText, noMark]
  rfl

/-! ## Escaped data -/

theorem chars_dataReference {c : Char} (plain : c ≠ '\r') :
    Escape.chars dataReference c = [c] := by
  simp only [Escape.chars]
  cases entry : dataReference c with
  | none => rfl
  | some r =>
    have listed := Escape.dataReference_cases entry
    simp only [List.mem_cons, List.not_mem_nil, or_false, Prod.mk.injEq] at listed
    exact absurd listed.1 plain

theorem occurs_append_of_notMem {m : Char} {mark before : List Char} (absent : m ∉ before)
    (cs : List Char) : occurs (m :: mark) (before ++ cs) = occurs (m :: mark) cs := by
  induction before with
  | nil => rfl
  | cons d before ih =>
    have different : m ≠ d := fun h => absent (h ▸ List.mem_cons_self)
    rw [List.cons_append, occurs_cons, ih fun member => absent (List.mem_cons_of_mem d member),
      strip?, if_neg different]
    rfl

/-- Escaping brings no mark about that is made of other characters. -/
theorem occurs_escapedData {a b : Char} (plain : a ∉ ['&', '#', 'x', 'D', ';'] ∧ b ≠ '&')
    {cs : List Char} (absent : occurs [a, b] cs = false) :
    occurs [a, b] (cs.flatMap (Escape.chars dataReference)) = false := by
  induction cs with
  | nil => exact absent
  | cons c cs ih =>
    rw [occurs_cons, Bool.or_eq_false_iff] at absent
    have later := ih absent.2
    rw [List.flatMap_cons]
    by_cases returns : c = '\r'
    · rw [returns]
      exact (occurs_append_of_notMem plain.1 _).trans later
    · rw [chars_dataReference returns, List.singleton_append, occurs_cons, later, Bool.or_false]
      cases found : strip? [a, b] (c :: cs.flatMap (Escape.chars dataReference)) with
      | none => rfl
      | some tail =>
        -- The second character of the mark would have been there before.
        rw [strip?_eq_some] at found
        obtain ⟨rfl, next⟩ := List.cons.inj found
        cases cs with
        | nil => cases next
        | cons d cs =>
          rw [List.flatMap_cons] at next
          by_cases returns' : d = '\r'
          · rw [returns'] at next
            exact absurd (List.cons.inj next).1.symm plain.2
          · rw [chars_dataReference returns'] at next
            obtain ⟨rfl, -⟩ := List.cons.inj next
            have here : strip? [c, d] (c :: d :: cs) = some cs := strip?_append [c, d] cs
            rw [here] at absent
            cases absent.1

theorem toList_escapeData (text : String) :
    (escapeData text).toList = text.toList.flatMap (Escape.chars dataReference) :=
  Escape.toList_escapeWith _ _

theorem escapeData_ne_empty {text : String} (nonempty : text ≠ "") : escapeData text ≠ "" := by
  intro empty
  have escaped := congrArg String.toList empty
  rw [toList_escapeData] at escaped
  cases spelled : text.toList with
  | nil => exact nonempty (String.toList_eq_nil_iff.mp spelled)
  | cons c cs =>
    rw [spelled, List.flatMap_cons] at escaped
    by_cases returns : c = '\r'
    · rw [returns] at escaped
      cases escaped
    · rw [chars_dataReference returns] at escaped
      cases escaped

theorem CommentText.escape {text : String} (plain : CommentText text.toList) :
    CommentText (escapeData text).toList := by
  rw [toList_escapeData]
  refine ⟨Escape.isXml_escaped Escape.admits_dataReference plain.admitted,
    occurs_escapedData (by decide) plain.noHyphens, ?_⟩
  -- Data that is not empty ends as its last character is written, which is no hyphen.
  rcases List.eq_nil_or_concat text.toList with empty | ⟨init, c, split⟩
  · rw [empty]
    exact nofun
  · have last := plain.last
    rw [split, List.concat_eq_append] at last ⊢
    rw [List.flatMap_append, List.flatMap_cons, List.flatMap_nil, List.append_nil]
    by_cases returns : c = '\r'
    · rw [returns]
      simp [Escape.chars, dataReference]
    · rw [chars_dataReference returns]
      simpa using last

theorem InstructionText.escape {target : List Char} {data : String}
    (plain : InstructionText target data.toList) :
    InstructionText target (escapeData data).toList := by
  rw [toList_escapeData]
  refine ⟨plain.named, Escape.isXml_escaped Escape.admits_dataReference plain.admitted,
    occurs_escapedData (by decide) plain.noMark, ?_, ?_⟩
  · -- Neither a reference nor the first character of the data is white space.
    intro c first
    cases cs : data.toList with
    | nil =>
      rw [cs] at first
      cases first
    | cons d later =>
      rw [cs, List.flatMap_cons] at first
      by_cases returns : d = '\r'
      · rw [returns] at first
        cases first
        decide
      · rw [chars_dataReference returns] at first
        cases first
        exact plain.first c (by rw [cs]; rfl)
  · intro xml
    rw [plain.notDeclaration xml]
    rfl

end Markup

end CanonicalXml
