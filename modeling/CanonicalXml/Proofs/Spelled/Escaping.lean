import Mathlib.Data.List.TakeWhile
import CanonicalXml.Proofs.Spelled.Escapes
import CanonicalXml.Proofs.Spelled.TagSpellings

/-! # Escaping and reading

Readers change what they find: line ends become line feeds, in attribute values all white space
becomes spaces, and references become what they refer to.  Escaping leaves nothing that they would
change but references, and so what was escaped is read as it was.

* `Escape.characterData?`, `Escape.quotedValue?` — what is read of a text without entities.
* `Escape.begins_reference` — every ampersand begins a reference that was written for a character.
* `Escape.Undone` — what escaping has to keep to.
* `Escape.sliced` — escaping that passes on what it can, and `Escape.Piecewise` about it.
* `escaping_undone` — character data and attribute values are read as they were, and each text is
  escaped piece by piece.
-/

namespace CanonicalXml

open Text Markup

namespace Escape

/-! ## Readers -/

/-- A carriage return is read as a line feed, and so is one together with a line feed behind it. -/
def unifyLineEnds : List Char → List Char
  | [] => []
  | '\r' :: '\n' :: cs => '\n' :: unifyLineEnds cs
  | '\r' :: cs => '\n' :: unifyLineEnds cs
  | c :: cs => c :: unifyLineEnds cs

/-- The character that stands in the text or that a reference in it stands for. -/
def partChar? : TextPart → Option Char
  | .literal c | .character c => some c
  | .entity _ | .malformed => none

def replaceReferences? (cs : List Char) : Option (List Char) :=
  (TextPart.list cs).mapM partChar?

def characterData? (cs : List Char) : Option (List Char) :=
  replaceReferences? (unifyLineEnds cs)

/-- Line feeds and tabs are spaces in an attribute value, unless they are referred to. -/
def quotedValue? (cs : List Char) : Option (List Char) :=
  replaceReferences? ((unifyLineEnds cs).map fun c => if c = '\n' ∨ c = '\t' then ' ' else c)

/-! ## Reading what is escaped -/

section Reading

variable {table : Char → Option String} {entries : List (Char × String)} {special cs : List Char}

theorem unifyLineEnds_of_notMem (plain : '\r' ∉ cs) : unifyLineEnds cs = cs := by
  induction cs with
  | nil => rfl
  | cons c cs ih =>
    obtain ⟨here, later⟩ := List.ne_and_not_mem_of_not_mem_cons plain
    rw [unifyLineEnds, ih later]
    · rintro _ rfl
      exact absurd rfl here
    · rintro rfl
      exact absurd rfl here

theorem replaceReferences?_escaped (refers : Refers table) (ampersand : table '&' ≠ none)
    (cs : List Char) : replaceReferences? (cs.flatMap (chars table)) = some cs := by
  rw [replaceReferences?, TextPart.list_escaped refers ampersand]
  induction cs with
  | nil => rfl
  | cons c cs ih =>
    have here : partChar? (TextPart.written table c) = some c := by
      rw [TextPart.written]
      split <;> rfl
    rw [List.map_cons, List.mapM_cons, here, ih]
    rfl

/-- Characters that are replaced do not occur unless they are used in references. -/
theorem forall_notMem_escaped (lists : ∀ {c r}, table c = some r → (c, r) ∈ entries)
    (replaced : (special.all fun c => (table c).isSome) = true)
    (unused : (entries.all fun entry => entry.2.toList.all (! special.contains ·)) = true)
    (cs : List Char) : ∀ c ∈ special, c ∉ cs.flatMap (chars table) := by
  intro c member
  have entry : table c ≠ none :=
    Option.isSome_iff_ne_none.mp (List.all_eq_true.mp replaced c member)
  refine not_mem_escaped lists entry ?_ cs
  simp only [List.all_eq_true, decide_eq_true_eq, Bool.not_eq_true', List.contains_eq_mem,
    decide_eq_false_iff_not] at unused ⊢
  rintro reference listed d inReference rfl
  exact unused reference listed d inReference member

/-- Every ampersand begins one of the references that are written. -/
theorem begins_reference (refers : Refers table) (ampersand : table '&' ≠ none)
    (lists : ∀ {c r}, table c = some r → (c, r) ∈ entries)
    (once : (entries.all fun entry => ! entry.2.toList.tail.contains '&') = true)
    {before after : List Char}
    (found : cs.flatMap (chars table) = before ++ '&' :: after) :
    ∃ c r, table c = some r ∧ r.toList <+: '&' :: after := by
  induction cs generalizing before with
  | nil => simp at found
  | cons c cs ih =>
    rw [List.flatMap_cons] at found
    cases entry : table c with
    | none =>
      have itself : chars table c = [c] := by rw [chars, entry]
      rw [itself] at found
      cases before with
      | nil =>
        rw [(List.cons.inj found).1] at entry
        exact absurd entry ampersand
      | cons d before => exact ih (List.cons.inj found).2
    | some r =>
      obtain ⟨body, spelled, -⟩ := refers c r entry
      have reference : chars table c = '&' :: body := by rw [chars, entry, ← spelled]
      rw [reference] at found
      cases before with
      | nil =>
        refine ⟨c, r, entry, cs.flatMap (chars table), ?_⟩
        rw [spelled]
        exact found
      | cons d before =>
        -- Behind its own ampersand the reference has none.
        have noMore : '&' ∉ body := by
          have tail := List.all_eq_true.mp once (c, r) (lists entry)
          dsimp only at tail
          rw [spelled] at tail
          simpa using tail
        rcases List.append_eq_append_iff.mp (List.cons.inj found).2 with
          ⟨more, -, rest⟩ | ⟨more, whole, rest⟩
        · exact ih rest
        · cases more with
          | nil =>
            have here : cs.flatMap (chars table) = [] ++ '&' :: after := rest.symm
            exact ih here
          | cons e more =>
            rw [← (List.cons.inj rest).1] at whole
            exact absurd (by rw [whole]; simp) noMore

end Reading

/-- Escaping is undone by reading, and hides the special characters from readers. -/
structure Undone (escape : String → String) (table : Char → Option String)
    (read : List Char → Option (List Char)) (special : List Char) : Prop where
  reads : ∀ s, read (escape s).toList = some s.toList
  hides : ∀ s, ∀ c ∈ special, c ∉ (escape s).toList
  references : ∀ s before after, (escape s).toList = before ++ '&' :: after →
    ∃ c r, table c = some r ∧ r.toList <+: '&' :: after
  injective : Function.Injective escape
  /-- What is escaped ends where a special character was put behind it. -/
  ends : ∀ s, ∀ c ∈ special, ∀ rest,
    until? [c] ((escape s).toList ++ c :: rest) = some ((escape s).toList, rest)

/-- Escaping is undone by a reader that changes special characters, replaces references, and keeps
everything else. -/
theorem undone_escapeWith {table : Char → Option String} {entries : List (Char × String)}
    {read : List Char → Option (List Char)} {special : List Char} (refers : Refers table)
    (ampersand : table '&' ≠ none) (lists : ∀ {c r}, table c = some r → (c, r) ∈ entries)
    (once : (entries.all fun entry => ! entry.2.toList.tail.contains '&') = true)
    (replaced : (special.all fun c => (table c).isSome) = true)
    (unused : (entries.all fun entry => entry.2.toList.all (! special.contains ·)) = true)
    (keeps : ∀ cs, (∀ c ∈ special, c ∉ cs) → read cs = replaceReferences? cs) :
    Undone (escapeWith table) table read special := by
  have hides (s : String) : ∀ c ∈ special, c ∉ (escapeWith table s).toList := by
    rw [toList_escapeWith]
    exact forall_notMem_escaped lists replaced unused _
  have reads (s : String) : read (escapeWith table s).toList = some s.toList := by
    rw [keeps _ (hides s), toList_escapeWith]
    exact replaceReferences?_escaped refers ampersand _
  refine ⟨reads, hides, ?_, ?_, fun s c member rest => until?_append (hides s c member) rest⟩
  · intro s before after found
    rw [toList_escapeWith] at found
    exact begins_reference refers ampersand lists once found
  · intro s t same
    rw [← String.toList_inj, ← Option.some_inj, ← reads s, same, reads t]

theorem undone_escapeText :
    Undone escapeText textReference characterData? ['<', '>', '\r'] := by
  refine undone_escapeWith refers_textReference (by decide) textReference_cases (by decide)
    (by decide) (by decide) ?_
  intro cs absent
  rw [characterData?, unifyLineEnds_of_notMem (absent '\r' (by decide))]

theorem undone_escapeAttribute :
    Undone escapeAttribute attributeReference quotedValue? ['<', '"', '\t', '\n', '\r'] := by
  refine undone_escapeWith refers_attributeReference (by decide) attributeReference_cases (by decide)
    (by decide) (by decide) ?_
  intro cs absent
  rw [quotedValue?, unifyLineEnds_of_notMem (absent '\r' (by decide))]
  congr 1
  refine (List.map_congr_left fun c member => if_neg ?_).trans (List.map_id cs)
  rintro (rfl | rfl)
  · exact absent '\n' (by decide) member
  · exact absent '\t' (by decide) member

/-! ## Texts that are kept -/

/-- A text that is passed on as it is, or one that was made of it. -/
inductive Escaped where
  | borrowed (s : String)
  | owned (s : String)

def Escaped.text : Escaped → String
  | .borrowed s | .owned s => s

/-- Escapes from the first character on that is replaced. Without one the text is passed on. -/
def sliced (table : Char → Option String) (s : String) : Escaped :=
  match s.toList.dropWhile fun c => (table c).isNone with
  | [] => .borrowed s
  | rest => .owned (String.ofList
      (s.toList.takeWhile (fun c => (table c).isNone) ++ rest.flatMap (chars table)))

section Sliced

variable {table : Char → Option String} {cs : List Char}

theorem flatMap_chars_of_plain (plain : ∀ c ∈ cs, (table c).isNone = true) :
    cs.flatMap (chars table) = cs := by
  induction cs with
  | nil => rfl
  | cons c cs ih =>
    obtain ⟨here, later⟩ := List.forall_mem_cons.mp plain
    rw [List.flatMap_cons, ih later, chars, Option.isNone_iff_eq_none.mp here]
    rfl

/-- However much of it is kept, a text is escaped as it is character by character. -/
theorem text_sliced (table : Char → Option String) (s : String) :
    (sliced table s).text = escapeWith table s := by
  have whole := List.takeWhile_append_dropWhile (p := fun c => (table c).isNone) (l := s.toList)
  have kept : (s.toList.takeWhile fun c => (table c).isNone).flatMap (chars table) =
      s.toList.takeWhile fun c => (table c).isNone :=
    flatMap_chars_of_plain (List.all_eq_true.mp List.all_takeWhile)
  rw [← String.toList_inj, toList_escapeWith]
  conv => rhs; rw [← whole, List.flatMap_append, kept]
  rw [sliced]
  split
  · rename_i nothing
    rw [nothing] at whole ⊢
    exact whole.symm
  · rw [Escaped.text, String.toList_ofList]

theorem sliced_eq_borrowed {s : String} :
    sliced table s = .borrowed s ↔ ∀ c ∈ s.toList, table c = none := by
  rw [sliced]
  split
  · rename_i nothing
    rw [List.dropWhile_eq_nil_iff] at nothing
    exact iff_of_true rfl fun c member => Option.isNone_iff_eq_none.mp (nothing c member)
  · rename_i something
    refine iff_of_false nofun fun plain => something (List.dropWhile_eq_nil_iff.mpr ?_)
    exact fun c member => Option.isNone_iff_eq_none.mpr (plain c member)

end Sliced

/-- Each text is escaped piece by piece, and it does not matter which of the pieces are kept. -/
structure Piecewise (escape : String → String) (table : Char → Option String) : Prop where
  append : ∀ first last, escape (first ++ last) = escape first ++ escape last
  sliced : ∀ s, (sliced table s).text = escape s
  kept : ∀ s, Escape.sliced table s = .borrowed s ↔ ∀ c ∈ s.toList, table c = none
  pieces : ∀ first last, (Escape.sliced table (first ++ last)).text =
    (Escape.sliced table first).text ++ (Escape.sliced table last).text

theorem piecewise_escapeWith (table : Char → Option String) :
    Piecewise (escapeWith table) table where
  append := escapeWith_append table
  sliced := text_sliced table
  kept := fun _ => sliced_eq_borrowed
  pieces := fun first last => by
    rw [text_sliced, text_sliced, text_sliced, escapeWith_append]

end Escape

/-- Character data and attribute values are read as they were before they were escaped, whatever
they are made of, and texts are escaped piece by piece. -/
theorem escaping_undone :
    (Escape.Undone escapeText textReference Escape.characterData? ['<', '>', '\r'] ∧
      Escape.Undone escapeAttribute attributeReference Escape.quotedValue?
        ['<', '"', '\t', '\n', '\r']) ∧
      Escape.Piecewise escapeText textReference ∧
      Escape.Piecewise escapeAttribute attributeReference ∧
      Escape.Piecewise escapeData dataReference :=
  ⟨⟨Escape.undone_escapeText, Escape.undone_escapeAttribute⟩, Escape.piecewise_escapeWith _,
    Escape.piecewise_escapeWith _, Escape.piecewise_escapeWith _⟩

/-- What looks escaped is escaped again. -/
example : escapeText "&amp;\r\n]]>" = "&amp;amp;&#xD;\n]]&gt;" := by decide

end CanonicalXml
