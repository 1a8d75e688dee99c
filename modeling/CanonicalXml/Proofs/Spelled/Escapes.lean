import CanonicalXml.Escape
import CanonicalXml.Proofs.Spelled.Names
import CanonicalXml.Reading.Draft

/-! # Reading escaped text

What is escaped is read back as it was: every replacement is a reference to the character it
replaces, and no other character means anything but itself.

* `Escape.chars` — the characters that are written for one character.
* `Markup.TextPart.list_escaped` — an escaped text, taken apart.
* `Reading.attributeValue?_escaped`, `Reading.Draft.readText_escaped` — the value of an escaped
  attribute and of escaped character data.
-/

namespace CanonicalXml

namespace Escape

/-- What is written for a character. -/
def chars (table : Char → Option String) (c : Char) : List Char :=
  match table c with
  | some replacement => replacement.toList
  | none => [c]

theorem toList_escapeWith (table : Char → Option String) (text : String) :
    (escapeWith table text).toList = text.toList.flatMap (chars table) := by
  simp only [escapeWith]
  rw [String.toList_ofList]
  rfl

/-- What holds of all characters that stand for themselves and of all replacements holds of an
escaped text. -/
theorem forall_mem_escaped {table : Char → Option String} {P : Char → Prop} {cs : List Char}
    (plain : ∀ c ∈ cs, table c = none → P c)
    (replaced : ∀ c r, table c = some r → ∀ d ∈ r.toList, P d) :
    ∀ d ∈ cs.flatMap (chars table), P d := by
  intro d member
  obtain ⟨c, inText, written⟩ := List.mem_flatMap.mp member
  simp only [chars] at written
  cases entry : table c with
  | none =>
    rw [entry] at written
    obtain rfl := List.mem_singleton.mp written
    exact plain d inText entry
  | some r =>
    rw [entry] at written
    exact replaced c r entry d written

/-! ## The tables -/

theorem textReference_cases {c : Char} {r : String} (entry : textReference c = some r) :
    (c, r) ∈ [('&', "&amp;"), ('<', "&lt;"), ('>', "&gt;"), ('\r', "&#xD;")] := by
  simp only [textReference] at entry
  split at entry
  all_goals first
    | contradiction
    | (cases entry; decide)

theorem attributeReference_cases {c : Char} {r : String} (entry : attributeReference c = some r) :
    (c, r) ∈ [('&', "&amp;"), ('<', "&lt;"), ('"', "&quot;"), ('\t', "&#x9;"),
      ('\n', "&#xA;"), ('\r', "&#xD;")] := by
  simp only [attributeReference] at entry
  split at entry
  all_goals first
    | contradiction
    | (cases entry; decide)

theorem dataReference_cases {c : Char} {r : String} (entry : dataReference c = some r) :
    (c, r) ∈ [('\r', "&#xD;")] := by
  simp only [dataReference] at entry
  split at entry
  · cases entry
    decide
  · contradiction

/-- What holds of the listed replacements holds of all of a table. -/
theorem forall_mem_reference {table : Char → Option String} {entries : List (Char × String)}
    (lists : ∀ {c r}, table c = some r → (c, r) ∈ entries) {p : Char → Bool}
    (all : (entries.all fun entry => entry.2.toList.all p) = true) :
    ∀ c r, table c = some r → ∀ d ∈ r.toList, p d = true := by
  intro c r entry
  have listed := List.all_eq_true.mp all (c, r) (lists entry)
  exact List.all_eq_true.mp listed

/-- A character that is replaced does not occur unless a replacement has it. -/
theorem not_mem_escaped {table : Char → Option String} {entries : List (Char × String)}
    (lists : ∀ {c r}, table c = some r → (c, r) ∈ entries) {c : Char} (special : table c ≠ none)
    (all : (entries.all fun entry => entry.2.toList.all (· ≠ c)) = true) (cs : List Char) :
    c ∉ cs.flatMap (chars table) := by
  have different : ∀ d ∈ cs.flatMap (chars table), decide (d ≠ c) = true := by
    refine forall_mem_escaped ?_ (forall_mem_reference lists all)
    intro d _ plain
    rw [decide_eq_true_eq]
    rintro rfl
    exact special plain
  intro member
  exact of_decide_eq_true (different c member) rfl

theorem not_mem_escapedText {c : Char} (special : c = '<' ∨ c = '>') (cs : List Char) :
    c ∉ cs.flatMap (chars textReference) := by
  rcases special with rfl | rfl
  · exact not_mem_escaped textReference_cases (by decide) (by decide) cs
  · exact not_mem_escaped textReference_cases (by decide) (by decide) cs

theorem not_mem_escapedAttribute {c : Char} (special : c = '<' ∨ c = '"') (cs : List Char) :
    c ∉ cs.flatMap (chars attributeReference) := by
  rcases special with rfl | rfl
  · exact not_mem_escaped attributeReference_cases (by decide) (by decide) cs
  · exact not_mem_escaped attributeReference_cases (by decide) (by decide) cs

/-- All replacements are made of characters that XML admits. -/
def Admits (table : Char → Option String) : Prop :=
  ∀ c r, table c = some r → ∀ d ∈ r.toList, Chars.isXml d = true

theorem admits_textReference : Admits textReference :=
  forall_mem_reference textReference_cases (by decide)

theorem admits_attributeReference : Admits attributeReference :=
  forall_mem_reference attributeReference_cases (by decide)

theorem admits_dataReference : Admits dataReference :=
  forall_mem_reference dataReference_cases (by decide)

theorem isXml_escaped {table : Char → Option String} (admits : Admits table) {cs : List Char}
    (all : ∀ c ∈ cs, Chars.isXml c = true) :
    ∀ d ∈ cs.flatMap (chars table), Chars.isXml d = true :=
  forall_mem_escaped (fun c member _ => all c member) admits

end Escape

/-! ## Taking escaped text apart -/

theorem escapeWith_append (table : Char → Option String) (first last : String) :
    escapeWith table (first ++ last) = escapeWith table first ++ escapeWith table last := by
  rw [← String.toList_inj]
  simp [Escape.toList_escapeWith]

theorem escapeText_append (first last : String) :
    escapeText (first ++ last) = escapeText first ++ escapeText last :=
  escapeWith_append textReference first last

namespace Markup

open Escape

/-- What a reader takes the characters to be that are written for one. -/
def TextPart.written (table : Char → Option String) (c : Char) : TextPart :=
  if (table c).isSome then .character c else .literal c

/-- Every replacement is a reference to the character that it replaces. -/
def Refers (table : Char → Option String) : Prop :=
  ∀ c r, table c = some r → ∃ body, r.toList = '&' :: body ∧
    ∀ rest, reference? (body ++ rest) = some (.character c, rest)

theorem refers_textReference : Refers textReference := by
  intro c r entry
  have listed := textReference_cases entry
  simp only [List.mem_cons, List.not_mem_nil, or_false, Prod.mk.injEq] at listed
  rcases listed with ⟨rfl, rfl⟩ | ⟨rfl, rfl⟩ | ⟨rfl, rfl⟩ | ⟨rfl, rfl⟩
  · exact ⟨['a', 'm', 'p', ';'], rfl, fun rest => rfl⟩
  · exact ⟨['l', 't', ';'], rfl, fun rest => rfl⟩
  · exact ⟨['g', 't', ';'], rfl, fun rest => rfl⟩
  · exact ⟨['#', 'x', 'D', ';'], rfl, fun rest => rfl⟩

theorem refers_attributeReference : Refers attributeReference := by
  intro c r entry
  have listed := attributeReference_cases entry
  simp only [List.mem_cons, List.not_mem_nil, or_false, Prod.mk.injEq] at listed
  rcases listed with ⟨rfl, rfl⟩ | ⟨rfl, rfl⟩ | ⟨rfl, rfl⟩ | ⟨rfl, rfl⟩ | ⟨rfl, rfl⟩ | ⟨rfl, rfl⟩
  · exact ⟨['a', 'm', 'p', ';'], rfl, fun rest => rfl⟩
  · exact ⟨['l', 't', ';'], rfl, fun rest => rfl⟩
  · exact ⟨['q', 'u', 'o', 't', ';'], rfl, fun rest => rfl⟩
  · exact ⟨['#', 'x', '9', ';'], rfl, fun rest => rfl⟩
  · exact ⟨['#', 'x', 'A', ';'], rfl, fun rest => rfl⟩
  · exact ⟨['#', 'x', 'D', ';'], rfl, fun rest => rfl⟩

/-- Nothing is escaped to nothing. -/
theorem Refers.escaped_ne_nil {table : Char → Option String} (refers : Refers table)
    {text : String} (nonempty : text ≠ "") : (escapeWith table text).toList ≠ [] := by
  rw [toList_escapeWith]
  cases cs : text.toList with
  | nil => exact absurd (String.toList_eq_nil_iff.mp cs) nonempty
  | cons c cs =>
    rw [List.flatMap_cons]
    intro nothing
    -- The first character is written as itself or as a reference.
    have first := (List.append_eq_nil_iff.mp nothing).1
    simp only [chars] at first
    cases entry : table c with
    | none =>
      rw [entry] at first
      cases first
    | some r =>
      obtain ⟨body, spelled, -⟩ := refers c r entry
      rw [entry] at first
      change r.toList = [] at first
      rw [spelled] at first
      cases first

theorem TextPart.list_reference {cs rest : List Char} {part : TextPart}
    (read : reference? cs = some (part, rest)) :
    TextPart.list ('&' :: cs) = part :: TextPart.list rest := by
  rw [TextPart.list]
  split
  · rename_i nothing
    rw [read] at nothing
    cases nothing
  · rename_i part' rest' found
    rw [read] at found
    cases found
    rfl

theorem TextPart.list_literal {c : Char} (plain : c ≠ '&') (cs : List Char) :
    TextPart.list (c :: cs) = .literal c :: TextPart.list cs := by
  rw [TextPart.list]
  exact fun h => plain h

theorem TextPart.list_escaped {table : Char → Option String} (refers : Refers table)
    (ampersand : table '&' ≠ none) (cs : List Char) :
    TextPart.list (cs.flatMap (chars table)) = cs.map (TextPart.written table) := by
  induction cs with
  | nil => rw [List.flatMap_nil, TextPart.list, List.map_nil]
  | cons c cs ih =>
    rw [List.flatMap_cons, List.map_cons]
    simp only [chars, TextPart.written]
    cases entry : table c with
    | none =>
      have plain : c ≠ '&' := by
        rintro rfl
        exact ampersand entry
      dsimp only
      rw [List.singleton_append, list_literal plain]
      exact congrArg _ ih
    | some r =>
      obtain ⟨body, spelled, read⟩ := refers c r entry
      dsimp only
      rw [spelled, List.cons_append, list_reference (read _)]
      exact congrArg _ ih

end Markup

/-! ## Values -/

namespace Reading

open Markup Escape

theorem joinParts?_written (entities : List Entity)
    (expand : List Char → Nat → Option (List Char × Nat)) (cs : List Char) (references : Nat) :
    joinParts? false entities expand (cs.map (TextPart.written attributeReference)) references =
      some (cs, references) := by
  induction cs with
  | nil => rfl
  | cons c cs ih =>
    rw [List.map_cons]
    cases entry : attributeReference c with
    | some r =>
      have written : TextPart.written attributeReference c = .character c := by
        simp [TextPart.written, entry]
      rw [written, joinParts?, ih]
      rfl
    | none =>
      have written : TextPart.written attributeReference c = .literal c := by
        simp [TextPart.written, entry]
      -- White space other than blanks would be replaced, and so it is not read as a blank.
      have notReturn : c ≠ '\r' := by
        rintro rfl
        cases entry
      have notFeed : c ≠ '\n' := by
        rintro rfl
        cases entry
      have notTab : c ≠ '\t' := by
        rintro rfl
        cases entry
      rw [written, joinParts?, ih]
      simp [blank, notReturn, notFeed, notTab]

/-- The value of an escaped text is the text. -/
theorem attributeValue?_escaped (entities : List Entity) (nesting : Nat) (value : String)
    (references : Nat) :
    attributeValue? entities nesting false (escapeAttribute value).toList references =
      some (value.toList, references) := by
  have parts : TextPart.list (escapeAttribute value).toList =
      value.toList.map (TextPart.written attributeReference) := by
    rw [escapeAttribute, toList_escapeWith]
    exact TextPart.list_escaped refers_attributeReference (by decide) _
  cases nesting with
  | zero => rw [attributeValue?, parts, joinParts?_written]
  | succ nesting => rw [attributeValue?, parts, joinParts?_written]

namespace Draft

/-- A carriage return in the buffer is one of a reference, and what follows it is kept. -/
theorem readText_written (expand : List Lexeme → Draft → Except Fault Draft) (d : Draft)
    (cs : List Char) : ∀ (buffer : LineBuffer) (raw : Bool),
    (buffer.head? = some '\r' → raw = true) →
    d.readText false expand buffer raw (cs.map (TextPart.written textReference)) =
      d.flush (cs.reverse ++ buffer) := by
  induction cs with
  | nil =>
    intro buffer raw _
    rfl
  | cons c cs ih =>
    intro buffer raw kept
    rw [List.map_cons, List.reverse_cons, List.append_assoc]
    cases entry : textReference c with
    | some r =>
      have written : TextPart.written textReference c = .character c := by
        simp [TextPart.written, entry]
      rw [written, readText]
      exact ih (c :: buffer) true fun _ => rfl
    | none =>
      have written : TextPart.written textReference c = .literal c := by
        simp [TextPart.written, entry]
      have notReturn : c ≠ '\r' := by
        rintro rfl
        cases entry
      -- Line ends are only joined after a carriage return of the text itself, and there is none.
      have pushed : (if raw then buffer.keep c else
          buffer.push (cs.map (TextPart.written textReference)).isEmpty c) = c :: buffer := by
        cases raw with
        | true => rfl
        | false =>
          show buffer.push _ c = c :: buffer
          simp only [LineBuffer.push]
          split
          · exact absurd (kept rfl) Bool.false_ne_true
          · simp [notReturn]
      rw [written, readText, pushed]
      refine ih (c :: buffer) false fun first => ?_
      cases first
      exact absurd rfl notReturn

theorem readText_escaped (expand : List Lexeme → Draft → Except Fault Draft) (d : Draft)
    (text : String) :
    d.readText false expand [] false (TextPart.list (escapeText text).toList) =
      if text = "" then .ok d else d.appendText text := by
  have parts : TextPart.list (escapeText text).toList =
      text.toList.map (TextPart.written textReference) := by
    rw [escapeText, toList_escapeWith]
    exact TextPart.list_escaped refers_textReference (by decide) _
  rw [parts, readText_written expand d text.toList [] false nofun]
  simp only [flush, LineBuffer.text]
  simp

end Draft

end Reading

end CanonicalXml
