/-! # Escaping

How characters are written where they could be taken for markup, or would be
changed by a reader.

* `escapeText` for character data, `escapeAttribute` for attribute values and
  namespace URIs, `escapeData` for comments and instructions.

Each is the character-wise application of a table, so escaping a concatenation
is concatenating what is escaped.
-/

namespace CanonicalXml

/-- Replaces the characters that the table lists. -/
def escapeWith (table : Char → Option String) (s : String) : String :=
  String.ofList (s.toList.flatMap fun c =>
    match table c with
    | some replacement => replacement.toList
    | none => [c])

/-- The references written in character data. -/
def textReference : Char → Option String
  | '&' => some "&amp;"
  | '<' => some "&lt;"
  | '>' => some "&gt;"
  | '\r' => some "&#xD;"
  | _ => none

/-- The references written in attribute values. -/
def attributeReference : Char → Option String
  | '&' => some "&amp;"
  | '<' => some "&lt;"
  | '"' => some "&quot;"
  | '\t' => some "&#x9;"
  | '\n' => some "&#xA;"
  | '\r' => some "&#xD;"
  | _ => none

/-- What is written for a carriage return in comments and instructions. They know no
references, so a reader takes it literally. -/
def dataReference : Char → Option String
  | '\r' => some "&#xD;"
  | _ => none

def escapeText : String → String :=
  escapeWith textReference

def escapeAttribute : String → String :=
  escapeWith attributeReference

/-- Escapes the text of a comment or the data of an instruction. -/
def escapeData : String → String :=
  escapeWith dataReference

end CanonicalXml
