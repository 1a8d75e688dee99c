import CanonicalXml.Markup.Reference
/-! # Attribute values

The value that an attribute has for the tree: references replaced, and white
space characters turned into spaces.

* `Entity` — a declared internal entity.
* `attributeValue?` — the value of a raw text. Entities are expanded, to a
  limited depth and a limited number of times.
-/

namespace CanonicalXml.Reading

open Markup (TextPart)

/-- An internal entity. Its text is `value`, which ends at the offset `stop`. -/
structure Entity where
  name : String
  value : List Char
  stop : Nat
deriving DecidableEq

def maxNesting : Nat := 10

/-- How many references may be expanded inside of one that is not itself inside another. -/
def maxReferences : Nat := 255

/-- Counts a reference to an entity. Only nested references (`deep`) are limited. -/
def countReference? (deep : Bool) (references : Nat) : Option Nat :=
  if !deep then some references
  else if references = maxReferences then none
  else some (references + 1)

/-- White space in an attribute value is read as a space. -/
def blank (c : Char) : Char :=
  if c = '\r' || c = '\n' || c = '\t' then ' ' else c

/-- The text of the parts, and the number of references counted so far. `expand` gives
the text of an entity. A character reference is taken as it is, unless it stands in an
entity's text (`deep`): there it is treated like its character, and may not be `<`. -/
def joinParts? (deep : Bool) (entities : List Entity)
    (expand : List Char → Nat → Option (List Char × Nat)) :
    List TextPart → Nat → Option (List Char × Nat)
  | [], references => some ([], references)
  | .literal c :: parts, references =>
    (joinParts? deep entities expand parts references).map fun (text, n) =>
      if c = '\r' && parts.head? = some (.literal '\n') then (text, n) else (blank c :: text, n)
  | .character c :: parts, references =>
    if deep && c = '<' then none
    else (joinParts? deep entities expand parts references).map fun (text, n) =>
      ((if deep then blank c else c) :: text, n)
  | .entity name :: parts, references =>
    (entities.find? (·.name = name)).bind fun entity =>
      (countReference? deep references).bind fun references =>
        (expand entity.value references).bind fun (inner, references) =>
          (joinParts? deep entities expand parts (if deep then references else 0)).map
            fun (text, n) => (inner ++ text, n)
  | .malformed :: _, _ => none

/-- The value of a raw text in which entities may nest `nesting` deep, and the number of
references counted so far. -/
def attributeValue? (entities : List Entity) :
    Nat → Bool → List Char → Nat → Option (List Char × Nat)
  | 0, deep, raw, references =>
    joinParts? deep entities (fun _ _ => none) (TextPart.list raw) references
  | nesting + 1, deep, raw, references =>
    joinParts? deep entities (attributeValue? entities nesting true) (TextPart.list raw) references

end CanonicalXml.Reading
