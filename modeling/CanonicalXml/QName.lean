/-! # Qualified names

A qualified name is spelled `prefix:local` or just `local`.

* `QName` — the two parts; an absent prefix is the empty one.
* `QName.text` writes a name, `QName.split` takes a spelling apart at its
  first colon.
-/

namespace CanonicalXml

/-- A name as spelled: `nsPrefix` is empty when there is none. -/
structure QName where
  nsPrefix : String
  localName : String
deriving DecidableEq

namespace QName

def text (name : QName) : String :=
  if name.nsPrefix.isEmpty then name.localName
  else name.nsPrefix ++ ":" ++ name.localName

/-- The characters before the first colon, if there is one, and those after it. -/
def splitChars (cs : List Char) : Option (List Char) × List Char :=
  match cs.dropWhile (· ≠ ':') with
  | [] => (none, cs)
  | _ :: rest => (some (cs.takeWhile (· ≠ ':')), rest)

/-- The prefix of a spelling, if it has a colon, and the rest. -/
def split (spelling : String) : Option String × String :=
  let (before, after) := splitChars spelling.toList
  (before.map String.ofList, String.ofList after)

def ofText (spelling : String) : QName :=
  let (before, after) := split spelling
  ⟨before.getD "", after⟩

end QName

end CanonicalXml
