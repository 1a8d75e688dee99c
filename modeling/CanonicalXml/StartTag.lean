import CanonicalXml.Text
import CanonicalXml.QName
import CanonicalXml.Namespace
/-! # Start tags as spelled

The lexical view of a start tag: its name and its attributes, namespace
declarations included, in source order with their raw values.

* `StartTag.read?` reads the tag at the beginning of a text; what follows the
  tag does not matter.
* `StartTag.declarations` and `StartTag.plain` split the attributes in two.

The reader is tolerant: it looks for the delimiters only, and leaves it to the
document's own reader to refuse what is not a start tag.
-/

namespace CanonicalXml

/-- An attribute as spelled; the value is what stands between the quotes. -/
structure RawAttribute where
  qname : String
  value : String
deriving DecidableEq

namespace RawAttribute

/-- The prefix that the attribute declares, empty for the default namespace;
nothing if it is no namespace declaration. -/
def declaredPrefix? (a : RawAttribute) : Option String :=
  if a.qname = xmlnsPrefix then some ""
  else match QName.split a.qname with
    | (some before, after) => if before = xmlnsPrefix then some after else none
    | (none, _) => none

def isDeclaration (a : RawAttribute) : Bool :=
  a.declaredPrefix?.isSome

end RawAttribute

/-- A start tag as spelled. -/
structure StartTag where
  qname : String
  attributes : List RawAttribute
deriving DecidableEq

namespace StartTag

open Text

/-- The spelling of one attribute, and the text after its closing quote. White space
may surround the equals sign. -/
def attribute? (cs : List Char) : Option (RawAttribute × List Char) :=
  (until? ['='] cs).bind fun (name, rest) =>
    match skipSpace rest with
    | [] => none
    | quote :: body =>
      if quote = '"' ∨ quote = '\'' then
        (until? [quote] body).map fun (value, rest) =>
          (⟨String.ofList (trimEnd name), String.ofList value⟩, rest)
      else none

/-- Whether the text begins with the end of a tag. -/
def atEnd : List Char → Bool
  | '>' :: _ => true
  | '/' :: '>' :: _ => true
  | _ => false

/-- Reading an attribute consumes some of the text. -/
theorem attribute?_length {cs rest : List Char} {a : RawAttribute}
    (h : attribute? cs = some (a, rest)) : rest.length < cs.length := by
  obtain ⟨⟨name, after⟩, hname, h⟩ := Option.bind_eq_some_iff.mp h
  have hlt := length_of_until? hname
  have hle := length_skipSpace_le after
  dsimp only at h
  split at h
  · contradiction
  · rename_i quote body hbody
    rw [hbody, List.length_cons] at hle
    split at h
    · obtain ⟨⟨value, tail⟩, hvalue, he⟩ := Option.map_eq_some_iff.mp h
      simp only [Prod.mk.injEq] at he
      have := length_of_until? (he.2 ▸ hvalue)
      omega
    · contradiction

def attributes? (cs : List Char) : Option (List RawAttribute) :=
  if atEnd (skipSpace cs) then some []
  else match _h : attribute? (skipSpace cs) with
    | none => none
    | some (a, rest) => (attributes? rest).map (a :: ·)
termination_by cs.length
decreasing_by
  have h₁ := attribute?_length _h
  have h₂ := length_skipSpace_le cs
  omega

/-- A character that ends the name of a tag. -/
def endsName (c : Char) : Bool :=
  Chars.isSpace c || c = '/' || c = '>'

def readChars? : List Char → Option StartTag
  | '<' :: rest =>
    let name := rest.takeWhile (! endsName ·)
    let after := rest.dropWhile (! endsName ·)
    if name.isEmpty || after.isEmpty then none
    else (attributes? after).map fun attributes => ⟨String.ofList name, attributes⟩
  | _ => none

def read? (src : String) : Option StartTag :=
  readChars? src.toList

def prefix? (tag : StartTag) : Option String :=
  (QName.split tag.qname).1

def name (tag : StartTag) : QName :=
  QName.ofText tag.qname

/-- The namespace declarations in source order: the prefix and the raw value. -/
def declarations (tag : StartTag) : List (String × String) :=
  tag.attributes.filterMap fun a => a.declaredPrefix?.map (·, a.value)

def plain (tag : StartTag) : List RawAttribute :=
  tag.attributes.filter (! ·.isDeclaration)

end StartTag

end CanonicalXml
