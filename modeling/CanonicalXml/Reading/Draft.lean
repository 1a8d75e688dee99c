import CanonicalXml.Fault
import CanonicalXml.Tree
import CanonicalXml.Markup.Content
import CanonicalXml.Reading.AttributeValue
import CanonicalXml.Reading.LineEnds
/-! # Drafts of a document

A draft is a document of which only the beginning has been read. Lexemes are
added one by one; each either extends the draft or is a fault.

* `Draft.resolve` gives the names of a start tag their namespaces.
* `Draft.startTag`, `Draft.endTag`, `Draft.appendText`, … — what each kind of
  lexeme does.
* `Draft.readAll` — adds a list of lexemes. Text that an entity stands for is
  read where the reference stands, so an end tag in it may close an element
  that was opened outside of it.
-/

namespace CanonicalXml.Reading

open Markup (Lexeme Tag TagAttribute TextPart)

structure ReadOptions where
  allowDoctype : Bool := true
  /-- How many nodes a document may have, the document node included. -/
  nodeLimit : Nat := UInt32.size - 1
deriving DecidableEq

/-- An element whose end tag is still to come. `before` are its earlier siblings, the
nearest first. -/
structure OpenElement where
  tag : Tag
  element : Element
  before : Content
deriving DecidableEq

/-- An attribute whose prefix has not been resolved. -/
structure UnresolvedAttribute where
  name : QName
  value : String
  offset : Nat
deriving DecidableEq

/-- A document of which the beginning has been read. -/
structure Draft where
  source : List Char
  options : ReadOptions
  entities : List Entity := []
  /-- The number of nodes so far, the document node included. -/
  size : Nat := 1
  /-- The open elements, innermost first. -/
  opened : List OpenElement := []
  /-- The nodes read so far inside the innermost open element, last one first. -/
  siblings : Content := .nil
  /-- Whether the last thing read was text, to which more text is added. -/
  afterText : Bool := false
  /-- The declarations and attributes of a start tag that is not finished. -/
  declarations : List Binding := []
  attributes : List UnresolvedAttribute := []
  /-- Whether a start tag has been read in the text being read, be it the document's or
  an entity's. -/
  tagSeen : Bool := false
  /-- The number of nested entity references expanded so far. -/
  references : Nat := 0

namespace Draft

def empty (source : List Char) (options : ReadOptions) : Draft :=
  { source, options }

def position (source : List Char) (offset : Nat) : NameSite :=
  let before := source.take offset
  .source (before.count '\n' + 1) ((before.reverse.takeWhile (· ≠ '\n')).length + 1)

def append (d : Draft) (node : Content → Content) : Except Fault Draft :=
  if d.options.nodeLimit ≤ d.size then .error (.excess .nodes)
  else .ok { d with siblings := node d.siblings, size := d.size + 1, afterText := false }

/-- Adds text, to the text before it if there is some. -/
def appendText (d : Draft) (text : String) : Except Fault Draft :=
  match d.afterText, d.siblings with
  | true, .leaf (.text old) rest => .ok { d with siblings := .leaf (.text (old ++ text)) rest }
  | _, _ => (d.append (.leaf (.text text))).map ({ · with afterText := true })

/-! ## Tags -/

/-- Adds a declaration of the prefix, which may not be one that the tag declares already.
The two namespaces of XML itself cannot be bound to other prefixes, and the prefix
`xml` to no other namespace. -/
def declarePrefix (d : Draft) (nsPrefix uri : String) : Except Fault Draft :=
  if uri = xmlnsNamespace then .error .malformed
  else if nsPrefix = xmlPrefix then if uri = xmlNamespace then .ok d else .error .malformed
  else if uri = xmlNamespace then .error .malformed
  else if d.declarations.any (·.nsPrefix = nsPrefix) then .error .malformed
  else .ok { d with declarations := d.declarations ++ [⟨nsPrefix, uri⟩] }

/-- Adds a declaration of the default namespace. Of several the first one holds. -/
def declareDefault (d : Draft) (uri : String) : Except Fault Draft :=
  if uri = xmlnsNamespace ∨ uri = xmlNamespace then .error .malformed
  else .ok { d with declarations := d.declarations ++ [⟨"", uri⟩] }

def tagAttribute (nesting : Nat) (deep : Bool) (d : Draft) (a : TagAttribute) :
    Except Fault Draft :=
  match attributeValue? d.entities nesting deep a.value d.references with
  | none => .error .malformed
  | some (chars, references) =>
    let value := String.ofList chars
    let d := { d with references := references }
    if a.name.nsPrefix = xmlnsPrefix then d.declarePrefix a.name.localName value
    else if a.name.localName = xmlnsPrefix then d.declareDefault value
    else .ok { d with attributes := d.attributes ++ [⟨a.name, value, a.offset⟩] }

/-- The namespace of an attribute's name. An attribute without a prefix has none. -/
def attributeNamespace (source : List Char) (scope : Scope) (a : UnresolvedAttribute) :
    Except Fault (Option String) :=
  if a.name.nsPrefix.isEmpty then .ok none
  else if a.name.nsPrefix = xmlPrefix then .ok (some xmlNamespace)
  else match scope.uri? a.name.nsPrefix with
    | some uri => .ok (some uri)
    | none => .error (.undeclaredPrefix a.name.nsPrefix (position source a.offset))

/-- Resolves attributes in order. No two may have the same namespace and local name. -/
def resolveAttributes (source : List Char) (scope : Scope) (resolved : List Attribute) :
    List UnresolvedAttribute → Except Fault (List Attribute)
  | [] => .ok resolved
  | a :: rest => do
    let nsUri? ← attributeNamespace source scope a
    if resolved.any fun b => b.nsUri? = nsUri? && b.localName = a.name.localName then
      .error .malformed
    else resolveAttributes source scope (resolved ++ [⟨nsUri?, a.name.localName, a.value⟩]) rest

def outerScope (d : Draft) : Scope :=
  match d.opened with
  | [] => []
  | p :: _ => p.element.scope

/-- Takes the pending declarations and attributes: the scope and the attributes that they
make, and the draft without them. -/
def resolve (d : Draft) : Except Fault (Scope × List Attribute × Draft) := do
  let scope := Scope.extend d.declarations d.outerScope
  let attributes ← resolveAttributes d.source scope [] d.attributes
  return (scope, attributes, { d with declarations := [], attributes := [] })

/-- The namespace of an element's name, given the offset of its tag. -/
def elementNamespace (source : List Char) (scope : Scope) (name : QName) (start : Nat) :
    Except Fault (Option String) :=
  match name.nsPrefix.isEmpty, scope.uri? name.nsPrefix with
  | false, none => .error (.undeclaredPrefix name.nsPrefix (position source (start + 1)))
  | _, uri? => .ok uri?

/-- How the start tag of an element is spelled which ends at `stop`. An end before the tag
is that of an end tag in the text of an earlier entity; then the spelling is not known. -/
def spelled? (tag : Tag) (stop : Nat) : Option StartTag :=
  if tag.start < stop then StartTag.readChars? tag.text else none

/-- The element that a start tag makes of the pending declarations and attributes. How its
tag is spelled is left open. -/
def element (d : Draft) (tag : Tag) : Except Fault (Element × Draft) := do
  let (scope, attributes, d) ← d.resolve
  let nsUri? ← elementNamespace d.source scope tag.name tag.start
  return (⟨nsUri?, tag.name.localName, attributes, scope, none⟩, d)

/-- Adds a start tag. One that the text leaves unfinished makes no element; what it
declares stays pending. -/
def startTag (nesting : Nat) (deep : Bool) (d : Draft) (tag : Tag) : Except Fault Draft := do
  if tag.name.nsPrefix = xmlnsPrefix then throw .malformed
  let d ← tag.attributes.foldlM (tagAttribute nesting deep)
    { d with tagSeen := true, afterText := false }
  match tag.ending with
  | .unfinished => return d
  | .empties =>
    let (e, d) ← d.element tag
    d.append (.element { e with tag := spelled? tag tag.stop } .nil)
  | .opens =>
    let (e, d) ← d.element tag
    -- The element itself is put among its siblings when it is closed.
    let before := d.siblings
    let d ← d.append fun _ => .nil
    return { d with opened := ⟨tag, e, before⟩ :: d.opened }

/-- Adds an end tag, which closes the innermost open element. The first tag of a text
cannot be an end tag. -/
def endTag (d : Draft) (name : QName) (stop : Nat) : Except Fault Draft := do
  if !d.tagSeen then throw .malformed
  -- An unfinished tag before it may have left attributes, which have to be in order.
  let (_, _, d) ← d.resolve
  match d.opened with
  | [] => throw .malformed
  | p :: rest =>
    if p.tag.name ≠ name then throw .malformed
    let element := { p.element with tag := spelled? p.tag stop }
    return { d with
      opened := rest
      afterText := false
      siblings := .element element d.siblings.reverse p.before }

/-! ## Text -/

def flush (d : Draft) (buffer : LineBuffer) : Except Fault Draft :=
  if buffer.isEmpty then .ok d else d.appendText buffer.text

/-- Adds the text that an entity stands for, read by `expand`. -/
def readEntity (deep : Bool) (expand : List Lexeme → Draft → Except Fault Draft) (d : Draft)
    (entity : Entity) : Except Fault Draft :=
  match countReference? deep d.references with
  | none => .error .malformed
  | some references => do
    let inner ← expand (Markup.replacement entity.stop entity.value)
      { d with references := references, tagSeen := false }
    return { inner with
      tagSeen := d.tagSeen
      references := if deep then inner.references else 0 }

/-- Adds character data. Outside of entities a reference is taken as its character, and so
is the character of the text that follows it, which `raw` tells. Text before a reference to
an entity is added once the entity is known to be declared. -/
def readText (deep : Bool) (expand : List Lexeme → Draft → Except Fault Draft) (d : Draft)
    (buffer : LineBuffer) (raw : Bool) : List TextPart → Except Fault Draft
  | [] => d.flush buffer
  | .literal c :: parts =>
    let buffer := if raw then buffer.keep c else buffer.push parts.isEmpty c
    readText deep expand d buffer false parts
  | .character c :: parts =>
    let buffer := if deep then buffer.push parts.isEmpty c else buffer.keep c
    readText deep expand d buffer (!deep) parts
  | .entity name :: parts =>
    match d.entities.find? (·.name = name) with
    | none => .error .malformed
    | some entity => do
      let d ← d.flush buffer
      let d ← d.readEntity deep expand entity
      readText deep expand d [] false parts
  | .malformed :: _ => .error .malformed

/-! ## Lexemes -/

/-- Adds a lexeme. `nesting` is how deep entity references may still nest; `deep` says
that the lexeme itself comes from an entity's text. -/
def read (nesting : Nat) (deep : Bool) (expand : List Lexeme → Draft → Except Fault Draft)
    (d : Draft) : Lexeme → Except Fault Draft
  | .startTag tag => d.startTag nesting deep tag
  | .endTag name stop => d.endTag name stop
  | .text raw => d.readText deep expand [] false (TextPart.list raw)
  | .cdata raw => d.appendText (convertLineEnds raw)
  | .comment text => d.append (.leaf (.comment (String.ofList text)))
  | .instruction target data =>
    d.append (.leaf (.instruction (String.ofList target)
      (if data.isEmpty then none else some (String.ofList data))))
  | .doctype => if d.options.allowDoctype then .ok d else .error (.excess .doctype)
  | .entity name value stop =>
    .ok { d with entities := d.entities ++ [⟨String.ofList name, value, stop⟩] }
  | .malformed => .error .malformed

def readAll : Nat → Bool → List Lexeme → Draft → Except Fault Draft
  | 0, deep, ls, d => ls.foldlM (read 0 deep fun _ _ => .error .malformed) d
  | nesting + 1, deep, ls, d => ls.foldlM (read (nesting + 1) deep (readAll nesting true)) d

end Draft

end CanonicalXml.Reading
