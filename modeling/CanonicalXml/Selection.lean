import CanonicalXml.Fault
import CanonicalXml.Location
import CanonicalXml.Text
/-! # Same-document references

References that stay in the document: to all of it, or to the element that
carries an identifier.

* `IdTable` — which element carries which identifier, `Document.ids` of a
  document.
* `Document.select` — the node that a reference selects.
-/

namespace CanonicalXml

/-- The elements by the identifiers they carry, the entries added last coming first.
Where an identifier occurs more than once, the first entry counts. -/
abbrev IdTable := List (String × Location)

/-- The names that attributes holding identifiers always have. -/
def defaultIdNames : List String := ["Id", "ID", "id"]

/-- The value of an element's attribute of this name in no namespace. -/
def Element.attribute? (e : Element) (name : String) : Option String :=
  (e.attributes.find? fun a => a.nsUri?.isNone && a.localName = name).map (·.value)

def Location.element? (loc : Location) : Option Element :=
  match loc.here with
  | .element e _ _ => some e
  | _ => none

/-- The identifiers that a node carries, in the order of the names. -/
def Location.idsAt (names : List String) (loc : Location) : List (String × Location) :=
  match loc.element? with
  | none => []
  | some e => names.filterMap fun name => (e.attribute? name).map (·, loc)

/-- The identifiers in a document. Attributes hold them that have one of the usual names or
one of the names given; a later element takes an identifier from an earlier one. -/
def Document.ids (d : Document) (names : List String) : IdTable :=
  (d.locations.flatMap (Location.idsAt (defaultIdNames ++ names))).reverse

/-- The element that carries the identifier. -/
def IdTable.find? (ids : IdTable) (id : String) : Option Location :=
  ids.lookup id

namespace Reference

open Text

def fragment? (reference : String) : Option String :=
  (strip? ['#'] reference.toList).map String.ofList

def quotedBy? (quote : Char) (cs : List Char) : Option (List Char) :=
  (strip? [quote] cs).bind (stripEnd? [quote])

/-- The identifier in a pointer of the form `xpointer(id('…'))`, with either quote. -/
def pointerId? (pointer : String) : Option String :=
  ((strip? "xpointer(id(".toList pointer.toList).bind (stripEnd? "))".toList)).bind
    fun inner => ((quotedBy? '\'' inner).or (quotedBy? '"' inner)).map String.ofList

end Reference

/-- The node that a reference selects: the document node if it is empty or the pointer to
the root, and otherwise the element with the identifier that it holds. -/
def Document.select (d : Document) (ids : IdTable) (reference : String) : Except Fault Place :=
  if reference.isEmpty then .ok (.document d.content)
  else match Reference.fragment? reference with
    | none => .error (.foreignReference reference)
    | some fragment =>
      if fragment = "xpointer(/)" then .ok (.document d.content)
      else
        let id := (Reference.pointerId? fragment).getD fragment
        match ids.find? id with
        | some loc => .ok (.node loc)
        | none => .error (.unknownId id)

end CanonicalXml
