import CanonicalXml.Escape
import CanonicalXml.Namespace
/-! # Items of a written start tag

Namespace declarations and attributes as they are written, and the canonical
order of each.

* `Binding.write`, `WrittenAttribute.write` — the text of one item.
* `Binding.sort` orders declarations by prefix, the default one first;
  `WrittenAttribute.sort` orders attributes by namespace URI and local name,
  those without namespace first. Both orders go by code points.
-/

namespace CanonicalXml

namespace Binding

/-- The declaration of a binding, with the space before it. -/
def write (b : Binding) : String :=
  let name := if b.nsPrefix.isEmpty then xmlnsPrefix else xmlnsPrefix ++ ":" ++ b.nsPrefix
  " " ++ name ++ "=\"" ++ escapeAttribute b.uri ++ "\""

def precedes (a b : Binding) : Bool :=
  a.nsPrefix < b.nsPrefix || (a.nsPrefix = b.nsPrefix && a.uri ≤ b.uri)

def sort (bs : List Binding) : List Binding :=
  bs.mergeSort precedes

end Binding

/-- An attribute as it is written. `nsUri` is empty for a name without namespace. -/
structure WrittenAttribute where
  nsUri : String
  localName : String
  qname : String
  value : String
deriving DecidableEq

namespace WrittenAttribute

/-- The text of an attribute, with the space before it. -/
def write (a : WrittenAttribute) : String :=
  " " ++ a.qname ++ "=\"" ++ escapeAttribute a.value ++ "\""

def precedes (a b : WrittenAttribute) : Bool :=
  a.nsUri < b.nsUri || (a.nsUri = b.nsUri && a.localName ≤ b.localName)

/-- Attributes in canonical order. Those of equal names keep their order. -/
def sort (attributes : List WrittenAttribute) : List WrittenAttribute :=
  attributes.mergeSort precedes

end WrittenAttribute

end CanonicalXml
