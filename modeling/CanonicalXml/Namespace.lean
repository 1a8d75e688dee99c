import CanonicalXml.QName
/-! # Namespace bindings

A binding gives a prefix a namespace URI; the empty prefix stands for the
default namespace, and an empty URI undeclares it.

* `Binding` — one binding, be it in scope or declared on a tag.
* `Scope` — the bindings in scope at an element, in the order in which they
  are found: where a prefix occurs twice the first binding holds.
-/

namespace CanonicalXml

def xmlNamespace : String := "http://www.w3.org/XML/1998/namespace"

def xmlPrefix : String := "xml"

/-- The namespace of namespace declarations, which nothing may be bound to. -/
def xmlnsNamespace : String := "http://www.w3.org/2000/xmlns/"

/-- The name that declares a default namespace, and the prefix of the names that
declare the others. -/
def xmlnsPrefix : String := "xmlns"

structure Binding where
  nsPrefix : String
  uri : String
deriving DecidableEq

/-- The bindings in scope at an element. The binding of `xml` is never listed. -/
abbrev Scope := List Binding

namespace Scope

def uri? (scope : Scope) (nsPrefix : String) : Option String :=
  (scope.find? (·.nsPrefix = nsPrefix)).map (·.uri)

/-- A prefix for a namespace: the first one bound to it. The result is empty when
that is the default namespace, and also when nothing is bound to it. -/
def prefixOf (scope : Scope) (uri : String) : String :=
  if uri = xmlNamespace then xmlPrefix
  else ((scope.find? (·.uri = uri)).map (·.nsPrefix)).getD ""

/-- The bindings of `seen`, followed by those of `outer` whose prefix is not yet listed. -/
def merge (seen outer : Scope) : Scope :=
  outer.foldl (fun seen b => if seen.any (·.nsPrefix = b.nsPrefix) then seen else seen ++ [b]) seen

/-- The scope inside an element. Its own declarations come first and hide what the
surroundings bind to the same prefixes; without any the surroundings hold as they are. -/
def extend (own outer : Scope) : Scope :=
  if own.isEmpty then outer else own.merge outer

end Scope

end CanonicalXml
