import CanonicalXml.Location
/-! # Spelled names

A tree resolves names to namespaces and forgets prefixes; canonical text must
show the prefixes the source used.

* `Spelling` — the name of an element with its prefix, the prefixes of its
  attributes, and the declarations made on it.
* `Spelling.of` takes them from the start tag where the source shows it, and
  otherwise finds prefixes in scope that fit.
-/

namespace CanonicalXml

/-- The names of an element as they are to be written. `attributePrefixes` runs
parallel to the element's attributes; a declaration with an empty URI undeclares. -/
structure Spelling where
  name : QName
  declarations : List Binding
  attributePrefixes : List String
deriving DecidableEq

namespace Spelling

/-- The prefix of the element's own name. -/
def elementPrefix (e : Element) : String :=
  match e.tag, e.nsUri? with
  | some tag, _ => tag.name.nsPrefix
  | none, some uri => e.scope.prefixOf uri
  | none, none => ""

/-- The declarations that turn the surrounding scope into the element's. A default
namespace that is gone is undeclared. -/
def scopeChanges (outer own : Scope) : List Binding :=
  let hasDefault (s : Scope) := s.any fun b => b.nsPrefix.isEmpty && !b.uri.isEmpty
  own.filter (! outer.contains ·) ++
    if hasDefault outer && !hasDefault own then [⟨"", ""⟩] else []

/-- The declarations made on the element, in source order where its tag is known. -/
def declarationsOf (outer : Scope) (e : Element) : List Binding :=
  match e.tag with
  | some tag => tag.declarations.map fun (p, _) => ⟨p, (e.scope.uri? p).getD ""⟩
  | none => scopeChanges outer e.scope

/-- A prefix in scope that fits the attribute's namespace. -/
def fittingPrefix (scope : Scope) (a : Attribute) : String :=
  match a.nsUri? with
  | none => ""
  | some uri => scope.prefixOf uri

/-- The prefixes of the attributes: of each spelled attribute that names the attribute
in the same position its own prefix, and a fitting one for all others. -/
def prefixesOf (scope : Scope) : List RawAttribute → List Attribute → List String
  | _, [] => []
  | [], a :: attributes => fittingPrefix scope a :: prefixesOf scope [] attributes
  | raw :: spelled, a :: attributes =>
    let name := QName.ofText raw.qname
    (if name.localName = a.localName then name.nsPrefix else fittingPrefix scope a) ::
      prefixesOf scope spelled attributes

/-- The spelled names of an element below the scope `outer`. -/
def of (outer : Scope) (e : Element) : Spelling where
  name := ⟨elementPrefix e, e.localName⟩
  declarations := declarationsOf outer e
  attributePrefixes := prefixesOf e.scope ((e.tag.map StartTag.plain).getD []) e.attributes

end Spelling

/-- The spelled names of the element `e` that stands at a place. -/
def Location.spelling (loc : Location) (e : Element) : Spelling :=
  Spelling.of loc.outerScope e

end CanonicalXml
