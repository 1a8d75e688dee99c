import CanonicalXml.BaseUri
import CanonicalXml.Canonical.Request
import CanonicalXml.TagItem
/-! # The attribute axis of a written element

* `Request.ownAttributes` — the element's own attributes with their prefixes,
  each of which has to be declared.
* `Request.inherit` — what is added when the parent is not output: attributes
  of the XML namespace from ancestors, up to the innermost one that is.
* `Request.writtenAttributes` — both, in canonical order.
-/

namespace CanonicalXml

/-- Fails if a prefix is used that is bound to nothing. -/
def NamespaceAxis.checkPrefix (axis : NamespaceAxis) (nsPrefix qname : String) :
    Except Fault Unit :=
  if nsPrefix.isEmpty || (axis.uri? nsPrefix).isSome then .ok ()
  else .error (.undeclaredPrefix nsPrefix (.tag qname))

namespace WrittenAttribute

def of (a : Attribute) (nsPrefix : String) : WrittenAttribute :=
  ⟨a.nsUri?.getD "", a.localName, (QName.mk nsPrefix a.localName).text, a.value⟩

def ofXml (localName value : String) : WrittenAttribute :=
  ⟨xmlNamespace, localName, (QName.mk xmlPrefix localName).text, value⟩

/-- Whether this is the attribute of the XML namespace with that local name. -/
def isXml (a : WrittenAttribute) (localName : String) : Bool :=
  a.nsUri = xmlNamespace && a.localName = localName

end WrittenAttribute

/-- The attributes of an element in the XML namespace: local names and values. -/
def Element.xmlAttributes (e : Element) : List (String × String) :=
  (e.attributes.filter (·.nsUri? = some xmlNamespace)).map fun a => (a.localName, a.value)

namespace Request

/-- The element's own attributes with the prefixes of its spelling, on the tag `qname`. -/
def ownAttributes (axis : NamespaceAxis) (qname : String) :
    List (Attribute × String) → Except Fault (List WrittenAttribute)
  | [] => .ok []
  | (a, nsPrefix) :: rest => do
    axis.checkPrefix nsPrefix qname
    return .of a nsPrefix :: (← ownAttributes axis qname rest)

/-- The attributes of the XML namespace that an element takes unchanged. -/
def inheritable (rule : InheritanceRule) (localName : String) : Bool :=
  match rule with
  | .nothing => false
  | .everything => true
  | .revised => localName = "lang" || localName = "space"

def firstOfEach : List (String × String) → List (String × String)
  | [] => []
  | entry :: rest => entry :: (firstOfEach rest).filter (·.1 ≠ entry.1)

/-- The attributes of the XML namespace on these ancestors that an element takes from
them; of several for a name that of the innermost ancestor. -/
def inherited (rule : InheritanceRule) (ancestors : List Ancestor) : List (String × String) :=
  firstOfEach ((ancestors.flatMap (·.element.xmlAttributes)).filter (inheritable rule ·.1))

/-- The base URI that the ancestors make, outermost first, each relative to those around it. -/
def inheritedBase (ancestors : List Ancestor) : String :=
  ((ancestors.flatMap (·.element.xmlAttributes)).filter (·.1 = "base")).foldr
    (fun (_, uri) base => joinUri base uri) ""

/-- Joins the attributes with an inherited base URI, which an own base URI is resolved
against. -/
def joinBase (base : String) (attributes : List WrittenAttribute) : List WrittenAttribute :=
  if base.isEmpty then attributes
  else if attributes.any (·.isXml "base") then
    attributes.map fun a => if a.isXml "base" then { a with value := joinUri base a.value } else a
  else attributes ++ [.ofXml "base" base]

/-- The attributes of an element together with those that it takes from the ancestors. An
own attribute is never replaced, but an own base URI is made relative to theirs. -/
def inherit (rule : InheritanceRule) (ancestors : List Ancestor)
    (own : List WrittenAttribute) : List WrittenAttribute :=
  let added := ((inherited rule ancestors).filter fun (name, _) => !own.any (·.isXml name)).map
    fun (name, value) => .ofXml name value
  let attributes := own ++ added
  if rule = .revised then joinBase (inheritedBase ancestors) attributes else attributes

/-- The attributes written on the element that stands at a place, in canonical order.
`parentOutput` says whether its parent is output. -/
def writtenAttributes (r : Request) (axis : NamespaceAxis) (loc : Location) (e : Element)
    (names : Spelling) (parentOutput : Bool) : Except Fault (List WrittenAttribute) := do
  if r.excludesAttributes then return []
  let own ← ownAttributes axis names.name.text (e.attributes.zip names.attributePrefixes)
  if parentOutput then return WrittenAttribute.sort own
  return WrittenAttribute.sort
    (inherit r.method.inheritance (r.omittedAncestors loc.ancestors) own)

end Request

end CanonicalXml
