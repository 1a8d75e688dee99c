import CanonicalXml.Proofs.AttributeAxis
import CanonicalXml.Proofs.Settling
import CanonicalXml.Proofs.Traversal

/-! # Reading names back

A reader of the written start tags knows the declarations on the tags that are still open, and
looks a prefix up from the innermost one on.  All names that a walk writes are resolved by it as
they are in the source, if all namespace nodes are visible.

* `Reader.next` — what the reader remembers; `Reader.resolve?` — how it looks a prefix up.
* `Document.NamesResolve` — in the source every name has a prefix that stands for its namespace.
* `Reader.Follows` — the axis shows what the reader sees.
* `Walk.names_resolve` — the reader finds every name in its namespace.
-/

namespace CanonicalXml

open NamespaceAxis Transcript

/-! ## The reader -/

namespace Reader

/-- The open tags, innermost first: the name to be closed, and the declarations. -/
abbrev Tags := List (String × List Binding)

def next (tags : Tags) : Piece → Tags
  | .startTag _ qname declarations _ => (qname, declarations) :: tags
  | .endTag _ => tags.tail
  | .bare _ _ | .leaf _ _ => tags

/-- What the innermost tag says that declares the prefix. -/
def declared? : Tags → String → Option String
  | [], _ => none
  | (_, declarations) :: tags, p =>
    ((declarations.find? (·.nsPrefix = p)).map (·.uri)).or (declared? tags p)

/-- The namespace that a prefix stands for.  The empty URI is none. -/
def resolve? (tags : Tags) (p : String) : Option String :=
  if p = xmlPrefix then some xmlNamespace else (declared? tags p).filter (· ≠ "")

/-- The name of an element, which has the default namespace if it has no prefix. -/
def ReadsElement (tags : Tags) (qname : String) (e : Element) : Prop :=
  let name := QName.ofText qname
  name.localName = e.localName ∧
    (name.nsPrefix ≠ "" → resolve? tags name.nsPrefix ≠ none) ∧
    (resolve? tags name.nsPrefix).getD "" = e.nsUri?.getD ""

/-- The name of an attribute, which has no namespace if it has no prefix. -/
def ReadsAttribute (tags : Tags) (a : WrittenAttribute) : Prop :=
  let name := QName.ofText a.qname
  name.localName = a.localName ∧
    if name.nsPrefix = "" then a.nsUri = "" else resolve? tags name.nsPrefix = some a.nsUri

/-- The attribute is one of the element, or one of the XML namespace from around it. -/
def FromSource (loc : Location) (e : Element) (a : WrittenAttribute) : Prop :=
  (∃ own ∈ e.attributes, own.nsUri?.getD "" = a.nsUri ∧ own.localName = a.localName) ∨
    (a.nsUri = xmlNamespace ∧ Request.OnAncestor loc.ancestors a.localName)

/-- What the reader expects of a piece: names that it resolves as the source does, end tags for
the innermost open tag, and no declarations outside of tags. -/
def Reads (tags : Tags) : Piece → Prop
  | .startTag loc qname declarations attributes =>
    ∃ e, loc.element? = some e ∧ ReadsElement ((qname, declarations) :: tags) qname e ∧
      ∀ a ∈ attributes, ReadsAttribute ((qname, declarations) :: tags) a ∧ FromSource loc e a
  | .bare _ declarations => declarations = []
  | .leaf _ _ => True
  | .endTag qname => tags.head?.map (·.1) = some qname

end Reader

/-! ## The source -/

namespace Ancestor

/-- The namespace that a prefix stands for at the first of these elements. -/
def resolve? (chain : List Ancestor) (p : String) : Option String :=
  if p = xmlPrefix then some xmlNamespace else inScope? chain p

/-- The spelling of the first of these elements gives each of its names a prefix that stands for
the namespace of the name. -/
structure NamesResolve (a : Ancestor) (above : List Ancestor) : Prop where
  colonless : QName.Colonless a.element.localName ∧
    QName.Colonless (a.spelling above).name.nsPrefix
  element : (resolve? (a :: above) (a.spelling above).name.nsPrefix).getD "" =
    a.element.nsUri?.getD ""
  attributesColonless : (∀ own ∈ a.element.attributes, QName.Colonless own.localName) ∧
    ∀ p ∈ (a.spelling above).attributePrefixes, QName.Colonless p
  attributes : ∀ own ∈ a.element.attributes.zip (a.spelling above).attributePrefixes,
    if own.2 = "" then own.1.nsUri?.getD "" = ""
    else resolve? (a :: above) own.2 = some (own.1.nsUri?.getD "")

instance (a : Ancestor) (above : List Ancestor) : Decidable (NamesResolve a above) :=
  decidable_of_iff (_ ∧ _ ∧ _ ∧ _)
    ⟨fun h => ⟨h.1, h.2.1, h.2.2.1, h.2.2.2⟩, fun h =>
      ⟨h.colonless, h.element, h.attributesColonless, h.attributes⟩⟩

end Ancestor

/-- In a document all names resolve. -/
def Document.NamesResolve (d : Document) : Prop :=
  ∀ loc ∈ d.locations, ∀ e ∈ loc.element?, Ancestor.NamesResolve ⟨loc.number, e⟩ loc.ancestors

instance (d : Document) : Decidable d.NamesResolve :=
  inferInstanceAs (Decidable (∀ loc ∈ d.locations, ∀ e ∈ loc.element?,
    Ancestor.NamesResolve ⟨loc.number, e⟩ loc.ancestors))

/-! ## What the reader sees -/

namespace Reader

/-- The axis shows what the reader sees on the open tags. -/
structure Follows (tags : Tags) (chain : List Ancestor) (axis : NamespaceAxis) : Prop where
  inScope : InScopeAt chain axis
  shown : ∀ p, axis.shown p = (declared? tags p).filter (· ≠ "")

variable {r : Request} {tags : Tags} {a : Ancestor} {above : List Ancestor} {axis : NamespaceAxis}
  {p qname : String}

theorem follows_seed (chain : List Ancestor) : Follows [] chain (Walk.seed chain) := by
  constructor
  · exact inScopeAt_seed chain
  · intro p
    simp only [NamespaceAxis.shown]
    rw [rendered_seed, PrefixMap.get?_single]
    by_cases default : "" = p <;> simp [default, declared?]

theorem Follows.omit (follows : Follows tags above axis) (a : Ancestor) :
    Follows tags (a :: above) (axis.enter (a.spelling above).declarations) :=
  ⟨follows.inScope.enter a, fun p => (shown_enter _ _ p).trans (follows.shown p)⟩

theorem Follows.render (follows : Follows tags (a :: above) axis)
    (free : r.restrictsNamespaces = false) (qname : String) :
    let rendering := r.declarations axis a.number (a.spelling above)
    Follows ((qname, rendering.1) :: tags) (a :: above) rendering.2 := by
  intro rendering
  obtain ⟨prefixes, after, -⟩ := r.declarations_axis axis a above
  have sorted := r.sorted_declarations axis a.number (a.spelling above)
  constructor
  · intro p
    rw [Request.inScope_declarations]
    exact follows.inScope p
  · intro p
    have before := follows.shown p
    simp only [NamespaceAxis.shown] at before ⊢
    rw [after, free, if_neg Bool.false_ne_true, rendered_markRendered _ sorted]
    -- The reader looks at this tag first, and otherwise sees what it saw before.
    simp only [declared?]
    cases rendering.1.find? (·.nsPrefix = p) with
    | some b => rfl
    | none => exact before

theorem uri?_eq_resolve? {chain : List Ancestor} (agrees : InScopeAt chain axis) (p : String) :
    axis.uri? p = Ancestor.resolve? chain p := by
  simp only [uri?, Ancestor.resolve?]
  rw [agrees p]

/-- A prefix that the tag uses is resolved as in the source. -/
theorem Follows.resolve?_eq (follows : Follows tags (a :: above) axis)
    (free : r.restrictsNamespaces = false) (qname : String)
    (used : r.uses (a :: above) p = true) (bound : p = "" ∨ axis.uri? p ≠ none) :
    resolve? ((qname, (r.declarations axis a.number (a.spelling above)).1) :: tags) p =
      Ancestor.resolve? (a :: above) p := by
  rw [uri?_eq_resolve? follows.inScope] at bound
  simp only [resolve?]
  simp only [Ancestor.resolve?] at bound ⊢
  -- A used prefix is settled, and without restrictions what is shown then is what is in scope.
  by_cases xml : p = xmlPrefix
  · rw [if_pos xml, if_pos xml]
  · rw [if_neg xml] at bound ⊢
    rw [if_neg xml, ← (follows.render free qname).shown p]
    rw [Request.shown_declarations follows.inScope p fun named _ => bound.resolve_left named]
    rw [if_pos (Request.settles_of_uses used), Request.visible?_of_unrestricted free]

/-! ## Names -/

theorem uses_elementPrefix (r : Request) (a : Ancestor) (above : List Ancestor) :
    r.uses (a :: above) (a.spelling above).name.nsPrefix = true := by
  rw [Request.uses]
  simp

theorem uses_attributePrefix (included : r.excludesAttributes = false) (named : p ≠ "")
    (spelled : p ∈ (a.spelling above).attributePrefixes) : r.uses (a :: above) p = true := by
  rw [Request.uses]
  simp [included, named, spelled]

/-- The name of an element is read as the source has it if its prefix is resolved so. -/
theorem readsElement_of_resolve? {name : QName} {e : Element} {chain : List Ancestor}
    (read : QName.ofText name.text = name) (localName : name.localName = e.localName)
    (same : resolve? tags name.nsPrefix = Ancestor.resolve? chain name.nsPrefix)
    (bound : name.nsPrefix = "" ∨ Ancestor.resolve? chain name.nsPrefix ≠ none)
    (named : (Ancestor.resolve? chain name.nsPrefix).getD "" = e.nsUri?.getD "") :
    ReadsElement tags name.text e := by
  simp only [ReadsElement]
  rw [read, same]
  exact ⟨localName, fun prefixed => bound.resolve_left prefixed, named⟩

theorem Follows.readsElement (follows : Follows tags (a :: above) axis)
    (free : r.restrictsNamespaces = false) (names : Ancestor.NamesResolve a above)
    (checked : axis.checkPrefix (a.spelling above).name.nsPrefix qname = .ok ()) :
    ReadsElement
      (((a.spelling above).name.text,
        (r.declarations axis a.number (a.spelling above)).1) :: tags)
      (a.spelling above).name.text a.element := by
  have bound := checkPrefix_eq_ok.mp checked
  have same := follows.resolve?_eq free (a.spelling above).name.text
    (uses_elementPrefix r a above) bound
  have read : QName.ofText (a.spelling above).name.text = (a.spelling above).name :=
    QName.ofText_text names.colonless.2 names.colonless.1
  rw [uri?_eq_resolve? follows.inScope] at bound
  exact readsElement_of_resolve? read rfl same bound names.element

theorem Follows.readsOwn (follows : Follows tags (a :: above) axis)
    (free : r.restrictsNamespaces = false) (names : Ancestor.NamesResolve a above)
    (included : r.excludesAttributes = false) {own : Attribute × String}
    (member : own ∈ a.element.attributes.zip (a.spelling above).attributePrefixes)
    (checked : axis.checkPrefix own.2 qname = .ok ()) {b : WrittenAttribute}
    (uri : b.nsUri = own.1.nsUri?.getD "") (localName : b.localName = own.1.localName)
    (text : b.qname = (QName.mk own.2 own.1.localName).text) (tag : String) :
    ReadsAttribute
      ((tag, (r.declarations axis a.number (a.spelling above)).1) :: tags) b := by
  obtain ⟨inElement, spelled⟩ := List.of_mem_zip member
  have colonlessLocal := names.attributesColonless.1 own.1 inElement
  have colonlessPrefix := names.attributesColonless.2 own.2 spelled
  have resolved := names.attributes own member
  simp only [ReadsAttribute]
  rw [text, QName.ofText_text colonlessPrefix colonlessLocal, uri, localName]
  refine ⟨rfl, ?_⟩
  dsimp only
  split
  · rename_i unprefixed
    rwa [if_pos unprefixed] at resolved
  · rename_i prefixed
    rw [if_neg prefixed] at resolved
    rw [follows.resolve?_eq free tag (uses_attributePrefix included prefixed spelled)
      (checkPrefix_eq_ok.mp checked)]
    exact resolved

theorem readsInherited {b : WrittenAttribute} (colonless : QName.Colonless b.localName)
    (uri : b.nsUri = xmlNamespace)
    (text : b.qname = (QName.mk xmlPrefix b.localName).text) : ReadsAttribute tags b := by
  have plain : QName.Colonless xmlPrefix := by decide
  simp only [ReadsAttribute]
  rw [text, QName.ofText_text plain colonless, uri]
  exact ⟨rfl, rfl⟩

end Reader

namespace Walk

open Reader

/-- The invariant of the walk: the axis shows what the reader sees. -/
theorem invariant_follows {r : Request} {visits : Location → Prop}
    (free : r.restrictsNamespaces = false)
    (names : ∀ loc e, visits loc → loc.element? = some e →
      Ancestor.NamesResolve ⟨loc.number, e⟩ loc.ancestors)
    (around : ∀ loc, visits loc → ∀ b ∈ loc.ancestors, ∀ own ∈ b.element.attributes,
      QName.Colonless own.localName) :
    Invariant r visits Reader.next Reads Follows := by
  constructor
  · intro tags axis loc l _ _ _
    exact ⟨trivial, rfl⟩
  · intro tags axis loc e _ _ follows _
    refine ⟨?_, rfl, follows.omit ⟨loc.number, e⟩⟩
    simp only [Reads, Request.bareDeclarations]
    simp [free]
  · intro tags axis loc e attributes visited here follows _ spelling entered checked written
    have resolves := names loc e visited here
    have inside := follows.omit ⟨loc.number, e⟩
    refine ⟨⟨e, here, inside.readsElement free resolves checked, ?_⟩,
      inside.render free _, rfl, rfl⟩
    intro b member
    obtain ⟨included, own, owned, known⟩ := Request.mem_writtenAttributes written member
    -- A written attribute is one of the element, or one of the XML namespace from around it.
    rcases known with ⟨c, inOwn, uri, localName, text⟩ | ⟨uri, text, inherits⟩
    · obtain ⟨pair, inPairs, rfl, bound⟩ := Request.mem_ownAttributes owned c inOwn
      refine ⟨inside.readsOwn free resolves included inPairs bound uri localName text _, ?_⟩
      exact .inl ⟨pair.1, (List.of_mem_zip inPairs).1, uri.symm, localName.symm⟩
    · refine ⟨readsInherited ?_ uri text, .inr ⟨uri, inherits⟩⟩
      obtain ⟨outer, inAncestors, entry, onElement, same⟩ := inherits
      obtain ⟨own, inAttributes, rfl⟩ := List.mem_map.mp onElement
      rw [← same]
      exact around loc visited outer inAncestors own (List.mem_filter.mp inAttributes).1

/-- A reader of the start tags that a walk writes resolves every name as the source does. -/
theorem names_resolve {d : Document} {input : Input} (method : Method) (params : Params)
    (names : d.NamesResolve) (taken : input.Of d)
    (free : (Request.of method input params).restrictsNamespaces = false) :
    Along Reader.next Reads (fun tags _ => tags = []) [] (ofInput method input params) := by
  have inv := invariant_follows (r := .of method input params) free
    (fun loc e member here => names loc (taken.locations_subset member) e here)
    fun loc member b inAncestors own inAttributes => by
      have stands := Location.stands_of_mem_locations (taken.locations_subset member)
      obtain ⟨outer, inDocument, here⟩ := stands.of_mem inAncestors
      exact (names outer inDocument b.element here).attributesColonless.1 own inAttributes
  exact Along.mono (fun _ _ h => h.1) (inv.along_ofInput taken (follows_seed input.ancestors))

/-- The declarations stand on an element that is not output, and one of them is taken back. -/
theorem names_resolve_sparse :
    let d : Document := ⟨"", .element ⟨some "u", "a", [], [⟨"", "u"⟩, ⟨"p", "v"⟩], none⟩
      (.element ⟨none, "b", [⟨some "v", "x", "1"⟩], [⟨"p", "v"⟩], none⟩ .nil .nil) .nil⟩
    let input := Input.nodeSet d (.ofList [2])
    let method : Method := ⟨false, .exclusive, .nothing⟩
    d.NamesResolve ∧ input.Of d ∧ (Request.of method input {}).restrictsNamespaces = false ∧
      Along Reader.next Reads (fun tags _ => tags = []) [] (ofInput method input {}) := by
  intro d input method
  have names : d.NamesResolve := by decide +kernel
  have taken : input.Of d := .nodeSet _
  have free : (Request.of method input {}).restrictsNamespaces = false := by decide
  exact ⟨names, taken, free, names_resolve method {} names taken free⟩

end Walk

end CanonicalXml
