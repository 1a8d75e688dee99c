import CanonicalXml.Mode
import CanonicalXml.Proofs.CodePointOrder
import CanonicalXml.Proofs.Completeness
import CanonicalXml.Proofs.Inherited.Values
import CanonicalXml.Proofs.Rearranged.Attributes
import CanonicalXml.Proofs.Settling

/-! # Start tags in canonical order

A start tag lists its declarations by their prefixes, and then its attributes by namespace and
local name.  None is listed twice, whether an attribute is the element's own, or is inherited, or
is a base URI that was joined.

* `TagOrder` — what is asked of the items of a start tag, by code points and by bytes.
* `Request.mem_declarations_named` — what a start tag never declares.
* `Request.strict_writtenAttributes` — the order of the attributes is strict.
* `Walk.startTags_ordered` — all start tags that a walk writes, which are those of all elements
  that are output.

Attributes are told apart by their expanded names, in which a name without namespace has the empty
URI.  The prefixes that they are spelled with play no part.
-/

namespace CanonicalXml

open NamespaceAxis

/-- The order of expanded names: by namespace, and in one namespace by local name. -/
def ExpandedBefore (less : String → String → Prop) (a b : String × String) : Prop :=
  less a.1 b.1 ∨ a.1 = b.1 ∧ less a.2 b.2

/-- Declarations and attributes in strictly increasing order. -/
def StrictlyOrdered (less : String → String → Prop) (declarations : List Binding)
    (attributes : List WrittenAttribute) : Prop :=
  declarations.Pairwise (fun a b => less a.nsPrefix b.nsPrefix) ∧
    attributes.Pairwise fun a b => ExpandedBefore less a.expandedName b.expandedName

/-- What is asked of the items of a start tag. -/
structure TagOrder (declarations : List Binding) (attributes : List WrittenAttribute) :
    Prop where
  codePoints : StrictlyOrdered (· < ·) declarations attributes
  bytes : StrictlyOrdered (fun a b => Utf8.encode a < Utf8.encode b) declarations attributes
  default_first : ∀ b ∈ declarations.tail, b.nsPrefix ≠ ""
  unnamespaced_first : attributes.Pairwise fun a b => b.nsUri = "" → a.nsUri = ""
  declared_once : (declarations.map (·.nsPrefix)).Nodup
  written_once : (attributes.map (·.expandedName)).Nodup
  xml_undeclared : ∀ b ∈ declarations, b.nsPrefix ≠ xmlPrefix
  named_bound : ∀ b ∈ declarations, b.nsPrefix ≠ "" → b.uri ≠ ""

theorem not_lt_empty (s : String) : ¬ s < "" := by
  rw [String.lt_iff_toList_lt]
  exact List.not_lt_nil _

/-! ## From the order to the rest -/

section Order

variable {declarations : List Binding} {attributes : List WrittenAttribute}

theorem StrictlyOrdered.bytes (ordered : StrictlyOrdered (· < ·) declarations attributes) :
    StrictlyOrdered (fun a b => Utf8.encode a < Utf8.encode b) declarations attributes := by
  simp only [StrictlyOrdered, ExpandedBefore, Utf8.encode_lt_iff]
  exact ordered

theorem StrictlyOrdered.default_first
    (ordered : StrictlyOrdered (· < ·) declarations attributes) :
    ∀ b ∈ declarations.tail, b.nsPrefix ≠ "" := by
  cases declarations with
  | nil => exact nofun
  | cons a later =>
    intro b member default
    have less := (List.pairwise_cons.mp ordered.1).1 b member
    exact not_lt_empty _ (default ▸ less)

theorem StrictlyOrdered.unnamespaced_first
    (ordered : StrictlyOrdered (· < ·) declarations attributes) :
    attributes.Pairwise fun a b => b.nsUri = "" → a.nsUri = "" := by
  refine ordered.2.imp ?_
  rintro a b (less | ⟨same, -⟩) unnamespaced
  · have below : a.nsUri < b.nsUri := less
    exact absurd (unnamespaced ▸ below) (not_lt_empty _)
  · exact same.trans unnamespaced

theorem StrictlyOrdered.declared_once
    (ordered : StrictlyOrdered (· < ·) declarations attributes) :
    (declarations.map (·.nsPrefix)).Nodup := by
  refine List.pairwise_map.mpr (ordered.1.imp ?_)
  intro a b less same
  rw [same] at less
  exact String.lt_irrefl _ less

theorem StrictlyOrdered.written_once
    (ordered : StrictlyOrdered (· < ·) declarations attributes) :
    (attributes.map (·.expandedName)).Nodup := by
  refine List.pairwise_map.mpr (ordered.2.imp ?_)
  intro a b before same
  rw [same] at before
  rcases before with less | ⟨-, less⟩
  · exact String.lt_irrefl _ less
  · exact String.lt_irrefl _ less

end Order

/-! ## One start tag -/

/-- Attributes with different names are strictly in order when they are sorted. -/
theorem WrittenAttribute.strict_sort {attributes : List WrittenAttribute}
    (distinct : (attributes.map expandedName).Nodup) :
    (sort attributes).Pairwise fun a b =>
      ExpandedBefore (· < ·) a.expandedName b.expandedName := by
  have sorted := sorted_sort attributes
  have apart : (sort attributes).Pairwise fun a b => a.expandedName ≠ b.expandedName := by
    have perm := (List.mergeSort_perm attributes precedes).map expandedName
    exact List.pairwise_map.mp (perm.nodup_iff.mpr distinct)
  refine (List.pairwise_and_iff.mpr ⟨sorted, apart⟩).imp ?_
  rintro a b ⟨before, different⟩
  rcases precedes_iff.mp before with less | ⟨same, names⟩
  · exact .inl less
  · refine .inr ⟨same, Decidable.byContradiction fun notLess => different ?_⟩
    exact Prod.ext same (String.le_antisymm names (String.not_lt.mp notLess))

namespace Request

variable {r : Request} {a : Ancestor} {above : List Ancestor} {axis : NamespaceAxis}

/-- A start tag never declares `xml`, and binds a prefix other than the default to a namespace. -/
theorem mem_declarations_named (agrees : InScopeAt (a :: above) axis) {b : Binding}
    (declared : b ∈ (r.declarations axis a.number (a.spelling above)).1) :
    b.nsPrefix ≠ xmlPrefix ∧ (b.nsPrefix ≠ "" → b.uri ≠ "") := by
  have due := ((mem_declarations agrees).mp declared).2
  rcases (due?_eq_some agrees.bound).mp due with ⟨sees, -⟩ | ⟨default, -⟩
  · have bound := (seen_eq_some.mp sees).1
    constructor
    · intro xml
      rw [xml, agrees, Ancestor.inScope?_xml] at bound
      cases bound
    · intro _ empty
      exact agrees.bound _ (empty ▸ bound)
  · refine ⟨?_, fun named => absurd default named⟩
    rw [default]
    decide

/-- The attributes of a start tag, inherited ones included, are strictly in order if the element
has no two attributes of one name. -/
theorem strict_writtenAttributes {loc : Location} {e : Element} {parentOutput : Bool}
    {attributes : List WrittenAttribute}
    (distinct : (e.attributes.map Attribute.expandedName).Nodup)
    (written : r.writtenAttributes axis loc e (loc.spelling e) parentOutput = .ok attributes) :
    attributes.Pairwise fun a b => ExpandedBefore (· < ·) a.expandedName b.expandedName := by
  cases excluded : r.excludesAttributes with
  | true =>
    simp only [writtenAttributes, excluded] at written
    cases written
    exact .nil
  | false =>
    obtain ⟨owns, rfl, same⟩ := writtenAttributes_sort excluded written
    -- What an element takes has other names than what it has itself.
    have carried : ((r.carrier parentOutput loc.ancestors e).attributes.map
        Attribute.expandedName).Nodup := by
      rw [carrier]
      split
      · exact distinct
      · exact Element.carrying_distinct distinct
    rw [← same, List.map_map] at carried
    refine WrittenAttribute.strict_sort ?_
    rw [List.map_map]
    exact carried

end Request

/-! ## The walk -/

namespace Walk

variable {d : Document} {method : Method} {input : Input} {params : Params}

/-- What a piece says of the element that it is written for. -/
def Ordered (r : Request) : Piece → Prop
  | .startTag _ _ declarations attributes => TagOrder declarations attributes
  | .bare loc _ => r.isOutput loc .element = false
  | .leaf _ _ | .endTag _ => True

theorem invariant_ordered (taken : input.Of d)
    (distinct : ∀ loc ∈ d.locations, ∀ e ∈ loc.element?,
      (e.attributes.map Attribute.expandedName).Nodup) :
    Invariant (.of method input params) (· ∈ input.locations) (fun _ _ => ())
      (fun _ => Ordered (.of method input params)) fun _ chain axis => InScopeAt chain axis := by
  constructor
  · intro _ axis loc l _ _ _
    exact ⟨trivial, rfl⟩
  · intro _ axis loc e _ _ agrees omitted
    exact ⟨omitted, rfl, agrees.enter ⟨loc.number, e⟩⟩
  · intro _ axis loc e attributes visited here agrees _ _ _ _ written
    have inside := agrees.enter ⟨loc.number, e⟩
    have ordered : StrictlyOrdered (· < ·)
        ((Request.of method input params).declarations
          (axis.enter (loc.spelling e).declarations) loc.number (loc.spelling e)).1 attributes :=
      ⟨Request.sorted_declarations _ _ _ _,
        Request.strict_writtenAttributes (distinct loc (taken.locations_subset visited) e here)
          written⟩
    have named := fun b declared =>
      Request.mem_declarations_named (r := .of method input params) (b := b) inside declared
    refine ⟨⟨ordered, ordered.bytes, ordered.default_first, ordered.unnamespaced_first,
      ordered.declared_once, ordered.written_once, fun b declared => (named b declared).1,
      fun b declared => (named b declared).2⟩, ?_, trivial, rfl⟩
    intro p
    rw [Request.inScope_declarations]
    exact inside p

theorem forall_ordered (taken : input.Of d)
    (distinct : ∀ loc ∈ d.locations, ∀ e ∈ loc.element?,
      (e.attributes.map Attribute.expandedName).Nodup) :
    ∀ piece ∈ (ofInput method input params).pieces,
      Ordered (.of method input params) piece :=
  ((invariant_ordered taken distinct).along_ofInput taken
    (inScopeAt_seed input.ancestors)).forall_pieces

/-- Every start tag that a walk writes has its declarations before its attributes, each in
canonical order and none twice.  A walk that succeeds writes one for every element that is
output. -/
theorem startTags_ordered (method : Method) (params : Params) (taken : input.Of d)
    (distinct : ∀ loc ∈ d.locations, ∀ e ∈ loc.element?,
      (e.attributes.map Attribute.expandedName).Nodup) :
    (∀ loc qname declarations attributes,
      Piece.startTag loc qname declarations attributes ∈ (ofInput method input params).pieces →
        (Piece.startTag loc qname declarations attributes).text =
            "<" ++ qname ++ String.join (declarations.map Binding.write) ++
              String.join (attributes.map WrittenAttribute.write) ++ ">" ∧
          TagOrder declarations attributes) ∧
      ∀ w, (ofInput method input params).outcome = .ok w →
        ∀ loc ∈ input.locations, loc.element?.isSome = true →
          (Request.of method input params).isOutput loc .element = true →
            ∃ qname declarations attributes, Piece.startTag loc qname declarations attributes ∈
              (ofInput method input params).pieces := by
  refine ⟨?_, ?_⟩
  · intro loc qname declarations attributes written
    exact ⟨rfl, forall_ordered taken distinct _ written⟩
  · intro w ends loc visited element output
    have reached : loc ∈ (ofInput method input params).pieces.filterMap Piece.element? := by
      rw [elements_of_outcome ends]
      exact List.mem_filter.mpr ⟨visited, element⟩
    obtain ⟨piece, written, here⟩ := List.mem_filterMap.mp reached
    cases piece with
    | startTag other qname declarations attributes =>
      cases here
      exact ⟨qname, declarations, attributes, written⟩
    | bare other declarations =>
      cases here
      -- Bare declarations are those of an element that is not output.
      have omitted : (Request.of method input params).isOutput loc .element = false :=
        forall_ordered taken distinct _ written
      rw [output] at omitted
      cases omitted
    | leaf other l => cases here
    | endTag qname => cases here

/-- An element with attributes of all kinds, whose parent is not output: it inherits the language,
and its base URI is joined. -/
theorem startTags_ordered_inherited :
    let inner : Element := ⟨some "d", "x", [⟨some "u", "k", "1"⟩, ⟨some "s", "k", "2"⟩,
      ⟨some xmlNamespace, "base", "c"⟩, ⟨none, "z", "3"⟩], [⟨"p", "u"⟩, ⟨"a", "s"⟩, ⟨"", "d"⟩],
      none⟩
    let root : Element := ⟨none, "r", [⟨some xmlNamespace, "lang", "de"⟩,
      ⟨some xmlNamespace, "base", "http://h/b/"⟩], [⟨"p", "u"⟩], none⟩
    let d : Document := ⟨"", .element root (.element inner .nil .nil) .nil⟩
    let loc : Location := ⟨2, [⟨1, root⟩], [], .element inner .nil .nil⟩
    let walk := ofInput (Mode.method .inclusive11 false) (.nodeSet d (.ofList [2])) {}
    ∃ qname declarations attributes,
      .startTag loc qname declarations attributes ∈ walk.pieces ∧
        TagOrder declarations attributes := by
  intro inner root d loc walk
  have distinct : ∀ loc ∈ d.locations, ∀ e ∈ loc.element?,
      (e.attributes.map Attribute.expandedName).Nodup := by decide +kernel
  have succeeds : walk.outcome.isOk = true := by decide +kernel
  obtain ⟨ordered, complete⟩ :=
    startTags_ordered (Mode.method .inclusive11 false) {} (.nodeSet (.ofList [2])) distinct
  cases ends : walk.outcome with
  | error fault =>
    rw [ends] at succeeds
    cases succeeds
  | ok w =>
    obtain ⟨qname, declarations, attributes, written⟩ :=
      complete w ends loc (by decide +kernel) rfl (by decide)
    exact ⟨qname, declarations, attributes, written, (ordered _ _ _ _ written).2⟩

end Walk

end CanonicalXml
