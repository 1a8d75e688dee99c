import CanonicalXml.Mode
import CanonicalXml.Proofs.Parsed.Drafts
import CanonicalXml.Proofs.PlaceNumbers
import CanonicalXml.Proofs.Readback.Scopes

/-! # Subtrees in other surroundings

A subtree that was written with its default namespace propagated is put inside of other markup.
A reader looks at the tags of the subtree first, and the surroundings are asked only for what none
of them declares.

* `Reader.resolve?_append` — what is said inside hides what is said around it.
* `Reader.TakesDefault` — an element that takes the default namespace of the surroundings.
* `Reader.Follows.leavesDefault` — when the apex says nothing about the default namespace.
* `Walk.names_resolve_within` — every other element has the namespace of the source.
* `Document.default_captured` — an element without namespace that is given one.
-/

namespace CanonicalXml

/-- The prefixes of the elements of a subtree stand for the namespaces of the elements. -/
def Location.ElementsResolve (loc : Location) : Prop :=
  ∀ other ∈ loc.subtree, ∀ e ∈ other.element?,
    (Ancestor.resolve? (⟨other.number, e⟩ :: other.ancestors)
      (other.spelling e).name.nsPrefix).getD "" = e.nsUri?.getD ""

instance : DecidablePred Location.ElementsResolve := fun loc =>
  inferInstanceAs (Decidable (∀ other ∈ loc.subtree, ∀ e ∈ other.element?,
    (Ancestor.resolve? (⟨other.number, e⟩ :: other.ancestors)
      (other.spelling e).name.nsPrefix).getD "" = e.nsUri?.getD ""))

/-- An element about whose default namespace nothing has to be said: it has a prefix, and no
default namespace is in scope. -/
structure Ancestor.LeavesDefault (a : Ancestor) (above : List Ancestor) : Prop where
  prefixed : (a.spelling above).name.nsPrefix ≠ ""
  unbound : inScope? (a :: above) "" = none

/-! ## The reader -/

namespace Reader

open NamespaceAxis

section Tags

variable {inner outer : Tags} {p : String}

theorem declared?_append (inner outer : Tags) (p : String) :
    declared? (inner ++ outer) p = (declared? inner p).or (declared? outer p) := by
  induction inner with
  | nil => rfl
  | cons tag inner ih =>
    obtain ⟨qname, declarations⟩ := tag
    simp only [List.cons_append, declared?]
    rw [ih, Option.or_assoc]

/-- What is not declared inside is resolved by the surroundings. -/
theorem resolve?_append_of_undeclared (undeclared : declared? inner p = none) :
    resolve? (inner ++ outer) p = resolve? outer p := by
  simp only [resolve?]
  rw [declared?_append, undeclared, Option.none_or]

/-- A prefix that is declared inside, or that the surroundings do not bind, is resolved as without
them. -/
theorem resolve?_append
    (closed : p = xmlPrefix ∨ declared? inner p ≠ none ∨ resolve? outer p = none) :
    resolve? (inner ++ outer) p = resolve? inner p := by
  by_cases xml : p = xmlPrefix
  · simp only [resolve?]
    rw [if_pos xml, if_pos xml]
  cases declared : declared? inner p with
  | some uri =>
    simp only [resolve?]
    rw [declared?_append, declared, Option.some_or]
  | none =>
    have unbound := (closed.resolve_left xml).resolve_left fun h => h declared
    rw [resolve?_append_of_undeclared declared, unbound]
    simp only [resolve?]
    rw [if_neg xml, declared]
    rfl

end Tags

/-- An element without prefix and without namespace, where no tag of the subtree declares a default
namespace: it takes that of the surroundings. -/
structure TakesDefault (outer inside : Tags) (qname : String) (e : Element) : Prop where
  unprefixed : QName.ofText qname = ⟨"", e.localName⟩
  bare : e.nsUri?.getD "" = ""
  undeclared : declared? inside "" = none
  taken : resolve? (inside ++ outer) "" = resolve? outer ""
  surroundings : resolve? outer "" ≠ none

/-- What the reader expects of a subtree with other tags around it: it resolves the names of
elements as the source does, but if the apex leaves the default namespace to the surroundings some
elements may take that. -/
def ReadsWithin (apex : Ancestor) (above : List Ancestor) (outer tags : Tags) : Piece → Prop
  | .startTag loc qname declarations _ =>
    ∃ e, loc.element? = some e ∧
      let inside := (qname, declarations) :: tags
      (ReadsElement (inside ++ outer) qname e ∨
        apex.LeavesDefault above ∧ TakesDefault outer inside qname e)
  | .bare _ declarations => declarations = []
  | .leaf _ _ => True
  | .endTag qname => tags.head?.map (·.1) = some qname

variable {r : Request} {tags : Tags} {a : Ancestor} {above : List Ancestor} {axis : NamespaceAxis}
  {qname : String}

/-- The start tag of an element inside of other tags. -/
theorem Follows.readsElement_append (follows : Follows tags (a :: above) axis)
    (free : r.restrictsNamespaces = false) (sound : ∀ b ∈ a :: above, b.element.Sound)
    (named : (Ancestor.resolve? (a :: above) (a.spelling above).name.nsPrefix).getD "" =
      a.element.nsUri?.getD "")
    (checked : axis.checkPrefix (a.spelling above).name.nsPrefix qname = .ok ()) (outer : Tags) :
    let text := (a.spelling above).name.text
    let inside := (text, (r.declarations axis a.number (a.spelling above)).1) :: tags
    ReadsElement (inside ++ outer) text a.element ∨ TakesDefault outer inside text a.element := by
  intro text inside
  have passed := checkPrefix_eq_ok.mp checked
  have same : resolve? inside (a.spelling above).name.nsPrefix =
      Ancestor.resolve? (a :: above) (a.spelling above).name.nsPrefix :=
    follows.resolve?_eq free text (uses_elementPrefix r a above) passed
  have valid : (a.spelling above).name.Valid :=
    ⟨follows.inScope.validPrefix sound passed, (sound a List.mem_cons_self).localName⟩
  have read : QName.ofText text = (a.spelling above).name := valid.ofText_text
  have bound := passed
  rw [uri?_eq_resolve? follows.inScope] at bound
  by_cases closed : (a.spelling above).name.nsPrefix = xmlPrefix ∨
      declared? inside (a.spelling above).name.nsPrefix ≠ none ∨
      resolve? outer (a.spelling above).name.nsPrefix = none
  · have apart := (resolve?_append closed).trans same
    exact .inl (readsElement_of_resolve? read rfl apart bound named)
  · simp only [not_or, not_not] at closed
    obtain ⟨notXml, undeclared, surroundings⟩ := closed
    -- What no tag declares does not resolve, and so it cannot be a prefix that was checked.
    have nothing : Ancestor.resolve? (a :: above) (a.spelling above).name.nsPrefix = none := by
      rw [← same]
      simp only [resolve?]
      rw [if_neg notXml, undeclared]
      rfl
    have unprefixed := bound.resolve_right fun h => h nothing
    rw [nothing] at named
    rw [unprefixed] at undeclared surroundings
    refine .inr ⟨?_, named.symm, undeclared, resolve?_append_of_undeclared undeclared,
      surroundings⟩
    rw [read, ← unprefixed]
    rfl

/-- What a start tag settles and does not declare is not due. -/
theorem due?_eq_none {p : String} (agrees : InScopeAt (a :: above) axis)
    (settled : r.settles (a :: above) p = true)
    (absent : (r.declarations axis a.number (a.spelling above)).1.find? (·.nsPrefix = p) = none) :
    axis.due? (r.isVisible a.number) (r.forcesDefault (a :: above)) p = none := by
  rw [Option.eq_none_iff_forall_ne_some]
  intro u due
  have member := (Request.mem_declarations agrees).mpr ⟨settled, due⟩
  exact List.find?_eq_none.mp absent _ member (decide_eq_true rfl)

/-- The apex of a propagating subtree says what the default namespace is, unless it has a prefix
and there is none. -/
theorem Follows.leavesDefault (follows : Follows tags (a :: above) axis)
    (exclusive : r.method.namespaces = .exclusive) (free : r.restrictsNamespaces = false)
    (propagates : r.propagatesAt a.number = true)
    (silent : declared? ((qname, (r.declarations axis a.number (a.spelling above)).1) :: tags) "" =
      none) : a.LeavesDefault above := by
  simp only [declared?] at silent
  rw [Option.or_eq_none_iff, Option.map_eq_none_iff] at silent
  obtain ⟨absent, around⟩ := silent
  have settled : r.settles (a :: above) "" = true := by
    apply Request.settles_of_uses
    rw [Request.uses, propagates]
    simp
  have undue := Option.eq_none_iff_forall_ne_some.mp (due?_eq_none follows.inScope settled absent)
  have hidden : axis.shown "" = none := by
    rw [follows.shown, around]
    rfl
  have seen : axis.seen (r.isVisible a.number) "" = Ancestor.inScope? (a :: above) "" := by
    rw [Request.seen_eq_visible? follows.inScope, Request.visible?_of_unrestricted free]
  have unbound : Ancestor.inScope? (a :: above) "" = none := by
    rw [Option.eq_none_iff_forall_ne_some]
    intro u bound
    refine undue u ((due?_eq_some follows.inScope.bound).mpr (.inl ⟨seen.trans bound, ?_⟩))
    rw [hidden]
    exact (Option.some_ne_none u).symm
  refine ⟨fun unprefixed => ?_, unbound⟩
  have forced : r.forcesDefault (a :: above) = true := by
    simp only [Request.forcesDefault]
    rw [exclusive, propagates, unprefixed]
    rfl
  exact undue "" ((due?_eq_some follows.inScope.bound).mpr
    (.inr ⟨rfl, rfl, seen.trans unbound, .inl forced⟩))

/-- What the walk keeps up: inside of the apex a default namespace is declared, unless the apex
leaves that to the surroundings. -/
structure FollowsWithin (apex : Ancestor) (above : List Ancestor) (tags : Tags)
    (chain : List Ancestor) (axis : NamespaceAxis) : Prop where
  follows : Follows tags chain axis
  leaves : (∃ a ∈ chain, a.number = apex.number) → declared? tags "" = none →
    apex.LeavesDefault above

end Reader

/-! ## The walk -/

namespace Walk

open Reader Transcript

theorem invariant_followsWithin {d : Document} {loc : Location} {e : Element} {r : Request}
    (member : loc ∈ d.locations) (here : loc.element? = some e)
    (sound : d.content.All Leaf.Sound Element.Sound) (names : loc.ElementsResolve)
    (exclusive : r.method.namespaces = .exclusive) (extent : r.extent = .subtree loc.number)
    (propagates : r.propagateDefault = true) (outer : Tags) :
    Invariant r (· ∈ loc.subtree) Reader.next (ReadsWithin ⟨loc.number, e⟩ loc.ancestors outer)
      (FollowsWithin ⟨loc.number, e⟩ loc.ancestors) := by
  have free : r.restrictsNamespaces = false := by
    simp only [Request.restrictsNamespaces]
    rw [extent]
  have output : ∀ place, r.isOutput place .element = true := by
    intro place
    simp only [Request.isOutput]
    rw [extent]
    rfl
  constructor
  · intro tags axis place l _ _
    exact fun _ => ⟨trivial, rfl⟩
  · intro tags axis place f _ _ _ omitted
    rw [output place] at omitted
    cases omitted
  · intro tags axis place f attributes visited found within _ spelling entered checked _
    have follows := within.follows.omit ⟨place.number, f⟩
    have inDocument := Location.subtree_subset member visited
    have soundHere : ∀ a ∈ (⟨place.number, f⟩ : Ancestor) :: place.ancestors, a.element.Sound :=
      List.forall_mem_cons.mpr ⟨Location.of_element? sound inDocument found,
        Location.forall_ancestors sound inDocument⟩
    have leaves : declared? ((spelling.name.text,
        (r.declarations entered place.number spelling).1) :: tags) "" = none →
        Ancestor.LeavesDefault ⟨loc.number, e⟩ loc.ancestors := by
      intro silent
      rcases (Location.mem_subtree_iff member inDocument).mp visited with rfl | around
      · cases here.symm.trans found
        refine follows.leavesDefault exclusive free ?_ silent
        simp only [Request.propagatesAt]
        rw [propagates, extent]
        simp
      · -- A tag further out has said it already.
        simp only [declared?] at silent
        exact within.leaves around (Option.or_eq_none_iff.mp silent).2
    have reads := follows.readsElement_append free soundHere (names place visited f found) checked
      outer
    exact ⟨⟨f, found, reads.imp_right fun takes => ⟨leaves takes.undeclared, takes⟩⟩,
      ⟨follows.render free _, fun _ => leaves⟩, rfl, rfl⟩

/-- A subtree that is written with its default namespace propagated keeps its meaning inside of
other tags.  A reader of both finds every element in the namespace that it has in the source,
unless the apex has a prefix and no default namespace is in scope at it: then the default namespace
of the surroundings, if there is one, is that of the elements without prefix and namespace inside
of tags of the subtree that do not declare it. -/
theorem names_resolve_within {text : String} {options : ReadOptions} {d : Document}
    (parsed : Document.read text options = .ok d) {loc : Location} (member : loc ∈ d.locations)
    {e : Element} (here : loc.element? = some e) (names : loc.ElementsResolve)
    (withComments : Bool) (params : Params) (outer : Tags) :
    Along Reader.next (ReadsWithin ⟨loc.number, e⟩ loc.ancestors outer) (fun tags _ => tags = []) []
      (ofInput (Mode.method .exclusive withComments) (.subtree (.node loc))
        { params with propagateDefault := true }) := by
  have sound := (Document.sound_of_read parsed).1
  have inv := invariant_followsWithin
    (r := .of (Mode.method .exclusive withComments) (.subtree (.node loc))
      { params with propagateDefault := true })
    member here sound names rfl rfl rfl outer
  have start : FollowsWithin ⟨loc.number, e⟩ loc.ancestors [] loc.ancestors
      (seed loc.ancestors) := by
    refine ⟨follows_seed loc.ancestors, ?_⟩
    rintro ⟨a, above, same⟩ -
    have earlier := (Location.lt_of_mem_locations member).2 a above
    exact absurd same (Nat.ne_of_lt earlier)
  exact Along.mono (fun _ _ ends => ends.1) (inv.along_ofInput (.node member) start)

/-- The default namespace is taken back at an apex without a prefix, and both prefixes have another
namespace in the surroundings. -/
theorem names_resolve_within_undeclared :
    let text := "<r xmlns='d' xmlns:p='u'><a xmlns=''><p:b xmlns='w'><c xmlns=''/></p:b></a></r>"
    let method := Mode.method .exclusive true
    let params : Params := { propagateDefault := true }
    let outer : Tags := [("x", [⟨"", "y"⟩, ⟨"p", "z"⟩])]
    ∃ d loc e, Document.read text = .ok d ∧ loc ∈ d.locations ∧ loc.element? = some e ∧
      loc.ElementsResolve ∧
      (canonicalize method (.subtree (.node loc)) params).result =
        .ok "<a xmlns=\"\"><p:b xmlns:p=\"u\"><c></c></p:b></a>" ∧
      Along Reader.next (ReadsWithin ⟨loc.number, e⟩ loc.ancestors outer)
        (fun tags _ => tags = []) [] (ofInput method (.subtree (.node loc)) params) := by
  intro text method params outer
  let d := (Document.read text).toOption.getD ⟨"", .nil⟩
  let loc := (d.locate? 2).getD (.top d.content)
  have given : Document.read text = .ok d ∧ loc ∈ d.locations ∧ loc.element?.isSome = true ∧
      loc.ElementsResolve ∧
      (canonicalize method (.subtree (.node loc)) params).result =
        .ok "<a xmlns=\"\"><p:b xmlns:p=\"u\"><c></c></p:b></a>" := by decide +kernel
  obtain ⟨parsed, member, element, names, result⟩ := given
  obtain ⟨e, here⟩ := Option.isSome_iff_exists.mp element
  exact ⟨d, loc, e, parsed, member, here, names, result,
    names_resolve_within parsed member here names true params outer⟩

end Walk

/-- An element in no namespace is given one by the surroundings: the apex has a prefix, so that
nothing is said about the default namespace. -/
theorem Document.default_captured :
    let text := "<p:a xmlns:p='u'><b/></p:a>"
    let w := "<p:a xmlns:p=\"u\"><b></b></p:a>"
    ∃ d loc inner d' inner', Document.read text = .ok d ∧ d.locate? 1 = some loc ∧
      (canonicalize (Mode.method .exclusive false) (.subtree (.node loc))
        { propagateDefault := true }).result = .ok w ∧
      Document.read ("<r xmlns='d'>" ++ w ++ "</r>") = .ok d' ∧
      d.locate? 2 = some inner ∧ inner.element?.map (·.nsUri?) = some none ∧
      d'.locate? 3 = some inner' ∧ inner'.element?.map (·.localName) = some "b" ∧
      inner'.element?.map (·.nsUri?) = some (some "d") := by
  intro text w
  let d := (Document.read text).toOption.getD ⟨"", .nil⟩
  let d' := (Document.read ("<r xmlns='d'>" ++ w ++ "</r>")).toOption.getD ⟨"", .nil⟩
  let loc := (d.locate? 1).getD (.top d.content)
  let inner := (d.locate? 2).getD (.top d.content)
  let inner' := (d'.locate? 3).getD (.top d'.content)
  refine ⟨d, loc, inner, d', inner', ?_⟩
  decide +kernel

end CanonicalXml
