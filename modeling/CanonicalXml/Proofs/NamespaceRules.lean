import CanonicalXml.Proofs.Completeness
import CanonicalXml.Proofs.Lexical.Scopes
import CanonicalXml.Proofs.Settling

/-! # The namespaces that a walk declares

The walk keeps two flat maps and undoes changes; the rules of the two algorithms speak about an
element and its ancestors.  The declarations that are written are those of the rules.

* `Document.KeepsPrefixes` — no named prefix is taken back, which is a property of the tree where a
  document was read (`Document.keepsPrefixes_of_read`).
* `Request.Tracks` — the axis has in scope what the ancestors declare, and shows `lastShown?`.
* `Request.Declares` — what is written on a start tag, or without one, by the ancestors.
* `Walk.declares` — every piece that a walk writes declares exactly that.
* `Walk.inclusive_declarations`, `Walk.exclusive_declarations` — the rules of the two algorithms.
-/

namespace CanonicalXml

open NamespaceAxis Transcript

/-- In a document only the default prefix is ever bound to the empty URI; `xml` may be declared,
which binds nothing. -/
def Document.KeepsPrefixes (d : Document) : Prop :=
  ∀ loc ∈ d.locations, ∀ e ∈ loc.element?, (loc.spelling e).KeepsPrefixes

instance (d : Document) : Decidable d.KeepsPrefixes :=
  inferInstanceAs (Decidable (∀ loc ∈ d.locations, ∀ e ∈ loc.element?,
    (loc.spelling e).KeepsPrefixes))

theorem Document.KeepsPrefixes.chain {d : Document} (kept : d.KeepsPrefixes)
    {chain : List Ancestor} (stands : Ancestor.Stands d.locations chain) :
    Ancestor.KeepsPrefixes chain := by
  induction chain with
  | nil => trivial
  | cons a above ih =>
    obtain ⟨⟨loc, member, here, -, around⟩, rest⟩ := stands
    refine ⟨?_, ih rest⟩
    subst around
    exact kept loc member a.element here

/-- In a document that was read, no named prefix is taken back if the tree binds none to the empty
URI. -/
theorem Document.keepsPrefixes_of_read {text : String} {options : ReadOptions} {d : Document}
    (parsed : Document.read text options = .ok d) (finishes : Document.FinishesTags text)
    (bound : ∀ loc ∈ d.locations, ∀ e ∈ loc.element?, ∀ b ∈ e.scope,
      b.uri = "" → b.nsPrefix = "") : d.KeepsPrefixes := by
  intro loc member e here
  have stems := Document.stems_at (Document.stems_of_read parsed finishes) member here
  exact stems.keepsPrefixes (bound loc member e here)

namespace Request

/-! ## The invariant -/

/-- The axis inside of these elements. -/
structure Tracks (r : Request) (chain : List Ancestor) (axis : NamespaceAxis) : Prop where
  inScope : InScopeAt chain axis
  shown : ∀ p, axis.shown p = r.lastShown? chain p

variable {r : Request} {a : Ancestor} {above : List Ancestor} {axis : NamespaceAxis} {p u : String}

theorem Tracks.omit (tracks : r.Tracks above axis)
    (omitted : r.ancestorIsOutput (a :: above) = false) :
    r.Tracks (a :: above) (axis.enter (a.spelling above).declarations) := by
  constructor
  · exact tracks.inScope.enter a
  · intro p
    rw [lastShown?_omit omitted, ← tracks.shown p]
    exact shown_enter _ _ p

/-- What is shown before a start tag is in scope on it, except for the default. -/
theorem Tracks.named (tracks : r.Tracks above axis) (kept : Ancestor.KeepsPrefixes (a :: above))
    (p : String) (named : p ≠ "")
    (shown : (axis.enter (a.spelling above).declarations).shown p ≠ none) :
    Ancestor.inScope? (a :: above) p ≠ none := by
  apply Ancestor.inScope?_cons_ne_none kept.1 named
  apply inScope?_of_lastShown? kept.2 named
  rw [← tracks.shown p]
  rwa [shown_enter] at shown

theorem Tracks.render (tracks : r.Tracks above axis) (kept : Ancestor.KeepsPrefixes (a :: above))
    (output : r.ancestorIsOutput (a :: above) = true) :
    r.Tracks (a :: above)
      (r.declarations (axis.enter (a.spelling above).declarations) a.number
        (a.spelling above)).2 := by
  have entered := tracks.inScope.enter a
  constructor
  · intro p
    rw [inScope_declarations]
    exact entered p
  · intro p
    rw [shown_declarations entered p (tracks.named kept p), lastShown?_render output]
    rw [shown_enter, tracks.shown p]

theorem lastShown?_of_suffix {d : Document} {method : Method} {input : Input} {params : Params}
    (taken : input.Of d) (p : String) : ∀ {chain : List Ancestor}, chain <:+ input.ancestors →
      (Request.of method input params).lastShown? chain p = none
  | [], _ => rfl
  | a :: above, around => by
    -- No element around the input is output, and nothing is shown above them.
    rw [lastShown?_omit (ancestorIsOutput_of_suffix taken around)]
    exact lastShown?_of_suffix taken p ((List.suffix_cons a above).trans around)

theorem tracks_seed {d : Document} {method : Method} {input : Input} {params : Params}
    (taken : input.Of d) :
    (Request.of method input params).Tracks input.ancestors (Walk.seed input.ancestors) := by
  constructor
  · exact inScopeAt_seed _
  · intro p
    rw [lastShown?_of_suffix taken p (List.suffix_refl _)]
    simp only [NamespaceAxis.shown]
    rw [rendered_seed, PrefixMap.get?_single]
    by_cases default : "" = p <;> simp [default]

/-! ## The declarations -/

/-- What is written at the first of these elements if it is output: the bindings of settled
prefixes that are not shown already, and an empty default in the place of one that is shown. -/
def Declares (r : Request) (a : Ancestor) (above : List Ancestor) (p u : String) : Prop :=
  r.settles (a :: above) p = true ∧
    ((r.visible? (a :: above) p = some u ∧ r.lastShown? above p ≠ some u) ∨
      (p = "" ∧ u = "" ∧ r.visible? (a :: above) p = none ∧
        (r.forcesDefault (a :: above) = true ∨ r.lastShown? above p ≠ none)))

/-- What is written there if it is not output. -/
def DeclaresBare (r : Request) (a : Ancestor) (above : List Ancestor) (p u : String) : Prop :=
  r.restrictsNamespaces = true ∧
    (r.method.namespaces = .exclusive → p ∈ r.listed) ∧
    r.visible? (a :: above) p = some u ∧ r.lastShown? above p ≠ some u

theorem declares_iff (tracks : r.Tracks above axis) :
    (⟨p, u⟩ : Binding) ∈ (r.declarations (axis.enter (a.spelling above).declarations) a.number
      (a.spelling above)).1 ↔ r.Declares a above p u := by
  have entered := tracks.inScope.enter a
  rw [mem_declarations entered, due?_eq_some entered.bound, seen_eq_visible? entered,
    shown_enter, tracks.shown]
  exact Iff.rfl

theorem declaresBare_iff (tracks : r.Tracks above axis) :
    (⟨p, u⟩ : Binding) ∈ r.bareDeclarations (axis.enter (a.spelling above).declarations)
      a.number ↔ r.DeclaresBare a above p u := by
  have entered := tracks.inScope.enter a
  -- Both algorithms ask for what is due of some of the visible prefixes.
  have pending : ∀ among : String → Bool,
      (⟨p, u⟩ : Binding) ∈ ((axis.enter (a.spelling above).declarations).pending
        fun q => among q && r.isVisible a.number q).filter (! ·.uri.isEmpty) ↔
      among p = true ∧ r.visible? (a :: above) p = some u ∧ r.lastShown? above p ≠ some u := by
    intro among
    rw [List.mem_filter, mem_pending, due?_eq_some entered.bound, seen_eq_some,
      ← seen_eq_visible? entered, seen_eq_some, shown_enter, tracks.shown]
    have nonempty : (axis.enter (a.spelling above).declarations).inScope.get? p = some u →
        u ≠ "" := by
      rintro bound rfl
      exact entered.bound p bound
    -- The filter drops the empty default, which is no binding that is visible.
    constructor
    · rintro ⟨⟨⟨bound, sight⟩, notShown⟩ | ⟨-, rfl, -⟩, notEmpty⟩
      · rw [Bool.and_eq_true] at sight
        exact ⟨sight.1, ⟨bound, sight.2⟩, notShown⟩
      · contradiction
    · rintro ⟨member, ⟨bound, sight⟩, notShown⟩
      refine ⟨.inl ⟨⟨bound, ?_⟩, notShown⟩, ?_⟩
      · rw [member, sight]
        rfl
      · simpa using nonempty bound
  simp only [bareDeclarations, DeclaresBare]
  cases r.restrictsNamespaces with
  | false => simp
  | true =>
    cases rule : r.method.namespaces with
    | inclusive =>
      refine Iff.trans ?_ ((pending fun _ => true).trans ?_)
      · simp
      · simp
    | exclusive =>
      have among := pending fun q => r.listed.contains q
      cases empty : r.listed.isEmpty with
      | true =>
        rw [List.isEmpty_iff] at empty
        simp [empty]
      | false =>
        refine Iff.trans ?_ (among.trans ?_)
        · simp
        · simp

/-- What the pieces of a walk declare: on start tags by one rule, for elements that are not
output by another. -/
def Follows (r : Request) (rule bare : Ancestor → List Ancestor → String → String → Prop) :
    Piece → Prop
  | .startTag loc _ declarations _ =>
    ∃ e, loc.element? = some e ∧ r.isOutput loc .element = true ∧
      declarations.Pairwise (·.nsPrefix < ·.nsPrefix) ∧
      ∀ p u, (⟨p, u⟩ : Binding) ∈ declarations ↔ rule ⟨loc.number, e⟩ loc.ancestors p u
  | .bare loc declarations =>
    ∃ e, loc.element? = some e ∧ r.isOutput loc .element = false ∧
      declarations.Pairwise (·.nsPrefix < ·.nsPrefix) ∧
      ∀ p u, (⟨p, u⟩ : Binding) ∈ declarations ↔ bare ⟨loc.number, e⟩ loc.ancestors p u
  | .leaf _ _ | .endTag _ => True

theorem Follows.congr {rule bare rule' bare' : Ancestor → List Ancestor → String → String → Prop}
    {piece : Piece} (follows : r.Follows rule bare piece)
    (same : ∀ a above p u, rule a above p u ↔ rule' a above p u)
    (sameBare : ∀ a above p u, bare a above p u ↔ bare' a above p u) :
    r.Follows rule' bare' piece := by
  cases piece with
  | startTag loc qname declarations attributes =>
    obtain ⟨e, here, output, sorted, exactly⟩ := follows
    exact ⟨e, here, output, sorted, fun p u => (exactly p u).trans (same _ _ p u)⟩
  | bare loc declarations =>
    obtain ⟨e, here, omitted, sorted, exactly⟩ := follows
    exact ⟨e, here, omitted, sorted, fun p u => (exactly p u).trans (sameBare _ _ p u)⟩
  | leaf loc l => trivial
  | endTag qname => trivial

end Request

namespace Walk

/-- The invariant of the walk: the axis follows the ancestors. -/
theorem invariant_tracks {r : Request} {visits : Location → Prop}
    (outputs : ∀ loc e, visits loc → r.isOutput loc .element =
      r.ancestorIsOutput (⟨loc.number, e⟩ :: loc.ancestors))
    (kept : ∀ loc e, visits loc → loc.element? = some e →
      Ancestor.KeepsPrefixes (⟨loc.number, e⟩ :: loc.ancestors)) :
    Invariant r visits (fun _ _ => ()) (fun (_ : Unit) => r.Follows r.Declares r.DeclaresBare)
      (fun _ => r.Tracks) := by
  constructor
  · intro s axis loc l _ _ _
    exact ⟨trivial, rfl⟩
  · intro s axis loc e visited here tracks omitted entered piece
    have sorted := r.sorted_bareDeclarations entered loc.number
    have exactly := fun p u => Request.declaresBare_iff (a := ⟨loc.number, e⟩) (p := p) (u := u)
      tracks
    refine ⟨⟨e, here, omitted, sorted, exactly⟩, rfl, ?_⟩
    rw [outputs loc e visited] at omitted
    exact tracks.omit omitted
  · intro s axis loc e attributes visited here tracks output names entered _ _ rendering piece
    have sorted := r.sorted_declarations entered loc.number names
    have exactly := fun p u => Request.declares_iff (a := ⟨loc.number, e⟩) (p := p) (u := u)
      tracks
    refine ⟨⟨e, here, output, sorted, exactly⟩, ?_, trivial, rfl⟩
    rw [outputs loc e visited] at output
    exact tracks.render (kept loc e visited here) output

/-- Every piece that a walk writes declares what the ancestors ask for. -/
theorem declares {d : Document} {input : Input} (method : Method) (params : Params)
    (kept : d.KeepsPrefixes) (taken : input.Of d) :
    let r := Request.of method input params
    ∀ piece ∈ (ofInput method input params).pieces,
      r.Follows r.Declares r.DeclaresBare piece := by
  have inv := invariant_tracks (r := .of method input params)
    (fun loc e member => Request.isOutput_eq taken member e) fun loc e member here => by
      have inDocument := taken.locations_subset member
      exact kept.chain ⟨⟨loc, inDocument, here, rfl, rfl⟩,
        Location.stands_of_mem_locations inDocument⟩
  exact (inv.along_ofInput taken (Request.tracks_seed taken)).forall_pieces

end Walk

/-! ## The rules of the two algorithms -/

namespace Request

/-- The inclusive rule.  `outer` is the innermost element around that is output. -/
def DeclaresInclusive (r : Request) (a : Ancestor) (above : List Ancestor) (p u : String) :
    Prop :=
  let outer := Ancestor.nearest r.ancestorIsOutput above
  (r.visible? (a :: above) p = some u ∧ r.visible? outer p ≠ some u) ∨
    (p = "" ∧ u = "" ∧ r.visible? (a :: above) p = none ∧ r.visible? outer p ≠ none)

/-- What the inclusive rule writes for an element that is not output. -/
def DeclaresInclusiveBare (r : Request) (a : Ancestor) (above : List Ancestor) (p u : String) :
    Prop :=
  let outer := Ancestor.nearest r.ancestorIsOutput above
  r.restrictsNamespaces = true ∧ r.visible? (a :: above) p = some u ∧ r.visible? outer p ≠ some u

/-- The exclusive rule.  `outer` is the innermost element around that is output and uses the
prefix; at the root of a propagating subtree the empty default is written in any case. -/
def DeclaresExclusive (r : Request) (a : Ancestor) (above : List Ancestor) (p u : String) :
    Prop :=
  let outer := Ancestor.nearest (fun chain => r.ancestorIsOutput chain && r.uses chain p) above
  r.uses (a :: above) p = true ∧
    ((r.visible? (a :: above) p = some u ∧ r.visible? outer p ≠ some u) ∨
      (p = "" ∧ u = "" ∧ r.visible? (a :: above) p = none ∧
        ((r.propagatesAt a.number = true ∧ (a.spelling above).name.nsPrefix = "") ∨
          r.visible? outer p ≠ none)))

/-- What the exclusive rule writes for an element that is not output. -/
def DeclaresExclusiveBare (r : Request) (a : Ancestor) (above : List Ancestor) (p u : String) :
    Prop :=
  let outer := Ancestor.nearest (fun chain => r.ancestorIsOutput chain && r.uses chain p) above
  r.restrictsNamespaces = true ∧ p ∈ r.listed ∧
    r.visible? (a :: above) p = some u ∧ r.visible? outer p ≠ some u

variable {r : Request}

theorem declares_iff_inclusive (rule : r.method.namespaces = .inclusive) (a : Ancestor)
    (above : List Ancestor) (p u : String) :
    r.Declares a above p u ↔ r.DeclaresInclusive a above p u := by
  simp [Declares, DeclaresInclusive, settles, forcesDefault, lastShown?, rule]

theorem declaresBare_iff_inclusive (rule : r.method.namespaces = .inclusive) (a : Ancestor)
    (above : List Ancestor) (p u : String) :
    r.DeclaresBare a above p u ↔ r.DeclaresInclusiveBare a above p u := by
  simp [DeclaresBare, DeclaresInclusiveBare, settles, lastShown?, rule]

theorem declares_iff_exclusive (rule : r.method.namespaces = .exclusive) (a : Ancestor)
    (above : List Ancestor) (p u : String) :
    r.Declares a above p u ↔ r.DeclaresExclusive a above p u := by
  simp [Declares, DeclaresExclusive, settles, forcesDefault, lastShown?, rule]

theorem declaresBare_iff_exclusive (rule : r.method.namespaces = .exclusive) (a : Ancestor)
    (above : List Ancestor) (p u : String) :
    r.DeclaresBare a above p u ↔ r.DeclaresExclusiveBare a above p u := by
  simp [DeclaresBare, DeclaresExclusiveBare, settles, lastShown?, rule]

end Request

namespace Walk

variable {d : Document} {method : Method} {input : Input}

/-- A walk of an inclusive method writes the declarations of the inclusive rule on every start
tag, and it leaves no element out. -/
theorem inclusive_declarations (rule : method.namespaces = .inclusive) (params : Params)
    (kept : d.KeepsPrefixes) (taken : input.Of d) :
    let r := Request.of method input params
    let walk := ofInput method input params
    (∀ piece ∈ walk.pieces, r.Follows r.DeclaresInclusive r.DeclaresInclusiveBare piece) ∧
      ∀ w, walk.outcome = .ok w →
        walk.pieces.filterMap Piece.element? = input.locations.filter (·.element?.isSome) := by
  intro r walk
  constructor
  · intro piece written
    exact (declares method params kept taken piece written).congr
      (r.declares_iff_inclusive rule) (r.declaresBare_iff_inclusive rule)
  · intro w ends
    exact elements_of_outcome ends

/-- An element in scope of a binding made around it, where the other one is not output.  That one
also declares `xml`, which brings nothing into scope. -/
theorem inclusive_declarations_sparse :
    let text := "<a xmlns:xml='http://www.w3.org/XML/1998/namespace' xmlns:p='u'><p:b/></a>"
    let d := (Document.read text).toOption.getD ⟨"", .nil⟩
    let input := Input.nodeSet d (.ofList [2])
    let method : Method := ⟨false, .inclusive, .everything⟩
    let r := Request.of method input {}
    let walk := ofInput method input {}
    Document.read text = .ok d ∧ d.KeepsPrefixes ∧ input.Of d ∧
      (∀ piece ∈ walk.pieces, r.Follows r.DeclaresInclusive r.DeclaresInclusiveBare piece) ∧
      ∀ w, walk.outcome = .ok w →
        walk.pieces.filterMap Piece.element? = input.locations.filter (·.element?.isSome) := by
  intro text d input method r walk
  have parsed : Document.read text = .ok d := by decide +kernel
  have finishes : Document.FinishesTags text := by decide +kernel
  have kept : d.KeepsPrefixes := Document.keepsPrefixes_of_read parsed finishes (by decide +kernel)
  exact ⟨parsed, kept, .nodeSet _, inclusive_declarations rfl {} kept (.nodeSet _)⟩

/-- A walk of an exclusive method writes the declarations of the exclusive rule. -/
theorem exclusive_declarations (rule : method.namespaces = .exclusive) (params : Params)
    (kept : d.KeepsPrefixes) (taken : input.Of d) :
    let r := Request.of method input params
    let walk := ofInput method input params
    (∀ piece ∈ walk.pieces, r.Follows r.DeclaresExclusive r.DeclaresExclusiveBare piece) ∧
      ∀ w, walk.outcome = .ok w →
        walk.pieces.filterMap Piece.element? = input.locations.filter (·.element?.isSome) := by
  intro r walk
  constructor
  · intro piece written
    exact (declares method params kept taken piece written).congr
      (r.declares_iff_exclusive rule) (r.declaresBare_iff_exclusive rule)
  · intro w ends
    exact elements_of_outcome ends

/-- A default namespace is undeclared below an element that uses it, and not only used; `xml` is
declared beside it. -/
theorem exclusive_declarations_propagating :
    let text := "<a xmlns='u' xmlns:xml='http://www.w3.org/XML/1998/namespace'><b xmlns=''/></a>"
    let d := (Document.read text).toOption.getD ⟨"", .nil⟩
    let input := Input.subtree (.node ((d.locate? 2).getD (.top d.content)))
    let method : Method := ⟨false, .exclusive, .nothing⟩
    let params : Params := { inclusivePrefixes := ["#default"], propagateDefault := true }
    let r := Request.of method input params
    let walk := ofInput method input params
    Document.read text = .ok d ∧ d.KeepsPrefixes ∧ input.Of d ∧
      (∀ piece ∈ walk.pieces, r.Follows r.DeclaresExclusive r.DeclaresExclusiveBare piece) ∧
      ∀ w, walk.outcome = .ok w →
        walk.pieces.filterMap Piece.element? = input.locations.filter (·.element?.isSome) := by
  intro text d input method params r walk
  have parsed : Document.read text = .ok d := by decide +kernel
  have finishes : Document.FinishesTags text := by decide +kernel
  have kept : d.KeepsPrefixes := Document.keepsPrefixes_of_read parsed finishes (by decide +kernel)
  have taken : input.Of d := .node (by decide +kernel)
  exact ⟨parsed, kept, taken, exclusive_declarations rfl params kept taken⟩

end Walk

end CanonicalXml
