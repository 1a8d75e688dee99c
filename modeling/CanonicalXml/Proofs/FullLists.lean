import CanonicalXml.Proofs.Comparison.Declarations
import CanonicalXml.Proofs.Comparison.Walks
import CanonicalXml.Proofs.InputForms.Requests
import CanonicalXml.Proofs.Surroundings

/-! # Lists of all prefixes

An exclusive method whose list holds every prefix that a document declares makes what the
inclusive method makes.

* `Request.Covers` — an exclusive request whose list covers a document, beside the inclusive one.
* `Request.Covers.inScope?_unlisted` — what is not listed is never in scope.
* `Request.Covers.declarations`, `Request.Covers.bareDeclarations` — so both methods declare the
  same, although one goes through its list and the other through all that is in scope.
* `Mode.exclusive_eq_inclusive` — the canonical forms.
-/

namespace CanonicalXml

/-- Whether a list of prefixes names this one. -/
def Params.Lists (params : Params) (p : String) : Prop :=
  ∃ token ∈ params.inclusivePrefixes, (if token = defaultPrefixToken then "" else token) = p

instance (params : Params) (p : String) : Decidable (params.Lists p) :=
  inferInstanceAs (Decidable (∃ token ∈ params.inclusivePrefixes, _))

namespace Request

/-- An exclusive request and an inclusive one for the same nodes, where the list of the first
one holds the default prefix and all that the document declares. -/
structure Covers (d : Document) (r₁ r₂ : Request) : Prop where
  exclusive : r₁.method.namespaces = .exclusive
  inclusive : r₂.method.namespaces = .inclusive
  alone : r₁.method.inheritance = .nothing
  inherits : r₂.method.inheritance = .everything
  comments : r₁.method.withComments = r₂.method.withComments
  extent : r₁.extent = r₂.extent
  limits : r₁.limits = r₂.limits
  calm : r₁.propagateDefault = false
  default : "" ∈ r₁.listed
  declared : ∀ loc ∈ d.locations, ∀ e, loc.element? = some e →
    ∀ b ∈ (loc.spelling e).declarations, b.nsPrefix ∈ r₁.listed

namespace Covers

open NamespaceAxis

variable {d : Document} {r₁ r₂ : Request} {a : Ancestor} {above : List Ancestor}
  {axis₁ axis₂ : NamespaceAxis}

/-! ## Questions about the nodes -/

theorem isOutput (covers : Covers d r₁ r₂) (loc : Location) (kind : NodeKind) :
    r₁.isOutput loc kind = r₂.isOutput loc kind := by
  simp only [Request.isOutput]
  rw [covers.comments, covers.extent]

theorem excludesAttributes (covers : Covers d r₁ r₂) :
    r₁.excludesAttributes = r₂.excludesAttributes := by
  simp only [Request.excludesAttributes]
  rw [covers.extent]

theorem restrictsNamespaces (covers : Covers d r₁ r₂) :
    r₁.restrictsNamespaces = r₂.restrictsNamespaces := by
  simp only [Request.restrictsNamespaces]
  rw [covers.extent]

theorem isVisible (covers : Covers d r₁ r₂) : r₁.isVisible = r₂.isVisible := by
  funext element p
  simp only [Request.isVisible]
  rw [covers.extent]

theorem forcesDefault (covers : Covers d r₁ r₂) (chain : List Ancestor) :
    r₁.forcesDefault chain = false ∧ r₂.forcesDefault chain = false := by
  cases chain with
  | nil => exact ⟨rfl, rfl⟩
  | cons a above =>
    simp only [Request.forcesDefault, propagatesAt]
    rw [covers.exclusive, covers.inclusive, covers.calm]
    exact ⟨rfl, rfl⟩

theorem omittedAncestors (covers : Covers d r₁ r₂) (chain : List Ancestor) :
    r₁.omittedAncestors chain = r₂.omittedAncestors chain := by
  refine omittedAncestors_congr fun outer _ => ?_
  cases outer with
  | nil => rfl
  | cons a above =>
    simp only [ancestorIsOutput]
    rw [covers.extent]

/-! ## Namespaces -/

/-- What is not listed is declared nowhere, and so never in scope. -/
theorem inScope?_unlisted (covers : Covers d r₁ r₂) {p : String} (unlisted : p ∉ r₁.listed)
    {chain : List Ancestor} (stands : Ancestor.Stands d.locations chain) :
    Ancestor.inScope? chain p = none := by
  induction chain with
  | nil => rfl
  | cons a above ih =>
    obtain ⟨⟨loc, member, here, -, rfl⟩, around⟩ := stands
    have absent : Binding.last? (a.spelling loc.ancestors).declarations p = none := by
      cases last : Binding.last? (a.spelling loc.ancestors).declarations p with
      | none => rfl
      | some b =>
        obtain ⟨declares, rfl⟩ := Binding.of_last? last
        exact absurd (covers.declared loc member a.element here b declares) unlisted
    simp only [Ancestor.inScope?]
    rw [absent, ih around, ite_self]

theorem settles_inclusive (covers : Covers d r₁ r₂) (chain : List Ancestor) (p : String) :
    r₂.settles chain p = true := by
  simp only [settles]
  rw [covers.inclusive]

/-- Nothing is due for a prefix that is not listed. -/
theorem listed_of_due (covers : Covers d r₁ r₂)
    (stands : Ancestor.Stands d.locations (a :: above)) (agrees : InScopeAt (a :: above) axis₁)
    {visible : String → Bool} {force : Bool} {p u : String}
    (due : axis₁.due? visible force p = some u) : p ∈ r₁.listed := by
  refine Decidable.byContradiction fun unlisted => ?_
  have named : p ≠ "" := fun h => unlisted (h ▸ covers.default)
  simp only [due?] at due
  rw [agrees p, covers.inScope?_unlisted unlisted stands] at due
  simp [named] at due

/-- What the walks keep up: the axes are in step, and count nothing as rendered that is not
listed. -/
structure InStep (r₁ : Request) (chain₁ : List Ancestor) (axis₁ : NamespaceAxis)
    (chain₂ : List Ancestor) (axis₂ : NamespaceAxis) : Prop where
  same : chain₁ = chain₂
  inStep : Walk.InStep chain₁ axis₁ chain₂ axis₂
  depth : axis₁.depth = axis₂.depth
  unlisted : ∀ p ∉ r₁.listed, axis₁.rendered.get? p = none

theorem inStep_seed (covers : Covers d r₁ r₂) (chain : List Ancestor) :
    InStep r₁ chain (Walk.seed chain) chain (Walk.seed chain) := by
  refine ⟨rfl, .seed chain chain, rfl, fun p unlisted => ?_⟩
  have named : p ≠ "" := fun h => unlisted (h ▸ covers.default)
  rw [rendered_seed, PrefixMap.get?_single, if_neg named.symm]

theorem InStep.enter {chain : List Ancestor} (inStep : InStep r₁ chain axis₁ chain axis₂)
    (a : Ancestor) :
    InStep r₁ (a :: chain) (axis₁.enter (a.spelling chain).declarations) (a :: chain)
      (axis₂.enter (a.spelling chain).declarations) := by
  refine ⟨rfl, inStep.inStep.enter a a, ?_, fun p unlisted => ?_⟩
  · rw [depth_enter, depth_enter, inStep.depth]
  · rw [rendered_enter]
    exact inStep.unlisted p unlisted

/-- The same is due where the axes are in step. -/
theorem due?_eq (covers : Covers d r₁ r₂) {chain : List Ancestor}
    (inStep : Walk.InStep chain axis₁ chain axis₂) (element : Nat) (p : String) :
    axis₁.due? (r₁.isVisible element) (r₁.forcesDefault chain) p =
      axis₂.due? (r₂.isVisible element) (r₂.forcesDefault chain) p := by
  obtain ⟨agrees₁, agrees₂, rendered⟩ := inStep
  rw [covers.isVisible, (covers.forcesDefault _).1, (covers.forcesDefault _).2]
  exact due?_congr ((agrees₁ p).trans (agrees₂ p).symm) rendered _ _

/-- What is not listed is not declared. -/
theorem find?_unlisted (covers : Covers d r₁ r₂)
    (stands : Ancestor.Stands d.locations (a :: above)) (agrees : InScopeAt (a :: above) axis₁)
    {p : String} (unlisted : p ∉ r₁.listed) :
    (r₁.declarations axis₁ a.number (a.spelling above)).1.find? (·.nsPrefix = p) = none := by
  rw [List.find?_eq_none]
  rintro ⟨q, u⟩ member same
  have here := ((mem_declarations agrees).mp member).2
  exact unlisted (of_decide_eq_true same ▸ covers.listed_of_due stands agrees here)

/-- Both methods declare the same, and then show the same. -/
theorem declarations (covers : Covers d r₁ r₂)
    (stands : Ancestor.Stands d.locations (a :: above)) (opened : axis₁.frames ≠ [])
    (inStep : InStep r₁ (a :: above) axis₁ (a :: above) axis₂) :
    (r₁.declarations axis₁ a.number (a.spelling above)).1 =
        (r₂.declarations axis₂ a.number (a.spelling above)).1 ∧
      InStep r₁ (a :: above) (r₁.declarations axis₁ a.number (a.spelling above)).2
        (a :: above) (r₂.declarations axis₂ a.number (a.spelling above)).2 := by
  obtain ⟨-, inStep, depth, unlisted⟩ := inStep
  have due := covers.due?_eq inStep a.number
  obtain ⟨agrees₁, agrees₂, rendered⟩ := inStep
  have opened₂ : axis₂.frames ≠ [] := by
    rw [frames_ne_nil, ← depth]
    exact frames_ne_nil.mp opened
  have settled : ∀ p ∈ r₁.listed, r₁.settles (a :: above) p = true := fun p listed =>
    settles_of_uses (by simp [uses, listed])
  have declared : (r₁.declarations axis₁ a.number (a.spelling above)).1 =
      (r₂.declarations axis₂ a.number (a.spelling above)).1 := by
    refine PrefixMap.ext_list (sorted_declarations _ _ _ _) (sorted_declarations _ _ _ _) ?_
    rintro ⟨p, u⟩
    rw [mem_declarations agrees₁, mem_declarations agrees₂, ← due p,
      covers.settles_inclusive]
    exact and_congr_left fun here =>
      iff_of_true (settled p (covers.listed_of_due stands agrees₁ here)) rfl
  refine ⟨declared, rfl, ⟨inScopeAt_declarations agrees₁ _ _, inScopeAt_declarations agrees₂ _ _,
    PrefixMap.ext fun p => ?_⟩, ?_, fun p other => ?_⟩
  · rw [rendered_declarations, rendered_declarations, ← declared, ← rendered,
      covers.restrictsNamespaces, covers.isVisible, covers.settles_inclusive]
    by_cases listed : p ∈ r₁.listed
    · rw [settled p listed]
    · -- One of the methods prunes it, but there is nothing to prune.
      rw [covers.find?_unlisted stands agrees₁ listed, unlisted p listed]
      simp
  · rw [Walk.depth_declarations opened, Walk.depth_declarations opened₂, depth]
  · rw [rendered_declarations, covers.find?_unlisted stands agrees₁ other, unlisted p other]
    simp

/-- So they do on elements that are not output. -/
theorem bareDeclarations (covers : Covers d r₁ r₂)
    (stands : Ancestor.Stands d.locations (a :: above))
    (inStep : InStep r₁ (a :: above) axis₁ (a :: above) axis₂) :
    r₁.bareDeclarations axis₁ a.number = r₂.bareDeclarations axis₂ a.number := by
  obtain ⟨-, ⟨agrees₁, agrees₂, rendered⟩, -, -⟩ := inStep
  have nonempty : r₁.listed.isEmpty = false := by
    rw [List.isEmpty_eq_false_iff]
    exact List.ne_nil_of_mem covers.default
  -- What is in scope is listed, so that the list hides nothing.
  have seen : ∀ p, (axis₁.inScope.get? p).filter
        (fun _ => r₁.listed.contains p && r₁.isVisible a.number p) =
      (axis₁.inScope.get? p).filter fun _ => r₁.isVisible a.number p := by
    intro p
    by_cases listed : p ∈ r₁.listed
    · rw [List.contains_iff_mem.mpr listed, Bool.true_and]
    · rw [agrees₁ p, covers.inScope?_unlisted listed stands]
      rfl
  have due : ∀ p, axis₁.due? (fun p => r₁.listed.contains p && r₁.isVisible a.number p) false p =
      axis₂.due? (r₂.isVisible a.number) false p := by
    intro p
    rw [← covers.isVisible, ← due?_congr ((agrees₁ p).trans (agrees₂ p).symm) rendered]
    simp only [due?]
    rw [seen p]
  have pending : axis₁.pending (fun p => r₁.listed.contains p && r₁.isVisible a.number p) =
      axis₂.pending (r₂.isVisible a.number) := by
    refine PrefixMap.ext_list sorted_pending sorted_pending ?_
    rintro ⟨p, u⟩
    rw [mem_pending, mem_pending, due p]
  simp only [Request.bareDeclarations]
  rw [covers.restrictsNamespaces, covers.exclusive, covers.inclusive, nonempty, ← pending]
  rfl

/-- Without attributes of the XML namespace around an element there is none to inherit. -/
theorem writtenAttributes (covers : Covers d r₁ r₂) {loc : Location}
    (plain : ∀ a ∈ r₁.omittedAncestors loc.ancestors, a.element.xmlAttributes = [])
    (same : ∀ p, axis₁.inScope.get? p = axis₂.inScope.get? p) (e : Element) (names : Spelling)
    (parentOutput : Bool) :
    r₁.writtenAttributes axis₁ loc e names parentOutput =
      r₂.writtenAttributes axis₂ loc e names parentOutput := by
  have none_around : (r₁.omittedAncestors loc.ancestors).flatMap (·.element.xmlAttributes) = [] :=
    List.flatMap_eq_nil_iff.mpr plain
  have nothing : ∀ own, inherit .everything (r₁.omittedAncestors loc.ancestors) own = own := by
    intro own
    simp only [inherit, inherited]
    rw [none_around]
    exact List.append_nil own
  unfold Request.writtenAttributes
  rw [covers.excludesAttributes, covers.alone, covers.inherits, ← covers.omittedAncestors,
    ownAttributes_congr _ fun own _ _ => same own.2]
  simp only [inherit_nothing, nothing]

end Covers

end Request

/-! ## Walks -/

namespace Walk

open Transcript (Matches)
open Request (Covers)

variable {d : Document} {r₁ r₂ : Request}

/-- A place of a document beside itself. -/
def Beside (places : List Location) (loc₁ loc₂ : Location) : Prop :=
  loc₁ = loc₂ ∧ loc₁ ∈ places

theorem parallel_beside {places : List Location} {content : Content} : ∀ {number : Nat}
    {ancestors : List Ancestor} {before : List NodeKind},
    Location.allFrom number ancestors before content ⊆ places →
    Location.Parallel (Beside places) ⟨number, ancestors, before, content⟩
      ⟨number, ancestors, before, content⟩ := by
  induction content with
  | nil =>
    intro number ancestors before within
    exact .nil rfl rfl
  | leaf l rest ihRest =>
    intro number ancestors before within
    have later := List.subset_of_cons_subset within
    exact .leaf rfl rfl ⟨rfl, within List.mem_cons_self⟩ (ihRest later)
  | element e inner rest ihInner ihRest =>
    intro number ancestors before within
    have below := List.subset_of_cons_subset within
    exact .element rfl rfl ⟨rfl, within List.mem_cons_self⟩
      (ihInner (List.Subset.trans (List.subset_append_left _ _) below))
      (ihRest (List.Subset.trans (List.subset_append_right _ _) below))

/-- Two walks through one node, of whatever kind. -/
theorem Simulation.nodeAt_beside {places : List Location}
    {Rel : List Ancestor → NamespaceAxis → List Ancestor → NamespaceAxis → Prop}
    (sim : Simulation r₁ r₂ Eq (Beside places) Rel) {loc : Location} {w₁ w₂ : Walk}
    (within : loc.subtree ⊆ places) (parentOutput : Bool)
    (holds : Rel loc.ancestors w₁.axis loc.ancestors w₂.axis)
    (comments : w₁.comments = w₂.comments) :
    Matches Eq (Unmoved w₁ w₂) (Walk.nodeAt r₁ parentOutput loc w₁)
      (Walk.nodeAt r₂ parentOutput loc w₂) := by
  unfold Location.subtree at within
  cases here : loc.here with
  | nil =>
    simp only [Walk.nodeAt, here]
    exact .pure ⟨rfl, rfl, comments⟩
  | leaf l rest =>
    rw [here] at within
    have visited : Beside places loc loc := ⟨rfl, within List.mem_cons_self⟩
    obtain ⟨-, output, top, text⟩ := sim.leaf visited here here
    simp only [Walk.nodeAt, here]
    exact leaf_matches sim.reflexive sim.limits comments rfl output top text
  | element e inner rest =>
    rw [here] at within
    have visited : Beside places loc loc := ⟨rfl, within List.mem_cons_self⟩
    have inside : Location.Parallel (Beside places) (loc.inside e inner) (loc.inside e inner) :=
      parallel_beside (List.subset_of_cons_subset within)
    exact sim.nodeAt parentOutput visited here here inside holds comments

/-- The walks of both methods keep up with each other. -/
theorem simulation_covers {places : List Location} (covers : Covers d r₁ r₂)
    (within : places ⊆ d.locations)
    (plain : ∀ loc ∈ places, ∀ e, loc.element? = some e → r₁.isOutput loc .element = true →
      ∀ a ∈ r₁.omittedAncestors loc.ancestors, a.element.xmlAttributes = []) :
    Simulation r₁ r₂ Eq (Beside places) (Covers.InStep r₁) where
  reflexive := fun _ => rfl
  limits := covers.limits
  leaf := by
    rintro loc _ l₁ l₂ rest₁ rest₂ ⟨rfl, -⟩ here₁ here₂
    cases here₁.symm.trans here₂
    exact ⟨rfl, covers.isOutput loc _, rfl, rfl⟩
  element := by
    rintro loc _ e₁ e₂ inner₁ inner₂ rest₁ rest₂ parentOutput w₁ w₂ ⟨rfl, member⟩ here₁ here₂
      inStep comments
    cases here₁.symm.trans here₂
    have here := Location.element?_of_here here₁
    have stands : Ancestor.Stands d.locations (⟨loc.number, e₁⟩ :: loc.ancestors) :=
      ⟨⟨loc, within member, here, rfl, rfl⟩, Location.stands_of_mem_locations (within member)⟩
    have entered : Covers.InStep r₁ (⟨loc.number, e₁⟩ :: loc.ancestors)
        (w₁.axis.enter (loc.spelling e₁).declarations) (⟨loc.number, e₁⟩ :: loc.ancestors)
        (w₂.axis.enter (loc.spelling e₁).declarations) := inStep.enter ⟨loc.number, e₁⟩
    have same : ∀ p, (w₁.axis.enter (loc.spelling e₁).declarations).inScope.get? p =
        (w₂.axis.enter (loc.spelling e₁).declarations).inScope.get? p := fun p =>
      (entered.inStep.agrees₁ p).trans (entered.inStep.agrees₂ p).symm
    have opened := NamespaceAxis.frames_enter_ne_nil w₁.axis (loc.spelling e₁).declarations
    refine startTag_matches (Covers.InStep r₁ _ · _ ·) comments rfl (covers.isOutput loc _) ?_ ?_ ?_
      ?_
    · intro qname
      rw [covers.limits]
      exact .refl (fun _ => rfl) _
    · rw [covers.limits, entered.depth]
      exact .refl (fun _ => rfl) _
    · intro _
      have bare := covers.bareDeclarations stands entered
      exact ⟨bare, entered⟩
    · intro output
      rw [← covers.isOutput] at output
      obtain ⟨declared, after⟩ := covers.declarations stands opened entered
      refine ⟨?_, ?_, declared, after⟩
      · rw [NamespaceAxis.checkPrefix_congr (same _)]
        exact .refl (fun _ => rfl) _
      · rw [covers.writtenAttributes (plain loc member e₁ here output) same]
        exact .refl (fun _ => rfl) _

end Walk

namespace Mode

open Transcript (Alike)

/-- The requests that an exclusive method with a list and the inclusive one make of an input. -/
theorem covers_of (withComments : Bool) {d : Document} {input : Input} {params : Params}
    (calm : ∀ apex, input = .subtree apex → params.propagateDefault = false)
    (default : params.Lists "")
    (declared : ∀ loc ∈ d.locations, ∀ e, loc.element? = some e →
      ∀ b ∈ (loc.spelling e).declarations, params.Lists b.nsPrefix) :
    Request.Covers d (.of (method .exclusive withComments) input params)
      (.of (method .inclusive withComments) input params) where
  exclusive := rfl
  inclusive := rfl
  alone := rfl
  inherits := rfl
  comments := rfl
  extent := rfl
  limits := rfl
  calm := by
    cases input with
    | document d => exact Bool.and_false _
    | subtree apex =>
      simp only [Request.of]
      rw [calm apex rfl]
      rfl
    | nodeSet d s => exact Bool.and_false _
  default := List.mem_map.mpr default
  declared := fun loc member e here b declares =>
    List.mem_map.mpr (declared loc member e here b declares)

/-- Exclusive canonicalization with a list of the default prefix and of all prefixes that the
document declares is inclusive canonicalization, unless an element that is output takes an
attribute of the XML namespace from ancestors that are not.  It does not matter whether prefixes
are taken back, nor what else is listed. -/
theorem exclusive_eq_inclusive {d : Document} {input : Input} {params : Params}
    (withComments : Bool) (taken : input.Of d)
    (calm : ∀ apex, input = .subtree apex → params.propagateDefault = false)
    (default : params.Lists "")
    (declared : ∀ loc ∈ d.locations, ∀ e, loc.element? = some e →
      ∀ b ∈ (loc.spelling e).declarations, params.Lists b.nsPrefix)
    (plain :
      let r := Request.of (method .exclusive withComments) input params
      ∀ loc ∈ input.locations, ∀ e, loc.element? = some e → r.isOutput loc .element = true →
        ∀ a ∈ r.omittedAncestors loc.ancestors, a.element.xmlAttributes = []) :
    Alike ((canonical .exclusive withComments).run input params)
      ((canonical .inclusive withComments).run input params) := by
  have covers := covers_of withComments calm default declared
  have sim := Walk.simulation_covers covers taken.locations_subset plain
  have whole : Location.allFrom 1 [] [] d.content ⊆ input.locations →
      Transcript.Matches Eq _
        (Walk.siblingsAt (.of (method .exclusive withComments) input params) false
          (.top d.content) ⟨.start, 0⟩)
        (Walk.siblingsAt (.of (method .inclusive withComments) input params) false
          (.top d.content) ⟨.start, 0⟩) := fun within =>
    sim.siblingsAt (Walk.parallel_beside within) (covers.inStep_seed []) rfl
  cases taken with
  | document =>
    apply run_alike
    rw [Walk.ofInput_document, Walk.ofInput_document]
    exact whole (List.Subset.refl _)
  | root =>
    apply run_alike
    rw [Walk.ofInput_root, Walk.ofInput_root]
    exact whole (List.Subset.refl _)
  | nodeSet s =>
    apply run_alike
    rw [Walk.ofInput_nodeSet, Walk.ofInput_nodeSet]
    exact whole (List.Subset.refl _)
  | @node loc member =>
    apply run_alike
    rw [Walk.ofInput_node, Walk.ofInput_node]
    refine sim.nodeAt_beside (List.Subset.refl _) false ?_ rfl
    exact covers.inStep_seed loc.ancestors

/-- A sparse node set, some of whose namespace nodes are hidden.  The element in between is left
out, and one of its declarations is written all the same. -/
theorem exclusive_eq_inclusive_sparse :
    let text := "<r xmlns='d' xmlns:p='u' xml:lang='en'>" ++
      "<p:a xmlns='' xmlns:q='v'><b q:k='1'/></p:a></r>"
    let params : Params := { inclusivePrefixes := ["q", "#default", "p"] }
    let s := (NodeSet.ofList [1, 3]).showOnly
      [((1, ""), true), ((2, "q"), true), ((3, "p"), true)]
    ∃ d, Document.read text = .ok d ∧
      ((canonical .inclusive true).run (.nodeSet d s) params).result =
        .ok ("<r xmlns=\"d\" xml:lang=\"en\"> xmlns:q=\"v\"" ++
          "<b xmlns=\"\" xmlns:p=\"u\" q:k=\"1\"></b></r>") ∧
      Alike ((canonical .exclusive true).run (.nodeSet d s) params)
        ((canonical .inclusive true).run (.nodeSet d s) params) := by
  intro text params s
  let d := (Document.read text).toOption.getD ⟨"", .nil⟩
  have given : (∀ loc ∈ d.locations, ∀ e ∈ loc.element?, ∀ b ∈ (loc.spelling e).declarations,
        params.Lists b.nsPrefix) ∧
      (∀ loc ∈ d.locations, ∀ e ∈ loc.element?,
        (Request.of (method .exclusive true) (.nodeSet d s) params).isOutput loc .element = true →
        ∀ a ∈ (Request.of (method .exclusive true) (.nodeSet d s) params).omittedAncestors
          loc.ancestors, a.element.xmlAttributes = []) ∧
      Document.read text = .ok d ∧
      ((canonical .inclusive true).run (.nodeSet d s) params).result =
        .ok ("<r xmlns=\"d\" xml:lang=\"en\"> xmlns:q=\"v\"" ++
          "<b xmlns=\"\" xmlns:p=\"u\" q:k=\"1\"></b></r>") := by decide +kernel
  obtain ⟨listed, plain, parsed, result⟩ := given
  have default : params.Lists "" := ⟨"#default", by decide, by decide⟩
  clear_value d
  have alike := exclusive_eq_inclusive true (.nodeSet s) nofun default listed plain
  exact ⟨d, parsed, result, alike⟩

end Mode

end CanonicalXml
