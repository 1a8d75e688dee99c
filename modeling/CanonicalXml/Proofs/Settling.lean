import CanonicalXml.Proofs.AxisFrames
import CanonicalXml.Proofs.Rendering

/-! # The namespaces of a start tag, by its ancestors

The namespace axis is a state; here it is compared with what the ancestors of an element say.
A chain is a list of elements each of which is followed by its ancestors.

* `Ancestor.KeepsPrefixes` — elements of which none takes a named prefix back.
* `Request.uses` — the prefixes that a start tag visibly utilizes, or that are listed.
* `Request.visible?` — the namespace node of a prefix at the first element of a chain.
* `Request.lastShown?` — what the innermost output element that settles a prefix sees of it.
* `Request.mem_declarations`, `Request.shown_declarations` — what a start tag declares, and
  what is shown after it.
-/

namespace CanonicalXml

/-- Only the default prefix is bound to the empty URI.  A declaration of `xml` has that URI as
well, since this prefix is not listed in any scope, but the axis passes it over. -/
def Spelling.KeepsPrefixes (names : Spelling) : Prop :=
  ∀ b ∈ names.declarations, b.uri = "" → b.nsPrefix = "" ∨ b.nsPrefix = xmlPrefix

instance : DecidablePred Spelling.KeepsPrefixes := fun names =>
  inferInstanceAs (Decidable (∀ b ∈ names.declarations,
    b.uri = "" → b.nsPrefix = "" ∨ b.nsPrefix = xmlPrefix))

namespace Ancestor

/-- The chain from the innermost element on that passes the test. -/
def nearest (test : List Ancestor → Bool) : List Ancestor → List Ancestor
  | [] => []
  | a :: above => if test (a :: above) then a :: above else nearest test above

/-- None of the elements takes a named prefix back. -/
def KeepsPrefixes : List Ancestor → Prop
  | [] => True
  | a :: above => (a.spelling above).KeepsPrefixes ∧ KeepsPrefixes above

theorem inScope?_cons_ne_none {a : Ancestor} {above : List Ancestor} {p : String}
    (kept : (a.spelling above).KeepsPrefixes)
    (named : p ≠ "") (bound : inScope? above p ≠ none) : inScope? (a :: above) p ≠ none := by
  have notXml : p ≠ xmlPrefix := fun h => bound (h ▸ inScope?_xml above)
  simp only [inScope?]
  rw [if_neg notXml]
  cases last : Binding.last? (a.spelling above).declarations p with
  | none => exact bound
  | some b =>
    -- The element declares the prefix again, but takes no named prefix back.
    obtain ⟨declared, rfl⟩ := Binding.of_last? last
    have nonempty : b.uri ≠ "" := by
      intro empty
      rcases kept b declared empty with default | xml
      · exact named default
      · exact notXml xml
    dsimp only
    rw [if_neg nonempty]
    exact Option.some_ne_none _

/-- A prefix that is bound at an ancestor stays bound, unless it is the default. -/
theorem inScope?_of_nearest {test : List Ancestor → Bool} {p : String} (named : p ≠ "") :
    ∀ {chain : List Ancestor}, KeepsPrefixes chain →
      inScope? (nearest test chain) p ≠ none → inScope? chain p ≠ none
  | [], _, bound => bound
  | a :: above, kept, bound => by
    simp only [nearest] at bound
    split at bound
    · exact bound
    · exact inScope?_cons_ne_none kept.1 named (inScope?_of_nearest named kept.2 bound)

end Ancestor

namespace Request

/-! ## What a chain says -/

/-- The prefixes that an element utilizes: that of its name, those of its attributes if these
are written, the listed ones, and the default one at the root of a propagating subtree. -/
def uses (r : Request) : List Ancestor → String → Bool
  | [], _ => false
  | a :: above, p =>
    p = (a.spelling above).name.nsPrefix || r.listed.contains p ||
      (!r.excludesAttributes && p ≠ "" && (a.spelling above).attributePrefixes.contains p) ||
      (p = "" && r.propagatesAt a.number)

/-- The prefixes whose bindings the start tag of the first element settles. -/
def settles (r : Request) (chain : List Ancestor) (p : String) : Bool :=
  match r.method.namespaces with
  | .inclusive => true
  | .exclusive => r.uses chain p

/-- Whether an absent default namespace is declared even where none is shown. -/
def forcesDefault (r : Request) : List Ancestor → Bool
  | [] => false
  | a :: above =>
    match r.method.namespaces with
    | .inclusive => false
    | .exclusive => r.propagatesAt a.number && (a.spelling above).name.nsPrefix.isEmpty

/-- The namespace that a prefix stands for at the first element, if that is visible. -/
def visible? (r : Request) : List Ancestor → String → Option String
  | [], _ => none
  | a :: above, p => (Ancestor.inScope? (a :: above) p).filter fun _ => r.isVisible a.number p

/-- What is visible of a prefix at the innermost output element that settles it. -/
def lastShown? (r : Request) (chain : List Ancestor) (p : String) : Option String :=
  r.visible? (Ancestor.nearest (fun c => r.ancestorIsOutput c && r.settles c p) chain) p

theorem inScope?_of_visible? {r : Request} {chain : List Ancestor} {p u : String}
    (sees : r.visible? chain p = some u) : Ancestor.inScope? chain p = some u := by
  cases chain with
  | nil => exact sees
  | cons a above => exact (Option.filter_eq_some_iff.mp sees).1

/-- What is shown of a named prefix is still in scope. -/
theorem inScope?_of_lastShown? {r : Request} {chain : List Ancestor} {p : String}
    (kept : Ancestor.KeepsPrefixes chain) (named : p ≠ "") (shown : r.lastShown? chain p ≠ none) :
    Ancestor.inScope? chain p ≠ none := by
  apply Ancestor.inScope?_of_nearest named kept
  obtain ⟨u, sees⟩ := Option.ne_none_iff_exists'.mp shown
  rw [inScope?_of_visible? sees]
  exact nofun

theorem lastShown?_omit {r : Request} {a : Ancestor} {above : List Ancestor}
    (omitted : r.ancestorIsOutput (a :: above) = false) (p : String) :
    r.lastShown? (a :: above) p = r.lastShown? above p := by
  simp [lastShown?, Ancestor.nearest, omitted]

theorem lastShown?_render {r : Request} {a : Ancestor} {above : List Ancestor}
    (output : r.ancestorIsOutput (a :: above) = true) (p : String) :
    r.lastShown? (a :: above) p =
      if r.settles (a :: above) p then r.visible? (a :: above) p else r.lastShown? above p := by
  by_cases settled : r.settles (a :: above) p = true
  · simp [lastShown?, Ancestor.nearest, output, settled]
  · simp [lastShown?, Ancestor.nearest, output, settled]

theorem isVisible_of_unrestricted {r : Request} (free : r.restrictsNamespaces = false) (n : Nat)
    (p : String) : r.isVisible n p = true := by
  simp only [isVisible]
  split
  · rename_i s extent
    have none : s.visible? = none := by
      simpa [restrictsNamespaces, extent, NodeSet.restrictsNamespaces] using free
    simp [NodeSet.isVisible, none]
  · rfl

theorem settles_of_uses {r : Request} {chain : List Ancestor} {p : String}
    (used : r.uses chain p = true) : r.settles chain p = true := by
  simp only [settles]
  cases r.method.namespaces with
  | inclusive => rfl
  | exclusive => exact used

theorem visible?_of_unrestricted {r : Request} (free : r.restrictsNamespaces = false)
    (chain : List Ancestor) (p : String) : r.visible? chain p = Ancestor.inScope? chain p := by
  cases chain with
  | nil => rfl
  | cons a above =>
    simp only [visible?]
    simp only [isVisible_of_unrestricted free]
    cases Ancestor.inScope? (a :: above) p <;> rfl

theorem mem_utilized {r : Request} {a : Ancestor} {above : List Ancestor} {p : String} :
    p ∈ r.utilized a.number (a.spelling above) ↔ r.uses (a :: above) p = true := by
  rw [utilized, uses]
  cases r.excludesAttributes <;> cases r.propagatesAt a.number <;>
    simp [or_assoc, and_comm]

/-! ## What a start tag declares -/

section Declarations

open NamespaceAxis

variable {r : Request} {a : Ancestor} {above : List Ancestor} {axis : NamespaceAxis} {p u : String}

theorem seen_eq_visible? (agrees : InScopeAt (a :: above) axis) (p : String) :
    axis.seen (r.isVisible a.number) p = r.visible? (a :: above) p := by
  simp only [seen, visible?]
  rw [agrees p]

/-- The declarations of a start tag are those that are due for a settled prefix. -/
theorem mem_declarations (agrees : InScopeAt (a :: above) axis) :
    (⟨p, u⟩ : Binding) ∈ (r.declarations axis a.number (a.spelling above)).1 ↔
      r.settles (a :: above) p = true ∧
        axis.due? (r.isVisible a.number) (r.forcesDefault (a :: above)) p = some u := by
  -- The exclusive algorithm leaves out `xml`, which is never due.
  have notXml : axis.due? (r.isVisible a.number) (r.forcesDefault (a :: above)) p = some u →
      p ≠ xmlPrefix := by
    rintro due rfl
    rcases (due?_eq_some agrees.bound).mp due with ⟨sees, -⟩ | ⟨default, -⟩
    · rw [seen_eq_some, agrees, Ancestor.inScope?_xml] at sees
      cases sees.1
    · exact absurd default (by decide)
  simp only [declarations, settles]
  simp only [forcesDefault] at notXml ⊢
  cases rule : r.method.namespaces with
  | inclusive =>
    show _ ∈ axis.pending _ ↔ true = true ∧ _
    rw [mem_pending]
    exact (and_iff_right rfl).symm
  | exclusive =>
    rw [rule] at notXml
    refine mem_pendingFor.trans ?_
    rw [mem_utilized]
    exact and_congr_right fun _ => and_iff_right_of_imp notXml

@[simp] theorem inScope_declarations (r : Request) (axis : NamespaceAxis) (element : Nat)
    (names : Spelling) : (r.declarations axis element names).2.inScope = axis.inScope := by
  simp only [declarations, renderInclusive, renderExclusive]
  cases r.restrictsNamespaces <;> cases r.method.namespaces <;> simp

/-- They stand in the order of their prefixes. -/
theorem sorted_declarations (r : Request) (axis : NamespaceAxis) (element : Nat)
    (names : Spelling) :
    (r.declarations axis element names).1.Pairwise (·.nsPrefix < ·.nsPrefix) := by
  simp only [declarations]
  split
  · exact sorted_pending
  · exact sorted_pendingFor

theorem sorted_bareDeclarations (r : Request) (axis : NamespaceAxis) (element : Nat) :
    (r.bareDeclarations axis element).Pairwise (·.nsPrefix < ·.nsPrefix) := by
  simp only [bareDeclarations]
  apply List.Pairwise.filter
  split
  · exact List.Pairwise.nil
  split
  · exact sorted_pending
  split
  · exact List.Pairwise.nil
  · exact sorted_pending

/-- The axis after a start tag, for both algorithms: the prefixes that may be pruned are among
the settled ones, and all of those are that show something. -/
theorem declarations_axis (r : Request) (axis : NamespaceAxis) (a : Ancestor)
    (above : List Ancestor) :
    let declared := (r.declarations axis a.number (a.spelling above)).1
    ∃ prefixes, (r.declarations axis a.number (a.spelling above)).2 =
        (if r.restrictsNamespaces
          then (axis.markRendered declared).forget prefixes (r.isVisible a.number)
          else axis.markRendered declared) ∧
      ∀ p, (p ∈ prefixes → r.settles (a :: above) p = true) ∧
        (r.settles (a :: above) p = true →
          (axis.markRendered declared).rendered.get? p ≠ none → p ∈ prefixes) := by
  simp only [declarations, settles]
  cases rule : r.method.namespaces with
  | inclusive =>
    -- All prefixes that count as rendered may be pruned, and all prefixes are settled.
    refine ⟨_, rfl, fun p => ⟨fun _ => rfl, fun _ rendered => ?_⟩⟩
    obtain ⟨u, bound⟩ := Option.ne_none_iff_exists'.mp rendered
    exact List.mem_map.mpr ⟨⟨p, u⟩, PrefixMap.get?_eq_some_iff.mp bound, rfl⟩
  | exclusive =>
    exact ⟨_, rfl, fun p => ⟨mem_utilized.mp, fun used _ => mem_utilized.mpr used⟩⟩

/-- After a start tag the settled prefixes show what is visible of them at the element. -/
theorem shown_declarations (agrees : InScopeAt (a :: above) axis) (p : String)
    (named : p ≠ "" → axis.shown p ≠ none → Ancestor.inScope? (a :: above) p ≠ none) :
    (r.declarations axis a.number (a.spelling above)).2.shown p =
      if r.settles (a :: above) p then r.visible? (a :: above) p else axis.shown p := by
  obtain ⟨prefixes, after, prunes⟩ := r.declarations_axis axis a above
  have sorted := sorted_declarations r axis a.number (a.spelling above)
  have members := fun u => mem_declarations (r := r) (p := p) (u := u) agrees
  rw [after]
  by_cases xml : p = xmlPrefix
  · -- The prefix `xml` is never in scope, so that it is neither shown nor declared.
    subst xml
    have unseen : axis.seen (r.isVisible a.number) xmlPrefix = none := by
      simp only [seen]
      rw [agrees, Ancestor.inScope?_xml]
      rfl
    have notShown : axis.shown xmlPrefix = none :=
      Decidable.byContradiction fun h =>
        named (by decide) h (Ancestor.inScope?_xml _)
    have absent : ∀ u, (⟨xmlPrefix, u⟩ : Binding) ∉
        (r.declarations axis a.number (a.spelling above)).1 := by
      intro u member
      rcases (due?_eq_some agrees.bound).mp ((members u).mp member).2 with ⟨sees, -⟩ | ⟨default, -⟩
      · rw [unseen] at sees
        contradiction
      · exact absurd default (by decide)
    rw [shown_unsettled sorted absent fun _ => rfl, ← seen_eq_visible? agrees, unseen, notShown,
      ite_self]
  · cases settled : r.settles (a :: above) p with
    | true =>
      rw [if_pos rfl, ← seen_eq_visible? agrees]
      refine shown_settled agrees.bound sorted (fun u => (members u).trans (and_iff_right settled))
        ?_ xml (fun free => isVisible_of_unrestricted free _ _) ((prunes p).2 settled)
      rw [agrees p]
      exact named
    | false =>
      -- The tag neither declares nor prunes the prefix.
      have unsettled : r.settles (a :: above) p ≠ true := by simp [settled]
      rw [if_neg Bool.false_ne_true]
      exact shown_unsettled sorted (fun u member => unsettled ((members u).mp member).1)
        fun member => absurd ((prunes p).1 member) unsettled

end Declarations

end Request

end CanonicalXml
