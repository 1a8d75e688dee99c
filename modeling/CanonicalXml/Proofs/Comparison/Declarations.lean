import CanonicalXml.Proofs.Comparison.Transcripts
import CanonicalXml.Proofs.Settling

/-! # The declarations of two start tags

What a start tag declares, and what counts as rendered after it, depends on the axis only through
the bindings of the prefixes that the tag settles.

* `Request.declarations_congr` — tags that settle the same prefixes, of which the same is due.
* `Request.rendered_declarations` — what counts as rendered after a tag, prefix by prefix.
* `Request.rendered_congr` — so the same counts as rendered after two such tags.
* `Walk.InStep` — axes that have in scope what their elements say, and that show the same;
  `Walk.InStep.declarations` — such axes after two start tags.
-/

namespace CanonicalXml

open NamespaceAxis

/-- A prefix that is bound to the same, or to nothing, passes its check alike. -/
theorem NamespaceAxis.checkPrefix_congr {axis₁ axis₂ : NamespaceAxis} {p : String}
    (same : axis₁.inScope.get? p = axis₂.inScope.get? p) (qname : String) :
    axis₁.checkPrefix p qname = axis₂.checkPrefix p qname := by
  have uri : axis₁.uri? p = axis₂.uri? p := by
    simp only [uri?]
    rw [same]
  simp only [checkPrefix]
  rw [uri]

theorem NamespaceAxis.due?_congr {axis₁ axis₂ : NamespaceAxis} {p : String}
    (same : axis₁.inScope.get? p = axis₂.inScope.get? p)
    (rendered : axis₁.rendered = axis₂.rendered) (visible : String → Bool) (force : Bool) :
    axis₁.due? visible force p = axis₂.due? visible force p := by
  have default : axis₁.hasRenderedDefault = axis₂.hasRenderedDefault := by
    simp only [hasRenderedDefault]
    rw [rendered]
  simp only [due?]
  rw [same, rendered, default]

namespace Request

variable {r₁ r₂ : Request} {a₁ a₂ : Ancestor} {above₁ above₂ : List Ancestor}
  {axis₁ axis₂ : NamespaceAxis}

theorem declarations_congr (agrees₁ : InScopeAt (a₁ :: above₁) axis₁)
    (agrees₂ : InScopeAt (a₂ :: above₂) axis₂)
    (settled : ∀ p, r₁.settles (a₁ :: above₁) p = r₂.settles (a₂ :: above₂) p)
    (due : ∀ p, r₁.settles (a₁ :: above₁) p = true →
      axis₁.due? (r₁.isVisible a₁.number) (r₁.forcesDefault (a₁ :: above₁)) p =
        axis₂.due? (r₂.isVisible a₂.number) (r₂.forcesDefault (a₂ :: above₂)) p) :
    (r₁.declarations axis₁ a₁.number (a₁.spelling above₁)).1 =
      (r₂.declarations axis₂ a₂.number (a₂.spelling above₂)).1 := by
  refine PrefixMap.ext_list (sorted_declarations _ _ _ _) (sorted_declarations _ _ _ _) ?_
  rintro ⟨p, u⟩
  rw [mem_declarations agrees₁, mem_declarations agrees₂, ← settled p]
  exact and_congr_right fun here => by rw [due p here]

/-- After a start tag what it declares counts as rendered, and of what was rendered before it all
that is not pruned. -/
theorem rendered_declarations (r : Request) (axis : NamespaceAxis) (a : Ancestor)
    (above : List Ancestor) (p : String) :
    let declared := (r.declarations axis a.number (a.spelling above)).1
    (r.declarations axis a.number (a.spelling above)).2.rendered.get? p =
      if r.restrictsNamespaces = true ∧ r.settles (a :: above) p = true ∧ p ≠ "" ∧
          p ≠ xmlPrefix ∧ r.isVisible a.number p = false then none
      else ((declared.find? (·.nsPrefix = p)).map (·.uri)).or (axis.rendered.get? p) := by
  intro declared
  obtain ⟨prefixes, after, prunes⟩ := r.declarations_axis axis a above
  have marked := rendered_markRendered axis
    (r.sorted_declarations axis a.number (a.spelling above)) p
  rw [after, ← marked]
  cases r.restrictsNamespaces with
  | false =>
    rw [if_neg Bool.false_ne_true, if_neg fun h => Bool.false_ne_true h.1]
  | true =>
    rw [if_pos rfl, rendered_forget]
    by_cases nothing : (axis.markRendered declared).rendered.get? p = none
    · -- There is nothing to prune.
      simp only [declared] at nothing
      rw [nothing, ite_self, ite_self]
    · have pruned : p ∈ prefixes ↔ r.settles (a :: above) p = true :=
        ⟨(prunes p).1, fun here => (prunes p).2 here nothing⟩
      simp only [pruned, true_and]

theorem rendered_congr (same : axis₁.rendered = axis₂.rendered)
    (restricts : r₁.restrictsNamespaces = r₂.restrictsNamespaces)
    (visible : r₁.isVisible a₁.number = r₂.isVisible a₂.number)
    (settled : ∀ p, r₁.settles (a₁ :: above₁) p = r₂.settles (a₂ :: above₂) p)
    (declared : (r₁.declarations axis₁ a₁.number (a₁.spelling above₁)).1 =
      (r₂.declarations axis₂ a₂.number (a₂.spelling above₂)).1) :
    (r₁.declarations axis₁ a₁.number (a₁.spelling above₁)).2.rendered =
      (r₂.declarations axis₂ a₂.number (a₂.spelling above₂)).2.rendered := by
  apply PrefixMap.ext
  intro p
  rw [rendered_declarations, rendered_declarations, same, restricts, visible, settled p, declared]

/-- The bindings in scope stay as they are when a start tag is written. -/
theorem inScopeAt_declarations {r : Request} {chain : List Ancestor} {axis : NamespaceAxis}
    (agrees : InScopeAt chain axis) (element : Nat) (names : Spelling) :
    InScopeAt chain (r.declarations axis element names).2 := by
  intro p
  rw [inScope_declarations]
  exact agrees p

end Request

namespace Walk

/-- The axes have in scope what the chains say, and show the same. -/
structure InStep (chain₁ : List Ancestor) (axis₁ : NamespaceAxis) (chain₂ : List Ancestor)
    (axis₂ : NamespaceAxis) : Prop where
  agrees₁ : InScopeAt chain₁ axis₁
  agrees₂ : InScopeAt chain₂ axis₂
  rendered : axis₁.rendered = axis₂.rendered

theorem InStep.seed (chain₁ chain₂ : List Ancestor) :
    InStep chain₁ (Walk.seed chain₁) chain₂ (Walk.seed chain₂) := by
  refine ⟨inScopeAt_seed _, inScopeAt_seed _, ?_⟩
  rw [rendered_seed, rendered_seed]

theorem InStep.enter {chain₁ chain₂ : List Ancestor} {axis₁ axis₂ : NamespaceAxis}
    (inStep : InStep chain₁ axis₁ chain₂ axis₂) (a₁ a₂ : Ancestor) :
    InStep (a₁ :: chain₁) (axis₁.enter (a₁.spelling chain₁).declarations)
      (a₂ :: chain₂) (axis₂.enter (a₂.spelling chain₂).declarations) := by
  refine ⟨inStep.agrees₁.enter a₁, inStep.agrees₂.enter a₂, ?_⟩
  rw [rendered_enter, rendered_enter]
  exact inStep.rendered

/-- Start tags that settle the same prefixes, and find those bound alike, declare the same and
leave the axes in step. -/
theorem InStep.declarations {r₁ r₂ : Request} {a₁ a₂ : Ancestor} {above₁ above₂ : List Ancestor}
    {axis₁ axis₂ : NamespaceAxis} (inStep : InStep (a₁ :: above₁) axis₁ (a₂ :: above₂) axis₂)
    (restricts : r₁.restrictsNamespaces = r₂.restrictsNamespaces)
    (visible : r₁.isVisible a₁.number = r₂.isVisible a₂.number)
    (forced : r₁.forcesDefault (a₁ :: above₁) = r₂.forcesDefault (a₂ :: above₂))
    (settled : ∀ p, r₁.settles (a₁ :: above₁) p = r₂.settles (a₂ :: above₂) p)
    (bind : ∀ p, r₁.settles (a₁ :: above₁) p = true →
      Ancestor.inScope? (a₁ :: above₁) p = Ancestor.inScope? (a₂ :: above₂) p) :
    (r₁.declarations axis₁ a₁.number (a₁.spelling above₁)).1 =
        (r₂.declarations axis₂ a₂.number (a₂.spelling above₂)).1 ∧
      InStep (a₁ :: above₁) (r₁.declarations axis₁ a₁.number (a₁.spelling above₁)).2
        (a₂ :: above₂) (r₂.declarations axis₂ a₂.number (a₂.spelling above₂)).2 := by
  obtain ⟨agrees₁, agrees₂, rendered⟩ := inStep
  have declared := Request.declarations_congr agrees₁ agrees₂ settled fun p here => by
    rw [visible, forced]
    refine due?_congr ?_ rendered _ _
    rw [agrees₁ p, agrees₂ p]
    exact bind p here
  refine ⟨declared, ?_, ?_, ?_⟩
  · exact Request.inScopeAt_declarations agrees₁ _ _
  · exact Request.inScopeAt_declarations agrees₂ _ _
  · exact Request.rendered_congr rendered restricts visible settled declared

end Walk

end CanonicalXml
