import CanonicalXml.Mode
import CanonicalXml.Proofs.Comparison.Declarations
import CanonicalXml.Proofs.Comparison.Tags
import CanonicalXml.Proofs.Comparison.Walks
import CanonicalXml.Proofs.Readback.Views

/-! # The surroundings of a subtree

What an exclusive method writes of a subtree is determined by how the subtree is spelled and by
the namespaces that the prefixes stand for which it uses without declaring them.

* `Content.SpelledAlike` — content that is spelled alike, wherever it stands.
* `Content.needs` — the prefixes that content uses and does not declare.
* `Location.AlikeAt` — two places with the same node, which is to be written alike.
* `Walk.simulation_surroundings` — one step; `Mode.exclusive_surroundings` — the whole subtree.
-/

namespace CanonicalXml

/-! ## Spelled alike -/

/-- Two elements with the same start tag, on which the same namespaces are declared, and with the
same attributes. -/
structure Element.SpelledAlike (tag : StartTag) (e₁ e₂ : Element) : Prop where
  shows₁ : e₁.Shows tag
  shows₂ : e₂.Shows tag
  localName : e₁.localName = e₂.localName
  declared : ∀ b ∈ tag.declarations,
    (e₁.scope.uri? b.1).getD "" = (e₂.scope.uri? b.1).getD ""
  attributes : e₁.attributes = e₂.attributes

instance (tag : StartTag) (e₁ e₂ : Element) : Decidable (Element.SpelledAlike tag e₁ e₂) :=
  decidable_of_iff (_ ∧ _ ∧ _ ∧ _ ∧ _)
    ⟨fun h => ⟨h.1, h.2.1, h.2.2.1, h.2.2.2.1, h.2.2.2.2⟩, fun h =>
      ⟨h.shows₁, h.shows₂, h.localName, h.declared, h.attributes⟩⟩

namespace Content

/-- The same leaves, and elements that are spelled alike, in the same order. -/
def SpelledAlike : Content → Content → Prop
  | nil, nil => True
  | leaf l₁ next₁, leaf l₂ next₂ => l₁ = l₂ ∧ SpelledAlike next₁ next₂
  | element e₁ inner₁ next₁, element e₂ inner₂ next₂ =>
    (∃ tag, Element.SpelledAlike tag e₁ e₂) ∧ SpelledAlike inner₁ inner₂ ∧
      SpelledAlike next₁ next₂
  | _, _ => False

/-- Whether the prefix is utilized somewhere in the content without being declared there, nor on
an element of the content around that. -/
def needs (p : String) : Content → Bool
  | nil => false
  | leaf _ next => next.needs p
  | element e inner next =>
    (e.tag.any fun tag => !tag.declares p && (tag.utilizes p || inner.needs p)) || next.needs p

end Content

namespace Element.SpelledAlike

variable {tag : StartTag} {e₁ e₂ : Element} {above₁ above₂ : List Ancestor}

theorem declarations_eq (alike : SpelledAlike tag e₁ e₂) (outer₁ outer₂ : Scope) :
    (Spelling.of outer₁ e₁).declarations = (Spelling.of outer₂ e₂).declarations := by
  rw [alike.shows₁.declarations_eq, alike.shows₂.declarations_eq]
  exact List.map_congr_left fun b member => congrArg _ (alike.declared b member)

theorem name_eq (alike : SpelledAlike tag e₁ e₂) (outer₁ outer₂ : Scope) :
    (Spelling.of outer₁ e₁).name = (Spelling.of outer₂ e₂).name := by
  rw [alike.shows₁.name_eq, alike.shows₂.name_eq, alike.localName]

/-- What is in scope inside of the elements, if it is what is declared or the same around them. -/
theorem inScope?_eq (alike : SpelledAlike tag e₁ e₂) {n₁ n₂ : Nat} {p : String}
    (around : tag.declares p = false →
      Ancestor.inScope? above₁ p = Ancestor.inScope? above₂ p) :
    Ancestor.inScope? (⟨n₁, e₁⟩ :: above₁) p = Ancestor.inScope? (⟨n₂, e₂⟩ :: above₂) p := by
  have same : (Ancestor.spelling ⟨n₁, e₁⟩ above₁).declarations =
      (Ancestor.spelling ⟨n₂, e₂⟩ above₂).declarations := alike.declarations_eq _ _
  simp only [Ancestor.inScope?]
  rw [same]
  split
  · rfl
  · cases last : Binding.last? (Ancestor.spelling ⟨n₂, e₂⟩ above₂).declarations p with
    | some b => rfl
    | none => exact around ((alike.shows₂.last?_eq_none_iff _ p).mp last)

end Element.SpelledAlike

/-! ## Places that are alike -/

/-- The prefixes are bound alike inside of these chains of elements. -/
def Ancestor.BindAlike (prefixes : String → Prop) (chain₁ chain₂ : List Ancestor) : Prop :=
  ∀ p, prefixes p → inScope? chain₁ p = inScope? chain₂ p

/-- A prefix that is needed inside of an element is declared on its tag, or it is needed around
the element, too. -/
theorem Element.SpelledAlike.bindAlike {tag : StartTag} {e₁ e₂ : Element}
    {inner₁ rest₁ : Content} {listed : List String} {above₁ above₂ : List Ancestor}
    (spelled : SpelledAlike tag e₁ e₂)
    (bind : Ancestor.BindAlike
      (fun p => p ∈ listed ∨ (Content.element e₁ inner₁ rest₁).needs p = true) above₁ above₂)
    {n₁ n₂ : Nat} {wanted : String → Prop}
    (known : ∀ p, wanted p → p ∈ listed ∨ tag.utilizes p = true ∨ inner₁.needs p = true) :
    Ancestor.BindAlike wanted (⟨n₁, e₁⟩ :: above₁) (⟨n₂, e₂⟩ :: above₂) := by
  intro p asks
  refine spelled.inScope?_eq fun undeclared => bind p ((known p asks).imp_right fun need => ?_)
  simp only [Content.needs]
  rw [spelled.shows₁.known, Option.any_some, undeclared]
  rcases need with use | need <;> simp [*]

/-- The same leaf inside of an element, or elements spelled alike for which all that a start tag
asks for is bound alike. -/
inductive Location.AlikeAt (listed : List String) : Location → Location → Prop where
  | leaf {loc₁ loc₂ : Location} {l : Leaf} {rest₁ rest₂ : Content}
      (here₁ : loc₁.here = .leaf l rest₁) (here₂ : loc₂.here = .leaf l rest₂)
      (below₁ : loc₁.isTop = false) (below₂ : loc₂.isTop = false) : AlikeAt listed loc₁ loc₂
  | element {loc₁ loc₂ : Location} {tag : StartTag} {e₁ e₂ : Element}
      {inner₁ inner₂ rest₁ rest₂ : Content} (here₁ : loc₁.here = .element e₁ inner₁ rest₁)
      (here₂ : loc₂.here = .element e₂ inner₂ rest₂)
      (alike : Element.SpelledAlike tag e₁ e₂)
      (bind : Ancestor.BindAlike (fun p => p ∈ listed ∨ tag.utilizes p = true)
        (⟨loc₁.number, e₁⟩ :: loc₁.ancestors) (⟨loc₂.number, e₂⟩ :: loc₂.ancestors)) :
      AlikeAt listed loc₁ loc₂

namespace Location

/-- Content that is spelled alike, in surroundings that bind alike what it needs, is alike place
by place. -/
theorem parallel_of_alike {listed : List String} {content₁ content₂ : Content} {n₁ n₂ : Nat}
    {above₁ above₂ : List Ancestor} {before₁ before₂ : List NodeKind}
    (alike : content₁.SpelledAlike content₂) (inside₁ : above₁ ≠ []) (inside₂ : above₂ ≠ [])
    (bind : Ancestor.BindAlike (fun p => p ∈ listed ∨ content₁.needs p = true) above₁ above₂) :
    Parallel (AlikeAt listed) ⟨n₁, above₁, before₁, content₁⟩
      ⟨n₂, above₂, before₂, content₂⟩ := by
  fun_induction Content.SpelledAlike content₁ content₂
    generalizing n₁ n₂ above₁ above₂ before₁ before₂ with
  | case1 => exact .nil rfl rfl
  | case2 l₁ rest₁ l₂ rest₂ ihRest =>
    obtain ⟨rfl, rest⟩ := alike
    refine .leaf rfl rfl (.leaf rfl rfl ?_ ?_) (ihRest rest inside₁ inside₂ bind)
    · exact List.isEmpty_eq_false_iff.mpr inside₁
    · exact List.isEmpty_eq_false_iff.mpr inside₂
  | case3 e₁ inner₁ rest₁ e₂ inner₂ rest₂ ihInner ihRest =>
    obtain ⟨⟨tag, spelled⟩, inner, rest⟩ := alike
    refine .element rfl rfl (.element rfl rfl spelled
      (spelled.bindAlike bind fun p => .imp_right .inl)) ?_ ?_
    · exact ihInner inner (List.cons_ne_nil _ _) (List.cons_ne_nil _ _)
        (spelled.bindAlike bind fun p => .imp_right .inr)
    · refine ihRest rest inside₁ inside₂ fun p asks => bind p (asks.imp_right fun need => ?_)
      simp only [Content.needs]
      rw [need, Bool.or_true]
  | case4 => cases alike

end Location

/-! ## Attributes -/

namespace Request

/-- Attributes whose prefixes are bound alike. -/
theorem ownAttributes_congr {axis₁ axis₂ : NamespaceAxis} (qname : String)
    {owns : List (Attribute × String)}
    (same : ∀ own ∈ owns, own.2 ≠ "" →
      axis₁.inScope.get? own.2 = axis₂.inScope.get? own.2) :
    ownAttributes axis₁ qname owns = ownAttributes axis₂ qname owns := by
  induction owns with
  | nil => rfl
  | cons own owns ih =>
    obtain ⟨here, later⟩ := List.forall_mem_cons.mp same
    have checked : axis₁.checkPrefix own.2 qname = axis₂.checkPrefix own.2 qname := by
      by_cases unprefixed : own.2 = ""
      · rw [unprefixed]
        rfl
      · exact NamespaceAxis.checkPrefix_congr (here unprefixed) qname
    simp only [ownAttributes]
    rw [ih later, checked]

/-- The exclusive methods take nothing from around a subtree. -/
theorem inherit_nothing (ancestors : List Ancestor) (own : List WrittenAttribute) :
    inherit .nothing ancestors own = own := by
  have none : inherited .nothing ancestors = [] := by
    simp [inherited, inheritable, firstOfEach]
  simp only [inherit]
  rw [none]
  exact List.append_nil own

/-- Two requests of one exclusive method, each for some subtree, that have nothing in common but
the list of prefixes. -/
structure ExclusiveSubtrees (r₁ r₂ : Request) : Prop where
  method : r₁.method = r₂.method
  exclusive : r₂.method.namespaces = .exclusive
  alone : r₂.method.inheritance = .nothing
  listed : r₁.listed = r₂.listed
  extent₁ : ∃ n, r₁.extent = .subtree n
  extent₂ : ∃ n, r₂.extent = .subtree n
  calm₁ : r₁.propagateDefault = false
  calm₂ : r₂.propagateDefault = false
  unlimited₁ : r₁.limits = none
  unlimited₂ : r₂.limits = none

/-- What a subtree leaves open: all nodes are output but for comments, with all that belongs to
them. -/
theorem subtree_open {r : Request} (extent : ∃ n, r.extent = .subtree n) :
    r.excludesAttributes = false ∧ r.restrictsNamespaces = false ∧
      (∀ n p, r.isVisible n p = true) ∧
      ∀ loc kind, r.isOutput loc kind = !(kind = .comment && !r.method.withComments) := by
  obtain ⟨n, subtree⟩ := extent
  simp only [excludesAttributes, restrictsNamespaces, isVisible, isOutput]
  rw [subtree]
  refine ⟨rfl, rfl, fun _ _ => rfl, fun loc kind => ?_⟩
  cases decide (kind = .comment) && !r.method.withComments <;> simp

end Request

/-! ## Walks -/

namespace Walk

open Transcript (Matches Ends)
open NamespaceAxis

section Surroundings

variable {r₁ r₂ : Request} (subtrees : Request.ExclusiveSubtrees r₁ r₂)
include subtrees

/-- The declarations of elements that are alike, and what counts as rendered after them. -/
theorem declarations_surroundings {tag : StartTag} (a₁ a₂ : Ancestor)
    {above₁ above₂ : List Ancestor} {axis₁ axis₂ : NamespaceAxis}
    (alike : Element.SpelledAlike tag a₁.element a₂.element)
    (bind : Ancestor.BindAlike (fun p => p ∈ r₁.listed ∨ tag.utilizes p = true)
      (a₁ :: above₁) (a₂ :: above₂))
    (inStep : InStep (a₁ :: above₁) axis₁ (a₂ :: above₂) axis₂) :
    (r₁.declarations axis₁ a₁.number (a₁.spelling above₁)).1 =
        (r₂.declarations axis₂ a₂.number (a₂.spelling above₂)).1 ∧
      InStep (a₁ :: above₁) (r₁.declarations axis₁ a₁.number (a₁.spelling above₁)).2
        (a₂ :: above₂) (r₂.declarations axis₂ a₂.number (a₂.spelling above₂)).2 := by
  obtain ⟨included₁, free₁, visible₁, -⟩ := Request.subtree_open subtrees.extent₁
  obtain ⟨included₂, free₂, visible₂, -⟩ := Request.subtree_open subtrees.extent₂
  have settles₁ : ∀ p, r₁.settles (a₁ :: above₁) p =
      (r₁.listed.contains p || tag.utilizes p) := by
    intro p
    rw [← Request.uses_of_shows alike.shows₁ included₁ subtrees.calm₁ p, Request.settles,
      subtrees.method, subtrees.exclusive]
  have settles₂ : ∀ p, r₂.settles (a₂ :: above₂) p =
      (r₁.listed.contains p || tag.utilizes p) := by
    intro p
    rw [subtrees.listed, ← Request.uses_of_shows alike.shows₂ included₂ subtrees.calm₂ p,
      Request.settles, subtrees.exclusive]
  have settled : ∀ p, r₁.settles (a₁ :: above₁) p = r₂.settles (a₂ :: above₂) p :=
    fun p => (settles₁ p).trans (settles₂ p).symm
  have visible : r₁.isVisible a₁.number = r₂.isVisible a₂.number := by
    funext p
    rw [visible₁, visible₂]
  have forced : r₁.forcesDefault (a₁ :: above₁) = r₂.forcesDefault (a₂ :: above₂) := by
    simp [Request.forcesDefault, Request.propagatesAt, subtrees.calm₁, subtrees.calm₂,
      subtrees.method]
  refine inStep.declarations (free₁.trans free₂.symm) visible forced settled fun p here => bind p ?_
  rw [settles₁ p, Bool.or_eq_true, List.contains_iff_mem] at here
  exact here

/-- The attributes of elements that are alike. -/
theorem writtenAttributes_surroundings {loc₁ loc₂ : Location} {tag : StartTag}
    {e₁ e₂ : Element} {axis₁ axis₂ : NamespaceAxis} (alike : Element.SpelledAlike tag e₁ e₂)
    (bind : Ancestor.BindAlike (fun p => p ∈ r₁.listed ∨ tag.utilizes p = true)
      (⟨loc₁.number, e₁⟩ :: loc₁.ancestors) (⟨loc₂.number, e₂⟩ :: loc₂.ancestors))
    (agrees₁ : InScopeAt (⟨loc₁.number, e₁⟩ :: loc₁.ancestors) axis₁)
    (agrees₂ : InScopeAt (⟨loc₂.number, e₂⟩ :: loc₂.ancestors) axis₂) (parentOutput : Bool) :
    r₁.writtenAttributes axis₁ loc₁ e₁ (loc₁.spelling e₁) parentOutput =
      r₂.writtenAttributes axis₂ loc₂ e₂ (loc₂.spelling e₂) parentOutput := by
  have included₁ := (Request.subtree_open subtrees.extent₁).1
  have included₂ := (Request.subtree_open subtrees.extent₂).1
  have name : (loc₁.spelling e₁).name = (loc₂.spelling e₂).name := alike.name_eq _ _
  have prefixes₁ : (loc₁.spelling e₁).attributePrefixes = tag.attributePrefixes :=
    alike.shows₁.attributePrefixes_eq _
  have prefixes₂ : (loc₂.spelling e₂).attributePrefixes = tag.attributePrefixes :=
    alike.shows₂.attributePrefixes_eq _
  have owns : Request.ownAttributes axis₁ (loc₁.spelling e₁).name.text
        (e₁.attributes.zip (loc₁.spelling e₁).attributePrefixes) =
      Request.ownAttributes axis₂ (loc₂.spelling e₂).name.text
        (e₂.attributes.zip (loc₂.spelling e₂).attributePrefixes) := by
    rw [name, prefixes₁, prefixes₂, alike.attributes]
    refine Request.ownAttributes_congr _ fun own member prefixed => ?_
    have spelled := (List.of_mem_zip member).2
    have used : tag.utilizes own.2 = true := by simp [StartTag.utilizes, prefixed, spelled]
    rw [agrees₁, agrees₂, bind own.2 (.inr used)]
  simp only [Request.writtenAttributes]
  rw [included₁, included₂, owns, subtrees.method, subtrees.alone]
  simp only [Request.inherit_nothing]

theorem startTag_surroundings {loc₁ loc₂ : Location} {tag : StartTag} {e₁ e₂ : Element}
    {parentOutput : Bool} {w₁ w₂ : Walk} (alike : Element.SpelledAlike tag e₁ e₂)
    (bind : Ancestor.BindAlike (fun p => p ∈ r₁.listed ∨ tag.utilizes p = true)
      (⟨loc₁.number, e₁⟩ :: loc₁.ancestors) (⟨loc₂.number, e₂⟩ :: loc₂.ancestors))
    (inStep : InStep loc₁.ancestors w₁.axis loc₂.ancestors w₂.axis)
    (comments : w₁.comments = w₂.comments) :
    Matches Eq
      (fun v₁ v₂ => InStep (⟨loc₁.number, e₁⟩ :: loc₁.ancestors) v₁.1.axis
          (⟨loc₂.number, e₂⟩ :: loc₂.ancestors) v₂.1.axis ∧
        v₁.1.comments = v₂.1.comments ∧ v₁.2 = v₂.2)
      (w₁.startTag r₁ loc₁ e₁ parentOutput) (w₂.startTag r₂ loc₂ e₂ parentOutput) := by
  have name : (loc₁.spelling e₁).name = (loc₂.spelling e₂).name := alike.name_eq _ _
  have output₁ : r₁.isOutput loc₁ .element = true :=
    (Request.subtree_open subtrees.extent₁).2.2.2 loc₁ .element
  have output₂ : r₂.isOutput loc₂ .element = true :=
    (Request.subtree_open subtrees.extent₂).2.2.2 loc₂ .element
  have entered : InStep (⟨loc₁.number, e₁⟩ :: loc₁.ancestors)
      (w₁.axis.enter (loc₁.spelling e₁).declarations) (⟨loc₂.number, e₂⟩ :: loc₂.ancestors)
      (w₂.axis.enter (loc₂.spelling e₂).declarations) :=
    inStep.enter ⟨loc₁.number, e₁⟩ ⟨loc₂.number, e₂⟩
  refine startTag_matches (InStep _ · _ ·) comments name (output₁.trans output₂.symm) ?_ ?_ ?_ ?_
  · intro qname
    rw [subtrees.unlimited₁, subtrees.unlimited₂]
    exact .ok rfl
  · rw [subtrees.unlimited₁, subtrees.unlimited₂]
    exact .ok rfl
  · intro omitted
    rw [output₂] at omitted
    contradiction
  · intro _
    dsimp only
    obtain ⟨declared, after⟩ := declarations_surroundings subtrees
      ⟨loc₁.number, e₁⟩ ⟨loc₂.number, e₂⟩ alike bind entered
    refine ⟨?_, ?_, declared, after⟩
    · rw [name]
      have use := bind (loc₂.spelling e₂).name.nsPrefix (.inr (by
        have spelled : (loc₂.spelling e₂).name = ⟨tag.name.nsPrefix, e₂.localName⟩ :=
          alike.shows₂.name_eq _
        rw [spelled]
        simp [StartTag.utilizes]))
      have same : (w₁.axis.enter (loc₁.spelling e₁).declarations).inScope.get?
            (loc₂.spelling e₂).name.nsPrefix =
          (w₂.axis.enter (loc₂.spelling e₂).declarations).inScope.get?
            (loc₂.spelling e₂).name.nsPrefix := by
        rw [entered.agrees₁, entered.agrees₂, use]
      rw [checkPrefix_congr same]
      exact .refl (fun _ => rfl) _
    · rw [writtenAttributes_surroundings subtrees alike bind entered.agrees₁ entered.agrees₂]
      exact .refl (fun _ => rfl) _

theorem simulation_surroundings :
    Simulation r₁ r₂ Eq (Location.AlikeAt r₁.listed) InStep where
  reflexive := fun _ => rfl
  limits := subtrees.unlimited₁.trans subtrees.unlimited₂.symm
  leaf := by
    intro loc₁ loc₂ l₁ l₂ rest₁ rest₂ visited here₁ here₂
    cases visited with
    | element here => cases here.symm.trans here₁
    | leaf is₁ is₂ below₁ below₂ =>
      cases is₁.symm.trans here₁
      cases is₂.symm.trans here₂
      refine ⟨rfl, ?_, below₁.trans below₂.symm, ?_⟩
      · rw [(Request.subtree_open subtrees.extent₁).2.2.2,
          (Request.subtree_open subtrees.extent₂).2.2.2, subtrees.method]
      · simp [Location.writeSeparated, Location.followsRoot, Location.precedesRoot, below₁, below₂]
  element := by
    intro loc₁ loc₂ e₁ e₂ inner₁ inner₂ rest₁ rest₂ parentOutput w₁ w₂ visited here₁ here₂
      inStep comments
    cases visited with
    | leaf is₁ => cases is₁.symm.trans here₁
    | element is₁ is₂ alike bind =>
      cases is₁.symm.trans here₁
      cases is₂.symm.trans here₂
      exact startTag_surroundings subtrees alike bind inStep comments

end Surroundings

end Walk

namespace Mode

open Transcript (Alike)

/-- The request of an exclusive method for a subtree without propagation. -/
theorem exclusiveSubtrees (withComments : Bool) {params : Params}
    (calm : params.propagateDefault = false) (unlimited : params.limits = none)
    (loc₁ loc₂ : Location) :
    Request.ExclusiveSubtrees (.of (method .exclusive withComments) (.subtree (.node loc₁)) params)
      (.of (method .exclusive withComments) (.subtree (.node loc₂)) params) where
  method := rfl
  exclusive := rfl
  alone := rfl
  listed := rfl
  extent₁ := ⟨_, rfl⟩
  extent₂ := ⟨_, rfl⟩
  calm₁ := by simp [Request.of, calm]
  calm₂ := by simp [Request.of, calm]
  unlimited₁ := unlimited
  unlimited₂ := unlimited

/-- Exclusive canonicalization of a subtree does not depend on its surroundings, but for the
namespaces of the prefixes that it needs and of those that are listed. -/
theorem exclusive_surroundings {loc₁ loc₂ : Location} (withComments : Bool) {params : Params}
    (calm : params.propagateDefault = false) (unlimited : params.limits = none)
    (element : loc₁.element?.isSome = true)
    (alike : (Input.subtree (.node loc₁)).content.SpelledAlike
      (Input.subtree (.node loc₂)).content)
    (contexts : ∀ p,
      ((∃ token ∈ params.inclusivePrefixes,
          (if token = defaultPrefixToken then "" else token) = p) ∨
        (Input.subtree (.node loc₁)).content.needs p = true) →
      Ancestor.inScope? loc₁.ancestors p = Ancestor.inScope? loc₂.ancestors p) :
    Alike ((canonical .exclusive withComments).run (.subtree (.node loc₁)) params)
      ((canonical .exclusive withComments).run (.subtree (.node loc₂)) params) := by
  obtain ⟨e₁, element₁⟩ := Option.isSome_iff_exists.mp element
  obtain ⟨inner₁, rest₁, here₁⟩ := Location.here_of_element? element₁
  rw [Input.content_element here₁] at alike contexts
  obtain ⟨e₂, inner₂, rest₂, here₂⟩ : ∃ e₂ inner₂ rest₂, loc₂.here = .element e₂ inner₂ rest₂ := by
    unfold Input.content at alike
    dsimp only at alike
    split at alike
    · exact ⟨_, _, _, ‹_›⟩
    · cases alike
  rw [Input.content_element here₂] at alike
  obtain ⟨⟨tag, spelled⟩, inner, -⟩ := alike
  have subtrees := exclusiveSubtrees withComments calm unlimited loc₁ loc₂
  -- The list of the request is the list of the settings, with the token for the default prefix.
  have bind : Ancestor.BindAlike (fun p => p ∈ (Request.of (method .exclusive withComments)
      (.subtree (.node loc₁)) params).listed ∨
        (Content.element e₁ inner₁ .nil).needs p = true) loc₁.ancestors loc₂.ancestors :=
    fun p asks => contexts p (asks.imp_left List.mem_map.mp)
  have visited : Location.AlikeAt _ loc₁ loc₂ := .element here₁ here₂ spelled
    (spelled.bindAlike bind fun p => .imp_right .inl)
  have inside : Location.Parallel (Location.AlikeAt _) (loc₁.inside e₁ inner₁)
      (loc₂.inside e₂ inner₂) :=
    Location.parallel_of_alike inner (List.cons_ne_nil _ _) (List.cons_ne_nil _ _)
      (spelled.bindAlike bind fun p => .imp_right .inr)
  have walks : Transcript.Matches Eq _ (Walk.nodeAt _ false loc₁ ⟨_, 0⟩)
      (Walk.nodeAt _ false loc₂ ⟨_, 0⟩) :=
    (Walk.simulation_surroundings subtrees).nodeAt false visited here₁ here₂ inside (.seed _ _) rfl
  rw [← Walk.ofInput_node, ← Walk.ofInput_node] at walks
  exact run_alike walks

/-- A subtree in two documents with other elements, declarations and attributes around it.  The
prefix that is listed is bound in neither of them. -/
theorem exclusive_surroundings_moved :
    let subtree := "<a p:k='1'><b xmlns='v'/></a>"
    let text₁ := "<r xmlns:p='u' xmlns:q='v'>" ++ subtree ++ "</r>"
    let text₂ := "<p:r xmlns:p='o'>x<s xml:lang='en' xmlns:p='u'>y" ++ subtree ++ "</s></p:r>"
    let params : Params := { inclusivePrefixes := ["n", "#default"] }
    let run := fun loc => (canonical .exclusive true).run (.subtree (.node loc)) params
    ∃ d₁ d₂ loc₁ loc₂, Document.read text₁ = .ok d₁ ∧ Document.read text₂ = .ok d₂ ∧
      loc₁ ∈ d₁.locations ∧ loc₂ ∈ d₂.locations ∧
      Ancestor.inScope? loc₁.ancestors "q" ≠ Ancestor.inScope? loc₂.ancestors "q" ∧
      (run loc₁).result = .ok "<a xmlns:p=\"u\" p:k=\"1\"><b xmlns=\"v\"></b></a>" ∧
      Alike (run loc₁) (run loc₂) := by
  intro subtree text₁ text₂ params run
  let tag : StartTag := ⟨"a", [⟨"p:k", "1"⟩]⟩
  let inner : StartTag := ⟨"b", [⟨"xmlns", "v"⟩]⟩
  let content := fun scope : Scope =>
    Content.element ⟨none, "a", [⟨some "u", "k", "1"⟩], scope, some tag⟩
      (.element ⟨some "v", "b", [], ⟨"", "v"⟩ :: scope, some inner⟩ .nil .nil) .nil
  let r₁ : Element := ⟨none, "r", [], [⟨"p", "u"⟩, ⟨"q", "v"⟩],
    some ⟨"r", [⟨"xmlns:p", "u"⟩, ⟨"xmlns:q", "v"⟩]⟩⟩
  let r₂ : Element := ⟨some "o", "r", [], [⟨"p", "o"⟩], some ⟨"p:r", [⟨"xmlns:p", "o"⟩]⟩⟩
  let s : Element := ⟨none, "s", [⟨some xmlNamespace, "lang", "en"⟩], [⟨"p", "u"⟩],
    some ⟨"s", [⟨"xml:lang", "en"⟩, ⟨"xmlns:p", "u"⟩]⟩⟩
  let d₁ : Document := ⟨text₁, .element r₁ (content r₁.scope) .nil⟩
  let d₂ : Document := ⟨text₂, .element r₂ (.leaf (.text "x")
    (.element s (.leaf (.text "y") (content s.scope)) .nil)) .nil⟩
  let loc₁ : Location := ⟨2, [⟨1, r₁⟩], [], content r₁.scope⟩
  let loc₂ : Location := ⟨5, [⟨3, s⟩, ⟨1, r₂⟩], [.text], content s.scope⟩
  have parsed₁ : Document.read text₁ = .ok d₁ := by decide +kernel
  have parsed₂ : Document.read text₂ = .ok d₂ := by decide +kernel
  have member₁ : loc₁ ∈ d₁.locations := by decide +kernel
  have member₂ : loc₂ ∈ d₂.locations := by decide +kernel
  have alike : (Input.subtree (.node loc₁)).content.SpelledAlike
      (Input.subtree (.node loc₂)).content :=
    ⟨⟨tag, by decide +kernel⟩, ⟨⟨inner, by decide +kernel⟩, trivial, trivial⟩, trivial⟩
  have needed : ∀ p, (Input.subtree (.node loc₁)).content.needs p = true → p = "" ∨ p = "p" := by
    intro p need
    change (content r₁.scope).needs p = true at need
    have prefixes : tag.attributePrefixes = ["p"] ∧ inner.attributePrefixes = [] := by decide
    have names : tag.name.nsPrefix = "" ∧ inner.name.nsPrefix = "" := by decide
    simp only [content, Content.needs, StartTag.utilizes, Option.any_some, prefixes, names] at need
    by_cases default : p = ""
    · exact .inl default
    · have only : tag.declares p = false ∧ p = "p" := by simpa [default] using need
      exact .inr only.2
  have contexts : ∀ p, ((∃ token ∈ params.inclusivePrefixes,
        (if token = defaultPrefixToken then "" else token) = p) ∨
        (Input.subtree (.node loc₁)).content.needs p = true) →
      Ancestor.inScope? loc₁.ancestors p = Ancestor.inScope? loc₂.ancestors p := by
    have bound : ∀ p ∈ ["", "n", "p"],
        Ancestor.inScope? loc₁.ancestors p = Ancestor.inScope? loc₂.ancestors p := by
      decide +kernel
    rintro p (⟨token, listed, rfl⟩ | need)
    · rcases List.mem_pair.mp listed with rfl | rfl <;> exact bound _ (by decide)
    · rcases needed p need with rfl | rfl <;> exact bound _ (by decide)
  exact ⟨d₁, d₂, loc₁, loc₂, parsed₁, parsed₂, member₁, member₂, by decide +kernel,
    by decide +kernel, exclusive_surroundings true rfl rfl rfl alike contexts⟩

/-- An element that is closed by the text of an entity has no start tag that is read.  It takes
the first prefix in scope that fits, be it one that the subtree does not use. -/
theorem exclusive_surroundings_unread_tag :
    let subtree := "<s><p:x>&e;</s>"
    let text := fun more : String => "<!DOCTYPE r [<!ENTITY e \"<y/></p:x>\">]><r" ++ more ++
      " xmlns:p=\"u\">" ++ subtree ++ "</r>"
    let run := fun loc => (canonical .exclusive false).run (.subtree (.node loc)) {}
    ∃ d₁ d₂ loc₁ loc₂, Document.read (text "") = .ok d₁ ∧
      Document.read (text " xmlns:q=\"u\"") = .ok d₂ ∧
      d₁.locate? 2 = some loc₁ ∧ d₂.locate? 2 = some loc₂ ∧
      (∀ p ∈ ["", "p"],
        Ancestor.inScope? loc₁.ancestors p = Ancestor.inScope? loc₂.ancestors p) ∧
      (run loc₁).result = .ok "<s><p:x xmlns:p=\"u\"><y></y></p:x></s>" ∧
      (run loc₂).result = .ok "<s><q:x xmlns:q=\"u\"><y></y></q:x></s>" := by
  intro subtree text run
  let d₁ := (Document.read (text "")).toOption.getD ⟨"", .nil⟩
  let d₂ := (Document.read (text " xmlns:q=\"u\"")).toOption.getD ⟨"", .nil⟩
  refine ⟨d₁, d₂, (d₁.locate? 2).getD (.top d₁.content), (d₂.locate? 2).getD (.top d₂.content), ?_⟩
  decide +kernel

end Mode

end CanonicalXml
