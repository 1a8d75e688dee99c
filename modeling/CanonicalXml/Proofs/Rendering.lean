import CanonicalXml.Proofs.InScope

/-! # What one start tag renders

A prefix is *settled* on a start tag when its binding there is compared with what is rendered
and, if the two differ, declared.  All prefixes are settled by the inclusive algorithm, and the
utilized ones by the exclusive algorithm.

* `mem_pending`, `mem_pendingFor` — the declarations, each by its rule.
* `shown_settled` — after a start tag a settled prefix shows what is visible of it there.

What counts as rendered is compared as `shown`, where an empty default is no namespace.
-/

namespace CanonicalXml.NamespaceAxis

/-- The namespace that the written tags show for a prefix. -/
def shown (axis : NamespaceAxis) (p : String) : Option String :=
  (axis.rendered.get? p).filter (· ≠ "")

/-- The namespace that a prefix stands for, if its namespace node is visible. -/
def seen (axis : NamespaceAxis) (visible : String → Bool) (p : String) : Option String :=
  (axis.inScope.get? p).filter fun _ => visible p

/-- Nothing in scope is bound to the empty URI. -/
def Bound (axis : NamespaceAxis) : Prop :=
  ∀ p, axis.inScope.get? p ≠ some ""

theorem InScopeAt.bound {chain : List Ancestor} {axis : NamespaceAxis}
    (agrees : InScopeAt chain axis) : axis.Bound := by
  intro p
  rw [agrees]
  exact Ancestor.inScope?_ne_empty chain p

variable {axis : NamespaceAxis} {visible : String → Bool} {force : Bool} {p u : String}

theorem seen_eq_some : axis.seen visible p = some u ↔
    axis.inScope.get? p = some u ∧ visible p = true :=
  Option.filter_eq_some_iff

theorem seen_ne_empty (bound : axis.Bound) : axis.seen visible p ≠ some "" :=
  fun h => bound p (seen_eq_some.mp h).1

theorem shown_eq_some : axis.shown p = some u ↔ axis.rendered.get? p = some u ∧ u ≠ "" := by
  simp only [shown]
  rw [Option.filter_eq_some_iff, decide_eq_true_eq]

theorem hasRenderedDefault_iff : axis.hasRenderedDefault = true ↔ axis.shown "" ≠ none := by
  simp only [hasRenderedDefault, shown]
  cases axis.rendered.get? "" with
  | none => simp
  | some uri => by_cases empty : uri = "" <;> simp [empty]

theorem shown_of_rendered {before after : NamespaceAxis}
    (same : after.rendered.get? p = before.rendered.get? p) : after.shown p = before.shown p := by
  simp only [shown]
  rw [same]

@[simp] theorem shown_enter (axis : NamespaceAxis) (declarations : List Binding) (p : String) :
    (axis.enter declarations).shown p = axis.shown p :=
  shown_of_rendered (by rw [rendered_enter])

/-! ## The rule for one prefix -/

/-- What is due is what is seen and not shown, or that nothing is seen any more. -/
theorem due?_eq_some (bound : axis.Bound) : axis.due? visible force p = some u ↔
    (axis.seen visible p = some u ∧ axis.shown p ≠ some u) ∨
      (p = "" ∧ u = "" ∧ axis.seen visible p = none ∧
        (force = true ∨ axis.shown p ≠ none)) := by
  have inSight : ((axis.inScope.get? p).filter fun _ => visible p) = axis.seen visible p := rfl
  simp only [due?]
  rw [inSight]
  cases sees : axis.seen visible p with
  | some uri =>
    -- What is seen is not empty, so that rendered and shown are the same.
    have nonempty : uri ≠ "" := fun h => seen_ne_empty bound (h ▸ sees)
    have same : axis.shown p = some uri ↔ axis.rendered.get? p = some uri :=
      shown_eq_some.trans (and_iff_left nonempty)
    dsimp only
    constructor
    · intro due
      split at due
      · contradiction
      · rename_i notRendered
        cases due
        exact .inl ⟨rfl, fun h => notRendered (same.mp h)⟩
    · rintro (⟨eq, notShown⟩ | ⟨rfl, -, unseen, -⟩)
      · cases eq
        exact if_neg fun h => notShown (same.mpr h)
      · contradiction
  | none =>
    dsimp only
    constructor
    · intro due
      split at due
      · rename_i undeclares
        rw [Bool.and_eq_true, Bool.or_eq_true, hasRenderedDefault_iff,
          String.isEmpty_iff] at undeclares
        cases due
        obtain ⟨rfl, why⟩ := undeclares
        exact .inr ⟨rfl, rfl, rfl, why⟩
      · contradiction
    · rintro (⟨eq, -⟩ | ⟨rfl, rfl, -, why⟩)
      · contradiction
      · rw [if_pos]
        rw [Bool.and_eq_true, Bool.or_eq_true, hasRenderedDefault_iff]
        exact ⟨rfl, why⟩

/-- Only the default prefix and those in scope can be due. -/
theorem mem_prefixes_of_due (due : axis.due? visible force p = some u) :
    p = "" ∨ p ∈ axis.inScope.prefixes := by
  by_cases default : p = ""
  · exact .inl default
  · right
    cases bound : axis.inScope.get? p with
    | none =>
      simp only [due?] at due
      rw [bound] at due
      simp [default] at due
    | some uri =>
      exact List.mem_map.mpr ⟨⟨p, uri⟩, PrefixMap.get?_eq_some_iff.mp bound, rfl⟩

/-! ## The declarations of a tag -/

theorem mem_pending : (⟨p, u⟩ : Binding) ∈ axis.pending visible ↔
    axis.due? visible false p = some u := by
  simp only [pending]
  rw [← PrefixMap.get?_eq_some_iff, PrefixMap.get?_ofPrefixes]
  constructor
  · intro h
    split at h
    · exact h
    · contradiction
  · intro due
    rw [if_pos (List.mem_cons.mpr (mem_prefixes_of_due due))]
    exact due

theorem mem_pendingFor {utilized : List String} :
    (⟨p, u⟩ : Binding) ∈ axis.pendingFor utilized visible force ↔
      p ∈ utilized ∧ p ≠ xmlPrefix ∧ axis.due? visible force p = some u := by
  have candidate : p ∈ utilized.filter (· ≠ xmlPrefix) ↔ p ∈ utilized ∧ p ≠ xmlPrefix := by
    rw [List.mem_filter, decide_eq_true_eq]
  simp only [pendingFor]
  rw [← PrefixMap.get?_eq_some_iff, PrefixMap.get?_ofPrefixes, ← and_assoc, ← candidate]
  constructor
  · intro h
    split at h
    · exact ⟨‹_›, h⟩
    · contradiction
  · rintro ⟨member, due⟩
    rw [if_pos member]
    exact due

/-- The declarations stand in the order of their prefixes. -/
theorem sorted_pending : (axis.pending visible).Pairwise (·.nsPrefix < ·.nsPrefix) :=
  (PrefixMap.ofPrefixes _ _).sorted

theorem sorted_pendingFor {utilized : List String} :
    (axis.pendingFor utilized visible force).Pairwise (·.nsPrefix < ·.nsPrefix) :=
  (PrefixMap.ofPrefixes _ _).sorted

/-! ## What counts as rendered afterwards -/

@[simp] theorem inScope_setRendered (axis : NamespaceAxis) (p : String) (uri? : Option String) :
    (axis.setRendered p uri?).inScope = axis.inScope :=
  inScope_record axis _

theorem rendered_setRendered (axis : NamespaceAxis) (p q : String) (uri? : Option String) :
    (axis.setRendered p uri?).rendered.get? q =
      if p = q then uri? else axis.rendered.get? q :=
  PrefixMap.get?_set _ _ _ _

/-- Declarations with different prefixes: each of them counts as rendered. -/
theorem rendered_markRendered (axis : NamespaceAxis) {declarations : List Binding}
    (sorted : declarations.Pairwise (·.nsPrefix < ·.nsPrefix)) (p : String) :
    (axis.markRendered declarations).rendered.get? p =
      ((declarations.find? (·.nsPrefix = p)).map (·.uri)).or (axis.rendered.get? p) := by
  simp only [markRendered]
  induction declarations generalizing axis with
  | nil => rfl
  | cons b declarations ih =>
    obtain ⟨first, rest⟩ := List.pairwise_cons.mp sorted
    rw [List.foldl_cons, ih _ rest, rendered_setRendered]
    by_cases same : b.nsPrefix = p
    · -- The prefixes that follow are greater, and thus different.
      have absent : declarations.find? (·.nsPrefix = p) = none := by
        rw [List.find?_eq_none]
        intro c member equal
        rw [decide_eq_true_eq] at equal
        have less := first c member
        rw [same, equal] at less
        exact String.lt_irrefl p less
      rw [absent, if_pos same]
      simp [same]
    · rw [if_neg same]
      simp [same]

/-- A settled prefix shows what is seen of it, if something is seen or it is the default. -/
theorem shown_markRendered (bound : axis.Bound) {declarations : List Binding}
    (sorted : declarations.Pairwise (·.nsPrefix < ·.nsPrefix))
    (settled : ∀ u, (⟨p, u⟩ : Binding) ∈ declarations ↔ axis.due? visible force p = some u) :
    (axis.markRendered declarations).shown p =
      if p = "" ∨ axis.seen visible p ≠ none then axis.seen visible p else axis.shown p := by
  have declared : (declarations.find? (·.nsPrefix = p)).map (·.uri) =
      axis.due? visible force p := by
    apply Option.ext
    intro u
    rw [← settled u]
    exact PrefixMap.get?_eq_some_iff (m := ⟨declarations, sorted⟩)
  have after : (axis.markRendered declarations).shown p =
      ((axis.due? visible force p).or (axis.rendered.get? p)).filter (· ≠ "") := by
    simp only [shown]
    rw [rendered_markRendered axis sorted, declared]
  rw [after]
  cases due : axis.due? visible force p with
  | some u =>
    -- It is declared, and shows what it is declared to be.
    rcases (due?_eq_some bound).mp due with ⟨sees, -⟩ | ⟨rfl, rfl, unseen, -⟩
    · have nonempty : u ≠ "" := fun h => seen_ne_empty bound (h ▸ sees)
      simp [sees, nonempty]
    · simp [unseen]
  | none =>
    -- It is not, since it shows already what is seen.
    have notDue : ∀ u, axis.due? visible force p ≠ some u := by
      rw [due]
      exact fun u => nofun
    simp only [ne_eq, due?_eq_some bound] at notDue
    show axis.shown p = _
    cases sees : axis.seen visible p with
    | some u =>
      rw [if_pos (.inr nofun)]
      exact Decidable.byContradiction fun h => notDue u (.inl ⟨sees, h⟩)
    | none =>
      split
      · rename_i default
        obtain rfl := default.resolve_right (fun h => h rfl)
        exact Decidable.byContradiction fun h => notDue "" (.inr ⟨rfl, rfl, sees, .inr h⟩)
      · rfl

theorem rendered_forget (axis : NamespaceAxis) (prefixes : List String) (p : String) :
    (axis.forget prefixes visible).rendered.get? p =
      if p ∈ prefixes ∧ p ≠ "" ∧ p ≠ xmlPrefix ∧ visible p = false then none
      else axis.rendered.get? p := by
  -- The induction is over the prefixes after the filter, whichever these are.
  have general : ∀ (ps : List String) (axis : NamespaceAxis),
      (ps.foldl (·.setRendered · none) axis).rendered.get? p =
        if p ∈ ps then none else axis.rendered.get? p := by
    intro ps
    induction ps with
    | nil => intro axis; rfl
    | cons q ps ih =>
      intro axis
      rw [List.foldl_cons, ih, rendered_setRendered]
      by_cases member : p ∈ ps
      · simp [member]
      · by_cases same : q = p
        · simp [same]
        · simp [member, same, Ne.symm same]
  simp only [forget]
  rw [general]
  simp [List.mem_filter, and_assoc]

theorem inScope_foldl_setRendered {α : Type} (change : α → String × Option String)
    (xs : List α) (axis : NamespaceAxis) :
    (xs.foldl (fun axis x => axis.setRendered (change x).1 (change x).2) axis).inScope =
      axis.inScope := by
  induction xs generalizing axis with
  | nil => rfl
  | cons x xs ih => rw [List.foldl_cons, ih, inScope_setRendered]

@[simp] theorem inScope_markRendered (axis : NamespaceAxis) (declarations : List Binding) :
    (axis.markRendered declarations).inScope = axis.inScope :=
  inScope_foldl_setRendered (fun b : Binding => (b.nsPrefix, some b.uri)) declarations axis

@[simp] theorem inScope_forget (axis : NamespaceAxis) (prefixes : List String) :
    (axis.forget prefixes visible).inScope = axis.inScope :=
  inScope_foldl_setRendered (fun p : String => (p, none)) _ axis

/-- A prefix that is not pruned shows what it showed before. -/
theorem shown_pruned {prune : Bool} {prefixes : List String}
    (kept : ¬(p ∈ prefixes ∧ p ≠ "" ∧ p ≠ xmlPrefix ∧ visible p = false)) :
    (if prune then axis.forget prefixes visible else axis).shown p = axis.shown p := by
  cases prune with
  | false => rfl
  | true => exact shown_of_rendered ((rendered_forget _ _ _).trans (if_neg kept))

/-- A prefix that is neither declared nor pruned shows what it showed before. -/
theorem shown_unsettled {declarations : List Binding}
    (sorted : declarations.Pairwise (·.nsPrefix < ·.nsPrefix))
    (absent : ∀ u, (⟨p, u⟩ : Binding) ∉ declarations) {prune : Bool} {prefixes : List String}
    (kept : p ∈ prefixes → p = xmlPrefix) :
    (if prune then (axis.markRendered declarations).forget prefixes visible
      else axis.markRendered declarations).shown p = axis.shown p := by
  have undeclared : declarations.find? (·.nsPrefix = p) = none := by
    rw [List.find?_eq_none]
    rintro ⟨q, u⟩ member same
    exact absent u (of_decide_eq_true same ▸ member)
  have marked : (axis.markRendered declarations).rendered.get? p = axis.rendered.get? p := by
    rw [rendered_markRendered axis sorted, undeclared]
    rfl
  refine (shown_pruned ?_).trans (shown_of_rendered marked)
  rintro ⟨member, -, notXml, -⟩
  exact notXml (kept member)

/-- After a start tag a settled prefix shows what is seen of it there.  Hidden prefixes have to
be pruned, if there are any, and a prefix that shows something has to be in scope. -/
theorem shown_settled (bound : axis.Bound) {declarations : List Binding}
    (sorted : declarations.Pairwise (·.nsPrefix < ·.nsPrefix))
    (settled : ∀ u, (⟨p, u⟩ : Binding) ∈ declarations ↔ axis.due? visible force p = some u)
    (named : p ≠ "" → axis.shown p ≠ none → axis.inScope.get? p ≠ none) (notXml : p ≠ xmlPrefix)
    {prune : Bool} {prefixes : List String} (free : prune = false → visible p = true)
    (pruned : (axis.markRendered declarations).rendered.get? p ≠ none → p ∈ prefixes) :
    (if prune then (axis.markRendered declarations).forget prefixes visible
      else axis.markRendered declarations).shown p = axis.seen visible p := by
  have marked := shown_markRendered bound sorted settled
  by_cases settledThere : p = "" ∨ axis.seen visible p ≠ none
  · -- What is seen, and the default, are never pruned.
    rw [if_pos settledThere] at marked
    rw [← marked]
    refine shown_pruned ?_
    rintro ⟨-, nonempty, -, hidden⟩
    obtain ⟨u, sees⟩ := Option.ne_none_iff_exists'.mp (settledThere.resolve_left nonempty)
    rw [(seen_eq_some.mp sees).2] at hidden
    contradiction
  · have nonempty : p ≠ "" := fun h => settledThere (.inl h)
    have unseen : axis.seen visible p = none :=
      Decidable.byContradiction fun h => settledThere (.inr h)
    rw [if_neg settledThere] at marked
    rw [unseen]
    cases sight : visible p with
    | true =>
      -- It is visible but not bound, and then it showed nothing before.
      have unbound : axis.inScope.get? p = none := by
        simp only [seen] at unseen
        cases bound : axis.inScope.get? p with
        | none => rfl
        | some u => simp [bound, sight] at unseen
      have notShown : axis.shown p = none :=
        Decidable.byContradiction fun h => named nonempty h unbound
      rw [notShown] at marked
      exact (shown_pruned (by simp [sight])).trans marked
    | false =>
      -- It is hidden, and pruned if it counts as rendered at all.
      cases prune with
      | false => exact absurd (free rfl) (by simp [sight])
      | true =>
        have gone : ((axis.markRendered declarations).forget prefixes visible).rendered.get? p =
            none := by
          rw [rendered_forget]
          by_cases member : p ∈ prefixes
          · exact if_pos ⟨member, nonempty, notXml, sight⟩
          · rw [if_neg fun h => member h.1]
            exact Decidable.byContradiction fun h => member (pruned h)
        unfold shown
        rw [if_pos rfl, gone]
        rfl

end CanonicalXml.NamespaceAxis
