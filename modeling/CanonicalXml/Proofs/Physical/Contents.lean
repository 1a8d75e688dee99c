import CanonicalXml.Proofs.Physical.Scripts

/-! # Content that is read again

What is read of the physical form of some content has the elements and the remarks of that content
in their order. Texts in a row have become one, and text outside of the document element is gone.

* `Content.Reread` — content, and what is read of its physical form.
* `Physical.Scripts.reread` — this is what a reader makes of the script.
* `Content.Reread.elements` — the elements of the one are kept in the other.
-/

namespace CanonicalXml

namespace Content

/-- Content inside of the scope `outer` with some text before it, and what is read of both inside of
the scope `outer'`. -/
inductive Reread : Bool → Scope → Scope → String → Content → Content → Prop where
  | nil {top : Bool} {outer outer' : Scope} {value : String} :
      Reread top outer outer' value .nil (Form.before value .nil)
  | skipped {outer outer' : Scope} {value more : String} {next next' : Content}
      (later : Reread true outer outer' value next next') :
      Reread true outer outer' value (.leaf (.text more) next) next'
  | text {outer outer' : Scope} {value more : String} {next next' : Content}
      (later : Reread false outer outer' (value ++ more) next next') :
      Reread false outer outer' value (.leaf (.text more) next) next'
  | remark {top : Bool} {outer outer' : Scope} {value : String} {l : Leaf} {next next' : Content}
      (notText : l.kind ≠ .text) (later : Reread top outer outer' "" next next') :
      Reread top outer outer' value (.leaf l next) (Form.before value (.leaf l.escaped next'))
  | element {top : Bool} {outer outer' : Scope} {value : String} {e e' : Element}
      {inner inner' next next' : Content} (kept : e.Kept outer outer' e')
      (inside : Reread false e.scope e'.scope "" inner inner')
      (later : Reread top outer outer' "" next next') :
      Reread top outer outer' value (.element e inner next)
        (Form.before value (.element e' inner' next'))

end Content

/-- What a reader makes of the script of some content. -/
theorem Physical.Scripts.reread {top : Bool} {outer : Scope} {c : Content} {s : Script}
    (scripts : Scripts top outer c s) : ∀ {around : Scope} (value : String),
    (∀ p, around.uri? p = outer.uri? p) →
    c.Reread top outer around value (s.tree around value) := by
  induction scripts with
  | nil => exact fun _ _ => .nil
  | skipped later ih => exact fun value same => .skipped (ih value same)
  | text admitted later ih => exact fun value same => .text (ih _ same)
  | remark remarks later ih =>
    intro around value same
    rw [Script.tree, remarks.reads]
    exact .remark remarks.notText (ih "" same)
  | element rewritable inside later ihInside ihLater =>
    intro around value same
    have kept := rewritable.stems.kept rewritable.sound rewritable.admitted rewritable.restorable
      same
    exact .element kept (ihInside "" kept.scope) (ihLater "" same)

namespace Content.Reread

variable {top : Bool} {outer outer' : Scope} {value : String} {c c' : Content}

theorem hasElement_before (value : String) (c : Content) :
    (Form.before value c).hasElement = c.hasElement := by
  rw [Form.before]
  split
  · rfl
  · exact hasElement_leaf _ _

theorem hasElement_eq (reread : c.Reread top outer outer' value c') :
    c'.hasElement = c.hasElement := by
  induction reread with
  | nil => exact hasElement_before _ _
  | skipped later ih => exact ih.trans (hasElement_leaf _ _).symm
  | text later ih => exact ih.trans (hasElement_leaf _ _).symm
  | remark notText later ih =>
    rw [hasElement_before, hasElement_leaf, hasElement_leaf, ih]
  | element kept inside later _ _ => exact hasElement_before _ _

/-- Nothing is added but the text before. -/
theorem size_le (reread : c.Reread top outer outer' value c') :
    c'.size ≤ (Form.before value .nil).size + c.size := by
  induction reread with
  | nil => exact Nat.le_add_right _ _
  | skipped later ih =>
    rw [Content.size]
    omega
  | @text _ _ value more next _ later ih =>
    have merged : (Form.before (value ++ more) .nil).size ≤ 1 := by
      rw [Form.before]
      split
      · exact Nat.zero_le 1
      · exact Nat.le_refl 1
    rw [Content.size]
    omega
  | @remark _ _ _ value l next next' notText later ih =>
    have after : next'.size ≤ 0 + next.size := ih
    rw [Reading.size_before, Content.size, Content.size]
    omega
  | @element _ _ _ value e e' inner inner' next next' kept inside later ihInside ihLater =>
    have within : inner'.size ≤ 0 + inner.size := ihInside
    have after : next'.size ≤ 0 + next.size := ihLater
    rw [Reading.size_before, Content.size, Content.size]
    omega

/-! ## Elements -/

end Content.Reread

/-- An element stands at both places, and it is the same one. -/
def Location.Keeps (loc loc' : Location) : Prop :=
  ∃ e e', loc.element? = some e ∧ loc'.element? = some e' ∧
    e.Kept loc.outerScope loc'.outerScope e'

namespace Content.Reread

/-- The places of elements among some places. -/
abbrev elementsOf (places : List Location) : List Location :=
  places.filter (·.element?.isSome)

/-- Some text before has no elements. -/
theorem elementsOf_before {R : List Location → Prop} {ancestors : List Ancestor} (value : String)
    {c : Content}
    (holds : ∀ number before, R (elementsOf (Location.allFrom number ancestors before c))) :
    ∀ number before,
      R (elementsOf (Location.allFrom number ancestors before (Form.before value c))) := by
  intro number before
  rw [Form.before]
  split
  · exact holds number before
  · exact holds (number + 1) (.text :: before)

/-- The elements are found again in their order. -/
theorem elements {top : Bool} {outer outer' : Scope} {value : String} {c c' : Content}
    (reread : c.Reread top outer outer' value c') :
    ∀ {number number' : Nat} {ancestors ancestors' : List Ancestor}
      {before before' : List NodeKind},
    Ancestor.scope ancestors = outer → Ancestor.scope ancestors' = outer' →
    List.Forall₂ Location.Keeps (elementsOf (Location.allFrom number ancestors before c))
      (elementsOf (Location.allFrom number' ancestors' before' c')) := by
  induction reread with
  | nil =>
    intro number number' ancestors ancestors' before before' _ _
    exact elementsOf_before _ (fun _ _ => .nil) number' before'
  | skipped later ih => exact fun around around' => ih around around'
  | text later ih => exact fun around around' => ih around around'
  | remark notText later ih =>
    intro number number' ancestors ancestors' before before' around around'
    refine elementsOf_before _ (fun number' before' => ?_) number' before'
    exact ih around around'
  | @element _ _ _ _ e e' inner inner' next next' kept inside later ihInside ihLater =>
    intro number number' ancestors ancestors' before before' around around'
    refine elementsOf_before _ (fun number' before' => ?_) number' before'
    have here : Location.Keeps ⟨number, ancestors, before, .element e inner next⟩
        ⟨number', ancestors', before', .element e' inner' next'⟩ := by
      refine ⟨e, e', rfl, rfl, ?_⟩
      rw [Location.outerScope, Location.outerScope, around, around']
      exact kept
    -- The element comes first, then those inside of it, then the later ones.
    simp only [elementsOf, Location.allFrom]
    rw [List.filter_cons_of_pos (by rfl), List.filter_cons_of_pos (by rfl), List.filter_append,
      List.filter_append]
    exact .cons here (List.rel_append (ihInside rfl rfl) (ihLater around around'))

end Content.Reread

end CanonicalXml
