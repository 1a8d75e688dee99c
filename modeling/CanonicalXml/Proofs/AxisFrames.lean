import CanonicalXml.NamespaceAxis

/-! # Leaving an element

Every change of the namespace axis is recorded in the innermost frame, and leaving an element
takes the recorded changes back.  So `leave` undoes `enter` together with whatever was rendered
in between.

* `leave_enter` — entering an element and leaving it at once changes nothing.
* `leave_renderInclusive`, `leave_renderExclusive` — what rendering records, leaving takes
  back.
-/

namespace CanonicalXml

/-- Putting back what a prefix was bound to. -/
theorem PrefixMap.set_get? (m : PrefixMap) (p : String) (uri? : Option String) :
    (m.set p uri?).set p (m.get? p) = m := by
  apply PrefixMap.ext
  intro q
  rw [get?_set, get?_set]
  by_cases h : p = q
  · rw [if_pos h, h]
  · rw [if_neg h, if_neg h]

namespace NamespaceAxis

/-! ## Undoing changes -/

theorem undo_frames (axis : NamespaceAxis) (frames : List (List AxisChange))
    (change : AxisChange) :
    undo { axis with frames := frames } change = { undo axis change with frames := frames } := by
  cases change with
  | inScope p before => rfl
  | rendered p before => rfl

theorem foldl_undo_frames (axis : NamespaceAxis) (frames : List (List AxisChange))
    (changes : List AxisChange) :
    changes.foldl undo { axis with frames := frames } =
      { changes.foldl undo axis with frames := frames } := by
  induction changes generalizing axis with
  | nil => rfl
  | cons change changes ih =>
    rw [List.foldl_cons, List.foldl_cons, undo_frames, ih]

/-- A recorded change that its undoing takes back is not seen after leaving. -/
theorem leave_of_undo {axis changed : NamespaceAxis} {change : AxisChange}
    {frame : List AxisChange} {frames : List (List AxisChange)}
    (before : axis.frames = frame :: frames)
    (after : changed.frames = (change :: frame) :: frames)
    (back : undo changed change = { axis with frames := changed.frames }) :
    changed.leave = axis.leave := by
  simp only [leave]
  rw [before, after]
  dsimp only
  rw [List.foldl_cons, back, foldl_undo_frames]

theorem leave_setRendered {axis : NamespaceAxis} (opened : axis.frames ≠ []) (p : String)
    (uri? : Option String) : (axis.setRendered p uri?).leave = axis.leave := by
  obtain ⟨inScope, rendered, frames⟩ := axis
  cases frames with
  | nil => exact absurd rfl opened
  | cons frame frames =>
    refine leave_of_undo rfl rfl ?_
    simp only [setRendered, record, undo, PrefixMap.set_get?]

theorem leave_declare {axis : NamespaceAxis} (opened : axis.frames ≠ []) (b : Binding) :
    (axis.declare b).leave = axis.leave := by
  obtain ⟨inScope, rendered, frames⟩ := axis
  simp only [declare]
  split
  · rfl
  · cases frames with
    | nil => exact absurd rfl opened
    | cons frame frames =>
      refine leave_of_undo rfl rfl ?_
      simp only [record, undo, PrefixMap.set_get?]

/-! ## Open elements -/

@[simp] theorem length_frames_record (axis : NamespaceAxis) (change : AxisChange) :
    (axis.record change).frames.length = axis.frames.length := by
  obtain ⟨inScope, rendered, frames⟩ := axis
  cases frames with
  | nil => rfl
  | cons frame frames => rfl

@[simp] theorem depth_setRendered (axis : NamespaceAxis) (p : String) (uri? : Option String) :
    (axis.setRendered p uri?).depth = axis.depth :=
  length_frames_record axis _

@[simp] theorem depth_declare (axis : NamespaceAxis) (b : Binding) :
    (axis.declare b).depth = axis.depth := by
  simp only [declare]
  split
  · rfl
  · exact length_frames_record axis _

@[simp] theorem depth_foldl_declare (axis : NamespaceAxis) (bs : List Binding) :
    (bs.foldl declare axis).depth = axis.depth := by
  induction bs generalizing axis with
  | nil => rfl
  | cons b bs ih => rw [List.foldl_cons, ih, depth_declare]

/-- Entering an element opens one more. -/
@[simp] theorem depth_enter (axis : NamespaceAxis) (declarations : List Binding) :
    (axis.enter declarations).depth = axis.depth + 1 := by
  simp only [enter]
  rw [depth_foldl_declare]
  rfl

theorem frames_ne_nil {axis : NamespaceAxis} : axis.frames ≠ [] ↔ 0 < axis.depth :=
  List.length_pos_iff.symm

theorem frames_enter_ne_nil (axis : NamespaceAxis) (declarations : List Binding) :
    (axis.enter declarations).frames ≠ [] := by
  rw [frames_ne_nil, depth_enter]
  exact Nat.succ_pos _

/-! ## Leaving -/

theorem leave_foldl_declare {axis : NamespaceAxis} (opened : axis.frames ≠ [])
    (bs : List Binding) : (bs.foldl declare axis).leave = axis.leave := by
  induction bs generalizing axis with
  | nil => rfl
  | cons b bs ih =>
    have opened' : (axis.declare b).frames ≠ [] := by
      rw [frames_ne_nil, depth_declare]
      exact frames_ne_nil.mp opened
    rw [List.foldl_cons, ih opened', leave_declare opened]

/-- An element that is left at once leaves no trace. -/
@[simp] theorem leave_enter (axis : NamespaceAxis) (declarations : List Binding) :
    (axis.enter declarations).leave = axis := by
  simp only [enter]
  rw [leave_foldl_declare (List.cons_ne_nil _ _)]
  rfl

/-- Changes of what is rendered, one after the other. -/
theorem foldl_setRendered {α : Type} (change : α → String × Option String) (xs : List α)
    {axis : NamespaceAxis} (opened : axis.frames ≠ []) :
    let changed := xs.foldl (fun axis x => axis.setRendered (change x).1 (change x).2) axis
    changed.leave = axis.leave ∧ changed.depth = axis.depth := by
  induction xs generalizing axis with
  | nil => exact ⟨rfl, rfl⟩
  | cons x xs ih =>
    have opened' : (axis.setRendered (change x).1 (change x).2).frames ≠ [] := by
      rw [frames_ne_nil, depth_setRendered]
      exact frames_ne_nil.mp opened
    obtain ⟨leaves, depths⟩ := ih opened'
    exact ⟨leaves.trans (leave_setRendered opened _ _), depths.trans (depth_setRendered _ _ _)⟩

theorem leave_markRendered {axis : NamespaceAxis} (opened : axis.frames ≠ [])
    (declarations : List Binding) :
    (axis.markRendered declarations).leave = axis.leave ∧
      (axis.markRendered declarations).depth = axis.depth :=
  foldl_setRendered (fun b : Binding => (b.nsPrefix, some b.uri)) declarations opened

theorem leave_forget {axis : NamespaceAxis} (opened : axis.frames ≠ []) (prefixes : List String)
    (visible : String → Bool) :
    (axis.forget prefixes visible).leave = axis.leave ∧
      (axis.forget prefixes visible).depth = axis.depth :=
  foldl_setRendered (fun p : String => (p, none)) _ opened

theorem leave_pruned {axis : NamespaceAxis} (opened : axis.frames ≠ [])
    (declarations : List Binding) (prefixes : List String) (visible : String → Bool)
    (prune : Bool) :
    let after := if prune then (axis.markRendered declarations).forget prefixes visible
      else axis.markRendered declarations
    after.leave = axis.leave ∧ after.depth = axis.depth := by
  have marked := leave_markRendered opened declarations
  cases prune with
  | false => exact marked
  | true =>
    have opened' : (axis.markRendered declarations).frames ≠ [] := by
      rw [frames_ne_nil, marked.2]
      exact frames_ne_nil.mp opened
    have forgot := leave_forget opened' prefixes visible
    exact ⟨forgot.1.trans marked.1, forgot.2.trans marked.2⟩

theorem leave_renderInclusive {axis : NamespaceAxis} (opened : axis.frames ≠ [])
    (visible : String → Bool) (prune : Bool) :
    (axis.renderInclusive visible prune).2.leave = axis.leave ∧
      (axis.renderInclusive visible prune).2.depth = axis.depth :=
  leave_pruned opened _ _ visible prune

theorem leave_renderExclusive {axis : NamespaceAxis} (opened : axis.frames ≠ [])
    (utilized : List String) (visible : String → Bool) (force prune : Bool) :
    (axis.renderExclusive utilized visible force prune).2.leave = axis.leave ∧
      (axis.renderExclusive utilized visible force prune).2.depth = axis.depth :=
  leave_pruned opened _ _ visible prune

end NamespaceAxis

end CanonicalXml
