import CanonicalXml.Proofs.AxisFrames
import CanonicalXml.Proofs.Rendering

/-! # The namespace axis as a stack of copies

The axis keeps one map of each kind and records how to undo its changes.  `Copies` is what it
saves the cost of: a stack with one complete copy of both maps for every open element, where
entering an element copies and leaving it drops.

* `Action`, `answers` — anything that can be asked of either of them, in any order.
* `copies` — the stack that an axis stands for; `copies_perform` — every action keeps the two
  together, and `answers_copies` — so they answer alike.
* `after_element` — whatever is done inside an element, leaving it brings the axis back.
-/

namespace CanonicalXml

/-- The map without the prefixes that satisfy `dropped`. -/
def PrefixMap.without (m : PrefixMap) (dropped : String → Bool) : PrefixMap :=
  ⟨m.bindings.filter (! dropped ·.nsPrefix), m.sorted.filter _⟩

@[simp] theorem PrefixMap.get?_without (m : PrefixMap) (dropped : String → Bool) (p : String) :
    (m.without dropped).get? p = if dropped p then none else m.get? p := by
  unfold get? without
  rw [List.find?_filter]
  cases drops : dropped p with
  | true =>
    rw [if_pos rfl, List.find?_eq_none.mpr, Option.map_none]
    intro b _ found
    simp only [Bool.not_eq_true', decide_eq_true_eq] at found
    rw [found.2, drops] at found
    exact Bool.noConfusion found.1
  | false =>
    rw [if_neg Bool.false_ne_true]
    congr 2
    funext b
    by_cases same : b.nsPrefix = p
    · simp [same, drops]
    · simp [same]

namespace NamespaceAxis

/-! ## The stack -/

/-- A copy of both maps. -/
structure View where
  inScope : PrefixMap
  rendered : PrefixMap

namespace View

def declare (v : View) (b : Binding) : View :=
  if b.nsPrefix = xmlPrefix then v
  else if b.uri = "" then { v with inScope := v.inScope.erase b.nsPrefix }
  else { v with inScope := v.inScope.insert b.nsPrefix b.uri }

def uri? (v : View) (p : String) : Option String :=
  if p = xmlPrefix then some xmlNamespace else v.inScope.get? p

/-- Whether there is no default namespace to be seen, though one may be rendered. -/
def lacksDefault (v : View) (visible : String → Bool) : Bool :=
  (v.inScope.get? "").isNone || !visible ""

def rendersDefault (v : View) : Bool :=
  (v.rendered.get? "").any (· ≠ "")

/-- The declarations to be made here of the prefixes that are considered: the bindings in scope
that are visible and not rendered like this, and before them that of the default namespace which
takes away a rendered one. -/
def due (v : View) (considered visible : String → Bool) (force : Bool) : List Binding :=
  (if considered "" && v.lacksDefault visible && (force || v.rendersDefault) then [⟨"", ""⟩]
    else []) ++
  v.inScope.bindings.filter fun b =>
    considered b.nsPrefix && visible b.nsPrefix && v.rendered.get? b.nsPrefix ≠ some b.uri

/-- The declarations count as rendered from now on, and the dropped prefixes do not. -/
def render (v : View) (declarations : List Binding) (dropped : String → Bool) : View :=
  { v with
    rendered :=
      (declarations.foldl (fun m b => m.insert b.nsPrefix b.uri) v.rendered).without dropped }

end View

/-- One copy of both maps for every open element, innermost first, and one for the outside. -/
structure Copies where
  top : View
  below : List View

/-- What can be done with an axis. -/
inductive Action where
  | enter (declarations : List Binding)
  | leave
  | lookUp (nsPrefix : String)
  | pending (visible : String → Bool)
  | renderInclusive (visible : String → Bool) (prune : Bool)
  | renderExclusive (utilized : List String) (visible : String → Bool) (force prune : Bool)

inductive Answer where
  | done
  | uri (uri? : Option String)
  | declarations (bs : List Binding)
deriving DecidableEq

def perform (axis : NamespaceAxis) : Action → NamespaceAxis × Answer
  | .enter declarations => (axis.enter declarations, .done)
  | .leave => (axis.leave, .done)
  | .lookUp p => (axis, .uri (axis.uri? p))
  | .pending visible => (axis, .declarations (axis.pending visible))
  | .renderInclusive visible prune =>
    let (declarations, after) := axis.renderInclusive visible prune
    (after, .declarations declarations)
  | .renderExclusive utilized visible force prune =>
    let (declarations, after) := axis.renderExclusive utilized visible force prune
    (after, .declarations declarations)

namespace Copies

def start : Copies :=
  ⟨⟨.empty, .single "" ""⟩, []⟩

def depth (c : Copies) : Nat :=
  c.below.length

def push (c : Copies) (declarations : List Binding) : Copies :=
  ⟨declarations.foldl View.declare c.top, c.top :: c.below⟩

/-- Drops the innermost copy, but never the one for the outside. -/
def pop (c : Copies) : Copies :=
  match c.below with
  | [] => c
  | v :: below => ⟨v, below⟩

def perform (c : Copies) : Action → Copies × Answer
  | .enter declarations => (c.push declarations, .done)
  | .leave => (c.pop, .done)
  | .lookUp p => (c, .uri (c.top.uri? p))
  | .pending visible => (c, .declarations (c.top.due (fun _ => true) visible false))
  | .renderInclusive visible prune =>
    let declarations := c.top.due (fun _ => true) visible false
    let dropped := fun p => prune && p ≠ "" && p ≠ xmlPrefix && !visible p
    ({ c with top := c.top.render declarations dropped }, .declarations declarations)
  | .renderExclusive utilized visible force prune =>
    let considered := fun p => utilized.contains p && p ≠ xmlPrefix
    let declarations := c.top.due considered visible force
    let dropped := fun p => prune && considered p && p ≠ "" && !visible p
    ({ c with top := c.top.render declarations dropped }, .declarations declarations)

end Copies

/-! ## Many actions -/

/-- What is left of an axis after the actions. -/
def after (axis : NamespaceAxis) (actions : List Action) : NamespaceAxis :=
  actions.foldl (fun axis action => (axis.perform action).1) axis

/-- The answer to each of the actions, with the number of elements open after it. -/
def answers (axis : NamespaceAxis) : List Action → List (Answer × Nat)
  | [] => []
  | action :: actions =>
    let (next, answer) := axis.perform action
    (answer, next.depth) :: next.answers actions

def Copies.after (c : Copies) (actions : List Action) : Copies :=
  actions.foldl (fun c action => (c.perform action).1) c

def Copies.answers (c : Copies) : List Action → List (Answer × Nat)
  | [] => []
  | action :: actions =>
    let (next, answer) := c.perform action
    (answer, next.depth) :: next.answers actions

/-- Whether the action neither enters an element nor leaves one. -/
def Action.stays : Action → Bool
  | .enter _ | .leave => false
  | _ => true

/-- Every element that is entered is left again, and no other. -/
inductive Balanced : List Action → Prop where
  | nil : Balanced []
  | here {action : Action} {later : List Action} (stays : action.stays = true)
      (rest : Balanced later) : Balanced (action :: later)
  | element (declarations : List Binding) {inside later : List Action}
      (inner : Balanced inside) (rest : Balanced later) :
      Balanced (.enter declarations :: inside ++ .leave :: later)

/-! ## The stack that an axis stands for -/

def view (axis : NamespaceAxis) : View :=
  ⟨axis.inScope, axis.rendered⟩

/-- What leaving shows, again and again. -/
def uncovered (axis : NamespaceAxis) : Nat → List View
  | 0 => []
  | n + 1 => axis.leave.view :: axis.leave.uncovered n

def copies (axis : NamespaceAxis) : Copies :=
  ⟨axis.view, axis.uncovered axis.depth⟩

theorem length_uncovered (n : Nat) : ∀ axis : NamespaceAxis, (axis.uncovered n).length = n := by
  induction n with
  | zero => exact fun _ => rfl
  | succ n ih => exact fun axis => congrArg (· + 1) (ih axis.leave)

theorem depth_copies (axis : NamespaceAxis) : axis.copies.depth = axis.depth :=
  length_uncovered _ axis

theorem depth_leave (axis : NamespaceAxis) : axis.leave.depth = axis.depth - 1 := by
  obtain ⟨inScope, rendered, frames⟩ := axis
  cases frames with
  | nil => rfl
  | cons frame frames => rfl

/-- Axes that leaving makes equal, and with as many elements open, have the same below. -/
theorem uncovered_congr {axis₁ axis₂ : NamespaceAxis} (leaves : axis₁.leave = axis₂.leave)
    (n : Nat) : axis₁.uncovered n = axis₂.uncovered n := by
  cases n with
  | zero => rfl
  | succ n =>
    simp only [uncovered]
    rw [leaves]

/-! ## Declarations -/

section Declarations

variable {axis : NamespaceAxis} {considered visible : String → Bool} {force : Bool}
  {p u : String}

theorem view_declare (axis : NamespaceAxis) (b : Binding) :
    (axis.declare b).view = axis.view.declare b := by
  simp only [declare, View.declare]
  split
  · rfl
  · simp only [view, rendered_record]
    by_cases empty : b.uri = ""
    · rw [if_pos empty, if_pos (String.isEmpty_iff.mpr empty)]
      rfl
    · rw [if_neg empty, if_neg fun h => empty (String.isEmpty_iff.mp h)]
      rfl

theorem view_foldl_declare (declarations : List Binding) : ∀ axis : NamespaceAxis,
    (declarations.foldl declare axis).view = declarations.foldl View.declare axis.view := by
  induction declarations with
  | nil => exact fun _ => rfl
  | cons b declarations ih =>
    intro axis
    rw [List.foldl_cons, List.foldl_cons, ih, view_declare]

theorem rendersDefault_view (axis : NamespaceAxis) :
    axis.view.rendersDefault = axis.hasRenderedDefault := by
  simp only [View.rendersDefault, hasRenderedDefault, view]
  cases axis.rendered.get? "" with
  | none => rfl
  | some uri => rfl

theorem lacksDefault_view :
    axis.view.lacksDefault visible = true ↔ axis.seen visible "" = none := by
  simp only [View.lacksDefault, seen, view]
  cases axis.inScope.get? "" with
  | none => simp
  | some uri => simp

/-- The rule of the axis for one prefix, read as a rule on what is seen. -/
theorem due?_iff : axis.due? visible force p = some u ↔
    (axis.seen visible p = some u ∧ axis.rendered.get? p ≠ some u) ∨
      (p = "" ∧ u = "" ∧ axis.seen visible p = none ∧
        (force || axis.hasRenderedDefault) = true) := by
  have inSight : ((axis.inScope.get? p).filter fun _ => visible p) = axis.seen visible p := rfl
  simp only [due?]
  rw [inSight]
  cases axis.seen visible p with
  | some uri =>
    by_cases same : axis.rendered.get? p = some uri
    · simp +contextual [same]
    · simp only [if_neg same, Option.some.injEq, reduceCtorEq, false_and, and_false, or_false]
      exact ⟨fun is => ⟨is, is ▸ same⟩, And.left⟩
  | none =>
    by_cases default : p = ""
    · cases (force || axis.hasRenderedDefault) with
      | true => simp [default, @eq_comm _ "" u]
      | false => simp
    · have named : p.isEmpty = false := by simpa using default
      simp [default, named]

/-- The copy makes the declarations of which the rule of the axis says that they are due. -/
theorem mem_due : (⟨p, u⟩ : Binding) ∈ axis.view.due considered visible force ↔
    considered p = true ∧ axis.due? visible force p = some u := by
  have inScope : (⟨p, u⟩ : Binding) ∈ axis.view.inScope.bindings ↔ axis.inScope.get? p = some u :=
    PrefixMap.get?_eq_some_iff.symm
  have undeclared : ∀ c : Bool, (⟨p, u⟩ : Binding) ∈ (if c then [⟨"", ""⟩] else []) ↔
      c = true ∧ p = "" ∧ u = "" := by
    intro c
    cases c <;> simp
  rw [due?_iff, View.due, List.mem_append, List.mem_filter, undeclared, rendersDefault_view,
    inScope]
  simp only [Bool.and_eq_true, lacksDefault_view, seen_eq_some]
  constructor
  · rintro (⟨⟨⟨listed, unseen⟩, why⟩, rfl, rfl⟩ | ⟨bound, ⟨listed, sight⟩, differs⟩)
    · exact ⟨listed, .inr ⟨rfl, rfl, unseen, why⟩⟩
    · exact ⟨listed, .inl ⟨⟨bound, sight⟩, of_decide_eq_true differs⟩⟩
  · rintro ⟨listed, ⟨⟨bound, sight⟩, differs⟩ | ⟨rfl, rfl, unseen, why⟩⟩
    · exact .inr ⟨bound, ⟨listed, sight⟩, decide_eq_true differs⟩
    · exact .inl ⟨⟨⟨listed, unseen⟩, why⟩, rfl, rfl⟩

/-- The default prefix comes before all others. -/
theorem empty_lt {q : String} (named : q ≠ "") : "" < q := by
  refine PrefixMap.lt_of_not_lt_of_ne ?_ named
  intro before
  exact List.not_lt_nil _ before

theorem sorted_due (v : View) (considered visible : String → Bool) (force : Bool) :
    (v.due considered visible force).Pairwise (·.nsPrefix < ·.nsPrefix) := by
  unfold View.due
  cases undeclares : considered "" && v.lacksDefault visible && (force || v.rendersDefault) with
  | false => exact v.inScope.sorted.filter _
  | true =>
    simp only [Bool.and_eq_true] at undeclares
    obtain ⟨⟨-, lacks⟩, -⟩ := undeclares
    refine List.pairwise_cons.mpr ⟨?_, v.inScope.sorted.filter _⟩
    rintro ⟨q, u⟩ member
    -- A binding of the default prefix would be one to be seen.
    refine empty_lt fun default => ?_
    dsimp only at default
    subst default
    obtain ⟨member, due⟩ := List.mem_filter.mp member
    simp only [Bool.and_eq_true] at due
    obtain ⟨⟨-, sight⟩, -⟩ := due
    simp only [View.lacksDefault] at lacks
    rw [PrefixMap.get?_eq_some_iff.mpr member, sight] at lacks
    exact Bool.noConfusion lacks

theorem pending_eq (axis : NamespaceAxis) (visible : String → Bool) :
    axis.pending visible = axis.view.due (fun _ => true) visible false := by
  refine PrefixMap.ext_list sorted_pending (sorted_due _ _ _ _) ?_
  rintro ⟨p, u⟩
  rw [mem_pending, mem_due, and_iff_right rfl]

theorem pendingFor_eq (axis : NamespaceAxis) (utilized : List String) (visible : String → Bool)
    (force : Bool) :
    axis.pendingFor utilized visible force =
      axis.view.due (fun p => utilized.contains p && p ≠ xmlPrefix) visible force := by
  refine PrefixMap.ext_list sorted_pendingFor (sorted_due _ _ _ _) ?_
  rintro ⟨p, u⟩
  rw [mem_pendingFor, mem_due, Bool.and_eq_true, decide_eq_true_eq, List.contains_iff_mem,
    and_assoc]

end Declarations

/-! ## Rendering -/

section Rendering

theorem rendered_foldl_insert (declarations : List Binding) : ∀ axis : NamespaceAxis,
    (axis.markRendered declarations).rendered =
      declarations.foldl (fun m b => m.insert b.nsPrefix b.uri) axis.rendered := by
  induction declarations with
  | nil => exact fun _ => rfl
  | cons b declarations ih => exact fun axis => ih (axis.setRendered b.nsPrefix (some b.uri))

/-- A start tag on the copy: its declarations count as rendered, and what is dropped, if hidden
prefixes are pruned, does not. -/
theorem view_pruned (axis : NamespaceAxis) (declarations : List Binding) (prefixes : List String)
    (visible dropped : String → Bool) (prune : Bool)
    (drops : ∀ p, (axis.markRendered declarations).rendered.get? p ≠ none →
      (dropped p = true ↔
        prune = true ∧ p ∈ prefixes ∧ p ≠ "" ∧ p ≠ xmlPrefix ∧ visible p = false)) :
    (if prune then (axis.markRendered declarations).forget prefixes visible
      else axis.markRendered declarations).view = axis.view.render declarations dropped := by
  have inScope : (if prune then (axis.markRendered declarations).forget prefixes visible
      else axis.markRendered declarations).inScope = axis.inScope := by
    cases prune with
    | false => exact inScope_markRendered axis declarations
    | true => exact (inScope_forget _ _).trans (inScope_markRendered axis declarations)
  unfold View.render view
  rw [inScope]
  congr 1
  dsimp only
  rw [← rendered_foldl_insert]
  apply PrefixMap.ext
  intro p
  rw [PrefixMap.get?_without]
  by_cases nothing : (axis.markRendered declarations).rendered.get? p = none
  · -- There is nothing to be dropped.
    cases prune with
    | false => simp [nothing]
    | true =>
      rw [if_pos rfl, rendered_forget]
      simp [nothing]
  · have dropsHere := drops p nothing
    cases prune with
    | false =>
      have kept : dropped p = false := by
        rw [← Bool.not_eq_true, dropsHere]
        exact fun h => Bool.noConfusion h.1
      rw [kept]
      rfl
    | true =>
      rw [if_pos rfl, rendered_forget]
      simp only [true_and] at dropsHere
      simp only [dropsHere]

theorem view_renderInclusive (axis : NamespaceAxis) (visible : String → Bool) (prune : Bool) :
    (axis.renderInclusive visible prune).2.view =
      axis.view.render (axis.pending visible)
        fun p => prune && p ≠ "" && p ≠ xmlPrefix && !visible p := by
  refine view_pruned axis _ _ visible _ prune fun p some => ?_
  -- All that is rendered is considered.
  have member : p ∈ (axis.markRendered (axis.pending visible)).rendered.prefixes := by
    obtain ⟨u, is⟩ := Option.ne_none_iff_exists'.mp some
    exact List.mem_map.mpr ⟨⟨p, u⟩, PrefixMap.get?_eq_some_iff.mp is, rfl⟩
  simp [member, and_assoc]

theorem view_renderExclusive (axis : NamespaceAxis) (utilized : List String)
    (visible : String → Bool) (force prune : Bool) :
    (axis.renderExclusive utilized visible force prune).2.view =
      axis.view.render (axis.pendingFor utilized visible force) fun p =>
        prune && (utilized.contains p && p ≠ xmlPrefix) && p ≠ "" && !visible p := by
  refine view_pruned axis _ _ visible _ prune fun p _ => ?_
  simp [and_assoc, and_left_comm]

end Rendering

/-! ## Action by action -/

/-- Rendering changes the innermost copy only. -/
theorem copies_rendered {axis rendered : NamespaceAxis}
    (opened : axis.frames ≠ [] → rendered.leave = axis.leave) (deep : rendered.depth = axis.depth) :
    rendered.copies = { axis.copies with top := rendered.view } := by
  unfold copies
  rw [deep]
  cases depth : axis.depth with
  | zero => rfl
  | succ n =>
    have leaves := opened (frames_ne_nil.mpr (depth ▸ Nat.succ_pos n))
    rw [uncovered_congr leaves]

theorem copies_enter (axis : NamespaceAxis) (declarations : List Binding) :
    (axis.enter declarations).copies = axis.copies.push declarations := by
  unfold copies Copies.push
  rw [depth_enter]
  simp only [uncovered, leave_enter]
  congr 1
  exact view_foldl_declare declarations _

theorem copies_leave (axis : NamespaceAxis) : axis.leave.copies = axis.copies.pop := by
  obtain ⟨inScope, rendered, frames⟩ := axis
  cases frames with
  | nil => rfl
  | cons frame frames =>
    unfold copies
    rw [depth_leave]
    rfl

/-- Rendering opens no element and closes none. -/
theorem depth_foldl_setRendered {α : Type} (change : α → String × Option String) (xs : List α) :
    ∀ axis : NamespaceAxis,
      (xs.foldl (fun axis x => axis.setRendered (change x).1 (change x).2) axis).depth =
        axis.depth := by
  induction xs with
  | nil => exact fun _ => rfl
  | cons x xs ih =>
    intro axis
    rw [List.foldl_cons, ih, depth_setRendered]

theorem depth_pruned (axis : NamespaceAxis) (declarations : List Binding)
    (prefixes : List String) (visible : String → Bool) (prune : Bool) :
    (if prune then (axis.markRendered declarations).forget prefixes visible
      else axis.markRendered declarations).depth = axis.depth := by
  have marked : (axis.markRendered declarations).depth = axis.depth :=
    depth_foldl_setRendered (fun b : Binding => (b.nsPrefix, some b.uri)) declarations axis
  cases prune with
  | false => exact marked
  | true => exact (depth_foldl_setRendered (fun p : String => (p, none)) _ _).trans marked

/-- One action, on an axis and on the stack that it stands for. -/
theorem copies_perform (axis : NamespaceAxis) (action : Action) :
    (axis.perform action).1.copies = (axis.copies.perform action).1 ∧
      (axis.perform action).2 = (axis.copies.perform action).2 := by
  cases action with
  | enter declarations => exact ⟨copies_enter axis declarations, rfl⟩
  | leave => exact ⟨copies_leave axis, rfl⟩
  | lookUp p => exact ⟨rfl, rfl⟩
  | pending visible => exact ⟨rfl, congrArg Answer.declarations (pending_eq axis visible)⟩
  | renderInclusive visible prune =>
    have same := pending_eq axis visible
    refine ⟨?_, congrArg Answer.declarations same⟩
    refine (copies_rendered (fun opened => (leave_renderInclusive opened visible prune).1)
      (depth_pruned _ _ _ _ _)).trans ?_
    rw [view_renderInclusive, same]
    rfl
  | renderExclusive utilized visible force prune =>
    have same := pendingFor_eq axis utilized visible force
    refine ⟨?_, congrArg Answer.declarations same⟩
    refine (copies_rendered
      (fun opened => (leave_renderExclusive opened utilized visible force prune).1)
      (depth_pruned _ _ _ _ _)).trans ?_
    rw [view_renderExclusive, same]
    rfl

/-! ## All actions -/

theorem copies_after (actions : List Action) : ∀ axis : NamespaceAxis,
    (axis.after actions).copies = axis.copies.after actions := by
  induction actions with
  | nil => exact fun _ => rfl
  | cons action actions ih =>
    intro axis
    simp only [after, Copies.after, List.foldl_cons] at ih ⊢
    rw [ih, (copies_perform axis action).1]

theorem answers_copies (actions : List Action) : ∀ axis : NamespaceAxis,
    axis.answers actions = axis.copies.answers actions := by
  induction actions with
  | nil => exact fun _ => rfl
  | cons action actions ih =>
    intro axis
    obtain ⟨next, answer⟩ := copies_perform axis action
    simp only [answers, Copies.answers]
    rw [← next, ← answer, depth_copies, ih]

/-! ## Leaving -/

/-- What neither enters nor leaves is taken back when the element is left. -/
theorem leave_perform {axis : NamespaceAxis} (opened : axis.frames ≠ []) {action : Action}
    (stays : action.stays = true) :
    (axis.perform action).1.leave = axis.leave ∧ (axis.perform action).1.depth = axis.depth := by
  cases action with
  | enter declarations => cases stays
  | leave => cases stays
  | lookUp p => exact ⟨rfl, rfl⟩
  | pending visible => exact ⟨rfl, rfl⟩
  | renderInclusive visible prune => exact leave_renderInclusive opened visible prune
  | renderExclusive utilized visible force prune =>
    exact leave_renderExclusive opened utilized visible force prune

theorem after_append (axis : NamespaceAxis) (earlier later : List Action) :
    axis.after (earlier ++ later) = (axis.after earlier).after later :=
  List.foldl_append

/-- A balanced sequence inside an element does not show after that has been left. -/
theorem leave_after {actions : List Action} (balanced : Balanced actions) :
    ∀ {axis : NamespaceAxis}, axis.frames ≠ [] →
      (axis.after actions).leave = axis.leave ∧ (axis.after actions).depth = axis.depth := by
  induction balanced with
  | nil => exact fun _ => ⟨rfl, rfl⟩
  | @here action later stays _ ih =>
    intro axis opened
    obtain ⟨leaves, deep⟩ := leave_perform opened stays
    have opened' : (axis.perform action).1.frames ≠ [] := by
      rw [frames_ne_nil, deep]
      exact frames_ne_nil.mp opened
    obtain ⟨leaves', deep'⟩ := ih opened'
    exact ⟨leaves'.trans leaves, deep'.trans deep⟩
  | @element declarations inside later _ _ ihInner ihRest =>
    intro axis opened
    -- The inner element has been left when the rest begins, and the axis is what it was.
    obtain ⟨leaves, -⟩ := ihInner (frames_enter_ne_nil axis declarations)
    rw [leave_enter] at leaves
    have back : axis.after (.enter declarations :: inside ++ .leave :: later) =
        axis.after later := by
      rw [List.cons_append]
      show ((axis.enter declarations).after (inside ++ .leave :: later)) = _
      rw [after_append]
      show ((axis.enter declarations).after inside).leave.after later = _
      rw [leaves]
    rw [back]
    exact ihRest opened

/-- Whatever is done inside an element, leaving it brings the axis back as it was. -/
theorem after_element (axis : NamespaceAxis) (declarations : List Binding)
    {inside : List Action} (balanced : Balanced inside) :
    axis.after (.enter declarations :: inside ++ [.leave]) = axis := by
  obtain ⟨leaves, -⟩ := leave_after balanced (frames_enter_ne_nil axis declarations)
  rw [leave_enter] at leaves
  rw [List.cons_append]
  show ((axis.enter declarations).after (inside ++ [.leave])) = axis
  rw [after_append]
  exact leaves

/-- An axis answers every sequence of actions as a stack of copies does, its maps always being
those on top of the stack.  Where all that is entered is left again, nothing has changed. -/
theorem refines_copies (actions : List Action) :
    start.answers actions = Copies.start.answers actions ∧
      (start.after actions).view = (Copies.start.after actions).top ∧
      ∀ declarations inside, Balanced inside →
        start.after (actions ++ (.enter declarations :: inside ++ [.leave])) =
          start.after actions := by
  have started : start.copies = Copies.start := rfl
  refine ⟨?_, ?_, fun declarations inside balanced => ?_⟩
  · rw [answers_copies, started]
  · rw [← started, ← copies_after]
    rfl
  · rw [after_append]
    exact after_element _ declarations balanced

/-- A prefix that is bound twice by one element, and rendered there, with another element inside
that hides it. -/
theorem refines_copies_shadowed :
    let outer := [Action.enter [⟨"p", "u"⟩, ⟨"", "d"⟩], .renderInclusive (fun _ => true) false]
    let inside := [Action.renderExclusive ["p"] (fun _ => true) false false,
      .enter [⟨"p", ""⟩], .renderInclusive (fun p => p ≠ "") true, .leave,
      .pending fun _ => true]
    Balanced inside ∧
      start.answers (outer ++ .enter [⟨"p", "v"⟩, ⟨"p", "w"⟩] :: inside ++ [.leave]) =
        [(.done, 1), (.declarations [⟨"", "d"⟩, ⟨"p", "u"⟩], 1), (.done, 2),
          (.declarations [⟨"p", "w"⟩], 2), (.done, 3), (.declarations [⟨"", ""⟩], 3), (.done, 2),
          (.declarations [], 2), (.done, 1)] ∧
      start.after (outer ++ (.enter [⟨"p", "v"⟩, ⟨"p", "w"⟩] :: inside ++ [.leave])) =
        start.after outer := by
  intro outer inside
  have balanced : Balanced inside :=
    .here rfl (.element [⟨"p", ""⟩] (.here rfl .nil) (.here rfl .nil))
  refine ⟨balanced, by decide +kernel, ?_⟩
  exact (refines_copies outer).2.2 _ inside balanced

end NamespaceAxis

end CanonicalXml
