import Mathlib.Logic.Relation
import CanonicalXml.Proofs.SecureValidation.Walks

/-! # The walk, step by step

What is true of a walk between any two of its steps.

* `Walk.step` — what the walk does for one step of its list, and what is left to be done then;
  `Walk.run_cons` — it goes on with that.
* `Walk.Reaches` — the steps and the walks that a walk comes to; `Walk.outcome_of_reaches`,
  `Walk.reaches_end_iff` — they lead to where `Walk.run` ends.
* `Walk.Pending` — the invariant: as many elements are open as the place has ancestors, and the
  steps that are left leave each of them once.  `Walk.Pending.step` — one step preserves it,
  `Walk.Pending.reaches` — and so do all steps.
* `Walk.depth_of_reaches` — how deep the axis is at an element.
-/

namespace CanonicalXml

namespace Walk

open Relation (ReflTransGen)

/-! ## Steps -/

/-- What is done for a step, with what is left to be done after it. -/
def step (r : Request) (w : Walk) (todo : List Step) : Step → Transcript Piece (Walk × List Step)
  | .leave closing => do
    let w ← w.leave closing
    return (w, todo)
  | .siblings loc parentOutput =>
    match loc.here with
    | .nil => pure (w, todo)
    | .leaf _ _ | .element _ _ _ =>
      pure (w, .node loc parentOutput :: .siblings loc.next parentOutput :: todo)
  | .node loc parentOutput =>
    match loc.here with
    | .nil => pure (w, todo)
    | .leaf l _ => do
      let w ← w.leaf r loc l
      return (w, todo)
    | .element e inner _ => do
      let (w, closing) ← w.startTag r loc e parentOutput
      return (w, .siblings (loc.inside e inner) closing.isSome :: .leave closing :: todo)

theorem run_cons (r : Request) (w : Walk) (first : Step) (todo : List Step) :
    run r w (first :: todo) = w.step r todo first >>= fun after => run r after.1 after.2 := by
  cases first with
  | leave closing =>
    rw [run]
    simp only [step, bind_assoc, pure_bind]
  | siblings loc parentOutput =>
    obtain ⟨number, ancestors, before, here⟩ := loc
    cases here with
    | nil => rw [run]; rfl
    | leaf l rest => rw [run]; rfl
    | element e inner rest => rw [run]; rfl
  | node loc parentOutput =>
    obtain ⟨number, ancestors, before, here⟩ := loc
    cases here with
    | nil => rw [run]; rfl
    | leaf l rest =>
      rw [run]
      simp only [step, bind_assoc, pure_bind]
    | element e inner rest =>
      rw [run]
      simp only [step, bind_assoc, pure_bind]

/-- What a step can come to, where it does not fail. -/
inductive Goes (r : Request) (w : Walk) (todo : List Step) : Step → Walk × List Step → Prop where
  | leave (closing : Option String) :
      Goes r w todo (.leave closing) ({ w with axis := w.axis.leave }, todo)
  | last {loc : Location} (parentOutput : Bool) (here : loc.here = .nil) :
      Goes r w todo (.siblings loc parentOutput) (w, todo)
  | sibling {loc : Location} (parentOutput : Bool) (here : loc.here ≠ .nil) :
      Goes r w todo (.siblings loc parentOutput)
        (w, .node loc parentOutput :: .siblings loc.next parentOutput :: todo)
  | leaf {loc : Location} {w' : Walk} (parentOutput : Bool) (here : loc.element? = none)
      (unmoved : w'.axis = w.axis) : Goes r w todo (.node loc parentOutput) (w', todo)
  | element {loc : Location} {e : Element} {inner rest : Content} {w' : Walk}
      {closing : Option String} (parentOutput : Bool) (here : loc.here = .element e inner rest)
      (tag : (w.startTag r loc e parentOutput).outcome = .ok (w', closing)) :
      Goes r w todo (.node loc parentOutput)
        (w', .siblings (loc.inside e inner) closing.isSome :: .leave closing :: todo)

open Transcript in
theorem axis_of_leaf {r : Request} {w w' : Walk} {loc : Location} {l : Leaf}
    (ends : (w.leaf r loc l).outcome = .ok w') : w'.axis = w.axis := by
  have along : Along (fun _ _ => ()) (fun _ _ => True) (fun _ (w' : Walk) => w'.axis = w.axis) ()
      (w.leaf r loc l) := by
    simp only [Walk.leaf]
    split
    · rfl
    · cases l with
      | text value => cases loc.isTop <;> simp
      | comment value => simp
      | instruction target data => simp
  exact along.of_outcome ends

open Transcript in
/-- A start tag opens one more element, and calls for an end tag if the element is output. -/
theorem startTag_result {r : Request} {w w' : Walk} {loc : Location} {e : Element}
    {parentOutput : Bool} {closing : Option String}
    (ends : (w.startTag r loc e parentOutput).outcome = .ok (w', closing)) :
    w'.axis.depth = w.axis.depth + 1 ∧
      closing = if r.isOutput loc .element then some (loc.spelling e).name.text else none := by
  have along : Along (fun _ _ => ()) (fun _ _ => True)
      (fun _ (entered : Walk × Option String) => entered.1.axis.depth = w.axis.depth + 1 ∧
        entered.2 = if r.isOutput loc .element then some (loc.spelling e).name.text else none) ()
      (w.startTag r loc e parentOutput) := by
    have opened := NamespaceAxis.frames_enter_ne_nil w.axis (loc.spelling e).declarations
    have deeper := NamespaceAxis.depth_enter w.axis (loc.spelling e).declarations
    simp only [startTag]
    simp only [along_bind, along_ofExcept]
    intro _ _ _ _
    split
    · simp only [along_bind, along_ofExcept, along_write, along_pure]
      intro _ _ attributes _
      exact ⟨trivial, (depth_declarations opened _ _).trans deeper, trivial⟩
    · simp only [along_bind, along_write, along_pure]
      exact ⟨trivial, deeper, trivial⟩
  exact along.of_outcome ends

open Transcript in
theorem goes_of_outcome {r : Request} {w : Walk} {todo : List Step} {first : Step}
    {after : Walk × List Step} (ends : (w.step r todo first).outcome = .ok after) :
    Goes r w todo first after := by
  cases first with
  | leave closing =>
    cases closing with
    | none =>
      cases ends
      exact .leave none
    | some qname =>
      cases ends
      exact .leave (some qname)
  | siblings loc parentOutput =>
    simp only [step] at ends
    split at ends
    · rename_i here
      cases ends
      exact .last parentOutput here
    all_goals
      rename_i here
      cases ends
      exact .sibling parentOutput (here ▸ nofun)
  | node loc parentOutput =>
    simp only [step] at ends
    split at ends
    · rename_i here
      cases ends
      refine .leaf parentOutput ?_ rfl
      unfold Location.element?
      rw [here]
    · rename_i l rest here
      obtain ⟨w', wrote, ends⟩ := outcome_bind_eq_ok.mp ends
      cases ends
      refine .leaf parentOutput ?_ (axis_of_leaf wrote)
      unfold Location.element?
      rw [here]
    · rename_i e inner rest here
      obtain ⟨entered, tag, ends⟩ := outcome_bind_eq_ok.mp ends
      cases ends
      exact .element parentOutput here tag

theorem Goes.weight_lt {r : Request} {w : Walk} {todo : List Step} {first : Step}
    {after : Walk × List Step} (goes : Goes r w todo first after) :
    Step.totalWeight after.2 < Step.totalWeight (first :: todo) := by
  cases goes with
  | leave closing => simp [Step.totalWeight, Step.weight]
  | last parentOutput here => simp [Step.totalWeight, Step.weight]
  | @sibling loc parentOutput here =>
    simp only [Step.totalWeight, Step.weight, Location.next]
    cases content : loc.here with
    | nil => exact absurd content here
    | leaf l rest =>
      simp only [Content.size]
      omega
    | element e inner rest =>
      simp only [Content.size]
      omega
  | @leaf loc w' parentOutput here unmoved =>
    simp only [Step.totalWeight, Step.weight]
    split <;> omega
  | element parentOutput here tag =>
    simp only [Step.totalWeight, Step.weight, Location.inside]
    rw [here]
    dsimp only
    omega

/-- From a walk and its steps to the walk after the first step and what is left then. -/
def Next (r : Request) : Walk × List Step → Walk × List Step → Prop
  | (_, []), _ => False
  | (w, first :: todo), after => (w.step r todo first).outcome = .ok after

/-- One step after the other. -/
def Reaches (r : Request) : Walk × List Step → Walk × List Step → Prop :=
  ReflTransGen (Next r)

theorem outcome_of_reaches {r : Request} {c c' : Walk × List Step} (reached : Reaches r c c') :
    (run r c.1 c.2).outcome = (run r c'.1 c'.2).outcome := by
  induction reached with
  | refl => rfl
  | @tail c' c'' _ next ih =>
    rw [ih]
    obtain ⟨w, todo⟩ := c'
    cases todo with
    | nil => cases next
    | cons first todo =>
      dsimp only
      rw [run_cons, Transcript.outcome_bind, show (w.step r todo first).outcome = _ from next]
      rfl

theorem reaches_end {r : Request} {w' : Walk} : ∀ {w : Walk} {todo : List Step},
    (run r w todo).outcome = .ok w' → Reaches r (w, todo) (w', [])
  | w, [], ends => by
    rw [run_nil] at ends
    cases ends
    exact .refl
  | w, first :: todo, ends => by
    rw [run_cons] at ends
    obtain ⟨after, next, ends⟩ := Transcript.outcome_bind_eq_ok.mp ends
    exact .head next (reaches_end ends)
termination_by _ todo => Step.totalWeight todo
decreasing_by exact (goes_of_outcome next).weight_lt

/-- The walk succeeds where the steps lead to the end of the list. -/
theorem reaches_end_iff {r : Request} {w w' : Walk} {todo : List Step} :
    Reaches r (w, todo) (w', []) ↔ (run r w todo).outcome = .ok w' := by
  refine ⟨fun reached => ?_, reaches_end⟩
  rw [outcome_of_reaches reached, run_nil]
  rfl

/-! ## What is left to be done -/

/-- The steps that are left fit the open elements: each step that visits nodes has its place
inside of all of them, each step that leaves an element leaves the innermost one, and after the
last step the walk is back where it began. `places` are those that may be visited. -/
def Pending (base : List Ancestor) (places : List Location) :
    List Ancestor → NamespaceAxis → List Step → Prop
  | chain, axis, [] => chain = base ∧ axis = seed base
  | chain, axis, .siblings loc _ :: todo =>
    loc.ancestors = chain ∧ loc.all ⊆ places ∧ Pending base places chain axis todo
  | chain, axis, .node loc _ :: todo =>
    loc.ancestors = chain ∧ loc.subtree ⊆ places ∧ Pending base places chain axis todo
  | [], _, .leave _ :: _ => False
  | _ :: above, axis, .leave _ :: todo =>
    axis.depth = above.length + 1 ∧ Pending base places above axis.leave todo

namespace Pending

variable {base : List Ancestor} {places : List Location}

theorem depth {todo : List Step} : ∀ {chain : List Ancestor} {axis : NamespaceAxis},
    Pending base places chain axis todo → axis.depth = chain.length := by
  induction todo with
  | nil =>
    rintro chain axis ⟨rfl, rfl⟩
    exact depth_seed chain
  | cons first todo ih =>
    intro chain axis pending
    cases first with
    | siblings loc parentOutput => exact ih pending.2.2
    | node loc parentOutput => exact ih pending.2.2
    | leave closing =>
      cases chain with
      | nil => exact pending.elim
      | cons a above => exact pending.1

theorem step {r : Request} {w : Walk} {first : Step} {todo : List Step}
    {after : Walk × List Step} (goes : Goes r w todo first after) : ∀ {chain : List Ancestor},
    Pending base places chain w.axis (first :: todo) →
    ∃ chain, Pending base places chain after.1.axis after.2 := by
  intro chain pending
  cases goes with
  | leave closing =>
    cases chain with
    | nil => exact pending.elim
    | cons a above => exact ⟨above, pending.2⟩
  | last parentOutput here => exact ⟨chain, pending.2.2⟩
  | @sibling loc parentOutput here =>
    obtain ⟨around, within, later⟩ := pending
    rw [Location.all_eq_append here, List.append_subset] at within
    exact ⟨chain, around, within.1, (loc.ancestors_next).trans around, within.2, later⟩
  | leaf parentOutput here unmoved =>
    rw [unmoved]
    exact ⟨chain, pending.2.2⟩
  | @element loc e inner rest w' closing parentOutput here tag =>
    obtain ⟨rfl, within, later⟩ := pending
    have inside : (loc.inside e inner).all ⊆ places := by
      rw [Location.subtree_of_here here] at within
      exact (List.cons_subset.mp within).2
    have deeper : w'.axis.depth = loc.ancestors.length + 1 := by
      rw [(startTag_result tag).1, later.depth]
    refine ⟨⟨loc.number, e⟩ :: loc.ancestors, rfl, inside, deeper, ?_⟩
    rw [(leave_startTag tag).1]
    exact later

theorem reaches {r : Request} {c c' : Walk × List Step} (reached : Reaches r c c')
    {chain : List Ancestor} (pending : Pending base places chain c.1.axis c.2) :
    ∃ chain, Pending base places chain c'.1.axis c'.2 := by
  induction reached with
  | refl => exact ⟨chain, pending⟩
  | @tail c' c'' _ next ih =>
    obtain ⟨chain, pending⟩ := ih
    obtain ⟨w, todo⟩ := c'
    cases todo with
    | nil => cases next
    | cons first todo => exact pending.step (goes_of_outcome next)

end Pending

/-! ## From an input -/

/-- How the walk through an input begins. -/
def begin : Input → Walk × List Step
  | .document d | .nodeSet d _ => (⟨.start, 0⟩, [.siblings (.top d.content) false])
  | .subtree (.document content) => (⟨.start, 0⟩, [.siblings (.top content) false])
  | .subtree (.node loc) => (⟨seed loc.ancestors, 0⟩, [.node loc false])

theorem ofInput_eq_run (method : Method) (input : Input) (params : Params) :
    ofInput method input params =
      run (.of method input params) (begin input).1 (begin input).2 := by
  cases input with
  | document d => rfl
  | subtree apex => cases apex <;> rfl
  | nodeSet d s => rfl

theorem pending_begin (input : Input) :
    Pending input.ancestors input.locations input.ancestors (begin input).1.axis
      (begin input).2 := by
  have whole : ∀ content : Content, Pending [] (Location.top content).all [] .start
      [.siblings (.top content) false] :=
    fun content => ⟨rfl, List.Subset.refl _, rfl, rfl⟩
  cases input with
  | document d => exact whole d.content
  | subtree apex =>
    cases apex with
    | document content => exact whole content
    | node loc => exact ⟨rfl, List.Subset.refl _, rfl, rfl⟩
  | nodeSet d s => exact whole d.content

/-- Where the walk comes to an element, the ancestors of the element are open, and inside of its
start tag one more is. -/
theorem depth_of_reaches {r : Request} {input : Input} {w : Walk} {loc : Location} {e : Element}
    {parentOutput : Bool} {todo : List Step}
    (reached : Reaches r (begin input) (w, .node loc parentOutput :: todo))
    (here : loc.element? = some e) :
    loc ∈ input.locations ∧ w.axis.depth = loc.ancestors.length ∧
      ∀ w' closing, (w.startTag r loc e parentOutput).outcome = .ok (w', closing) →
        w'.axis.depth = loc.ancestors.length + 1 := by
  obtain ⟨chain, rfl, within, later⟩ := (pending_begin input).reaches reached
  obtain ⟨inner, rest, content⟩ := Location.here_of_element? here
  have member : loc ∈ loc.subtree := by
    rw [Location.subtree_of_here content]
    exact List.mem_cons_self
  refine ⟨within member, later.depth, fun w' closing tag => ?_⟩
  rw [(startTag_result tag).1, later.depth]

end Walk

end CanonicalXml
