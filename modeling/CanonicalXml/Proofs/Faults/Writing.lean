import CanonicalXml.Mode
import CanonicalXml.Proofs.Faults.Reading
import CanonicalXml.Proofs.Traversal

/-! # The faults of writing

* `Transcript.Fails P` — an operation that writes and fails, fails with a fault for which `P` holds.
* `Fault.OfWriting` — the faults of writing under some limits.  Without limits nothing is
  excessive, and none of them is a failure of an output.
* `Mode.fails_run` — the algorithms fail with no others.
-/

namespace CanonicalXml

namespace Transcript

variable {π α β : Type} {P : Fault → Prop}

/-- If the operation fails, then with such a fault. -/
def Fails (P : Fault → Prop) (t : Transcript π α) : Prop :=
  FailsWith P t.outcome

theorem Fails.bind {t : Transcript π α} {f : α → Transcript π β} (first : t.Fails P)
    (second : ∀ a, (f a).Fails P) : (t >>= f).Fails P := by
  unfold Fails
  rw [outcome_bind]
  exact FailsWith.bind first second

theorem Fails.pure (a : α) : (Pure.pure a : Transcript π α).Fails P :=
  FailsWith.ok a

theorem Fails.write (piece : π) : (Transcript.write piece).Fails P :=
  FailsWith.ok ()

theorem Fails.ofExcept {x : Except Fault α} (fails : FailsWith P x) :
    (Transcript.ofExcept x : Transcript π α).Fails P := by
  cases x with
  | ok a => exact fails
  | error fault => exact fails

end Transcript

open FailsWith (ok error)

/-! ## Checks -/

/-- What a canonical or physical form can be refused for when it is written. -/
inductive Fault.OfWriting (limits : Option Limits) : Fault → Prop where
  | undeclaredPrefix (nsPrefix qname : String) :
      OfWriting limits (.undeclaredPrefix nsPrefix (.tag qname))
  | physical (refusal : PhysicalRefusal) : OfWriting limits (.physical refusal)
  | excess (violation : Excess) (limited : limits.isSome = true) :
      OfWriting limits (.excess violation)

open Fault (OfWriting)

/-- Only where there is a limit can it be exceeded. -/
theorem failsWith_checkLimit {limits : Option Limits} (limit : Limits → Nat) (count : Nat)
    (excess : Nat → Excess) :
    FailsWith (OfWriting limits) (checkLimit (limits.map limit) count excess) := by
  cases limits with
  | none => exact ok ()
  | some limits =>
    simp only [checkLimit, Option.map_some]
    split
    · exact error (.excess _ rfl)
    · exact ok ()

theorem NamespaceAxis.failsWith_checkPrefix (limits : Option Limits) (axis : NamespaceAxis)
    (p qname : String) : FailsWith (OfWriting limits) (axis.checkPrefix p qname) := by
  simp only [checkPrefix]
  split
  · exact ok ()
  · exact error (.undeclaredPrefix _ _)

theorem Request.failsWith_ownAttributes (limits : Option Limits) (axis : NamespaceAxis)
    (qname : String) (attributes : List (Attribute × String)) :
    FailsWith (OfWriting limits) (ownAttributes axis qname attributes) := by
  induction attributes with
  | nil => exact ok []
  | cons a rest ih =>
    obtain ⟨a, p⟩ := a
    refine (axis.failsWith_checkPrefix limits p qname).bind fun _ => ?_
    exact ih.bind fun _ => ok _

theorem Request.failsWith_writtenAttributes (limits : Option Limits) (r : Request)
    (axis : NamespaceAxis) (loc : Location) (e : Element) (names : Spelling)
    (parentOutput : Bool) :
    FailsWith (OfWriting limits) (r.writtenAttributes axis loc e names parentOutput) := by
  unfold writtenAttributes
  split
  · exact ok []
  refine (failsWith_ownAttributes limits axis _ _).bind fun own => ?_
  split
  · exact ok _
  · exact ok _

/-! ## Walks -/

namespace Walk

open Transcript (Fails)

variable {r : Request}

theorem fails_startTag (w : Walk) (loc : Location) (e : Element) (parentOutput : Bool) :
    (w.startTag r loc e parentOutput).Fails (OfWriting r.limits) := by
  unfold startTag
  refine (Fails.ofExcept (failsWith_checkLimit _ _ _)).bind fun _ => ?_
  refine (Fails.ofExcept (failsWith_checkLimit _ _ _)).bind fun _ => ?_
  split
  · refine (Fails.ofExcept (NamespaceAxis.failsWith_checkPrefix _ _ _ _)).bind fun _ => ?_
    refine (Fails.ofExcept (r.failsWith_writtenAttributes _ _ _ _ _ _)).bind fun _ => ?_
    exact (Fails.write _).bind fun _ => .pure _
  · exact (Fails.write _).bind fun _ => .pure _

theorem fails_leaf (w : Walk) (loc : Location) (l : Leaf) :
    (w.leaf r loc l).Fails (OfWriting r.limits) := by
  unfold Walk.leaf
  split
  · exact .pure w
  cases l with
  | text value =>
    dsimp only
    split
    · exact (Fails.write _).bind fun _ => .pure w
    · exact .pure w
  | comment value =>
    refine (Fails.ofExcept (failsWith_checkLimit _ _ _)).bind fun _ => ?_
    exact (Fails.write _).bind fun _ => .pure _
  | instruction target data => exact (Fails.write _).bind fun _ => .pure w

theorem fails_leave (P : Fault → Prop) (w : Walk) (closing : Option String) :
    (w.leave closing).Fails P := by
  cases closing with
  | none => exact .pure _
  | some qname => exact (Fails.write _).bind fun _ => .pure _

theorem fails_siblings (content : Content) : ∀ (parentOutput : Bool) (number : Nat)
    (ancestors : List Ancestor) (before : List NodeKind) (w : Walk),
    (siblings r parentOutput number ancestors before content w).Fails (OfWriting r.limits) := by
  induction content with
  | nil =>
    intro parentOutput number ancestors before w
    exact .pure w
  | leaf l rest ihRest =>
    intro parentOutput number ancestors before w
    exact (fails_leaf w _ l).bind fun w => ihRest _ _ _ _ w
  | element e inner rest ihInner ihRest =>
    intro parentOutput number ancestors before w
    refine (fails_startTag w _ e parentOutput).bind fun ⟨w, closing⟩ => ?_
    refine (ihInner _ _ _ _ w).bind fun w => ?_
    exact (fails_leave _ w closing).bind fun w => ihRest _ _ _ _ w

theorem fails_nodeAt (parentOutput : Bool) (loc : Location) (w : Walk) :
    (nodeAt r parentOutput loc w).Fails (OfWriting r.limits) := by
  unfold nodeAt
  split
  · exact .pure w
  · exact fails_leaf w loc _
  · refine (fails_startTag w loc _ parentOutput).bind fun ⟨w, closing⟩ => ?_
    exact (fails_siblings _ _ _ _ _ w).bind fun w => fails_leave _ w closing

theorem fails_ofInput (method : Method) (input : Input) (params : Params) :
    (ofInput method input params).Fails (OfWriting params.limits) := by
  unfold ofInput
  split
  all_goals
    simp only [run_siblings, run_node, run_nil, bind_pure]
    first
    | exact fails_siblings (r := .of method _ params) _ _ _ _ _ _
    | exact fails_nodeAt (r := .of method _ params) _ _ _

end Walk

namespace Physical

open Transcript (Fails)

variable {limits : Option Limits}

theorem fails_leaf (top : Bool) (comments : Nat) (l : Leaf) :
    (leaf limits top comments l).Fails (OfWriting limits) := by
  cases l with
  | text value =>
    simp only [leaf]
    split
    · exact (Fails.write _).bind fun _ => .pure comments
    · exact .pure comments
  | comment value =>
    refine (Fails.ofExcept (failsWith_checkLimit _ _ _)).bind fun _ => ?_
    exact (Fails.write _).bind fun _ => .pure _
  | instruction target data => exact (Fails.write _).bind fun _ => .pure comments

theorem fails_content (c : Content) : ∀ (depth : Nat) (top : Bool) (outer : Scope)
    (comments : Nat), (content limits depth top outer comments c).Fails (OfWriting limits) := by
  induction c with
  | nil =>
    intro depth top outer comments
    exact .pure comments
  | leaf l next ih =>
    intro depth top outer comments
    exact (fails_leaf top comments l).bind fun comments => ih _ _ _ comments
  | element e inner next ihInner ihNext =>
    intro depth top outer comments
    refine (Fails.ofExcept (failsWith_checkLimit _ _ _)).bind fun _ => ?_
    refine (Fails.ofExcept (failsWith_checkLimit _ _ _)).bind fun _ => ?_
    refine (Fails.write _).bind fun _ => (ihInner _ _ _ _).bind fun comments => ?_
    exact (Fails.write _).bind fun _ => ihNext _ _ _ comments

theorem fails_tree (p : Place) : (tree limits p).Fails (OfWriting limits) := by
  cases p with
  | document inner => exact fails_content inner _ _ _ _
  | node loc => exact fails_content _ _ _ _ _

theorem fails_physical (input : Input) (params : Params) :
    (physical input params).Fails (OfWriting params.limits) := by
  have writable : ∀ p : Place, Fails (OfWriting params.limits)
      (if params.inclusivePrefixes.isEmpty then tree params.limits p
        else .failed (.physical .prefixList)) := by
    intro p
    split
    · exact fails_tree p
    · exact error (.physical .prefixList)
  cases input with
  | document d => exact writable _
  | subtree apex => exact writable apex
  | nodeSet d s => exact error (.physical .nodeSet)

end Physical

theorem Mode.fails_run (mode : Mode) (input : Input) (params : Params) :
    (mode.run input params).Fails (OfWriting params.limits) := by
  cases mode with
  | canonical family c =>
    refine Transcript.Fails.bind ?_ fun _ => .pure ()
    simp only [canonicalize, Transcript.Fails, Transcript.outcome_render]
    exact Walk.fails_ofInput _ input params
  | physical => exact (Physical.fails_physical input params).bind fun _ => .pure ()

end CanonicalXml
