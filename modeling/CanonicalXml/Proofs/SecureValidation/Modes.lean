import CanonicalXml.Proofs.Faults.Writing
import CanonicalXml.Proofs.PlaceNumbers
import CanonicalXml.Proofs.SecureValidation.Walks
import CanonicalXml.Proofs.Sessions.Delivery

/-! # Secure validation

For every algorithm a call under limits is compared to the same call without them.  It never
writes anything else: either nothing is exceeded and both are the same, or it fails for the limit
that is exceeded, having written a part of what the other call writes.

* `Physical.restricts_content` — the physical serialization under limits.
* `Mode.progress` — what a call processes before it ends.
* `Mode.limits_only_reject` — all algorithms.
-/

namespace CanonicalXml

open Transcript (Restricts)

namespace Location

/-- The number of comments among these places. -/
def commentsOf (places : List Location) : Nat :=
  places.countP (·.kind? = some .comment)

variable (number : Nat) (ancestors : List Ancestor) (before : List NodeKind)

theorem commentsOf_leaf (l : Leaf) (next : Content) :
    commentsOf (allFrom number ancestors before (.leaf l next)) =
      (if l.kind = .comment then 1 else 0) +
        commentsOf (allFrom (number + 1) ancestors (l.kind :: before) next) := by
  rw [Nat.add_comm]
  cases l <;> exact List.countP_cons

theorem commentsOf_element (e : Element) (inner next : Content) :
    commentsOf (allFrom number ancestors before (.element e inner next)) =
      commentsOf (allFrom (number + 1) (⟨number, e⟩ :: ancestors) [] inner) +
        commentsOf (allFrom (number + inner.size + 1) ancestors (.element :: before) next) :=
  List.countP_append

end Location

namespace Physical

open Location (elementsOf commentsOf allFrom)

variable {limits : Limits}

/-! ## The physical serialization -/

theorem outcome_leaf (top : Bool) (n : Nat) (l : Leaf) :
    (leaf none top n l).outcome = .ok (n + if l.kind = .comment then 1 else 0) := by
  cases l with
  | text value => cases top <;> rfl
  | comment value => rfl
  | instruction target data => rfl

/-- Without limits siblings are written to the end. -/
theorem outcome_content (c : Content) : ∀ (number : Nat) (ancestors : List Ancestor)
    (before : List NodeKind) (depth : Nat) (top : Bool) (outer : Scope) (n : Nat),
    (content none depth top outer n c).outcome =
      .ok (n + commentsOf (allFrom number ancestors before c)) := by
  induction c with
  | nil =>
    intro number ancestors before depth top outer n
    rfl
  | leaf l next ih =>
    intro number ancestors before depth top outer n
    rw [content, Transcript.outcome_bind, outcome_leaf, Location.commentsOf_leaf, ← Nat.add_assoc]
    exact ih _ _ _ _ _ _ _
  | element e inner next ihInner ihNext =>
    intro number ancestors before depth top outer n
    rw [Location.commentsOf_element, ← Nat.add_assoc]
    simp only [content, checkAttributes_none, checkDepth_none, Transcript.outcome_bind]
    rw [ihInner (number + 1) (⟨number, e⟩ :: ancestors) []]
    exact ihNext _ _ _ _ _ _ _

theorem restricts_leaf (top : Bool) {n : Nat} (room : n ≤ limits.maxComments) (l : Leaf) :
    Restricts (limits.Exceeded [] (n + if l.kind = .comment then 1 else 0))
      (leaf (some limits) top n l) (leaf none top n l) := by
  have never : ¬ limits.Exceeded [] n := by
    rw [Limits.exceeded_nil]
    exact Nat.not_lt.mpr room
  cases l with
  | text value => exact .refl never _
  | comment value =>
    refine (Restricts.check fun _ => .refl id _).congr ?_
    rw [or_false, Limits.exceeded_nil]
    rfl
  | instruction target data => exact .refl never _

/-- Siblings and all that is inside of them, by induction over the tree. -/
theorem restricts_content (c : Content) : ∀ (number : Nat) (ancestors : List Ancestor)
    (before : List NodeKind) (top : Bool) (n : Nat), n ≤ limits.maxComments →
    Restricts (limits.Exceeded (elementsOf (allFrom number ancestors before c))
        (n + commentsOf (allFrom number ancestors before c)))
      (content (some limits) ancestors.length top (Ancestor.scope ancestors) n c)
      (content none ancestors.length top (Ancestor.scope ancestors) n c) := by
  induction c with
  | nil =>
    intro number ancestors before top n room
    refine .refl ?_ _
    exact (limits.exceeded_nil n).not.mpr (Nat.not_lt.mpr room)
  | leaf l next ih =>
    intro number ancestors before top n room
    rw [content, content]
    refine Restricts.congr (Restricts.bind_ok (restricts_leaf top room l) (outcome_leaf top n l)
      fun fine => ih (number + 1) ancestors (l.kind :: before) top _
        (Nat.le_of_not_lt fun many => fine (.inr many))) ?_
    rw [← Limits.exceeded_append, Location.commentsOf_leaf, Location.elementsOf_leaf, Nat.add_assoc]
    rfl
  | element e inner next ihInner ihNext =>
    intro number ancestors before top n room
    have here : Location.element? ⟨number, ancestors, before, .element e inner next⟩ = some e := rfl
    have inside := ihInner (number + 1) (⟨number, e⟩ :: ancestors) [] false n room
    have ends := outcome_content inner (number + 1) (⟨number, e⟩ :: ancestors) []
      (ancestors.length + 1) false e.scope n
    have later := ihNext (number + inner.size + 1) ancestors (.element :: before) top
      (n + commentsOf (allFrom (number + 1) (⟨number, e⟩ :: ancestors) [] inner))
    -- The start tag comes after both checks, and the end tag before the later siblings.
    refine Restricts.congr (Restricts.check fun _ => Restricts.check fun _ =>
      Restricts.wrote (Restricts.bind_ok inside ends fun fine => Restricts.wrote (later
        (Nat.le_of_not_lt fun many => fine (.inr many))) _) _) ?_
    rw [← Limits.exceeded_append, Location.commentsOf_element, Location.elementsOf_element,
      ← or_assoc, List.cons_append, Limits.exceeded_cons, Limits.forbids_iff here, Nat.add_assoc n]
    rfl

end Physical

/-- What a call processes before it ends: the elements that it comes to, whether they are output
or not, and the number of comments that it writes. -/
structure Progress where
  elements : List Location
  comments : Nat

namespace Mode

/-- A canonical form comes to the elements that its walk comes to. A physical serialization is
refused at once, or comes to all nodes. -/
def progress (mode : Mode) (input : Input) (params : Params) : Progress :=
  let elements := Location.elementsOf input.locations
  match mode with
  | canonical family c =>
    let walk := Walk.ofInput (method family c) input params
    ⟨walk.reached elements, walk.comments⟩
  | physical =>
    if (CanonicalXml.physical input params).outcome.isOk then
      ⟨elements, Location.commentsOf input.locations⟩
    else ⟨[], 0⟩

/-- Whether a call without these limits oversteps them. -/
def Exceeds (mode : Mode) (limits : Limits) (input : Input) (params : Params) : Prop :=
  let progress := mode.progress input { params with limits := none }
  limits.Exceeded progress.elements progress.comments

end Mode

namespace Physical

open Location (elementsOf commentsOf)

theorem restricts_tree (limits : Limits) (p : Place) :
    Restricts (limits.Exceeded (elementsOf p.locations) (commentsOf p.locations))
      (tree (some limits) p) (tree none p) := by
  cases p with
  | document inner =>
    have content := restricts_content inner 1 [] [] true 0 (Nat.zero_le limits.maxComments)
    rw [Nat.zero_add] at content
    exact content
  | node loc =>
    obtain ⟨number, ancestors, before, here⟩ := loc
    have content := restricts_content (single here) number ancestors before ancestors.isEmpty 0
      (Nat.zero_le limits.maxComments)
    rw [Nat.zero_add] at content
    refine content.congr ?_
    cases here with
    | nil => rfl
    | leaf l next => cases l <;> rfl
    | element e inner next =>
      -- The later siblings do not matter for the element itself.
      have alone : limits.Forbids ⟨number, ancestors, before, .element e inner .nil⟩ ↔
          limits.Forbids ⟨number, ancestors, before, .element e inner next⟩ := by
        rw [Limits.forbids_iff rfl, Limits.forbids_iff rfl]
        rfl
      rw [single, Location.elementsOf_element, Location.commentsOf_element, List.cons_append,
        Limits.exceeded_cons, alone, ← Limits.exceeded_cons]
      show limits.Exceeded (_ :: (_ ++ [])) _ ↔ _
      rw [List.append_nil]
      rfl

/-- A call is refused, whatever the limits, or writes a tree. -/
theorem physical_cases (input : Input) (params : Params) :
    (∃ refusal, ∀ limits, physical input { params with limits } = .failed (.physical refusal)) ∨
      ∃ p : Place, p.locations = input.locations ∧
        ∀ limits, physical input { params with limits } = tree limits p := by
  cases listed : params.inclusivePrefixes.isEmpty with
  | false =>
    cases input with
    | document d => exact .inl ⟨.prefixList, fun limits => by simp [physical, listed]⟩
    | subtree apex => exact .inl ⟨.prefixList, fun limits => by simp [physical, listed]⟩
    | nodeSet d s => exact .inl ⟨.nodeSet, fun limits => rfl⟩
  | true =>
    cases input with
    | document d =>
      exact .inr ⟨.document d.content, rfl, fun limits => by simp [physical, listed]⟩
    | subtree apex => exact .inr ⟨apex, rfl, fun limits => by simp [physical, listed]⟩
    | nodeSet d s => exact .inl ⟨.nodeSet, fun limits => rfl⟩

theorem restricts_physical (limits : Limits) (input : Input) (params : Params) :
    Restricts (Mode.physical.Exceeds limits input params)
      (physical input { params with limits := some limits })
      (physical input { params with limits := none }) := by
  simp only [Mode.Exceeds, Mode.progress]
  rcases physical_cases input params with ⟨refusal, refused⟩ | ⟨p, places, written⟩
  · rw [refused, refused]
    refine .refl ?_ _
    exact (limits.exceeded_nil 0).not.mpr (Nat.not_lt_zero _)
  · have through : (tree none p).outcome.isOk = true := by
      cases p with
      | document inner => rw [tree, outcome_content inner 1 [] []]; rfl
      | node loc => rw [tree, outcome_content _ 1 [] []]; rfl
    rw [written, written, ← places, if_pos through]
    exact restricts_tree limits p

end Physical

namespace Mode

theorem restricts_run (mode : Mode) (limits : Limits) (input : Input) (params : Params) :
    Restricts (mode.Exceeds limits input params)
      (mode.run input { params with limits := some limits })
      (mode.run input { params with limits := none }) := by
  cases mode with
  | canonical family c =>
    have walks := (Walk.guarded_ofInput (method family c) input params limits).restricts
      (Nat.zero_le _)
    rw [Nat.zero_add] at walks
    exact (walks.render Piece.text).map fun _ => ()
  | physical => exact (Physical.restricts_physical limits input params).map fun _ => ()

/-- Limits only reject.  A call without limits fails for no limit.  If what it processes before
it ends stays within the limits, then the call under them writes the same and ends alike; else
that one fails for a limit, having written the beginning of the same bytes. -/
theorem limits_only_reject (mode : Mode) (input : Input) (params : Params) (limits : Limits) :
    let free := mode.run input { params with limits := none }
    let strict := mode.run input { params with limits := some limits }
    (∀ violation, free.outcome ≠ .error (.excess violation)) ∧
      (¬ mode.Exceeds limits input params → strict.Alike free) ∧
      (mode.Exceeds limits input params →
        (∃ violation, strict.outcome = .error (.excess violation)) ∧
          Utf8.encode strict.text <+: Utf8.encode free.text) := by
  intro free strict
  have restricts := mode.restricts_run limits input params
  refine ⟨fun violation ends => ?_, fun fine => ?_, fun exceeds => ?_⟩
  · cases mode.fails_run input { params with limits := none } _ ends with
    | excess _ limited => cases limited
  · have same : strict = free := restricts.same fine
    rw [same]
    exact ⟨rfl, rfl⟩
  · refine ⟨restricts.fails exceeds, ?_⟩
    obtain ⟨rest, pieces⟩ := restricts.cut exceeds
    have text : free.text = strict.text ++ String.join rest := by
      unfold Transcript.text
      rw [← pieces]
      exact String.join_append
    rw [text, Utf8.encode_append]
    exact List.prefix_append _ _

end Mode

end CanonicalXml
