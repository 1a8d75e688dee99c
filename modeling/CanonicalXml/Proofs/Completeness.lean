import CanonicalXml.Proofs.Traversal
import Mathlib.Data.List.Basic

/-! # Everything that a walk writes

A walk writes a piece for every element, and for every leaf that is output, in document order.  A
walk that fails has written the first of them.

* `Request.writes` — whether something is written for a place.
* `Walk.places_prefix`, `Walk.places_of_outcome` — the places that a walk writes something for.
* `Walk.elements_of_outcome` — a walk that succeeds has come to every element.
-/

namespace CanonicalXml

/-- The node that a piece is written for.  The end of an element belongs to its start tag. -/
def Piece.place? : Piece → Option Location
  | .startTag loc _ _ _ | .bare loc _ | .leaf loc _ => some loc
  | .endTag _ => none

/-- The piece is for the node that stands at its place. -/
def Piece.Fits : Piece → Prop
  | .startTag loc _ _ _ | .bare loc _ => loc.element?.isSome = true
  | .leaf loc l => ∃ rest, loc.here = .leaf l rest
  | .endTag _ => True

theorem Piece.Fits.element?_eq {piece : Piece} (fits : piece.Fits) :
    piece.element? = piece.place?.filter (·.element?.isSome) := by
  cases piece with
  | startTag loc qname declarations attributes =>
    have element : loc.element?.isSome = true := fits
    simp only [element?, place?, Option.filter_some, element, if_true]
  | bare loc declarations =>
    have element : loc.element?.isSome = true := fits
    simp only [element?, place?, Option.filter_some, element, if_true]
  | leaf loc l =>
    obtain ⟨rest, here⟩ := fits
    have plain : loc.element?.isSome = false := by
      unfold Location.element?
      rw [here]
      rfl
    simp only [element?, place?, Option.filter_some, plain, Bool.false_eq_true, if_false]
  | endTag qname => rfl

/-- Whether something is written for the node at a place: for every element, if only the
declarations of one that is not output, and for every leaf that is output.  Text outside of the
document element is not. -/
def Request.writes (r : Request) (loc : Location) : Bool :=
  match loc.here with
  | .nil => false
  | .leaf l _ => r.isOutput loc l.kind && !(l.kind = .text && loc.isTop)
  | .element _ _ _ => true

namespace Walk

open Transcript

/-- An observer who remembers all places that something is written for. -/
def remember (s : List Location) (piece : Piece) : List Location :=
  s ++ piece.place?.toList

/-- The piece is for the next one of the places, if for any. -/
def InTurn (places s : List Location) (piece : Piece) : Prop :=
  remember s piece <+: places ∧ piece.Fits

section Walks

variable {r : Request} {w : Walk} {places s : List Location}

theorem InTurn.write (piece : Piece) {loc : Location} (place : piece.place? = some loc)
    (fits : piece.Fits) (within : s ++ [loc] <+: places) :
    InTurn places s piece ∧ remember s piece = s ++ [loc] := by
  have remembered : remember s piece = s ++ [loc] := by
    rw [remember, place]
    rfl
  exact ⟨⟨remembered ▸ within, fits⟩, remembered⟩

theorem along_leaf_places {loc : Location} {l : Leaf} {rest : Content}
    (here : loc.here = .leaf l rest) (within : s ++ [loc].filter r.writes <+: places) :
    Along remember (InTurn places) (fun s' _ => s' = s ++ [loc].filter r.writes) s
      (w.leaf r loc l) := by
  have fits : (Piece.leaf loc l).Fits := ⟨rest, here⟩
  simp only [Walk.leaf, Request.writes, List.filter_cons, List.filter_nil, here] at within ⊢
  cases output : r.isOutput loc l.kind with
  | false => simp
  | true =>
    rw [output] at within
    cases l with
    | text value =>
      cases top : loc.isTop with
      | true => simp [Leaf.kind]
      | false =>
        rw [top] at within
        have wrote := InTurn.write (.leaf loc (.text value)) rfl fits within
        simpa [Leaf.kind] using wrote
    | comment value =>
      have wrote := InTurn.write (.leaf loc (.comment value)) rfl fits within
      simpa [Leaf.kind] using fun _ _ => wrote
    | instruction target data =>
      have wrote := InTurn.write (.leaf loc (.instruction target data)) rfl fits within
      simpa [Leaf.kind] using wrote

theorem along_leave_places (closing : Option String) (within : s <+: places) :
    Along remember (InTurn places) (fun s' _ => s' = s) s (w.leave closing) := by
  simp only [Walk.leave]
  cases closing with
  | none => simp
  | some qname => simpa [InTurn, remember, Piece.place?, Piece.Fits] using within

theorem along_startTag_places {loc : Location} {e : Element} (here : loc.element? = some e)
    (parentOutput : Bool) (within : s ++ [loc] <+: places) :
    Along remember (InTurn places) (fun s' _ => s' = s ++ [loc]) s
      (w.startTag r loc e parentOutput) := by
  have element : loc.element?.isSome = true := Option.isSome_of_eq_some here
  simp only [startTag]
  simp only [along_bind, along_ofExcept]
  intro _ _ _ _
  split
  · simp only [along_bind, along_ofExcept, along_write, along_pure]
    intro _ _ attributes _
    exact InTurn.write _ rfl element within
  · simp only [along_bind, along_write, along_pure]
    exact InTurn.write _ rfl element within

theorem along_siblings_places {content : Content} : ∀ {number : Nat}
    {ancestors : List Ancestor} {before : List NodeKind} {parentOutput : Bool} {w : Walk}
    {s : List Location},
    s ++ (Location.allFrom number ancestors before content).filter r.writes <+: places →
    Along remember (InTurn places)
      (fun s' _ => s' = s ++ (Location.allFrom number ancestors before content).filter r.writes) s
      (siblings r parentOutput number ancestors before content w) := by
  induction content with
  | nil =>
    intro number ancestors before parentOutput w s _
    exact (List.append_nil s).symm
  | leaf l rest ihRest =>
    intro number ancestors before parentOutput w s within
    simp only [Location.allFrom] at within ⊢
    rw [← List.singleton_append, List.filter_append, ← List.append_assoc] at within ⊢
    simp only [siblings]
    rw [along_bind]
    refine Along.mono ?_ (along_leaf_places rfl ((List.prefix_append _ _).trans within))
    rintro s' w' rfl
    exact ihRest within
  | element e inner rest ihInner ihRest =>
    intro number ancestors before parentOutput w s within
    simp only [Location.allFrom] at within ⊢
    -- The element comes first, then those inside of it, then the later ones.
    rw [List.filter_cons_of_pos rfl, ← List.singleton_append, List.filter_append,
      ← List.append_assoc, ← List.append_assoc] at within ⊢
    have inside := (List.prefix_append _ _).trans within
    simp only [siblings]
    simp only [along_bind]
    refine Along.mono ?_
      (along_startTag_places rfl parentOutput ((List.prefix_append _ _).trans inside))
    rintro s₁ ⟨w₁, closing⟩ rfl
    refine Along.mono ?_ (ihInner inside)
    rintro s₂ w₂ rfl
    refine Along.mono ?_ (along_leave_places closing inside)
    rintro s₃ w₃ rfl
    exact ihRest within

theorem along_nodeAt_places {loc : Location} {parentOutput : Bool}
    (within : s ++ loc.subtree.filter r.writes <+: places) :
    Along remember (InTurn places) (fun s' _ => s' = s ++ loc.subtree.filter r.writes) s
      (nodeAt r parentOutput loc w) := by
  obtain ⟨number, ancestors, before, here⟩ := loc
  cases here with
  | nil => exact (List.append_nil s).symm
  | leaf l rest => exact along_leaf_places rfl within
  | element e inner rest =>
    simp only [Location.subtree] at within ⊢
    rw [List.filter_cons_of_pos rfl, ← List.singleton_append, ← List.append_assoc] at within ⊢
    simp only [nodeAt]
    simp only [along_bind]
    refine Along.mono ?_
      (along_startTag_places rfl parentOutput ((List.prefix_append _ _).trans within))
    rintro s₁ ⟨w₁, closing⟩ rfl
    refine Along.mono ?_ (along_siblings_places within)
    rintro s₂ w₂ rfl
    exact along_leave_places closing within

end Walks

section Inputs

variable (method : Method) (input : Input) (params : Params)

theorem along_ofInput_places :
    let expected := input.locations.filter (Request.of method input params).writes
    Along remember (InTurn expected) (fun s _ => s = expected) []
      (ofInput method input params) := by
  intro expected
  simp only [ofInput]
  split
  all_goals
    simp only [run_siblings, run_node, run_nil, bind_pure]
    first
    | exact along_siblings_places (s := []) (List.prefix_refl _)
    | exact along_nodeAt_places (s := []) (List.prefix_refl _)

end Inputs

theorem foldl_remember (pieces : List Piece) (s : List Location) :
    pieces.foldl remember s = s ++ pieces.filterMap Piece.place? := by
  induction pieces generalizing s with
  | nil => simp
  | cons piece pieces ih =>
    rw [List.foldl_cons, ih]
    cases place : piece.place? <;> simp [remember, place]

variable {method : Method} {input : Input} {params : Params}

/-- Whether it succeeds or not, a walk writes the first of what there is to write. -/
theorem places_prefix : (ofInput method input params).pieces.filterMap Piece.place? <+:
    input.locations.filter (Request.of method input params).writes := by
  have reached := (along_ofInput_places method input params).foldl_of_ok (P := (· <+: _))
    List.nil_prefix fun _ _ inTurn => inTurn.1
  rwa [foldl_remember] at reached

/-- A walk that succeeds writes something for all of these places, in document order. -/
theorem places_of_outcome {w : Walk} (ends : (ofInput method input params).outcome = .ok w) :
    (ofInput method input params).pieces.filterMap Piece.place? =
      input.locations.filter (Request.of method input params).writes := by
  have final := (along_ofInput_places method input params).of_outcome ends
  rwa [foldl_remember] at final

theorem pieces_fit : ∀ piece ∈ (ofInput method input params).pieces, piece.Fits :=
  (along_ofInput_places method input params).forall_of_ok fun _ _ inTurn => inTurn.2

theorem writes_of_element {r : Request} {loc : Location} (element : loc.element?.isSome = true) :
    r.writes loc = true := by
  obtain ⟨e, here⟩ := Option.isSome_iff_exists.mp element
  obtain ⟨inner, rest, content⟩ := Location.here_of_element? here
  unfold Request.writes
  rw [content]

/-- A walk that succeeds writes something for every element, in document order. -/
theorem elements_of_outcome {w : Walk} (ends : (ofInput method input params).outcome = .ok w) :
    (ofInput method input params).pieces.filterMap Piece.element? =
      input.locations.filter (·.element?.isSome) := by
  have places := congrArg (List.filter (·.element?.isSome)) (places_of_outcome ends)
  rw [List.filter_filterMap, List.filter_filter] at places
  rw [List.filterMap_congr fun piece written => (pieces_fit piece written).element?_eq, places]
  refine List.filter_congr fun loc _ => ?_
  cases element : loc.element?.isSome with
  | false => rfl
  | true => exact writes_of_element element

end Walk

end CanonicalXml
