import CanonicalXml.Proofs.FixedPoint.Tags

/-! # Content that is written again

The content of an element that was read from a canonical form is written as the form spells it.

* `Remark.toList_write` — remarks are written as they stand.
* `Walk.Again` — a walk writes certain characters, and changes nothing.
* `Walk.Again.element`, `Walk.Again.leaf` — so it does for a node with those behind it.
* `Walk.siblings_again` — the content of a canonical form, by induction over the form.
-/

namespace CanonicalXml

/-- A remark that a method writes as it is. -/
theorem Remark.toList_write {method : Method} {remark : Remark}
    (canonical : remark.Canonical method) : remark.leaf.write.toList = '<' :: remark.body := by
  cases remark with
  | comment data =>
    have same : escapeData data = data := canonical.2
    simp [Remark.leaf, Leaf.write, Remark.body, same]
  | instruction target data =>
    have same : escapeData data = data := canonical
    by_cases empty : data = ""
    · simp [Remark.leaf, Leaf.write, Remark.body, Markup.instructionData, empty]
    · simp [Remark.leaf, Leaf.write, Remark.body, Markup.instructionData, empty, same]

namespace Walk

open Transcript Form

/-- From a place on the walk writes these characters, and it leaves the axis as it was. -/
def Again (r : Request) (parentOutput : Bool) (loc : Location) (axis : NamespaceAxis)
    (cs : List Char) : Prop :=
  ∀ comments, ∃ pieces written, (siblingsAt r parentOutput loc ⟨axis, comments⟩).Gives pieces
    ⟨axis, written⟩ ∧ Piece.chars pieces = cs

variable {r : Request} {parentOutput : Bool} {number : Nat} {ancestors : List Ancestor}
  {before : List NodeKind} {axis : NamespaceAxis} {next : Content} {cs : List Char}

theorem Again.nil : Again r parentOutput ⟨number, ancestors, before, .nil⟩ axis [] :=
  fun comments => ⟨[], comments, gives_pure.mpr ⟨rfl, rfl⟩, rfl⟩

theorem Again.leaf {l : Leaf} {first : List Char}
    (here : ∀ comments, ∃ written,
      (Walk.leaf r ⟨axis, comments⟩ ⟨number, ancestors, before, .leaf l next⟩ l).Gives
        [.leaf ⟨number, ancestors, before, .leaf l next⟩ l] ⟨axis, written⟩)
    (spelled : Piece.chars [.leaf ⟨number, ancestors, before, .leaf l next⟩ l] = first)
    (later : Again r parentOutput ⟨number + 1, ancestors, l.kind :: before, next⟩ axis cs) :
    Again r parentOutput ⟨number, ancestors, before, .leaf l next⟩ axis (first ++ cs) := by
  intro comments
  obtain ⟨written, gives⟩ := here comments
  obtain ⟨pieces, last, rest, chars⟩ := later written
  refine ⟨_, last, gives_bind.mpr ⟨_, _, _, gives, rest, rfl⟩, ?_⟩
  rw [Piece.chars_append, spelled, chars]

/-- A remark is written, and comments are at most counted. -/
theorem leaf_again (whole : r.Whole) (unlimited : r.limits = none) {remark : Remark}
    (canonical : remark.Canonical r.method) (loc : Location) (axis : NamespaceAxis)
    (comments : Nat) :
    ∃ written, (Walk.leaf r ⟨axis, comments⟩ loc remark.leaf).Gives [.leaf loc remark.leaf]
      ⟨axis, written⟩ := by
  simp only [Walk.leaf]
  rw [whole.isOutput, unlimited]
  cases remark with
  | comment data =>
    have included : r.method.withComments = true := canonical.1
    rw [included]
    exact ⟨comments + 1, gives_write_pure.mpr ⟨rfl, rfl⟩⟩
  | instruction target data => exact ⟨comments, gives_write_pure.mpr ⟨rfl, rfl⟩⟩

/-- Text inside of an element. -/
theorem Again.textBefore (whole : r.Whole) (inside : ancestors.isEmpty = false) (value : String)
    (later : ∀ number before, Again r parentOutput ⟨number, ancestors, before, next⟩ axis cs) :
    Again r parentOutput ⟨number, ancestors, before, Form.before value next⟩ axis
      ((escapeText value).toList ++ cs) := by
  simp only [Form.before]
  split
  · rename_i empty
    rw [empty]
    exact later number before
  · let loc : Location := ⟨number, ancestors, before, .leaf (.text value) next⟩
    have below : loc.isTop = false := inside
    refine Again.leaf (fun comments => ⟨comments, ?_⟩) (chars_leaf below _) (later _ _)
    simp only [Walk.leaf]
    rw [whole.isOutput, below]
    exact gives_write_pure.mpr ⟨rfl, rfl⟩

/-- A remark inside of an element. -/
theorem Again.remark (whole : r.Whole) (unlimited : r.limits = none)
    (inside : ancestors.isEmpty = false) {remark : Remark}
    (canonical : remark.Canonical r.method)
    (later : ∀ number before, Again r parentOutput ⟨number, ancestors, before, next⟩ axis cs) :
    Again r parentOutput ⟨number, ancestors, before, .leaf remark.leaf next⟩ axis
      ('<' :: (remark.body ++ cs)) := by
  let loc : Location := ⟨number, ancestors, before, .leaf remark.leaf next⟩
  have below : loc.isTop = false := inside
  exact Again.leaf (leaf_again whole unlimited canonical loc axis)
    ((chars_leaf below _).trans (Remark.toList_write canonical)) (later _ _)

/-- An element, whose content is written again inside of it. -/
theorem Again.element {tags : Reader.Tags} {scope : Scope} {name : QName}
    {declarations : List Binding} {attributes : List Item} {inner : Content} {innerCs : List Char}
    (whole : r.Whole) (calm : r.propagateDefault = false) (unlimited : r.limits = none)
    (echo : Echo tags scope ancestors axis)
    (valid : ValidTag scope name declarations attributes)
    (canonical : CanonicalTag r.method r.listed scope name declarations attributes)
    (around : parentOutput = true ∨ ancestors = [])
    (content : ∀ {inside}, Echo ((name.text, declarations) :: tags)
        (Scope.extend declarations scope)
        (ancestorOf scope name declarations attributes number :: ancestors) inside →
      Again r true ⟨number + 1, ancestorOf scope name declarations attributes number :: ancestors,
        [], inner⟩ inside innerCs)
    (later : Again r parentOutput ⟨number + inner.size + 1, ancestors, .element :: before, next⟩
      axis cs) :
    Again r parentOutput ⟨number, ancestors, before,
      .element (elementOf scope name declarations attributes) inner next⟩ axis
      ('<' :: Form.elementText name (items declarations attributes) innerCs cs) := by
  intro comments
  let loc : Location := ⟨number, ancestors, before,
    .element (elementOf scope name declarations attributes) inner next⟩
  have here : Echo tags scope loc.ancestors axis := echo
  obtain ⟨inside, tag, echo', leaves⟩ :=
    startTag_again whole calm unlimited here valid canonical around comments
  obtain ⟨pieces₁, written₁, gives₁, chars₁⟩ := content echo' comments
  obtain ⟨pieces₂, written₂, gives₂, chars₂⟩ := later written₁
  have left : (Walk.leave ⟨inside, written₁⟩ (some name.text)).Gives [.endTag name.text]
      ⟨axis, written₁⟩ := by
    refine gives_write_pure.mpr ⟨rfl, ?_⟩
    rw [leaves]
  refine ⟨_, written₂, gives_bind.mpr ⟨_, _, _, tag, gives_bind.mpr ⟨_, _, _, gives₁,
    gives_bind.mpr ⟨_, _, _, left, gives₂, rfl⟩, rfl⟩, rfl⟩, ?_⟩
  have onTag : (attributes.map (own (Scope.extend declarations scope))).map Attribute.item =
      attributes := by
    rw [List.map_map]
    exact List.map_id _
  rw [List.cons_append, List.nil_append, Piece.chars_startTag, onTag, Piece.chars_append, chars₁,
    List.cons_append, List.nil_append, Piece.chars_endTag, chars₂]
  rfl

/-- The content of a canonical form is written again, by induction over the form. -/
theorem siblings_again (whole : r.Whole) (calm : r.propagateDefault = false)
    (unlimited : r.limits = none) {f : Form} : ∀ (value : String) {number : Nat}
    {ancestors : List Ancestor} {before : List NodeKind} {tags : Reader.Tags} {scope : Scope}
    {axis : NamespaceAxis}, ancestors.isEmpty = false → Echo tags scope ancestors axis →
    f.Valid scope → f.Canonical r.method r.listed scope →
    Again r true ⟨number, ancestors, before, f.tree scope value⟩ axis
      ((escapeText value).toList ++ f.spell) := by
  induction f with
  | nil =>
    intro value number ancestors before tags scope axis inside _ _ _
    exact Again.textBefore whole inside value fun _ _ => Again.nil
  | text more next ih =>
    intro value number ancestors before tags scope axis inside echo valid canonical
    -- Two texts in a row are one text of the content.
    rw [Form.spell, ← List.append_assoc, ← String.toList_append, ← escapeText_append]
    exact ih (value ++ more) inside echo valid.2 canonical
  | remark remark next ih =>
    intro value number ancestors before tags scope axis inside echo valid canonical
    refine Again.textBefore whole inside value fun _ _ => ?_
    exact Again.remark whole unlimited inside canonical.1 fun _ _ =>
      ih "" inside echo valid.2 canonical.2
  | element name declarations attributes inner next ihInner ihNext =>
    intro value number ancestors before tags scope axis inside echo valid canonical
    obtain ⟨validTag, validInner, validNext⟩ := valid
    obtain ⟨canonicalTag, canonicalInner, canonicalNext⟩ := canonical
    refine Again.textBefore whole inside value fun _ _ => ?_
    exact Again.element whole calm unlimited echo validTag canonicalTag (.inl rfl)
      (fun echo' => ihInner "" rfl echo' validInner canonicalInner)
      (ihNext "" inside echo validNext canonicalNext)

end Walk

end CanonicalXml
