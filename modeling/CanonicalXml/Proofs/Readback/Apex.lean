import CanonicalXml.Proofs.Readback.Content

/-! # Pages that are written

What is written of a document or of an element is a page: the document element with remarks around
it, or the apex of a subtree alone.

* `Page.form` — a page as a form.
* `Walk.top_spelled` — the walk writes a page for the children of the document node.
* `Walk.apex_spelled` — it writes one for an element.
-/

namespace CanonicalXml

namespace Remark

/-- Remarks before other content, as a form. -/
def form (rs : List Remark) (f : Form) : Form :=
  rs.foldr Form.remark f

theorem tree_form (rs : List Remark) (f : Form) (scope : Scope) :
    (form rs f).tree scope "" = tree rs (f.tree scope "") := by
  induction rs with
  | nil => rfl
  | cons r rs ih =>
    have first : (form (r :: rs) f).tree scope "" = .leaf r.leaf ((form rs f).tree scope "") := rfl
    rw [first, ih]
    rfl

end Remark

namespace Page

/-- A page as a form. -/
def form (p : Page) : Form :=
  Remark.form p.before
    (.element p.name p.declarations p.attributes p.inner (Remark.form p.after .nil))

theorem tree_form (p : Page) : p.form.tree [] "" = p.tree := by
  simp only [form, Page.tree]
  rw [Remark.tree_form]
  have element : (Form.element p.name p.declarations p.attributes p.inner
      (Remark.form p.after .nil)).tree [] "" =
      .element (Form.elementOf [] p.name p.declarations p.attributes)
        (p.inner.tree (Scope.extend p.declarations []) "")
        ((Remark.form p.after .nil).tree [] "") := rfl
  rw [element, Remark.tree_form]
  rfl

end Page

/-- What was written is a page that says what the source says in its scope. -/
def Piece.SpellPage (r : Request) (pieces : List Piece) (outer : Scope) (source : Content) :
    Prop :=
  ∃ p : Page, p.Valid ∧ chars pieces = p.spell ∧ p.form.Tells r [] outer source

namespace Walk

open Transcript

variable {r : Request} {tags : Reader.Tags} {w w' : Walk} {pieces : List Piece}

/-- What was written is remarks that say what the source says. -/
def SpellRemarks (r : Request) (pieces : List Piece) (source : Content) : Prop :=
  ∃ rs : List Remark, (∀ remark ∈ rs, remark.Valid) ∧
    Piece.chars pieces = Remark.spellAfter ['\n'] rs ∧ (Remark.form rs .nil).Tells r [] [] source

theorem chars_leafAfter {loc : Location} (follows : loc.followsRoot = true)
    (last : loc.precedesRoot = false) (l : Leaf) :
    Piece.chars [.leaf loc l] = '\n' :: l.write.toList := by
  simp only [Piece.chars]
  simp [Piece.text, Location.writeSeparated, follows, last]

theorem chars_leafBefore {loc : Location} (first : loc.followsRoot = false)
    (precedes : loc.precedesRoot = true) (l : Leaf) :
    Piece.chars [.leaf loc l] = l.write.toList ++ ['\n'] := by
  simp only [Piece.chars]
  simp [Piece.text, Location.writeSeparated, first, precedes]

/-- A leaf outside of the document element, if it is written, is a remark. -/
theorem exists_remark_of_top {loc : Location} {l : Leaf} {next : Content} {first : List Piece}
    (top : loc.isTop = true) (sound : l.Sound) (undeclaring : l.Undeclaring)
    (written : first =
      if l.kind = .comment && !r.method.withComments || l.kind = .text && loc.isTop then []
      else [.leaf loc l]) :
    (first = [] ∧ (Content.leaf l next).withoutText.written r.method.withComments =
        next.withoutText.written r.method.withComments) ∨
      ∃ remark : Remark, remark.Valid ∧ remark.Canonical r.method ∧ first = [.leaf loc l] ∧
        l.write.toList = '<' :: remark.body ∧ l.escaped.kind ≠ .text ∧
        remark.leaf = l.escaped ∧
        (Content.leaf l next).withoutText.written r.method.withComments =
          .leaf l.escaped (next.withoutText.written r.method.withComments) := by
  rw [top, Bool.and_true] at written
  rw [Content.withoutText]
  by_cases text : l.kind = .text
  · rw [if_pos text]
    refine .inl ⟨?_, rfl⟩
    rw [written, text]
    exact if_pos (by simp)
  · rw [if_neg text, Content.written]
    rw [decide_eq_false text, Bool.or_false] at written
    by_cases omitted : (l.kind = .comment && !r.method.withComments) = true
    · rw [if_pos omitted] at written ⊢
      exact .inl ⟨written, rfl⟩
    · rw [if_neg omitted] at written ⊢
      obtain ⟨remark, valid, leaf, chars, canonical⟩ :=
        Leaf.exists_remark sound undeclaring text
      have kept : remark.Canonical r.method :=
        canonical _ fun comment => by simpa [comment] using omitted
      have escaped : l.escaped.kind ≠ .text := by
        rwa [Leaf.kind_escaped]
      exact .inr ⟨remark, valid, kept, written, chars, escaped, leaf, rfl⟩

/-- A leaf after the document element is one more remark, if it is written. -/
theorem remarks_of_leaf (whole : r.Whole) {loc : Location} {l : Leaf} {next : Content}
    {first last : List Piece} (gives : (w.leaf r loc l).Gives first w') (top : loc.isTop = true)
    (follows : loc.followsRoot = true) (final : loc.precedesRoot = false) (sound : l.Sound)
    (undeclaring : l.Undeclaring)
    (later : SpellRemarks r last (next.withoutText.written r.method.withComments)) :
    SpellRemarks r (first ++ last)
      ((Content.leaf l next).withoutText.written r.method.withComments) := by
  obtain ⟨rs, valid, chars, tells⟩ := later
  rcases exists_remark_of_top top sound undeclaring (leaf_gives whole gives).2 with
    ⟨nothing, source⟩ | ⟨remark, validHere, kept, piece, leaf, escaped, same, source⟩
  · rw [nothing, source]
    exact ⟨rs, valid, chars, tells⟩
  · rw [piece, source]
    refine ⟨remark :: rs, List.forall_mem_cons.mpr ⟨validHere, valid⟩, ?_,
      tells.remark validHere kept same escaped⟩
    rw [Piece.chars_append, chars_leafAfter follows final l, chars, leaf]
    rfl

/-- After the document element the walk writes remarks. -/
theorem after_spelled (whole : r.Whole) {content : Content}
    (sound : content.All Leaf.Sound Element.Sound)
    (writable : content.All Leaf.Undeclaring Element.Admitted)
    (noElement : content.hasElement = false) : ∀ {number : Nat} {before : List NodeKind}
    {w w' : Walk} {pieces : List Piece}, before.contains .element = true →
    (siblings r false number [] before content w).Gives pieces w' →
    SpellRemarks r pieces (content.withoutText.written r.method.withComments) := by
  induction content with
  | nil =>
    intro number before w w' pieces _ gives
    obtain ⟨rfl, rfl⟩ := gives_pure.mp gives
    exact ⟨[], nofun, rfl, Form.tells_nil _ _ _⟩
  | leaf l next ih =>
    intro number before w w' pieces follows gives
    rw [Content.hasElement_leaf] at noElement
    obtain ⟨w₁, first, last, here, later, rfl⟩ := gives_bind.mp gives
    have followsNext : (l.kind :: before).contains .element = true := by
      rw [List.contains_cons, follows, Bool.or_true]
    exact remarks_of_leaf whole here rfl follows noElement sound.1 writable.1
      (ih sound.2 writable.2 noElement followsNext later)
  | element e inner next _ _ => cases noElement

/-- An element on its own is spelled as a page. -/
theorem page_of_element {a : Ancestor} {above : List Ancestor} {parentOutput : Bool}
    {declarations : List Binding} {items : List Item} {inner : Form}
    {innerSource source : Content} {rest : List Piece}
    (spelled : ElementSpelled r [] a above parentOutput innerSource pieces declarations items
      inner) {rs : List Remark} (valid : ∀ remark ∈ rs, remark.Valid)
    (chars : Piece.chars rest = Remark.spellAfter ['\n'] rs)
    (tells : (Remark.form rs .nil).Tells r [] (Ancestor.scope above) source) :
    Piece.SpellPage r (pieces ++ rest) (Ancestor.scope above)
      (.element (r.carrier parentOutput above a.element) innerSource source) := by
  refine ⟨⟨[], (a.spelling above).name, declarations, items, inner, rs⟩,
    ⟨nofun, spelled.opens.valid, spelled.inner.valid, valid⟩, ?_,
    Form.Tells.element spelled.opens spelled.inner tells⟩
  rw [Piece.chars_append, spelled.chars, chars]
  rfl

/-- A leaf before the document element is one more remark of the page, if it is written. -/
theorem page_of_leaf (whole : r.Whole) {loc : Location} {l : Leaf} {next : Content}
    {first last : List Piece} (gives : (w.leaf r loc l).Gives first w') (top : loc.isTop = true)
    (initial : loc.followsRoot = false) (precedes : loc.precedesRoot = true) (sound : l.Sound)
    (undeclaring : l.Undeclaring)
    (later : Piece.SpellPage r last [] (next.withoutText.written r.method.withComments)) :
    Piece.SpellPage r (first ++ last) []
      ((Content.leaf l next).withoutText.written r.method.withComments) := by
  obtain ⟨p, valid, chars, tells⟩ := later
  rcases exists_remark_of_top top sound undeclaring (leaf_gives whole gives).2 with
    ⟨nothing, source⟩ | ⟨remark, validHere, kept, piece, leaf, escaped, same, source⟩
  · rw [nothing, source]
    exact ⟨p, valid, chars, tells⟩
  · rw [piece, source]
    refine ⟨{ p with before := remark :: p.before },
      ⟨List.forall_mem_cons.mpr ⟨validHere, valid.before⟩, valid.tag, valid.inner, valid.after⟩,
      ?_, tells.remark validHere kept same escaped⟩
    rw [Piece.chars_append, chars_leafBefore initial precedes l, chars, leaf, List.append_assoc]
    rfl

/-- The document element and the remarks after it are written as a page. -/
theorem page_of_root (whole : r.Whole) {e : Element} {inner next : Content} {number : Nat}
    {before : List NodeKind}
    (readable : Readable (Location.allFrom number [] before (.element e inner next))
      (.element e inner next))
    (stage : Stage [] [] [] w.axis) (noElement : next.hasElement = false)
    (gives : (siblings r false number [] before (.element e inner next) w).Gives pieces w') :
    Piece.SpellPage r pieces []
      ((Content.element e inner next).withoutText.written r.method.withComments) := by
  obtain ⟨namesHere, namesBelow⟩ := List.forall_mem_cons.mp readable.names
  obtain ⟨namesInner, -⟩ := List.forall_mem_append.mp namesBelow
  obtain ⟨sound, soundInner, soundNext⟩ := readable.sound
  obtain ⟨admitted, writableInner, writableNext⟩ := readable.writable
  obtain ⟨⟨w₁, closing⟩, pieces₁, afterTag, tag, rest₁, rfl⟩ := gives_bind.mp gives
  obtain ⟨w₂, pieces₂, afterContent, content, rest₂, rfl⟩ := gives_bind.mp rest₁
  obtain ⟨w₃, pieces₃, pieces₄, left, later, rfl⟩ := gives_bind.mp rest₂
  obtain ⟨-, declarations, items, f, spelled⟩ := element_spelled
    ⟨number, [], before, .element e inner next⟩
    (fun closing => siblings r closing (number + 1) [⟨number, e⟩] [] inner)
    whole stage sound admitted (namesHere e rfl) tag
    (fun stage' gives' =>
      siblings_spelled whole rfl stage' ⟨soundInner, writableInner, namesInner⟩ gives')
    content left
  have follows : (NodeKind.element :: before).contains .element = true := by
    rw [List.contains_cons]
    rfl
  obtain ⟨rs, valid, chars, tells⟩ :=
    after_spelled whole soundNext writableNext noElement follows later
  have page := page_of_element spelled valid chars tells
  rw [Request.carrier_top, List.append_assoc, List.append_assoc] at page
  exact page

/-- The children of the document node are written as a page. -/
theorem top_spelled (whole : r.Whole) {content : Content}
    (single : content.kinds.count .element = 1) : ∀ {number : Nat} {before : List NodeKind}
    {w w' : Walk} {pieces : List Piece},
    Readable (Location.allFrom number [] before content) content →
    before.contains .element = false → Stage [] [] [] w.axis →
    (siblings r false number [] before content w).Gives pieces w' →
    Piece.SpellPage r pieces [] (content.withoutText.written r.method.withComments) := by
  induction content with
  | nil => cases single
  | leaf l next ih =>
    intro number before w w' pieces readable precedes stage gives
    have kind : l.kind ≠ .element := by cases l <;> exact nofun
    rw [Content.count_element_leaf] at single
    obtain ⟨w₁, first, last, here, later, rfl⟩ := gives_bind.mp gives
    rw [← (leaf_gives whole here).1] at stage
    have precedesNext : (l.kind :: before).contains .element = false := by
      rw [List.contains_cons, precedes, Bool.or_false]
      exact beq_false_of_ne kind.symm
    -- The only element is still to come.
    have found : next.hasElement = true := by
      simp only [Content.hasElement]
      rw [List.contains_iff_mem, ← List.count_pos_iff, single]
      exact Nat.one_pos
    exact page_of_leaf whole here rfl precedes found readable.sound.1 readable.writable.1
      (ih single ⟨readable.sound.2, readable.writable.2,
        (List.forall_mem_cons.mp readable.names).2⟩ precedesNext stage later)
  | element e inner next _ _ =>
    intro number before w w' pieces readable _ stage gives
    rw [Content.kinds, List.count_cons_self] at single
    have noElement : next.hasElement = false := by
      simp only [Content.hasElement]
      rw [← Bool.not_eq_true, List.contains_iff_mem, ← List.count_pos_iff]
      omega
    exact page_of_root whole readable stage noElement gives

/-- An element is written as a page. -/
theorem apex_spelled (whole : r.Whole) {loc : Location} {e : Element} {inner next : Content}
    (here : loc.here = .element e inner next) (sound : e.Sound) (admitted : e.Admitted)
    (names : Ancestor.NamesAgree ⟨loc.number, e⟩ loc.ancestors)
    (readable : Readable (loc.inside e inner).all inner)
    (stage : Stage [] [] loc.ancestors w.axis) (gives : (nodeAt r false loc w).Gives pieces w') :
    Piece.SpellPage r pieces loc.outerScope (.element (r.carrier false loc.ancestors e)
      (inner.written r.method.withComments) .nil) := by
  simp only [nodeAt] at gives
  rw [here] at gives
  obtain ⟨⟨w₁, closing⟩, pieces₁, afterTag, tag, rest₁, rfl⟩ := gives_bind.mp gives
  obtain ⟨w₂, pieces₂, pieces₃, content, left, rfl⟩ := gives_bind.mp rest₁
  obtain ⟨-, declarations, items, f, spelled⟩ := element_spelled loc
    (fun closing => siblingsAt r closing (loc.inside e inner))
    whole stage sound admitted names tag
    (fun stage' gives' => siblings_spelled whole rfl stage' readable gives') content left
  have page := page_of_element spelled (List.forall_mem_nil _)
    (show Piece.chars [] = Remark.spellAfter ['\n'] [] from rfl) (Form.tells_nil _ [] _)
  rw [List.append_nil] at page
  exact page

end Walk

end CanonicalXml
