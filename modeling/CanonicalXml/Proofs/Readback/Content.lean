import CanonicalXml.Proofs.Readback.Tags
import CanonicalXml.Proofs.Spelled.Pages

/-! # Content that is read back

The content of an element is written as a form, and the form says what the content says.

* `Piece.chars` — the characters of pieces.
* `Form.Tells` — a form that says what some content says.
* `Walk.siblings_spelled` — the walk writes such a form, by induction over the content.
-/

namespace CanonicalXml

/-! ## Characters -/

namespace Piece

/-- The characters of pieces. -/
def chars (pieces : List Piece) : List Char :=
  pieces.flatMap (·.text.toList)

theorem chars_append (first last : List Piece) :
    chars (first ++ last) = chars first ++ chars last :=
  List.flatMap_append

theorem toList_writeBinding (b : Binding) : b.write.toList = ' ' :: b.item.body := by
  simp only [Binding.write, Binding.item, Item.body]
  by_cases default : b.nsPrefix = ""
  · simp [default]
  · simp [default, QName.text_prefixed (show xmlnsPrefix ≠ "" by decide)]

theorem toList_writeAttribute (own : Attribute × String) :
    (Attribute.written own).write.toList = ' ' :: (Attribute.item own).body := by
  simp only [WrittenAttribute.write, Item.body, Attribute.written, WrittenAttribute.of,
    Attribute.item]
  simp

theorem chars_startTag (loc : Location) (name : QName) (declarations : List Binding)
    (owns : List (Attribute × String)) (rest : List Piece) :
    chars (.startTag loc name.text declarations (owns.map Attribute.written) :: rest) =
      '<' :: (name.text.toList ++
        (Item.spell (Form.items declarations (owns.map Attribute.item)) ++ '>' :: chars rest)) := by
  have declared : (String.join (declarations.map Binding.write)).toList =
      Item.spell (declarations.map Binding.item) := by
    rw [String.toList_join]
    simp only [Item.spell, List.flatMap_map, toList_writeBinding]
  have attributed : (String.join ((owns.map Attribute.written).map WrittenAttribute.write)).toList =
      Item.spell (owns.map Attribute.item) := by
    rw [String.toList_join]
    simp only [Item.spell, List.flatMap_map, toList_writeAttribute]
  have both : Item.spell (Form.items declarations (owns.map Attribute.item)) =
      Item.spell (declarations.map Binding.item) ++ Item.spell (owns.map Attribute.item) :=
    List.flatMap_append
  simp only [chars]
  rw [List.flatMap_cons, Piece.text]
  simp only [String.toList_append, declared, attributed, both]
  simp

theorem chars_endTag (qname : String) (rest : List Piece) :
    chars (.endTag qname :: rest) = '<' :: '/' :: (qname.toList ++ '>' :: chars rest) := by
  simp only [chars]
  rw [List.flatMap_cons, Piece.text]
  simp

end Piece

/-! ## Leaves -/

/-- A comment or an instruction is written as a remark. -/
theorem Leaf.exists_remark {l : Leaf} (sound : l.Sound) (undeclaring : l.Undeclaring)
    (notText : l.kind ≠ .text) :
    ∃ r : Remark, r.Valid ∧ r.leaf = l.escaped ∧ l.write.toList = '<' :: r.body ∧
      ∀ method : Method, (l.kind = .comment → method.withComments = true) →
        r.Canonical method := by
  cases l with
  | text value => exact absurd rfl notText
  | comment data =>
    refine ⟨.comment (escapeData data), Markup.CommentText.escape sound, rfl, ?_,
      fun method included => ⟨included rfl, escapeData_escapeData data⟩⟩
    simp [Leaf.write, Remark.body]
  | instruction target data =>
    cases data with
    | none =>
      have plain : Markup.InstructionText target.toList "".toList :=
        ⟨sound, List.forall_mem_nil _, rfl, Text.ends_nil, fun _ => rfl⟩
      refine ⟨.instruction target "", plain, rfl, ?_, fun _ _ => rfl⟩
      simp [Leaf.write, Remark.body, Markup.instructionData]
    | some data =>
      obtain ⟨nonempty, named, admitted, noMark, first⟩ := sound
      have plain : Markup.InstructionText target.toList data.toList := by
        refine ⟨named, admitted, noMark, first, fun xml => ?_⟩
        exact absurd (String.toList_inj.mp xml) undeclaring
      have escaped := Markup.escapeData_ne_empty nonempty
      refine ⟨.instruction target (escapeData data), Markup.InstructionText.escape plain, ?_, ?_,
        fun _ _ => escapeData_escapeData data⟩
      · exact congrArg (Leaf.instruction target) (if_neg escaped)
      · simp [Leaf.write, Remark.body, Markup.instructionData, nonempty, escaped]

namespace Walk

open Transcript

variable {r : Request}

/-- A leaf is written, unless it is a comment that is left out, or text outside of the document
element. -/
theorem leaf_gives {w w' : Walk} {loc : Location} {l : Leaf} {pieces : List Piece}
    (whole : r.Whole) (gives : (w.leaf r loc l).Gives pieces w') :
    w'.axis = w.axis ∧ pieces =
      if l.kind = .comment && !r.method.withComments || l.kind = .text && loc.isTop then []
      else [.leaf loc l] := by
  simp only [Walk.leaf] at gives
  rw [whole.isOutput] at gives
  cases l with
  | text value =>
    cases top : loc.isTop with
    | true =>
      rw [top] at gives
      obtain ⟨rfl, rfl⟩ := gives_pure.mp gives
      exact ⟨rfl, rfl⟩
    | false =>
      rw [top] at gives
      obtain ⟨rfl, rfl⟩ := gives_write_pure.mp gives
      exact ⟨rfl, rfl⟩
  | comment value =>
    cases included : r.method.withComments with
    | true =>
      -- Comments are counted, which may fail but writes nothing.
      rw [included] at gives
      obtain ⟨_, _, _, check, rest, rfl⟩ := gives_bind.mp gives
      obtain ⟨rfl, rfl⟩ := gives_write_pure.mp rest
      rw [(gives_ofExcept.mp check).1]
      exact ⟨rfl, rfl⟩
    | false =>
      rw [included] at gives
      obtain ⟨rfl, rfl⟩ := gives_pure.mp gives
      exact ⟨rfl, rfl⟩
  | instruction target data =>
    obtain ⟨rfl, rfl⟩ := gives_write_pure.mp gives
    exact ⟨rfl, rfl⟩

end Walk

/-! ## Forms -/

/-- The form can be written in a scope, as the method does, and tells there what the source tells
in its own. -/
structure Form.Tells (f : Form) (r : Request) (scope outer : Scope) (source : Content) : Prop where
  valid : f.Valid scope
  canonical : r.propagateDefault = false → f.Canonical r.method r.listed scope
  tells : ∀ value, (f.tree scope value).view scope "" = source.view outer value
  small : ∀ value, (f.tree scope value).size ≤ (before value .nil).size + source.size

namespace Form

variable {r : Request} {scope outer : Scope} {source : Content} {f : Form}

theorem view_before (scope : Scope) (value : String) (content : Content) :
    (before value content).view scope "" = content.view scope value := by
  simp only [before]
  split
  · rename_i empty
    rw [empty]
  · rw [Content.view, String.empty_append]

theorem tells_nil (r : Request) (scope outer : Scope) : nil.Tells r scope outer .nil := by
  refine ⟨trivial, fun _ => trivial, fun value => ?_, fun value => Nat.le_refl _⟩
  exact view_before scope value .nil

theorem Tells.text (tells : f.Tells r scope outer source) {value : String}
    (admitted : ∀ c ∈ value.toList, Chars.isXml c = true) :
    (Form.text value f).Tells r scope outer (.leaf (.text value) source) := by
  refine ⟨⟨admitted, tells.valid⟩, tells.canonical, fun before => tells.tells (before ++ value),
    fun before => ?_⟩
  have small := tells.small (before ++ value)
  -- Two texts are read as one, which is no more than the second of them.
  have joined : (Form.before (before ++ value) .nil).size ≤
      (Form.before before .nil).size + 1 := by
    simp only [Form.before]
    split
    · simp [Content.size]
    · split
      · simp [Content.size]
      · simp [Content.size]
  rw [Content.size]
  rw [tree]
  omega

theorem Tells.remark (tells : f.Tells r scope outer source) {remark : Remark} {l : Leaf}
    (valid : remark.Valid) (canonical : remark.Canonical r.method) (leaf : remark.leaf = l)
    (notText : l.kind ≠ .text) :
    (Form.remark remark f).Tells r scope outer (.leaf l source) := by
  refine ⟨⟨valid, tells.valid⟩, fun calm => ⟨canonical, tells.canonical calm⟩, fun value => ?_,
    fun value => ?_⟩
  · rw [tree, view_before, leaf, Content.view_leaf notText, Content.view_leaf notText, tells.tells]
  · have small := tells.small ""
    rw [tree, Reading.size_before, Content.size, Content.size]
    rw [show Form.before "" .nil = .nil from rfl, Content.size] at small
    omega

/-- The name of an element that was read from a form. -/
theorem name_elementOf {name : QName} (valid : name.Valid) (scope : Scope)
    (declarations : List Binding) (items : List Item) :
    (Spelling.of scope (elementOf scope name declarations items)).name = name := by
  show QName.mk (QName.ofText name.text).nsPrefix name.localName = name
  rw [valid.ofText_text]

/-- An element, whose content is told by a form. -/
theorem Tells.element {a : Ancestor} {above : List Ancestor} {parentOutput : Bool}
    {declarations : List Binding} {items : List Item} {inner : Form} {innerSource : Content}
    (opens : Opens r scope a above parentOutput declarations items)
    (innerTells : inner.Tells r (Scope.extend declarations scope) a.element.scope innerSource)
    (tells : f.Tells r scope (Ancestor.scope above) source) :
    (Form.element (a.spelling above).name declarations items inner f).Tells r scope
      (Ancestor.scope above)
      (.element (r.carrier parentOutput above a.element) innerSource source) := by
  have carried : (r.carrier parentOutput above a.element).scope = a.element.scope ∧
      (r.carrier parentOutput above a.element).nsUri? = a.element.nsUri? ∧
      (Spelling.of (Ancestor.scope above) (r.carrier parentOutput above a.element)).name =
        (a.spelling above).name := by
    -- What an element takes from around it are attributes only.
    simp only [Request.carrier]
    split
    · exact ⟨rfl, rfl, rfl⟩
    · exact ⟨rfl, rfl, rfl⟩
  refine ⟨⟨opens.valid, innerTells.valid, tells.valid⟩, fun calm => ⟨opens.canonical calm,
    innerTells.canonical calm, tells.canonical calm⟩, fun value => ?_, fun value => ?_⟩
  · rw [tree, view_before, Content.view, Content.view, name_elementOf opens.valid.wellNamed,
      tells.tells, carried.1, carried.2.1, carried.2.2]
    have sameInner : (inner.tree (Scope.extend declarations scope) "").view
        (elementOf scope (a.spelling above).name declarations items).scope "" =
        innerSource.view a.element.scope "" := innerTells.tells ""
    have sameUri : (elementOf scope (a.spelling above).name declarations items).nsUri?.getD "" =
        a.element.nsUri?.getD "" := opens.uri
    have sameAttributes : ((elementOf scope (a.spelling above).name declarations items).attributes :
        Multiset Attribute) = (r.carrier parentOutput above a.element).attributes :=
      Multiset.coe_eq_coe.mpr opens.attributes
    rw [sameInner, sameUri, sameAttributes]
  · have small := tells.small ""
    have innerSmall := innerTells.small ""
    rw [tree, Reading.size_before, Content.size, Content.size]
    rw [show Form.before "" .nil = .nil from rfl, Content.size] at small innerSmall
    omega

end Form

/-! ## The walk -/

/-- What was written is a form of the source in a scope. -/
def Piece.Spell (r : Request) (pieces : List Piece) (scope outer : Scope) (source : Content) :
    Prop :=
  ∃ f : Form, chars pieces = f.spell ∧ f.Tells r scope outer source

/-- What was written is an element, whose content is a form of the source. -/
structure ElementSpelled (r : Request) (scope : Scope) (a : Ancestor) (above : List Ancestor)
    (parentOutput : Bool) (innerSource : Content) (pieces : List Piece)
    (declarations : List Binding) (items : List Item) (inner : Form) : Prop where
  chars : ∀ rest, Piece.chars pieces ++ rest = '<' :: Form.elementText
    (a.spelling above).name (Form.items declarations items) inner.spell rest
  opens : Opens r scope a above parentOutput declarations items
  inner : inner.Tells r (Scope.extend declarations scope) a.element.scope innerSource

namespace Walk

open Transcript

variable {r : Request} {tags : Reader.Tags} {scope : Scope}

theorem element_spelled (loc : Location) (children : Bool → Walk → Transcript Piece Walk)
    {e : Element} {parentOutput : Bool} {closing : Option String} {w₀ w₁ w₂ w₃ : Walk}
    {pieces₁ pieces₂ pieces₃ : List Piece} {innerSource : Content} (whole : r.Whole)
    (stage : Stage tags scope loc.ancestors w₀.axis) (sound : e.Sound) (admitted : e.Admitted)
    (names : Ancestor.NamesAgree ⟨loc.number, e⟩ loc.ancestors)
    (tag : (w₀.startTag r loc e parentOutput).Gives pieces₁ (w₁, closing))
    (inside : ∀ {tags scope}, Stage tags scope (⟨loc.number, e⟩ :: loc.ancestors) w₁.axis →
      (children true w₁).Gives pieces₂ w₂ →
      w₂.axis = w₁.axis ∧ Piece.Spell r pieces₂ scope e.scope innerSource)
    (content : (children closing.isSome w₁).Gives pieces₂ w₂)
    (left : (w₂.leave closing).Gives pieces₃ w₃) :
    w₃.axis = w₀.axis ∧ ∃ declarations items inner, ElementSpelled r scope ⟨loc.number, e⟩
      loc.ancestors parentOutput innerSource (pieces₁ ++ (pieces₂ ++ pieces₃)) declarations items
      inner := by
  obtain ⟨declarations, owns, rfl, rfl, opens, stage', leaves⟩ :=
    startTag_gives whole stage sound admitted names tag
  obtain ⟨sameAxis, inner, spelled, tells⟩ := inside stage' content
  obtain ⟨_, _, _, endTag, last, rfl⟩ := gives_bind.mp left
  obtain ⟨rfl, rfl⟩ := gives_pure.mp last
  rw [gives_write.mp endTag]
  constructor
  · show w₂.axis.leave = w₀.axis
    rw [sameAxis, leaves]
  · refine ⟨declarations, owns.map Attribute.item, inner, ?_, opens, tells⟩
    intro rest
    rw [List.cons_append, List.nil_append, Piece.chars_startTag]
    have closed : Piece.chars (pieces₂ ++ ([.endTag (loc.spelling e).name.text] ++ [])) =
        inner.spell ++ '<' :: '/' :: ((loc.spelling e).name.text.toList ++ ['>']) := by
      rw [Piece.chars_append, spelled, List.append_nil, Piece.chars_endTag]
      rfl
    rw [closed]
    simp [Form.elementText, Ancestor.spelling, Location.spelling, Location.outerScope]

/-- Content that was read, whose names agree, and that can be written. -/
structure Readable (locations : List Location) (content : Content) : Prop where
  sound : content.All Leaf.Sound Element.Sound
  writable : content.All Leaf.Undeclaring Element.Admitted
  names : ∀ loc ∈ locations, ∀ e ∈ loc.element?,
    Ancestor.NamesAgree ⟨loc.number, e⟩ loc.ancestors

theorem text_leaf {loc : Location} (inside : loc.isTop = false) (l : Leaf) :
    (Piece.leaf loc l).text = l.write := by
  simp [Piece.text, Location.writeSeparated, Location.followsRoot, Location.precedesRoot, inside]

theorem chars_leaf {loc : Location} (inside : loc.isTop = false) (l : Leaf) :
    Piece.chars [.leaf loc l] = l.write.toList := by
  simp [Piece.chars, text_leaf inside]

/-- A leaf inside of an element, before content that is spelled. -/
theorem leaf_spelled (loc : Location) {l : Leaf} {next : Content} {outer : Scope}
    {first last : List Piece} (inside : loc.isTop = false) (sound : l.Sound)
    (undeclaring : l.Undeclaring)
    (written : first =
      if l.kind = .comment && !r.method.withComments || l.kind = .text && loc.isTop then []
      else [.leaf loc l])
    (spells : Piece.Spell r last scope outer (next.written r.method.withComments)) :
    Piece.Spell r (first ++ last) scope outer
      ((Content.leaf l next).written r.method.withComments) := by
  obtain ⟨f, spelled, tells⟩ := spells
  rw [inside, Bool.and_false, Bool.or_false] at written
  simp only [Content.written]
  split at written
  · rename_i omitted
    rw [if_pos omitted, written]
    exact ⟨f, spelled, tells⟩
  · rename_i included
    rw [if_neg included, written]
    by_cases text : l.kind = .text
    · cases l with
      | text value =>
        refine ⟨.text value f, ?_, tells.text sound⟩
        rw [Piece.chars_append, chars_leaf inside, spelled]
        rfl
      | comment _ | instruction _ _ => cases text
    · obtain ⟨remark, valid, leaf, chars, canonical⟩ := Leaf.exists_remark sound undeclaring text
      have kept : remark.Canonical r.method :=
        canonical _ fun comment => by simpa [comment] using included
      refine ⟨.remark remark f, ?_, tells.remark valid kept leaf ?_⟩
      · rw [Piece.chars_append, chars_leaf inside, spelled, chars]
        rfl
      · rwa [Leaf.kind_escaped]

/-- Inside of an element the walk writes a form of the content, by induction over the content. -/
theorem siblings_spelled (whole : r.Whole) {content : Content} : ∀ {number : Nat}
    {ancestors : List Ancestor} {before : List NodeKind} {tags : Reader.Tags} {scope : Scope}
    {w w' : Walk} {pieces : List Piece}, ancestors.isEmpty = false →
    Stage tags scope ancestors w.axis →
    Readable (Location.allFrom number ancestors before content) content →
    (siblings r true number ancestors before content w).Gives pieces w' →
    w'.axis = w.axis ∧ Piece.Spell r pieces scope (Ancestor.scope ancestors)
      (content.written r.method.withComments) := by
  induction content with
  | nil =>
    intro number ancestors before tags scope w w' pieces _ stage _ gives
    obtain ⟨rfl, rfl⟩ := gives_pure.mp gives
    exact ⟨rfl, .nil, rfl, Form.tells_nil _ _ _⟩
  | leaf l next ih =>
    -- A leaf leaves the axis as it is.
    intro number ancestors before tags scope w w' pieces inside stage readable gives
    obtain ⟨w₁, first, last, here, later, rfl⟩ := gives_bind.mp gives
    obtain ⟨sameAxis, written⟩ := leaf_gives whole here
    have readableNext : Readable (Location.allFrom (number + 1) ancestors (l.kind :: before) next)
        next := ⟨readable.sound.2, readable.writable.2, (List.forall_mem_cons.mp readable.names).2⟩
    rw [← sameAxis] at stage
    obtain ⟨sameAxis', spells⟩ := ih inside stage readableNext later
    exact ⟨sameAxis'.trans sameAxis,
      leaf_spelled ⟨number, ancestors, before, .leaf l next⟩ inside readable.sound.1
        readable.writable.1 written spells⟩
  | element e inner next ihInner ihNext =>
    intro number ancestors before tags scope w w' pieces inside stage readable gives
    obtain ⟨namesHere, namesBelow⟩ := List.forall_mem_cons.mp readable.names
    obtain ⟨namesInner, namesNext⟩ := List.forall_mem_append.mp namesBelow
    obtain ⟨sound, soundInner, soundNext⟩ := readable.sound
    obtain ⟨admitted, writableInner, writableNext⟩ := readable.writable
    obtain ⟨⟨w₁, closing⟩, pieces₁, afterTag, tag, rest₁, rfl⟩ := gives_bind.mp gives
    obtain ⟨w₂, pieces₂, afterContent, content, rest₂, rfl⟩ := gives_bind.mp rest₁
    obtain ⟨w₃, pieces₃, pieces₄, left, later, rfl⟩ := gives_bind.mp rest₂
    obtain ⟨sameAxis, declarations, items, f, spelled⟩ := element_spelled
      ⟨number, ancestors, before, .element e inner next⟩
      (fun closing => siblings r closing (number + 1) (⟨number, e⟩ :: ancestors) [] inner)
      whole stage sound admitted (namesHere e rfl) tag
      (fun stage' gives' => ihInner rfl stage' ⟨soundInner, writableInner, namesInner⟩ gives')
      content left
    -- The stage after an element is the one before it.
    rw [← sameAxis] at stage
    obtain ⟨sameAxis', g, spelledNext, tells⟩ := ihNext inside stage
      ⟨soundNext, writableNext, namesNext⟩ later
    refine ⟨sameAxis'.trans sameAxis, ?_⟩
    refine ⟨.element (Ancestor.spelling ⟨number, e⟩ ancestors).name declarations items f g, ?_,
      Form.Tells.element spelled.opens spelled.inner tells⟩
    have chars := spelled.chars g.spell
    rw [← spelledNext, ← Piece.chars_append, List.append_assoc, List.append_assoc] at chars
    rw [chars, spelledNext]
    rfl

end Walk

end CanonicalXml
