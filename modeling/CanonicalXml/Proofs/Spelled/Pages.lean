import CanonicalXml.Proofs.Spelled.Contents
import CanonicalXml.Reading

/-! # Reading pages

A page is a document as it is written: an element with remarks around it.  Between these may stand
white space.

* `Sheet.spell`, `Sheet.tree` — the characters of a page whose content is a script, and the content
  that a reader makes of them.
* `Sheet.read` — a valid page is read back.
* `Page`, `Page.read` — the same for forms, with remarks on lines of their own.
-/

namespace CanonicalXml

/-- A document as it is written, with spelled names. -/
structure Sheet where
  /-- What stands between the remarks and the element. -/
  gap : List Char
  before : List Remark
  name : QName
  items : List SpelledItem
  inner : Script
  after : List Remark

/-- A document as it is written, with remarks on lines of their own. -/
structure Page where
  before : List Remark
  name : QName
  declarations : List Binding
  attributes : List Item
  inner : Form
  after : List Remark

namespace Remark

/-- Remarks that are each followed by a gap. -/
def spellBefore (gap : List Char) (rs : List Remark) (rest : List Char) : List Char :=
  rs.foldr (fun r rest => '<' :: (r.body ++ (gap ++ rest))) rest

theorem length_spellBefore (gap : List Char) (rs : List Remark) (rest : List Char) :
    rest.length ≤ (spellBefore gap rs rest).length := by
  induction rs with
  | nil => exact Nat.le_refl _
  | cons r rs ih =>
    have spelled : spellBefore gap (r :: rs) rest =
        '<' :: (r.body ++ (gap ++ spellBefore gap rs rest)) := rfl
    rw [spelled, List.length_cons, List.length_append, List.length_append]
    omega

/-- Remarks that each follow a gap. -/
def spellAfter (gap : List Char) (rs : List Remark) : List Char :=
  rs.foldr (fun r rest => gap ++ '<' :: (r.body ++ rest)) []

/-- Remarks before other content. -/
def tree (rs : List Remark) (content : Content) : Content :=
  rs.foldr (fun r content => .leaf r.leaf content) content

theorem size_tree (rs : List Remark) (content : Content) :
    (tree rs content).size = rs.length + content.size := by
  induction rs with
  | nil => simp [tree]
  | cons r rs ih =>
    rw [show tree (r :: rs) content = .leaf r.leaf (tree rs content) from rfl, Content.size, ih,
      List.length_cons]
    omega

theorem reverseOnto_tree (rs : List Remark) : ∀ front content : Content,
    Content.reverseOnto front (tree rs content) =
      Content.reverseOnto (Content.reverseOnto front (tree rs .nil)) content := by
  induction rs with
  | nil => exact fun _ _ => rfl
  | cons r rs ih => exact fun front content => ih (.leaf r.leaf front) content

end Remark

namespace Sheet

/-- What is written of the document element and after it. -/
def ending (p : Sheet) : List Char :=
  Script.elementText p.name p.items p.inner.spell (Remark.spellAfter p.gap p.after)

/-- The characters of a page. -/
def spell (p : Sheet) : List Char :=
  Remark.spellBefore p.gap p.before ('<' :: p.ending)

/-- The content of a page. -/
def tree (p : Sheet) : Content :=
  Remark.tree p.before (.element (Script.elementOf [] p.name p.items)
    (p.inner.tree (Script.scopeOf [] p.items) "") (Remark.tree p.after .nil))

/-- A page that can be written. -/
structure Valid (p : Sheet) : Prop where
  white : ∀ c ∈ p.gap, Chars.isSpace c = true
  before : ∀ r ∈ p.before, r.Valid
  tag : Script.ValidTag [] p.name p.items
  inner : p.inner.Valid (Script.scopeOf [] p.items)
  after : ∀ r ∈ p.after, r.Valid

end Sheet

/-! ## Remarks -/

namespace Markup

open Text

variable {after : List Char → List Lexeme} {r : Remark} {gap : List Char}

theorem misc_gap (white : ∀ c ∈ gap, Chars.isSpace c = true) (cs : List Char) :
    misc after (gap ++ cs) = misc after cs := by
  have skipped : skipSpace (gap ++ cs) = skipSpace cs := List.dropWhile_append_of_pos white
  rw [misc, misc, skipped]

theorem skipSpace_markup (cs : List Char) : skipSpace ('<' :: cs) = '<' :: cs :=
  skipSpace_of_ends (ends_cons (by decide))

theorem misc_comment {cs rest : List Char} {l : Lexeme} (read : comment? cs = some (l, rest)) :
    misc after ('<' :: '!' :: '-' :: '-' :: cs) = l :: misc after rest := by
  rw [misc]
  split
  · rename_i found
    rw [skipSpace_markup] at found
    cases found
  · rename_i found
    rw [skipSpace_markup] at found
    cases found
    split
    · rename_i nothing
      rw [read] at nothing
      cases nothing
    · rename_i again
      rw [read] at again
      cases again
      rfl
  · rename_i other
    exact absurd (skipSpace_markup _) (other cs)

theorem misc_instruction {cs rest : List Char} {l : Lexeme}
    (read : instruction? cs = some (l, rest)) :
    misc after ('<' :: '?' :: cs) = l :: misc after rest := by
  rw [misc]
  split
  · rename_i found
    rw [skipSpace_markup] at found
    cases found
    split
    · rename_i nothing
      rw [read] at nothing
      cases nothing
    · rename_i again
      rw [read] at again
      cases again
      rfl
  · rename_i found
    rw [skipSpace_markup] at found
    cases found
  · rename_i other _
    exact absurd (skipSpace_markup _) (other cs)

theorem misc_remark (valid : r.Valid) (rest : List Char) :
    misc after ('<' :: (r.body ++ rest)) = r.lexeme :: misc after rest := by
  have read := r.markup?_append valid 0 rest
  cases r with
  | comment data => exact misc_comment read
  | instruction target data => exact misc_instruction read

theorem misc_end : misc after [] = after [] := by
  rw [misc]
  rfl

theorem misc_before (white : ∀ c ∈ gap, Chars.isSpace c = true) {before : List Remark}
    (valid : ∀ r ∈ before, r.Valid) (rest : List Char) :
    misc after (Remark.spellBefore gap before rest) =
      before.map Remark.lexeme ++ misc after rest := by
  induction before with
  | nil => rfl
  | cons r before ih =>
    obtain ⟨here, later⟩ := List.forall_mem_cons.mp valid
    have spelled : Remark.spellBefore gap (r :: before) rest =
        '<' :: (r.body ++ (gap ++ Remark.spellBefore gap before rest)) := rfl
    rw [spelled, misc_remark here, misc_gap white, ih later]
    rfl

theorem misc_after (white : ∀ c ∈ gap, Chars.isSpace c = true) {behind : List Remark}
    (valid : ∀ r ∈ behind, r.Valid) :
    misc after (Remark.spellAfter gap behind) = behind.map Remark.lexeme ++ after [] := by
  induction behind with
  | nil => exact misc_end
  | cons r behind ih =>
    obtain ⟨here, later⟩ := List.forall_mem_cons.mp valid
    have spelled : Remark.spellAfter gap (r :: behind) =
        gap ++ '<' :: (r.body ++ Remark.spellAfter gap behind) := rfl
    rw [spelled, misc_gap white, misc_remark here, ih later]
    rfl

/-- Other markup is not taken for a remark. -/
theorem misc_element {cs : List Char} (begins : beginsName cs = true) :
    misc after ('<' :: cs) = after ('<' :: cs) := by
  rw [misc]
  split
  · rename_i found
    rw [skipSpace_markup] at found
    cases found
    cases begins
  · rename_i found
    rw [skipSpace_markup] at found
    cases found
    cases begins
  · rw [skipSpace_markup]

/-! ## The document element -/

theorem strip?_of_ne {m : Char} {mark cs : List Char} (c : Char) (other : m ≠ c) :
    strip? (m :: mark) (c :: cs) = none :=
  if_neg other

theorem strip?_element (mark : List Char) {m : Char} {cs : List Char}
    (begins : beginsName cs = true) (other : Chars.isNameStart m = false) :
    strip? ('<' :: m :: mark) ('<' :: cs) = none := by
  cases cs with
  | nil => rfl
  | cons c cs =>
    refine strip?_of_ne c ?_
    rintro rfl
    rw [beginsName, other] at begins
    cases begins

theorem doctype_element {cs : List Char} (begins : beginsName cs = true) (stop : Nat) :
    doctype stop ('<' :: cs) = root stop ('<' :: cs) := by
  simp only [doctype]
  rw [show "<!DOCTYPE".toList = '<' :: '!' :: "DOCTYPE".toList from rfl,
    strip?_element _ begins (by decide)]

theorem strip?_remark (valid : r.Valid) (rest : List Char) :
    strip? "<?xml ".toList ('<' :: (r.body ++ rest)) = none := by
  cases r with
  | comment data => rfl
  | instruction target data =>
    have read := (Remark.instruction target data).markup?_append valid 0 rest
    have declared : strip? "<?xml ".toList
        ('<' :: ((Remark.instruction target data).body ++ rest)) =
        strip? ['x', 'm', 'l', ' ']
          (target.toList ++ (instructionData data.toList ++ ['?', '>']) ++ rest) := rfl
    rw [declared]
    change instruction? (target.toList ++ (instructionData data.toList ++ ['?', '>']) ++ rest) = _
      at read
    simp only [instruction?] at read
    split at read
    · cases read
    · rename_i other
      exact Option.not_isSome_iff_eq_none.mp other

end Markup

namespace Sheet

open Markup

variable {p : Sheet}

theorem ofDocument_spell (valid : p.Valid) :
    ofDocument p.spell =
      p.before.map Remark.lexeme ++ root p.spell.length ('<' :: p.ending) := by
  have begins : beginsName p.ending = true :=
    Reading.begins_elementText valid.tag.wellNamed _ _ _
  have unmarked : Text.strip? ['\uFEFF'] p.spell = none ∧
      Text.strip? "<?xml ".toList p.spell = none := by
    simp only [spell]
    cases before : p.before with
    | nil => exact ⟨rfl, strip?_element _ begins (by decide)⟩
    | cons r before =>
      exact ⟨rfl, strip?_remark (valid.before r (before ▸ List.mem_cons_self)) _⟩
  unfold ofDocument
  rw [unmarked.1, Option.getD_none]
  dsimp only
  rw [unmarked.2]
  dsimp only
  rw [spell, misc_before valid.white valid.before]
  show _ ++ misc _ ('<' :: p.ending) = _
  rw [misc_element begins, doctype_element begins]

end Sheet

/-! ## Drafts of pages -/

namespace Reading

open Markup

variable {nesting : Nat} {expand : List Lexeme → Draft → Except Fault Draft} {d : Draft}

theorem readLexemes_append (ls ls' : List Lexeme) :
    readLexemes nesting expand (ls ++ ls') d =
      readLexemes nesting expand ls d >>= readLexemes nesting expand ls' := by
  rw [readLexemes, List.foldlM_append]

theorem readLexemes_remarks (nesting : Nat) (expand : List Lexeme → Draft → Except Fault Draft)
    (rs : List Remark) : ∀ {d : Draft}, d.afterText = false →
    d.size + rs.length ≤ d.options.nodeLimit →
    readLexemes nesting expand (rs.map Remark.lexeme) d =
      .ok (d.grown (Remark.tree rs .nil) false) := by
  induction rs with
  | nil =>
    intro d fresh _
    exact congrArg Except.ok (d.grown_nil fresh).symm
  | cons r rs ih =>
    intro d fresh limit
    rw [List.length_cons] at limit
    rw [List.map_cons, readLexemes_cons (d.read_remark nesting expand r (by omega)),
      ih (d := d.withLeaf r.leaf) rfl (by
        show d.size + 1 + rs.length ≤ d.options.nodeLimit
        omega)]
    have same := d.withLeaf_grown "" r.leaf (Remark.tree rs .nil) false false
    rw [show Form.before "" .nil = .nil from rfl, d.grown_nil fresh] at same
    rw [same]
    rfl

/-- The document element. -/
theorem readRoot (nesting : Nat) (expand : List Lexeme → Draft → Except Fault Draft)
    {p : Sheet} (valid : p.Valid) (settled : d.Settled) (top : d.outerScope = [])
    {stop : Nat} (within : p.ending.length < stop)
    (limit : d.size + 1 + (p.inner.tree (Script.scopeOf [] p.items) "").size ≤
      d.options.nodeLimit) :
    readLexemes nesting expand (root stop ('<' :: p.ending)) d =
      readLexemes nesting expand (p.after.map Remark.lexeme)
        (d.withElement (Script.elementOf [] p.name p.items)
          (p.inner.tree (Script.scopeOf [] p.items) "")) := by
  obtain ⟨tag, found⟩ := exists_tagOf (Remark.spellAfter p.gap p.after) valid.tag.wellNamed
    valid.tag.writable within
  have opens : Lexeme.levelAfter 0 (.startTag tag) = 1 := by
    rw [Lexeme.levelAfter, if_pos found.opens]
  have opened := Draft.read_startTag nesting expand settled (top ▸ valid.tag) found (by omega)
  let s : Setting := ⟨stop, nesting, misc finish, expand⟩
  have started : root stop ('<' :: p.ending) = .startTag tag :: content stop (misc finish) 1
      (p.inner.spell ++
        '<' :: '/' :: (p.name.text.toList ++ '>' :: Remark.spellAfter p.gap p.after)) := by
    rw [root, Sheet.ending, found.read]
    dsimp only
    rw [if_neg (by rw [opens]; omega)]
  -- The content is read at level one, and the end tag leads back to level zero.
  obtain ⟨b, filled⟩ := (readContent s p.inner).of_empty
    ('/' :: (p.name.text.toList ++ '>' :: Remark.spellAfter p.gap p.after)) 0
    (d := d.inside tag p.name p.items) (Draft.idle_inside settled tag) (by
      rw [Draft.outerScope_inside, top]
      exact valid.inner) (by
      show _ ≤ stop
      simp only [Sheet.ending, Script.elementText, List.length_append, List.length_cons] at within ⊢
      omega) (by
      rw [Draft.size_inside, Draft.options_inside, Draft.outerScope_inside, top]
      exact limit)
  rw [Draft.outerScope_inside, top] at filled
  have closed := Draft.read_endTag nesting expand
    (p.inner.tree (Script.scopeOf [] p.items) "") b settled found
  rw [top] at closed
  have outside : Lexeme.levelAfter 1
      (.endTag p.name (stop - (Remark.spellAfter p.gap p.after).length)) = 0 := rfl
  have closes : markup? stop
      ('/' :: (p.name.text.toList ++ '>' :: Remark.spellAfter p.gap p.after)) =
      some (.endTag p.name (stop - (Remark.spellAfter p.gap p.after).length),
        Remark.spellAfter p.gap p.after) :=
    endTag?_append valid.tag.wellNamed stop _
  rw [started, readLexemes_cons opened]
  refine filled.trans ?_
  have ended : s.after (Remark.spellAfter p.gap p.after) = p.after.map Remark.lexeme := by
    show misc finish _ = _
    rw [misc_after valid.white valid.after, finish, List.append_nil]
  rw [Setting.read, content_close closes outside, readLexemes_cons closed, ended]

/-- A whole page. -/
theorem readPage (nesting : Nat) (expand : List Lexeme → Draft → Except Fault Draft)
    {p : Sheet} (valid : p.Valid) (settled : d.Settled) (top : d.outerScope = [])
    (fresh : d.afterText = false) (limit : d.size + p.tree.size ≤ d.options.nodeLimit) :
    readLexemes nesting expand (ofDocument p.spell) d =
      .ok { d.grown p.tree false with tagSeen := true } := by
  rw [Sheet.tree, Remark.size_tree, Content.size, Remark.size_tree, Content.size] at limit
  have within : p.ending.length < p.spell.length :=
    Remark.length_spellBefore p.gap p.before ('<' :: p.ending)
  have size₁ : (Remark.tree p.before .nil).size = p.before.length := Remark.size_tree _ _
  have first := readLexemes_remarks nesting expand p.before fresh
    (by omega)
  have element := readRoot nesting expand
    (d := d.grown (Remark.tree p.before .nil) false) valid
    ⟨settled.declarations, settled.attributes⟩ top within (by
      show d.size + (Remark.tree p.before .nil).size + 1 + _ ≤ d.options.nodeLimit
      omega)
  have last := readLexemes_remarks nesting expand p.after
    (d := (d.grown (Remark.tree p.before .nil) false).withElement
      (Script.elementOf [] p.name p.items)
      (p.inner.tree (Script.scopeOf [] p.items) "")) rfl (by
      show d.size + (Remark.tree p.before .nil).size + 1 +
        (p.inner.tree (Script.scopeOf [] p.items) "").size + _ ≤ d.options.nodeLimit
      omega)
  rw [p.ofDocument_spell valid, readLexemes_append, first]
  refine element.trans (last.trans (congrArg Except.ok ?_))
  have siblings : Content.reverseOnto (.element
      (Script.elementOf [] p.name p.items)
      (p.inner.tree (Script.scopeOf [] p.items) "")
      (Content.reverseOnto d.siblings (Remark.tree p.before .nil))) (Remark.tree p.after .nil) =
      Content.reverseOnto d.siblings p.tree := by
    rw [Sheet.tree, Remark.reverseOnto_tree p.before d.siblings (.element _ _ _)]
    rfl
  have size : d.size + (Remark.tree p.before .nil).size + 1 +
      (p.inner.tree (Script.scopeOf [] p.items) "").size + (Remark.tree p.after .nil).size =
      d.size + p.tree.size := by
    simp only [Sheet.tree, Remark.size_tree, Content.size]
    omega
  unfold Draft.grown Draft.withElement
  dsimp only
  rw [siblings, size]

end Reading

theorem Content.hasElement_leaf (l : Leaf) (next : Content) :
    (leaf l next).hasElement = next.hasElement := by
  simp only [hasElement]
  rw [kinds, List.contains_cons]
  cases l <;> rfl

theorem Content.count_element_leaf (l : Leaf) (next : Content) :
    (leaf l next).kinds.count .element = next.kinds.count .element :=
  List.count_cons_of_ne (by cases l <;> exact nofun)

theorem Remark.hasElement_tree (rs : List Remark) (content : Content) :
    (tree rs content).hasElement = content.hasElement := by
  induction rs with
  | nil => rfl
  | cons r rs ih => exact (Content.hasElement_leaf r.leaf (tree rs content)).trans ih

theorem Content.hasElement_reverseOnto (front c : Content) :
    (reverseOnto front c).hasElement = (c.hasElement || front.hasElement) := by
  simp only [hasElement]
  induction c generalizing front with
  | nil => rfl
  | leaf l next ih =>
    rw [reverseOnto, ih, kinds, kinds]
    cases l <;> simp [Leaf.kind]
  | element e inner next _ ih =>
    rw [reverseOnto, ih, kinds, kinds]
    simp

theorem Sheet.hasElement_tree (p : Sheet) : p.tree.hasElement = true :=
  Remark.hasElement_tree p.before _

/-- The document of a page. -/
def Sheet.document (p : Sheet) : Document :=
  ⟨String.ofList p.spell, p.tree⟩

/-- A valid page is read back. -/
theorem Sheet.read {p : Sheet} (valid : p.Valid) {options : ReadOptions}
    (limit : p.document.size ≤ options.nodeLimit) :
    Document.read (String.ofList p.spell) options = .ok p.document := by
  have added := Reading.readPage 10 (Reading.Draft.readAll 9 true) valid
    (d := .empty p.spell options) ⟨rfl, rfl⟩ rfl rfl (by
      rw [Nat.add_comm]
      exact limit)
  have found : (Content.reverseOnto .nil p.tree).hasElement = true := by
    rw [Content.hasElement_reverseOnto, p.hasElement_tree, Bool.true_or]
  simp only [Document.read]
  rw [String.toList_ofList]
  show Reading.readLexemes 10 (Reading.Draft.readAll 9 true) _ _ >>= _ = _
  rw [added]
  show Document.ofDraft _ _ = _
  unfold Document.ofDraft Reading.Draft.grown
  dsimp only
  show (if (true && (Content.reverseOnto .nil p.tree).hasElement) = true then _ else _) = _
  rw [found]
  show Except.ok _ = _
  rw [show (Reading.Draft.empty p.spell options).siblings = .nil from rfl,
    Content.reverse_reverseOnto]
  rfl

/-! ## Forms -/

namespace Page

/-- The page with spelled names. -/
def sheet (p : Page) : Sheet where
  gap := ['\n']
  before := p.before
  name := p.name
  items := Form.spelledItems p.declarations p.attributes
  inner := p.inner.script
  after := p.after

/-- The characters of a page. -/
def spell (p : Page) : List Char :=
  Remark.spellBefore ['\n'] p.before ('<' :: Form.elementText p.name
    (Form.items p.declarations p.attributes) p.inner.spell (Remark.spellAfter ['\n'] p.after))

/-- The content of a page. -/
def tree (p : Page) : Content :=
  Remark.tree p.before (.element (Form.elementOf [] p.name p.declarations p.attributes)
    (p.inner.tree (Scope.extend p.declarations []) "") (Remark.tree p.after .nil))

/-- A page that can be written. -/
structure Valid (p : Page) : Prop where
  before : ∀ r ∈ p.before, r.Valid
  tag : Form.ValidTag [] p.name p.declarations p.attributes
  inner : p.inner.Valid (Scope.extend p.declarations [])
  after : ∀ r ∈ p.after, r.Valid

/-- The document of a page. -/
def document (p : Page) : Document :=
  ⟨String.ofList p.spell, p.tree⟩

variable {p : Page}

theorem Valid.sheet (valid : p.Valid) : p.sheet.Valid := by
  refine ⟨List.forall_mem_singleton.mpr rfl, valid.before, valid.tag.script, ?_, valid.after⟩
  show p.inner.script.Valid (Script.scopeOf [] (Form.spelledItems _ _))
  rw [valid.tag.scopeOf_spelled]
  exact valid.inner.script

theorem Valid.document_sheet (valid : p.Valid) : p.sheet.document = p.document := by
  have spelled : p.sheet.spell = p.spell := by
    simp only [Sheet.spell, Sheet.ending, Script.elementText, Page.sheet, spell, Form.elementText]
    rw [Form.spelledItems, SpelledItem.spell_spelled, Form.spell_script]
  have tree : p.sheet.tree = p.tree := by
    simp only [Sheet.tree, Page.sheet, Page.tree]
    rw [valid.tag.elementOf_spelled, valid.tag.scopeOf_spelled, Form.tree_script "" valid.inner]
  rw [Sheet.document, document, spelled, tree]

/-- A valid page is read back. -/
theorem read (valid : p.Valid) {options : ReadOptions}
    (limit : p.document.size ≤ options.nodeLimit) :
    Document.read (String.ofList p.spell) options = .ok p.document := by
  have same := valid.document_sheet
  rw [← same] at limit
  have read := Sheet.read valid.sheet limit
  rw [same] at read
  have text : String.ofList p.sheet.spell = String.ofList p.spell := congrArg Document.text same
  rw [← text]
  exact read

end Page

end CanonicalXml
