import CanonicalXml.Proofs.Spelled.Drafts

/-! # Reading scripts

Reading the characters of a script adds its content to a draft.

* `Markup.content_markup`, `Markup.content_text` — one step of the reader of content.
* `Draft.grown` — a draft with more content.
* `Setting.read` — reading inside of elements, with a lemma for each thing that is read.
* `Setting.Reads` — a script is read as its content, with a lemma for each kind of node;
  `readContent` is the induction over scripts.
-/

namespace CanonicalXml

open Text

/-! ## Reversed content -/

namespace Content

theorem reverse_reverseOnto (back c : Content) :
    (reverseOnto back c).reverse = reverseOnto c back := by
  simp only [reverse]
  induction c generalizing back with
  | nil => rfl
  | leaf l next ih => exact ih (.leaf l back)
  | element e inner next _ ih => exact ih (.element e inner back)

end Content

/-! ## Steps of the reader -/

namespace Markup

variable {stop level : Nat} {after : List Char → List Lexeme} {cs rest : List Char} {l : Lexeme}

/-- After markup reading goes on, unless no element is open any more. -/
theorem content_lexeme (read : markup? stop cs = some (l, rest)) :
    content stop after level ('<' :: cs) =
      if l.levelAfter level = 0 then l :: after rest
      else l :: content stop after (l.levelAfter level) rest := by
  rw [content, dif_pos rfl]
  split
  · rename_i nothing
    rw [read] at nothing
    cases nothing
  · rename_i found
    rw [read] at found
    cases found
    rfl

theorem content_markup (read : markup? stop cs = some (l, rest))
    (inside : l.levelAfter level ≠ 0) :
    content stop after level ('<' :: cs) =
      l :: content stop after (l.levelAfter level) rest :=
  (content_lexeme read).trans (if_neg inside)

theorem content_close (read : markup? stop cs = some (l, rest))
    (outside : l.levelAfter level = 0) :
    content stop after level ('<' :: cs) = l :: after rest :=
  (content_lexeme read).trans (if_pos outside)

theorem content_text {c : Char} (plain : c ≠ '<') (read : text? (c :: cs) = some (l, rest)) :
    content stop after level (c :: cs) = l :: content stop after level rest := by
  rw [content, dif_neg plain]
  split
  · rename_i nothing
    rw [read] at nothing
    cases nothing
  · rename_i found
    rw [read] at found
    cases found
    rfl

theorem markup?_startTag (begins : beginsName cs = true) :
    markup? stop cs = startTag? stop cs := by
  simp only [markup?]
  split
  · cases begins
  · cases begins
  · cases begins
  · cases begins
  · rfl

end Markup

namespace Reading

open Markup

/-- Adds lexemes of a document's own text. -/
abbrev readLexemes (nesting : Nat) (expand : List Lexeme → Draft → Except Fault Draft)
    (ls : List Lexeme) (d : Draft) : Except Fault Draft :=
  ls.foldlM (Draft.read nesting false expand) d

namespace Draft

/-- A draft with more content. -/
def grown (d : Draft) (c : Content) (afterText : Bool) : Draft :=
  { d with
    siblings := Content.reverseOnto d.siblings c
    size := d.size + c.size
    afterText := afterText }

/-- Content can be added. -/
structure Idle (d : Draft) : Prop where
  settled : d.Settled
  fresh : d.afterText = false
  seen : d.tagSeen = true

section Fields

variable (d : Draft) (c : Content) (b : Bool) (l : Leaf)

@[simp] theorem size_grown : (d.grown c b).size = d.size + c.size := rfl

@[simp] theorem options_grown : (d.grown c b).options = d.options := rfl

@[simp] theorem outerScope_grown : (d.grown c b).outerScope = d.outerScope := rfl

@[simp] theorem size_withLeaf : (d.withLeaf l).size = d.size + 1 := rfl

@[simp] theorem options_withLeaf : (d.withLeaf l).options = d.options := rfl

@[simp] theorem outerScope_withLeaf : (d.withLeaf l).outerScope = d.outerScope := rfl

end Fields

theorem Idle.withLeaf {d : Draft} (idle : d.Idle) (c : Content) (b : Bool) (l : Leaf) :
    ((d.grown c b).withLeaf l).Idle :=
  ⟨⟨idle.settled.declarations, idle.settled.attributes⟩, rfl, idle.seen⟩

theorem grown_nil (d : Draft) (fresh : d.afterText = false) : d.grown .nil false = d := by
  obtain ⟨source, options, entities, size, opened, siblings, afterText, declarations, attributes,
    tagSeen, references⟩ := d
  cases fresh
  rfl

theorem withLeaf_grown (d : Draft) (value : String) (l : Leaf) (c : Content) (b b' : Bool) :
    ((d.grown (Form.before value .nil) b).withLeaf l).grown c b' =
      d.grown (Form.before value (.leaf l c)) b' := by
  simp only [Form.before]
  split
  · simp [grown, withLeaf, Content.reverseOnto, Content.size]
    omega
  · simp [grown, withLeaf, Content.reverseOnto, Content.size]
    omega

end Draft

variable {stop nesting level : Nat} {after : List Char → List Lexeme}
  {expand : List Lexeme → Draft → Except Fault Draft} {d : Draft} {rest : List Char}

/-- A lexeme that is added. -/
theorem readLexemes_cons {l : Lexeme} {ls : List Lexeme} {d' : Draft}
    (added : d.read nesting false expand l = .ok d') :
    readLexemes nesting expand (l :: ls) d = readLexemes nesting expand ls d' := by
  rw [readLexemes, List.foldlM_cons, added]
  rfl

/-- What stays the same while content is read. -/
structure Setting where
  stop : Nat
  nesting : Nat
  after : List Char → List Lexeme
  expand : List Lexeme → Draft → Except Fault Draft

/-- Reads characters inside of elements. -/
def Setting.read (s : Setting) (level : Nat) (cs : List Char) (d : Draft) : Except Fault Draft :=
  readLexemes s.nesting s.expand (content s.stop s.after level cs) d

namespace Setting

variable {s : Setting} {value : String}

theorem read_markup (s : Setting) (level : Nat) {cs : List Char} {l : Lexeme} {d' : Draft}
    (read : markup? s.stop cs = some (l, rest)) (inside : l.levelAfter level ≠ 0)
    (added : d.read s.nesting false s.expand l = .ok d') :
    s.read level ('<' :: cs) d = s.read (l.levelAfter level) rest d' := by
  rw [Setting.read, content_markup read inside]
  exact readLexemes_cons added

/-- Text before markup is added to the draft. -/
theorem read_pending (s : Setting) (level : Nat) (rest : List Char) (idle : d.Idle)
    (admitted : ∀ c ∈ value.toList, Chars.isXml c = true)
    (limit : d.size + (Form.before value .nil).size ≤ d.options.nodeLimit) :
    ∃ b, s.read level ((escapeText value).toList ++ '<' :: rest) d =
      s.read level ('<' :: rest) (d.grown (Form.before value .nil) b) := by
  by_cases empty : value = ""
  · -- Nothing is pending, and a draft without more content is the draft itself.
    refine ⟨false, ?_⟩
    subst empty
    rw [show Form.before "" .nil = .nil from if_pos rfl, d.grown_nil idle.fresh]
    rfl
  · refine ⟨true, ?_⟩
    have read := text?_append admitted rest
    have limit' : d.size < d.options.nodeLimit := by
      rw [Form.before, if_neg empty] at limit
      exact limit
    have added : d.read s.nesting false s.expand (.text (escapeText value).toList) =
        .ok (d.grown (Form.before value .nil) true) := by
      rw [Form.before, if_neg empty]
      refine (d.readText_escaped s.expand value).trans ?_
      rw [if_neg empty, Draft.appendText_fresh value idle.fresh limit']
      rfl
    -- The reader sees that text begins, since no angle bracket is left in it.
    cases spelled : (escapeText value).toList with
    | nil => exact absurd spelled (refers_textReference.escaped_ne_nil empty)
    | cons c cs =>
      have plain : c ≠ '<' := by
        rintro rfl
        have member : '<' ∈ (escapeText value).toList := by
          rw [spelled]
          exact List.mem_cons_self
        rw [escapeText, Escape.toList_escapeWith] at member
        exact Escape.not_mem_escapedText (.inl rfl) _ member
      rw [spelled] at read added
      rw [List.cons_append] at read ⊢
      rw [Setting.read, content_text plain read]
      exact readLexemes_cons added

end Setting

/-! ## Elements -/

/-- A start tag whose element ends before `rest`. -/
structure TagOf (stop : Nat) (name : QName) (items : List SpelledItem) (inner rest : List Char)
    (tag : Tag) : Prop where
  read : startTag? stop (Script.elementText name items inner rest) =
    some (.startTag tag, inner ++ '<' :: '/' :: (name.text.toList ++ '>' :: rest))
  named : tag.name = name
  opens : tag.ending = .opens
  spells : Draft.Spells tag.attributes items
  /-- How the tag is spelled is found out when its element is closed. -/
  spelled : Draft.spelled? tag (stop - rest.length) = some ⟨name.text, items.map SpelledItem.raw⟩

theorem exists_tagOf (rest : List Char) {name : QName} (valid : name.Valid)
    {items : List SpelledItem} (validItems : ∀ i ∈ items, i.Valid) {inner : List Char}
    (within : (Script.elementText name items inner rest).length < stop) :
    ∃ tag, TagOf stop name items inner rest tag := by
  obtain ⟨tag, read, named, text, start, opens, spells⟩ := startTag?_append valid validItems stop
    (inner ++ '<' :: '/' :: (name.text.toList ++ '>' :: rest))
  refine ⟨tag, read, named, opens, spells, ?_⟩
  have shorter : rest.length < (Script.elementText name items inner rest).length := by
    simp [Script.elementText]
    omega
  have before : tag.start < stop - rest.length := by
    rw [start]
    show stop - ((Script.elementText name items inner rest).length + 1) < _
    omega
  simp only [Draft.spelled?]
  rw [if_pos before, text]
  exact StartTag.readChars?_items valid validItems _

variable {name : QName} {items : List SpelledItem}

/-- The draft inside of an element. -/
def Draft.inside (d : Draft) (tag : Tag) (name : QName) (items : List SpelledItem) : Draft :=
  d.opening tag (Item.element d.outerScope name (Script.itemsOf items))

@[simp] theorem Draft.size_inside (d : Draft) (tag : Tag) :
    (d.inside tag name items).size = d.size + 1 := rfl

@[simp] theorem Draft.options_inside (d : Draft) (tag : Tag) :
    (d.inside tag name items).options = d.options := rfl

@[simp] theorem Draft.outerScope_inside (d : Draft) (tag : Tag) :
    (d.inside tag name items).outerScope =
      Script.scopeOf d.outerScope items := rfl

theorem Draft.idle_inside (settled : d.Settled) (tag : Tag) :
    (d.inside tag name items).Idle :=
  ⟨⟨settled.declarations, settled.attributes⟩, rfl, rfl⟩

theorem Draft.read_startTag (nesting : Nat) (expand : List Lexeme → Draft → Except Fault Draft)
    {tag : Tag} {inner : List Char} (settled : d.Settled)
    (valid : Script.ValidTag d.outerScope name items)
    (found : TagOf stop name items inner rest tag)
    (limit : d.size < d.options.nodeLimit) :
    d.read nesting false expand (.startTag tag) =
      .ok (d.inside tag name items) :=
  Draft.startTag_spelled settled valid found.named found.opens found.spells limit

/-- The draft after an element. -/
def Draft.withElement (d : Draft) (e : Element) (inner : Content) : Draft :=
  { d with
    siblings := .element e inner d.siblings
    size := d.size + 1 + inner.size
    afterText := false
    tagSeen := true }

@[simp] theorem Draft.size_withElement (d : Draft) (e : Element) (inner : Content) :
    (d.withElement e inner).size = d.size + 1 + inner.size := rfl

@[simp] theorem Draft.options_withElement (d : Draft) (e : Element) (inner : Content) :
    (d.withElement e inner).options = d.options := rfl

@[simp] theorem Draft.outerScope_withElement (d : Draft) (e : Element) (inner : Content) :
    (d.withElement e inner).outerScope = d.outerScope := rfl

theorem Draft.Settled.withElement (settled : d.Settled) (e : Element) (inner : Content) :
    (d.withElement e inner).Idle :=
  ⟨⟨settled.declarations, settled.attributes⟩, rfl, rfl⟩

theorem Draft.read_endTag (nesting : Nat) (expand : List Lexeme → Draft → Except Fault Draft)
    {tag : Tag} {inner : List Char} (content : Content) (b : Bool) (settled : d.Settled)
    (found : TagOf stop name items inner rest tag) :
    ((d.inside tag name items).grown content b).read nesting false expand
        (.endTag name (stop - rest.length)) =
      .ok (d.withElement (Script.elementOf d.outerScope name items) content) := by
  have closes := Draft.endTag_spelled
    (d := (d.inside tag name items).grown content b)
    (p := ⟨tag, Item.element d.outerScope name (Script.itemsOf items), d.siblings⟩)
    ⟨settled.declarations, settled.attributes⟩ rfl rfl (stop - rest.length)
  dsimp only at closes
  rw [found.named] at closes
  refine closes.trans ?_
  unfold closing
  dsimp only
  rw [found.spelled]
  unfold grown
  dsimp only
  rw [show (d.inside tag name items).siblings = .nil from rfl,
    Content.reverse_reverseOnto]
  rfl

/-! ## Scripts -/

namespace Draft

theorem withElement_grown (seen : d.tagSeen = true) (value : String) (e : Element)
    (inner c : Content) (b b' : Bool) :
    ((d.grown (Form.before value .nil) b).withElement e inner).grown c b' =
      d.grown (Form.before value (.element e inner c)) b' := by
  simp only [Form.before]
  split
  · simp [grown, withElement, Content.reverseOnto, Content.size, seen]
    omega
  · simp [grown, withElement, Content.reverseOnto, Content.size, seen]
    omega

end Draft

theorem size_before (value : String) (c : Content) :
    (Form.before value c).size = (Form.before value .nil).size + c.size := by
  simp only [Form.before]
  split
  · simp [Content.size]
  · simp [Content.size]
    omega

theorem Draft.read_remark (nesting : Nat) (expand : List Lexeme → Draft → Except Fault Draft)
    (d : Draft) (r : Remark) (limit : d.size < d.options.nodeLimit) :
    d.read nesting false expand r.lexeme = .ok (d.withLeaf r.leaf) := by
  rw [← append_leaf r.leaf limit]
  cases r with
  | comment data =>
    show d.append (.leaf (.comment (String.ofList data.toList))) = _
    rw [String.ofList_toList]
    rfl
  | instruction target data =>
    show d.append (.leaf (.instruction (String.ofList target.toList)
      (if data.toList.isEmpty then none else some (String.ofList data.toList)))) = _
    rw [String.ofList_toList, String.ofList_toList]
    simp [Remark.leaf]

theorem begins_elementText (valid : name.Valid) (items : List SpelledItem)
    (inner rest : List Char) : beginsName (Script.elementText name items inner rest) = true := by
  have begins := valid.isName_text.begins
  simp only [Script.elementText]
  cases spelled : name.text.toList with
  | nil =>
    rw [spelled] at begins
    cases begins
  | cons c cs =>
    rw [spelled] at begins
    exact begins

namespace Setting

variable {s : Setting} {value : String}

/-- An element whose content is read. -/
theorem read_element {tag : Tag} {inner : List Char} {c : Content} {b : Bool} (settled : d.Settled)
    (valid : Script.ValidTag d.outerScope name items)
    (found : TagOf s.stop name items inner rest tag)
    (limit : d.size < d.options.nodeLimit)
    (filled : s.read (level + 2) (inner ++ '<' :: '/' :: (name.text.toList ++ '>' :: rest))
        (d.inside tag name items) =
      s.read (level + 2) ('<' :: '/' :: (name.text.toList ++ '>' :: rest))
        ((d.inside tag name items).grown c b)) :
    s.read (level + 1) ('<' :: Script.elementText name items inner rest) d =
      s.read (level + 1) rest
        (d.withElement (Script.elementOf d.outerScope name items) c) := by
  have opens : Lexeme.levelAfter (level + 1) (.startTag tag) = level + 2 := by
    rw [Lexeme.levelAfter, if_pos found.opens]
  have opened := s.read_markup (level + 1)
    ((markup?_startTag (begins_elementText valid.wellNamed _ _ _)).trans found.read)
    (by rw [opens]; omega) (Draft.read_startTag s.nesting s.expand settled valid found limit)
  have closes : markup? s.stop ('/' :: (name.text.toList ++ '>' :: rest)) =
      some (.endTag name (s.stop - rest.length), rest) :=
    endTag?_append valid.wellNamed s.stop rest
  have closed := s.read_markup (level + 2) closes (by simp [Lexeme.levelAfter])
    (Draft.read_endTag s.nesting s.expand c b settled found)
  rw [opened, opens, filled, closed]
  rfl

/-- A comment or an instruction. -/
theorem read_remark (s : Setting) (level : Nat) (rest : List Char) (d : Draft) {r : Remark}
    (valid : r.Valid) (limit : d.size < d.options.nodeLimit) :
    s.read (level + 1) ('<' :: (r.body ++ rest)) d =
      s.read (level + 1) rest (d.withLeaf r.leaf) := by
  have added := s.read_markup (level + 1) (r.markup?_append valid s.stop rest)
    (by rw [r.levelAfter_lexeme]; omega) (d.read_remark s.nesting s.expand r limit)
  rw [added, r.levelAfter_lexeme]

/-! ### Content, node by node -/

/-- The characters of a script inside of an element are read as its content, after some pending
text. The draft, the text and what follows differ from one part of the script to the next. -/
def Reads (s : Setting) (f : Script) : Prop :=
  ∀ (value : String) (rest : List Char) (level : Nat) {d : Draft},
    d.Idle → f.Valid d.outerScope → (∀ c ∈ value.toList, Chars.isXml c = true) →
    (f.spell ++ '<' :: rest).length ≤ s.stop →
    d.size + (f.tree d.outerScope value).size ≤ d.options.nodeLimit →
    ∃ b, s.read (level + 1) ((escapeText value).toList ++ (f.spell ++ '<' :: rest)) d =
      s.read (level + 1) ('<' :: rest) (d.grown (f.tree d.outerScope value) b)

/-- Without pending text. -/
theorem Reads.of_empty {f : Script} (reads : s.Reads f) (rest : List Char) (level : Nat)
    (idle : d.Idle) (valid : f.Valid d.outerScope)
    (within : (f.spell ++ '<' :: rest).length ≤ s.stop)
    (limit : d.size + (f.tree d.outerScope "").size ≤ d.options.nodeLimit) :
    ∃ b, s.read (level + 1) (f.spell ++ '<' :: rest) d =
      s.read (level + 1) ('<' :: rest) (d.grown (f.tree d.outerScope "") b) :=
  reads "" rest level idle valid (List.forall_mem_nil _) within limit

theorem Reads.text {next : Script} (more : String) (reads : s.Reads next) :
    s.Reads (.text more next) := by
  intro value rest level d idle valid admitted within limit
  have admitted' : ∀ c ∈ (value ++ more).toList, Chars.isXml c = true := by
    intro c member
    rw [String.toList_append] at member
    rcases List.mem_append.mp member with member | member
    · exact admitted c member
    · exact valid.1 c member
  -- Two texts in a row are escaped as one.
  rw [Script.spell, List.append_assoc, ← List.append_assoc, ← String.toList_append,
    ← escapeText_append]
  refine reads (value ++ more) rest level idle valid.2 admitted' ?_ limit
  simp only [Script.spell, List.length_append] at within ⊢
  omega

theorem Reads.remark {next : Script} (r : Remark) (reads : s.Reads next) :
    s.Reads (.remark r next) := by
  intro value rest level d idle valid admitted within limit
  rw [Script.tree, size_before, Content.size] at limit
  have spelled : (Script.remark r next).spell ++ '<' :: rest =
      '<' :: (r.body ++ (next.spell ++ '<' :: rest)) := by
    simp [Script.spell]
  rw [spelled] at within ⊢
  have shorter : (next.spell ++ '<' :: rest).length ≤ s.stop := by
    simp only [List.length_append, List.length_cons] at within ⊢
    omega
  -- First the text is added, then the remark, then what follows.
  obtain ⟨b, pending⟩ := s.read_pending (level + 1) (r.body ++ (next.spell ++ '<' :: rest)) idle
    admitted (by omega)
  have added := s.read_remark level (next.spell ++ '<' :: rest)
    (d.grown (Form.before value .nil) b) valid.1 (by
      simp only [Draft.size_grown, Draft.options_grown]
      omega)
  obtain ⟨b', continued⟩ := reads.of_empty rest level
    (idle.withLeaf (Form.before value .nil) b r.leaf) valid.2 shorter (by
    simp only [Draft.size_withLeaf, Draft.size_grown, Draft.options_withLeaf,
      Draft.options_grown, Draft.outerScope_withLeaf, Draft.outerScope_grown]
    omega)
  refine ⟨b', ?_⟩
  rw [pending, added, continued, Draft.withLeaf_grown]
  rfl

theorem Reads.element {inner next : Script} (name : QName) (items : List SpelledItem)
    (readsInner : s.Reads inner) (readsNext : s.Reads next) :
    s.Reads (.element name items inner next) := by
  intro value rest level d idle valid admitted within limit
  obtain ⟨validTag, validInner, validNext⟩ := valid
  rw [Script.tree, size_before, Content.size] at limit
  have spelled : (Script.element name items inner next).spell ++ '<' :: rest =
      '<' :: Script.elementText name items inner.spell (next.spell ++ '<' :: rest) := by
    simp [Script.spell, Script.elementText]
  rw [spelled] at within ⊢
  have innerShorter : (inner.spell ++ '<' :: '/' ::
      (name.text.toList ++ '>' :: (next.spell ++ '<' :: rest))).length ≤ s.stop := by
    simp only [Script.elementText, List.length_append, List.length_cons] at within ⊢
    omega
  have nextShorter : (next.spell ++ '<' :: rest).length ≤ s.stop := by
    simp only [Script.elementText, List.length_append, List.length_cons] at within ⊢
    omega
  obtain ⟨tag, found⟩ := exists_tagOf (next.spell ++ '<' :: rest) validTag.wellNamed
    validTag.writable (Nat.lt_of_succ_le within)
  obtain ⟨b, pending⟩ := s.read_pending (level + 1)
    (Script.elementText name items inner.spell (next.spell ++ '<' :: rest)) idle admitted
    (by omega)
  -- The content of the element is read one level down, and then what follows the element.
  have settled : (d.grown (Form.before value .nil) b).Settled :=
    ⟨idle.settled.declarations, idle.settled.attributes⟩
  obtain ⟨b₁, filled⟩ := readsInner.of_empty
    ('/' :: (name.text.toList ++ '>' :: (next.spell ++ '<' :: rest))) (level + 1)
    (Draft.idle_inside settled tag) validInner innerShorter (by
      simp only [Draft.size_inside, Draft.size_grown, Draft.options_inside, Draft.options_grown,
        Draft.outerScope_inside, Draft.outerScope_grown]
      omega)
  have added := Setting.read_element settled validTag found (by
    simp only [Draft.size_grown, Draft.options_grown]
    omega) filled
  rw [Draft.outerScope_inside, Draft.outerScope_grown] at added
  obtain ⟨b₂, continued⟩ := readsNext.of_empty rest level
    (settled.withElement (Script.elementOf d.outerScope name items)
      (inner.tree (Script.scopeOf d.outerScope items) "")) validNext nextShorter (by
      simp only [Draft.size_withElement, Draft.size_grown, Draft.options_withElement,
        Draft.options_grown, Draft.outerScope_withElement, Draft.outerScope_grown]
      omega)
  refine ⟨b₂, ?_⟩
  rw [pending, added, continued, Draft.withElement_grown idle.seen]
  rfl

end Setting

/-- The characters of every script are read as its content, by induction over the script. -/
theorem readContent (s : Setting) (f : Script) : s.Reads f := by
  induction f with
  | nil =>
    intro value rest level d idle _ admitted _ limit
    exact s.read_pending (level + 1) rest idle admitted limit
  | text more next ih => exact ih.text more
  | remark r next ih => exact ih.remark r
  | element name items inner next ihInner ihNext => exact ihInner.element name items ihNext

end Reading

end CanonicalXml
