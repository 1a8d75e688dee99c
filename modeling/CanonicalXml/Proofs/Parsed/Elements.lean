import CanonicalXml.Proofs.Parsed.Drafts
import CanonicalXml.Proofs.Spelled.Drafts

/-! # Elements and their start tags

Every element of a document that was read is what the items of its start tag make of the
surroundings, provided that no tag is cut off by the end of the text that it begins in: what such a
tag says goes to the next one.

* `Element.MadeOf` — an element as its tag and the surrounding scope make it.
* `Document.FinishesTags` — no text ends inside of a tag.
* `Document.stems_of_read` — all elements of a document that was read stem from their tags.
-/

namespace CanonicalXml

/-! ## Elements -/

/-- The element that a start tag with these items makes inside of the scope `outer`. -/
structure Element.MadeOf (outer : Scope) (name : QName) (items : List Item) (e : Element) :
    Prop where
  scope : e.scope = Scope.extend (Item.bindings items) outer
  nsUri : e.nsUri? = e.scope.uri? name.nsPrefix
  localName : e.localName = name.localName
  attributes : e.attributes = (Item.plain items).map (Form.resolve e.scope)
  bound : e.scope.Binds name
  attributesBound : ∀ i ∈ Item.plain items, i.name.nsPrefix = xmlPrefix ∨ e.scope.Binds i.name
  notXmlns : name.nsPrefix ≠ xmlnsPrefix
  /-- No prefix is declared twice, but perhaps the default namespace. -/
  distinct : Binding.Distinct (Item.bindings items)

/-- The start tag as spelled has the names of these items. -/
structure StartTag.Names (spelled : StartTag) (name : QName) (items : List Item) : Prop where
  name : spelled.name = name
  items : spelled.attributes.map RawAttribute.name = items.map (·.name)
  readable : ∀ raw ∈ spelled.attributes, QName.Readable raw.qname

/-- The element stems from a start tag. If a tag is known it is this one. -/
def Element.Stems (outer : Scope) (e : Element) : Prop :=
  ∃ spelled name items, StartTag.Names spelled name items ∧ e.MadeOf outer name items ∧
    (e.tag = none ∨ e.tag = some spelled)

/-- All elements stem from start tags. -/
def Content.Stems : Scope → Content → Prop
  | _, .nil => True
  | outer, .leaf _ next => next.Stems outer
  | outer, .element e inner next => e.Stems outer ∧ inner.Stems e.scope ∧ next.Stems outer

theorem Content.Stems.reverseOnto {outer : Scope} {front c : Content} (before : front.Stems outer)
    (stems : c.Stems outer) : (Content.reverseOnto front c).Stems outer := by
  induction c generalizing front with
  | nil => exact before
  | leaf l next ih => exact ih (show (Content.leaf l front).Stems outer from before) stems
  | element e inner next _ ih =>
    have extended : (Content.element e inner front).Stems outer := ⟨stems.1, stems.2.1, before⟩
    exact ih extended stems.2.2

theorem Content.Stems.reverse {outer : Scope} {c : Content} (stems : c.Stems outer) :
    c.reverse.Stems outer :=
  Content.Stems.reverseOnto (show Content.nil.Stems outer from trivial) stems

/-! ## Finished tags -/

namespace Markup

/-- The tag ends in the text that it begins in, or there is nothing in it. -/
def Tag.Finished (tag : Tag) : Prop :=
  tag.ending = .unfinished → tag.attributes = []

instance : DecidablePred Tag.Finished := fun tag =>
  inferInstanceAs (Decidable (tag.ending = .unfinished → tag.attributes = []))

def Lexeme.tag? : Lexeme → Option Tag
  | .startTag tag => some tag
  | _ => none

/-- The start tags of a lexeme, which are those of the text of an entity where it is declared. -/
def Lexeme.tags : Lexeme → List Tag
  | .startTag tag => [tag]
  | .entity _ value stop => (replacement stop value).filterMap Lexeme.tag?
  | _ => []

/-- Entities are declared outside of content. -/
theorem tags_replacement (stop : Nat) (cs : List Char) :
    ∀ l ∈ replacement stop cs, l.tags = l.tag?.toList := by
  refine forall_content rfl ?_ ?_ fun _ => nofun
  · intro cs rest l read
    simp only [markup?] at read
    split at read
    · obtain ⟨_, -, read⟩ := Option.bind_eq_some_iff.mp read
      dsimp only at read
      split at read <;> cases read
      rfl
    · obtain ⟨_, -, read⟩ := Option.bind_eq_some_iff.mp read
      obtain ⟨_, -, read⟩ := Option.bind_eq_some_iff.mp read
      dsimp only at read
      split at read <;> cases read
      rfl
    · simp only [instruction?] at read
      split at read
      · cases read
      obtain ⟨_, -, read⟩ := Option.bind_eq_some_iff.mp read
      obtain ⟨_, -, read⟩ := Option.bind_eq_some_iff.mp read
      split at read <;> cases read
      rfl
    · obtain ⟨_, -, read⟩ := Option.bind_eq_some_iff.mp read
      obtain ⟨_, -, same⟩ := Option.map_eq_some_iff.mp read
      cases same
      rfl
    · obtain ⟨_, -, read⟩ := Option.bind_eq_some_iff.mp read
      obtain ⟨_, -, same⟩ := Option.map_eq_some_iff.mp read
      cases same
      rfl
  · intro cs rest l read
    simp only [text?] at read
    split at read <;> cases read
    rfl

end Markup

/-- No text of the document, be it its own or that of an entity, ends inside of a tag behind a
declaration or an attribute. -/
def Document.FinishesTags (text : String) : Prop :=
  ∀ l ∈ Markup.ofDocument text.toList, ∀ tag ∈ l.tags, tag.Finished

instance : DecidablePred Document.FinishesTags := fun text =>
  inferInstanceAs (Decidable (∀ l ∈ Markup.ofDocument text.toList, ∀ tag ∈ l.tags, tag.Finished))

/-! ## Drafts -/

namespace Reading

open Markup (Lexeme Tag TagAttribute TextPart)

namespace OpenElement

/-- The scope inside of the innermost of these elements. -/
def scope : List OpenElement → Scope
  | [] => []
  | p :: _ => p.element.scope

/-- The open elements and all that is inside of them stem from start tags, which can be read as
spelled. -/
def Stem : List OpenElement → Prop
  | [] => True
  | p :: outer =>
    (∃ spelled name items, StartTag.readChars? p.tag.text = some spelled ∧
      StartTag.Names spelled name items ∧ p.element.MadeOf (scope outer) name items) ∧
    p.before.Stems (scope outer) ∧ Stem outer

end OpenElement

namespace Draft

/-- The elements of a draft stem from their start tags, and no tag is half read. -/
structure Stems (d : Draft) : Prop where
  siblings : d.siblings.Stems (OpenElement.scope d.opened)
  opened : OpenElement.Stem d.opened
  settled : d.Settled
  finishes : ∀ entity ∈ d.entities, ∀ l ∈ Markup.replacement entity.stop entity.value,
    ∀ tag ∈ l.tags, tag.Finished

variable {d d' : Draft}

theorem outerScope_eq (d : Draft) : d.outerScope = OpenElement.scope d.opened := by
  simp only [outerScope]
  split
  · rename_i none
    rw [none]
    rfl
  · rename_i p _ some
    rw [some]
    rfl

theorem stems_empty (source : List Char) (options : ReadOptions) :
    (empty source options).Stems :=
  ⟨trivial, trivial, ⟨rfl, rfl⟩, nofun⟩

/-- What a draft remembers besides its nodes and its entities does not matter. -/
theorem Stems.remember (stems : d.Stems) (references : Nat) (tagSeen afterText : Bool) :
    Stems { d with references, tagSeen, afterText } :=
  ⟨stems.siblings, stems.opened, ⟨stems.settled.declarations, stems.settled.attributes⟩,
    stems.finishes⟩

theorem Stems.append_leaf (stems : d.Stems) {l : Leaf} (added : d.append (.leaf l) = .ok d') :
    d'.Stems := by
  obtain ⟨-, rfl⟩ := append_eq_ok added
  exact ⟨stems.siblings, stems.opened,
    ⟨stems.settled.declarations, stems.settled.attributes⟩, stems.finishes⟩

theorem Stems.appendText (stems : d.Stems) {text : String}
    (added : d.appendText text = .ok d') : d'.Stems := by
  rcases appendText_eq_ok added with ⟨old, rest, siblings, rfl⟩ | ⟨d₁, appended, rfl⟩
  · have stems' := stems.siblings
    rw [siblings] at stems'
    exact ⟨stems', stems.opened, ⟨stems.settled.declarations, stems.settled.attributes⟩,
      stems.finishes⟩
  · exact (stems.append_leaf appended).remember d₁.references d₁.tagSeen true

/-! ## Start tags -/

/-- The attribute is one of the items of its tag: it makes a binding, or it is pending. -/
theorem tagAttribute_eq_ok {nesting : Nat} {deep : Bool} {a : TagAttribute}
    (added : d.tagAttribute nesting deep a = .ok d') :
    ∃ (i : Item) (pending : List UnresolvedAttribute) (references : Nat), i.name = a.name ∧
      pending.map (fun b => Item.mk b.name b.value) =
        (if i.name.declaredPrefix?.isNone then [i] else []) ∧
      (Binding.Distinct d.declarations → Binding.Distinct (d.declarations ++ i.binding?.toList)) ∧
      d' = { d with
        declarations := d.declarations ++ i.binding?.toList
        attributes := d.attributes ++ pending
        references } := by
  obtain ⟨value, references, cases⟩ := tagAttribute_cases added
  obtain ⟨i, named, valued⟩ : ∃ i : Item, i.name = a.name ∧ i.value = value :=
    ⟨⟨a.name, value⟩, rfl, rfl⟩
  rw [← named, ← valued] at cases
  refine ⟨i, ?_⟩
  rcases cases with ⟨declares, declared⟩ | ⟨other, default, declared⟩ | ⟨other, plain, rfl⟩
  · -- The attribute declares a prefix, which may be the one that is bound already.
    have declares : i.name.declaredPrefix? = some i.name.localName := if_pos declares
    refine ⟨[], references, named, by simp [declares], ?_⟩
    rcases declarePrefix_eq_ok declared with ⟨xml, rfl⟩ | ⟨notXml, -, -, fresh, rfl⟩
    · rw [Item.binding?_of_xml (declares.trans (congrArg some xml))]
      simp
    · rw [Item.binding?_of_declaredPrefix declares notXml]
      exact ⟨fun distinct => distinct.concat fun c member _ => fresh c member, by simp⟩
  · have declares : i.name.declaredPrefix? = some "" := by
      rw [QName.declaredPrefix?, if_neg other, if_pos default]
    refine ⟨[], references, named, by simp [declares], ?_⟩
    obtain ⟨-, -, rfl⟩ := declareDefault_eq_ok declared
    rw [Item.binding?_of_declaredPrefix declares (by decide)]
    exact ⟨fun distinct => distinct.concat fun _ _ named => absurd rfl named, by simp⟩
  · have plain : i.name.declaredPrefix? = none := by
      rw [QName.declaredPrefix?, if_neg other, if_neg plain]
    refine ⟨[⟨i.name, i.value, a.offset⟩], references, named, by simp [plain], ?_⟩
    rw [Item.binding?_of_plain plain]
    simp

/-- The items of a tag, one by one. -/
theorem foldlM_tagAttribute {nesting : Nat} {deep : Bool} {attributes : List TagAttribute} :
    ∀ {d : Draft}, attributes.foldlM (tagAttribute nesting deep) d = .ok d' →
    ∃ (items : List Item) (pending : List UnresolvedAttribute) (references : Nat),
      items.map (·.name) = attributes.map (·.name) ∧
      pending.map (fun b => Item.mk b.name b.value) = Item.plain items ∧
      (Binding.Distinct d.declarations →
        Binding.Distinct (d.declarations ++ Item.bindings items)) ∧
      d' = { d with
        declarations := d.declarations ++ Item.bindings items
        attributes := d.attributes ++ pending
        references } := by
  induction attributes with
  | nil =>
    intro d same
    cases same
    refine ⟨[], [], d'.references, rfl, rfl, ?_, ?_⟩
    · exact fun distinct => (List.append_nil _).symm ▸ distinct
    · simp [Item.bindings]
  | cons a attributes ih =>
    intro d read
    rw [List.foldlM_cons, except_bind_eq_ok] at read
    obtain ⟨d₁, here, later⟩ := read
    obtain ⟨i, own, references, name, plain, distinct, rfl⟩ := tagAttribute_eq_ok here
    obtain ⟨items, pending, references, names, plains, distincts, rfl⟩ := ih later
    refine ⟨i :: items, own ++ pending, references, ?_, ?_, ?_, ?_⟩
    · rw [List.map_cons, List.map_cons, name, names]
    · rw [List.map_append, plain, plains, Item.plain_cons]
    · rw [Item.bindings_cons, ← List.append_assoc]
      exact fun before => distincts (distinct before)
    · rw [Item.bindings_cons, List.append_assoc, List.append_assoc]

theorem attributeNamespace_eq_ok {source : List Char} {scope : Scope} {a : UnresolvedAttribute}
    {nsUri? : Option String} (found : attributeNamespace source scope a = .ok nsUri?) :
    nsUri? = Form.attributeUri? scope a.name ∧
      (a.name.nsPrefix = xmlPrefix ∨ scope.Binds a.name) := by
  simp only [attributeNamespace] at found
  simp only [Form.attributeUri?]
  split at found
  · rename_i unprefixed
    rw [String.isEmpty_iff] at unprefixed
    cases found
    exact ⟨(if_pos unprefixed).symm, .inr (.inl unprefixed)⟩
  rename_i prefixed
  rw [String.isEmpty_iff] at prefixed
  rw [if_neg prefixed]
  split at found
  · rename_i xml
    cases found
    exact ⟨(if_pos xml).symm, .inl xml⟩
  rename_i notXml
  rw [if_neg notXml]
  split at found
  · rename_i uri bound
    cases found
    refine ⟨bound.symm, .inr (.inr ?_)⟩
    rw [bound]
    exact Option.some_ne_none _
  · cases found

theorem resolveAttributes_eq_ok {source : List Char} {scope : Scope}
    {pending : List UnresolvedAttribute} : ∀ {resolved attributes : List Attribute},
    resolveAttributes source scope resolved pending = .ok attributes →
    attributes = resolved ++ pending.map (fun b => Form.resolve scope ⟨b.name, b.value⟩) ∧
      ∀ b ∈ pending, b.name.nsPrefix = xmlPrefix ∨ scope.Binds b.name := by
  induction pending with
  | nil =>
    intro resolved attributes same
    cases same
    exact ⟨(List.append_nil _).symm, nofun⟩
  | cons a pending ih =>
    intro resolved attributes resolves
    rw [resolveAttributes, except_bind_eq_ok] at resolves
    obtain ⟨nsUri?, found, resolves⟩ := resolves
    obtain ⟨rfl, bound⟩ := attributeNamespace_eq_ok found
    split at resolves
    · cases resolves
    · obtain ⟨rfl, later⟩ := ih resolves
      refine ⟨?_, List.forall_mem_cons.mpr ⟨bound, later⟩⟩
      rw [List.map_cons, List.append_assoc]
      rfl

theorem elementNamespace_eq_ok {source : List Char} {scope : Scope} {name : QName} {start : Nat}
    {nsUri? : Option String} (found : elementNamespace source scope name start = .ok nsUri?) :
    scope.Binds name ∧ nsUri? = scope.uri? name.nsPrefix := by
  simp only [elementNamespace] at found
  split at found
  · cases found
  · rename_i bound
    cases found
    refine ⟨?_, rfl⟩
    by_cases unprefixed : name.nsPrefix = ""
    · exact .inl unprefixed
    · refine .inr fun unbound => bound ?_ unbound
      rwa [String.isEmpty_eq_false_iff]

/-- The element of a tag all items of which have been read. -/
theorem element_eq_ok {tag : Tag} {items : List Item}
    (declared : d.declarations = Item.bindings items)
    (plain : d.attributes.map (fun b => Item.mk b.name b.value) = Item.plain items)
    (notXmlns : tag.name.nsPrefix ≠ xmlnsPrefix) (distinct : Binding.Distinct (Item.bindings items))
    {e : Element} (found : d.element tag = .ok (e, d')) :
    e.MadeOf (OpenElement.scope d.opened) tag.name items ∧ e.tag = none ∧
      d' = { d with declarations := [], attributes := [] } := by
  obtain ⟨scope, attributes, nsUri?, resolves, named, rfl⟩ := element_cases found
  obtain ⟨extended, attributesResolve, rfl⟩ := resolve_eq_ok resolves
  obtain ⟨rfl, attributesBound⟩ := resolveAttributes_eq_ok attributesResolve
  obtain ⟨bound, found⟩ := elementNamespace_eq_ok named
  rw [declared, d.outerScope_eq] at extended
  refine ⟨⟨extended, found, rfl, ?_, bound, ?_, notXmlns, distinct⟩, rfl, rfl⟩
  · show [] ++ _ = _
    rw [← plain, List.map_map, List.nil_append]
    rfl
  · intro i member
    rw [← plain] at member
    obtain ⟨b, pendingMember, rfl⟩ := List.mem_map.mp member
    exact attributesBound b pendingMember

/-- How a tag is spelled does not matter for what it makes. -/
theorem madeOf_withTag {outer : Scope} {name : QName} {items : List Item} {e : Element}
    (made : e.MadeOf outer name items) (tag : Option StartTag) :
    Element.MadeOf outer name items { e with tag } :=
  ⟨made.scope, made.nsUri, made.localName, made.attributes, made.bound, made.attributesBound,
    made.notXmlns, made.distinct⟩

theorem spelled?_eq (tag : Tag) (stop : Nat) :
    spelled? tag stop = none ∨ spelled? tag stop = StartTag.readChars? tag.text := by
  simp only [spelled?]
  split
  · exact .inr rfl
  · exact .inl rfl

theorem names_of_shows {spelled : StartTag} {tag : Tag} {items : List Item}
    (shows : spelled.Shows tag) (named : items.map (·.name) = tag.attributes.map (·.name)) :
    spelled.Names tag.name items := by
  refine ⟨shows.name, ?_, shows.readable⟩
  have names := congrArg (List.map Prod.fst) shows.attributes
  rw [List.map_map, List.map_map] at names
  exact names.trans named.symm

theorem Stems.startTag {nesting : Nat} {deep : Bool} {tag : Tag} (stems : d.Stems)
    (sound : tag.Sound) (finished : tag.Finished)
    (read : d.startTag nesting deep tag = .ok d') : d'.Stems := by
  obtain ⟨reserved, d₁, attributes, read⟩ := startTag_eq_ok read
  obtain ⟨items, pending, references, names, plain, distinct, rfl⟩ :=
    foldlM_tagAttribute attributes
  rw [stems.settled.declarations, List.nil_append] at distinct
  have distinct := distinct .nil
  rw [stems.settled.declarations, stems.settled.attributes, List.nil_append, List.nil_append]
    at read
  rcases read with ⟨cut, rfl⟩ | ⟨closes, e, d₂, element, appended⟩ |
    ⟨opens, e, d₂, d₃, element, appended, rfl⟩
  · -- The text ends before the tag does, and leaves nothing behind.
    have none := finished cut
    rw [none] at names
    obtain rfl := List.map_eq_nil_iff.mp names
    obtain rfl := List.map_eq_nil_iff.mp plain
    exact ⟨stems.siblings, stems.opened, ⟨rfl, rfl⟩, stems.finishes⟩
  · -- The element is empty.
    obtain ⟨spelled, readSpelled, shows⟩ := sound.spelled (by rw [closes]; exact nofun)
    obtain ⟨made, -, rfl⟩ := element_eq_ok rfl plain reserved distinct element
    obtain ⟨-, rfl⟩ := append_eq_ok appended
    refine ⟨⟨?_, trivial, stems.siblings⟩, stems.opened, ⟨rfl, rfl⟩, stems.finishes⟩
    refine ⟨spelled, tag.name, items, names_of_shows shows names, madeOf_withTag made _, ?_⟩
    rw [← readSpelled]
    exact spelled?_eq tag tag.stop
  · -- The element is open, and its siblings stay with it.
    obtain ⟨spelled, readSpelled, shows⟩ := sound.spelled (by rw [opens]; exact nofun)
    obtain ⟨made, -, rfl⟩ := element_eq_ok rfl plain reserved distinct element
    obtain ⟨-, rfl⟩ := append_eq_ok appended
    exact ⟨trivial, ⟨⟨spelled, tag.name, items, readSpelled, names_of_shows shows names, made⟩,
      stems.siblings, stems.opened⟩, ⟨rfl, rfl⟩, stems.finishes⟩

theorem Stems.endTag {name : QName} {stop : Nat} (stems : d.Stems)
    (read : d.endTag name stop = .ok d') : d'.Stems := by
  obtain ⟨p, rest, opened, rfl⟩ := endTag_eq_ok read
  have siblings := stems.siblings
  have open' := stems.opened
  rw [opened] at open' siblings
  obtain ⟨⟨spelled, name, items, readSpelled, names, made⟩, before, outer⟩ := open'
  refine ⟨⟨?_, siblings.reverse, before⟩, outer, ⟨rfl, rfl⟩, stems.finishes⟩
  refine ⟨spelled, name, items, names, madeOf_withTag made _, ?_⟩
  rw [← readSpelled]
  exact spelled?_eq p.tag stop

/-! ## Lexemes -/

section Lexemes

variable {nesting : Nat} {deep : Bool} {expand : List Lexeme → Draft → Except Fault Draft}

/-- The lexeme can be read as spelled, and no text ends inside of a tag. -/
def Stemming (l : Lexeme) : Prop :=
  l.Sound ∧ ∀ tag ∈ l.tags, tag.Finished

/-- The reader of entities keeps elements with their tags. -/
def KeepsStems (expand : List Lexeme → Draft → Except Fault Draft) : Prop :=
  ∀ {ls : List Lexeme} {d d' : Draft}, (∀ l ∈ ls, Stemming l) → d.Stems →
    expand ls d = .ok d' → d'.Stems

theorem Stems.flush (stems : d.Stems) {buffer : LineBuffer} (added : d.flush buffer = .ok d') :
    d'.Stems := by
  rcases flush_eq_ok added with rfl | added
  · exact stems
  · exact stems.appendText added

theorem Stems.readEntity (stems : d.Stems) (keeps : KeepsStems expand) {entity : Entity}
    (declared : entity ∈ d.entities) (read : d.readEntity deep expand entity = .ok d') :
    d'.Stems := by
  obtain ⟨references, inner, expanded, rfl⟩ := readEntity_eq_ok read
  have begun := stems.remember references false d.afterText
  have ended := keeps (fun l member => ⟨Markup.sound_replacement _ _ l member,
    stems.finishes entity declared l member⟩) begun expanded
  exact ended.remember _ d.tagSeen inner.afterText

theorem flush_entities {buffer : LineBuffer} (added : d.flush buffer = .ok d') :
    d'.entities = d.entities := by
  rcases flush_eq_ok added with rfl | added
  · rfl
  · rcases appendText_eq_ok added with ⟨_, _, _, rfl⟩ | ⟨d₁, appended, rfl⟩
    · rfl
    · obtain ⟨-, rfl⟩ := append_eq_ok appended
      rfl

theorem Stems.readText (keeps : KeepsStems expand) {parts : List TextPart} : ∀ {d : Draft}
    {buffer : LineBuffer} {raw : Bool}, d.Stems →
    d.readText deep expand buffer raw parts = .ok d' → d'.Stems := by
  induction parts with
  | nil =>
    intro d buffer raw stems read
    exact stems.flush read
  | cons part parts ih =>
    intro d buffer raw stems read
    cases part with
    | literal c => exact ih stems read
    | character c => exact ih stems read
    | entity name =>
      obtain ⟨entity, d₁, d₂, found, flushed, expanded, read⟩ := readText_entity_eq_ok read
      have declared : entity ∈ d₁.entities := by
        rw [flush_entities flushed]
        exact List.mem_of_find?_eq_some found
      exact ih ((stems.flush flushed).readEntity keeps declared expanded) read
    | malformed => cases read

/-- A lexeme keeps the elements of a draft with their tags. -/
theorem Stems.read (stems : d.Stems) (keeps : KeepsStems expand) {l : Lexeme}
    (stemming : Stemming l) (read : d.read nesting deep expand l = .ok d') : d'.Stems := by
  obtain ⟨sound, finished⟩ := stemming
  cases l with
  | startTag tag => exact stems.startTag sound (finished tag (List.mem_singleton.mpr rfl)) read
  | endTag name stop => exact stems.endTag read
  | text raw => exact Stems.readText keeps stems read
  | cdata raw => exact stems.appendText read
  | comment data => exact stems.append_leaf read
  | instruction target data => exact stems.append_leaf read
  | doctype =>
    obtain rfl := read_doctype_eq_ok read
    exact stems
  | entity name value stop =>
    cases read
    refine ⟨stems.siblings, stems.opened,
      ⟨stems.settled.declarations, stems.settled.attributes⟩, ?_⟩
    refine List.forall_mem_append.mpr ⟨stems.finishes, List.forall_mem_singleton.mpr ?_⟩
    intro l member tag inside
    rw [Markup.tags_replacement _ _ l member, Option.mem_toList] at inside
    exact finished tag (List.mem_filterMap.mpr ⟨l, member, inside⟩)
  | malformed => cases read

theorem keepsStems_readAll (nesting : Nat) (deep : Bool) : KeepsStems (readAll nesting deep) :=
  readAll_preserves (fun keeps _ _ _ stemming stems read => stems.read keeps stemming read)
    nesting deep

end Lexemes

end Draft

end Reading

/-- All elements of a document that was read stem from their start tags. -/
theorem Document.stems_of_read {text : String} {options : ReadOptions} {d : Document}
    (parsed : Document.read text options = .ok d) (finishes : Document.FinishesTags text) :
    d.content.Stems [] := by
  simp only [Document.read] at parsed
  obtain ⟨draft, lexemes, finished⟩ := except_bind_eq_ok.mp parsed
  have stems := Reading.Draft.keepsStems_readAll _ _
    (fun l member => ⟨Markup.sound_ofDocument _ l member, finishes l member⟩)
    (Reading.Draft.stems_empty _ options) lexemes
  simp only [Document.ofDraft] at finished
  split at finished
  · rename_i complete
    cases finished
    rw [Bool.and_eq_true, List.isEmpty_iff] at complete
    have siblings := stems.siblings
    rw [complete.1] at siblings
    exact siblings.reverse
  · cases finished

end CanonicalXml
