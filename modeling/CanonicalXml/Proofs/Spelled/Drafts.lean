import CanonicalXml.Proofs.Spelled.Scripts
import CanonicalXml.Reading.Draft

/-! # Drafts of written tags

What adding a written tag to a draft does.

* `Draft.startTag_spelled` — a start tag opens its element.
* `Draft.endTag_spelled` — an end tag puts the element among its siblings.
-/

namespace CanonicalXml

/-! ## Start tags of a draft -/

namespace Reading.Draft

open Markup (Tag TagAttribute)

variable {d : Draft} {nesting : Nat}

/-- What the reader of tags gives for items. -/
def Spells (attributes : List TagAttribute) (items : List SpelledItem) : Prop :=
  attributes.map (fun a => (a.name, a.value)) =
    items.map fun s => (s.item.name, (escapeAttribute s.value).toList)

theorem tagAttribute_spelled {a : TagAttribute} {i : Item} (name : a.name = i.name)
    (value : a.value = (escapeAttribute i.value).toList) :
    d.tagAttribute nesting false a =
      if i.name.nsPrefix = xmlnsPrefix then d.declarePrefix i.name.localName i.value
      else if i.name.localName = xmlnsPrefix then d.declareDefault i.value
      else .ok { d with attributes := d.attributes ++ [⟨i.name, i.value, a.offset⟩] } := by
  simp only [tagAttribute]
  rw [value, attributeValue?_escaped]
  dsimp only
  rw [name, String.ofList_toList]

/-- An item of a tag makes its binding, or is pending. -/
theorem tagAttribute_item (nesting : Nat) {a : TagAttribute} {i : Item}
    (valid : i.name.Valid) (name : a.name = i.name)
    (value : a.value = (escapeAttribute i.value).toList)
    (notXml : i.name.declaredPrefix? ≠ some xmlPrefix)
    (unreserved : ∀ b ∈ i.binding?, b.uri ≠ xmlNamespace ∧ b.uri ≠ xmlnsNamespace)
    (undeclared : ∀ b ∈ i.binding?, ∀ c ∈ d.declarations,
      b.nsPrefix ≠ "" → c.nsPrefix ≠ b.nsPrefix) :
    ∃ own : List UnresolvedAttribute, d.tagAttribute nesting false a =
        .ok { d with
          declarations := d.declarations ++ i.binding?.toList
          attributes := d.attributes ++ own } ∧
      own.map (fun b => Item.mk b.name b.value) =
        if i.name.declaredPrefix?.isNone then [i] else [] := by
  rw [tagAttribute_spelled name value]
  by_cases declares : i.name.nsPrefix = xmlnsPrefix
  · -- A prefix may not be declared twice, and none is one of the reserved ones.
    have declared : i.name.declaredPrefix? = some i.name.localName := if_pos declares
    have other : i.name.localName ≠ xmlPrefix := fun same => notXml (declared.trans (by rw [same]))
    have made := Item.binding?_of_declaredPrefix declared other
    obtain ⟨notXmlUri, notXmlnsUri⟩ := unreserved _ made
    have fresh : d.declarations.any (fun c => decide (c.nsPrefix = i.name.localName)) = false := by
      rw [List.any_eq_false]
      intro c member same
      exact undeclared _ made c member valid.localName.ne_empty (of_decide_eq_true same)
    dsimp only at notXmlUri notXmlnsUri
    refine ⟨[], ?_, by simp [declared]⟩
    rw [if_pos declares, declarePrefix, if_neg notXmlnsUri, if_neg other, if_neg notXmlUri, fresh,
      if_neg Bool.false_ne_true, made]
    simp
  rw [if_neg declares]
  by_cases default : i.name.localName = xmlnsPrefix
  · -- The default namespace may be declared twice, but neither reserved one may be it.
    have declared : i.name.declaredPrefix? = some "" := by
      rw [QName.declaredPrefix?, if_neg declares, if_pos default]
    have made := Item.binding?_of_declaredPrefix declared (by decide)
    have forbidden : ¬ (i.value = xmlnsNamespace ∨ i.value = xmlNamespace) := by
      rintro (same | same)
      · exact (unreserved _ made).2 same
      · exact (unreserved _ made).1 same
    refine ⟨[], ?_, by simp [declared]⟩
    rw [if_pos default, declareDefault, if_neg forbidden, made]
    simp
  · have plain : i.name.declaredPrefix? = none := by
      rw [QName.declaredPrefix?, if_neg declares, if_neg default]
    refine ⟨[⟨i.name, i.value, a.offset⟩], ?_, by simp [plain]⟩
    rw [if_neg default, Item.binding?_of_plain plain]
    simp

theorem foldlM_items (nesting : Nat) {items : List SpelledItem}
    (named : ∀ s ∈ items, s.item.name.Valid)
    (notXml : ∀ s ∈ items, s.item.name.declaredPrefix? ≠ some xmlPrefix) :
    ∀ {d : Draft} {spelled : List TagAttribute}, Spells spelled items →
    (∀ b ∈ Item.bindings (Script.itemsOf items), b.uri ≠ xmlNamespace ∧ b.uri ≠ xmlnsNamespace) →
    (d.declarations ++ Item.bindings (Script.itemsOf items)).Pairwise
      (fun b c => c.nsPrefix ≠ "" → b.nsPrefix ≠ c.nsPrefix) →
    ∃ pending : List UnresolvedAttribute, spelled.foldlM (tagAttribute nesting false) d =
        .ok { d with
          declarations := d.declarations ++ Item.bindings (Script.itemsOf items)
          attributes := d.attributes ++ pending } ∧
      pending.map (fun b => Item.mk b.name b.value) = Item.plain (Script.itemsOf items) := by
  induction items with
  | nil =>
    intro d spelled same _ _
    obtain rfl := List.map_eq_nil_iff.mp same
    refine ⟨[], ?_, rfl⟩
    show Except.ok d = .ok { d with declarations := d.declarations ++ [], attributes := _ ++ [] }
    rw [List.append_nil, List.append_nil]
  | cons s items ih =>
    intro d spelled same unreserved distinct
    obtain ⟨namedHere, namedLater⟩ := List.forall_mem_cons.mp named
    obtain ⟨notXmlHere, notXmlLater⟩ := List.forall_mem_cons.mp notXml
    cases spelled with
    | nil => cases same
    | cons a spelled =>
      obtain ⟨first, rest⟩ := List.cons.inj same
      obtain ⟨name, value⟩ := Prod.mk.inj first
      have split : Item.bindings (Script.itemsOf (s :: items)) =
          s.item.binding?.toList ++ Item.bindings (Script.itemsOf items) :=
        Item.bindings_cons _ _
      rw [split, List.forall_mem_append] at unreserved
      rw [split, ← List.append_assoc] at distinct
      -- The binding of the first item is now one of the draft.
      have before := (List.pairwise_append.mp (List.pairwise_append.mp distinct).1).2.2
      obtain ⟨own, added, ownItem⟩ := tagAttribute_item (d := d) nesting namedHere name value
        notXmlHere (fun b made => unreserved.1 b (Option.mem_toList.mpr made))
        (fun b made c member => before c member b (Option.mem_toList.mpr made))
      obtain ⟨pending, read, agree⟩ := ih namedLater notXmlLater
        (d := { d with
          declarations := d.declarations ++ s.item.binding?.toList
          attributes := d.attributes ++ own }) rest unreserved.2 distinct
      refine ⟨own ++ pending, ?_, ?_⟩
      · rw [List.foldlM_cons, added]
        refine read.trans ?_
        rw [split, List.append_assoc, List.append_assoc]
      · rw [List.map_append, ownItem, agree]
        exact (Item.plain_cons _ _).symm

/-! ## Resolving names -/

theorem attributeNamespace_of_bound {source : List Char} {scope : Scope}
    {a : UnresolvedAttribute}
    (bound : a.name.nsPrefix = xmlPrefix ∨ scope.Binds a.name) :
    attributeNamespace source scope a = .ok (Form.attributeUri? scope a.name) := by
  simp only [attributeNamespace, Form.attributeUri?]
  by_cases unprefixed : a.name.nsPrefix = ""
  · simp [unprefixed]
  by_cases xml : a.name.nsPrefix = xmlPrefix
  · rw [xml]
    rfl
  · obtain ⟨uri, found⟩ := Option.ne_none_iff_exists'.mp
      ((bound.resolve_left xml).resolve_left unprefixed)
    simp [unprefixed, xml, found]

theorem resolveAttributes_pending {source : List Char} {scope : Scope}
    {pending : List UnresolvedAttribute}
    (bound : ∀ a ∈ pending, a.name.nsPrefix = xmlPrefix ∨ scope.Binds a.name) :
    ∀ {resolved : List Attribute},
    (resolved ++ pending.map fun a => Form.resolve scope ⟨a.name, a.value⟩).Pairwise
      (fun a b => ¬ (a.nsUri? = b.nsUri? ∧ a.localName = b.localName)) →
    resolveAttributes source scope resolved pending =
      .ok (resolved ++ pending.map fun a => Form.resolve scope ⟨a.name, a.value⟩) := by
  induction pending with
  | nil =>
    intro resolved _
    rw [List.map_nil, List.append_nil]
    rfl
  | cons a pending ih =>
    intro resolved distinct
    obtain ⟨here, later⟩ := List.forall_mem_cons.mp bound
    have fresh : resolved.any (fun b => b.nsUri? = Form.attributeUri? scope a.name &&
        b.localName = a.name.localName) = false := by
      rw [List.any_eq_false]
      intro b member same
      have different := (List.pairwise_append.mp distinct).2.2 b member _ List.mem_cons_self
      rw [Bool.and_eq_true, decide_eq_true_eq, decide_eq_true_eq] at same
      exact different same
    -- The first name is a new one, and is now one of the resolved names.
    simp only [resolveAttributes]
    rw [attributeNamespace_of_bound here]
    show (if _ then _ else _) = _
    rw [fresh, if_neg Bool.false_ne_true]
    have split : resolved ++ (a :: pending).map (fun a => Form.resolve scope ⟨a.name, a.value⟩) =
        (resolved ++ [Form.resolve scope ⟨a.name, a.value⟩]) ++
          pending.map fun a => Form.resolve scope ⟨a.name, a.value⟩ := by
      rw [List.map_cons, List.append_assoc, List.singleton_append]
    rw [split] at distinct ⊢
    exact ih later distinct

theorem elementNamespace_of_bound (source : List Char) (start : Nat) {scope : Scope}
    {name : QName} (bound : name.nsPrefix = "" ∨ scope.uri? name.nsPrefix ≠ none) :
    elementNamespace source scope name start = .ok (scope.uri? name.nsPrefix) := by
  simp only [elementNamespace]
  split
  · rename_i prefixed nothing
    rcases bound with unprefixed | found
    · rw [unprefixed] at prefixed
      cases prefixed
    · exact absurd nothing found
  · rfl

/-! ## Tags -/

/-- No start tag is half read. -/
structure Settled (d : Draft) : Prop where
  declarations : d.declarations = []
  attributes : d.attributes = []

/-- The draft after a start tag. -/
def opening (d : Draft) (tag : Tag) (e : Element) : Draft :=
  { d with
    tagSeen := true
    afterText := false
    size := d.size + 1
    siblings := .nil
    opened := ⟨tag, e, d.siblings⟩ :: d.opened }

variable {tag : Tag} {name : QName} {items : List SpelledItem}

/-- The items of a tag are read: its declarations and its attributes are pending. -/
theorem exists_pending (nesting : Nat) {spelled : List TagAttribute} (settled : d.Settled)
    (valid : Script.ValidTag d.outerScope name items) (spells : Spells spelled items) :
    ∃ pending : List UnresolvedAttribute, spelled.foldlM (tagAttribute nesting false) d =
        .ok { d with
          declarations := Item.bindings (Script.itemsOf items)
          attributes := pending } ∧
      pending.map (fun b => Item.mk b.name b.value) = Item.plain (Script.itemsOf items) := by
  have distinct : (d.declarations ++ Item.bindings (Script.itemsOf items)).Pairwise
      (fun b c => c.nsPrefix ≠ "" → b.nsPrefix ≠ c.nsPrefix) := by
    rw [settled.declarations]
    exact valid.distinct
  obtain ⟨pending, read, agree⟩ := foldlM_items nesting
    (fun s member => (valid.writable s member).name.valid) valid.notXml spells valid.unreserved
    distinct
  refine ⟨pending, ?_, agree⟩
  rw [read, settled.declarations, settled.attributes]
  rfl

/-- The names of a tag are resolved in the scope that its declarations give. -/
theorem element_pending {pending : List UnresolvedAttribute}
    (valid : Script.ValidTag d.outerScope name items) (named : tag.name = name)
    (agree : pending.map (fun b => Item.mk b.name b.value) = Item.plain (Script.itemsOf items)) :
    Draft.element { d with
        declarations := Item.bindings (Script.itemsOf items), attributes := pending } tag =
      .ok (Item.element d.outerScope name (Script.itemsOf items),
        { d with declarations := [], attributes := [] }) := by
  have resolve : (pending.map fun a =>
      Form.resolve (Script.scopeOf d.outerScope items) ⟨a.name, a.value⟩) =
      (Item.plain (Script.itemsOf items)).map
        (Form.resolve (Script.scopeOf d.outerScope items)) := by
    rw [← agree, List.map_map]
    rfl
  have resolved : resolveAttributes d.source (Script.scopeOf d.outerScope items) [] pending =
      .ok ((Item.plain (Script.itemsOf items)).map
        (Form.resolve (Script.scopeOf d.outerScope items))) := by
    rw [← resolve]
    refine resolveAttributes_pending ?_ (resolve ▸ valid.named)
    intro a member
    refine valid.attributed ⟨a.name, a.value⟩ ?_
    rw [← agree]
    exact List.mem_map.mpr ⟨a, member, rfl⟩
  have bound := elementNamespace_of_bound d.source tag.start valid.bound
  simp only [Draft.element, Draft.resolve]
  show (resolveAttributes d.source (Script.scopeOf d.outerScope items) [] pending >>= _ >>= _) = _
  rw [resolved]
  show (elementNamespace d.source (Script.scopeOf d.outerScope items) tag.name tag.start
    >>= _) = _
  rw [named, bound]
  rfl

theorem startTag_spelled (settled : d.Settled)
    (valid : Script.ValidTag d.outerScope name items) (named : tag.name = name)
    (opens : tag.ending = .opens) (spells : Spells tag.attributes items)
    (limit : d.size < d.options.nodeLimit) :
    d.startTag nesting false tag =
      .ok (d.opening tag (Item.element d.outerScope name (Script.itemsOf items))) := by
  have notXmlns : tag.name.nsPrefix ≠ xmlnsPrefix := named ▸ valid.notXmlns
  let begun : Draft := { d with tagSeen := true, afterText := false }
  obtain ⟨pending, read, agree⟩ := exists_pending (d := begun) nesting
    ⟨settled.declarations, settled.attributes⟩ valid spells
  have element := element_pending (d := begun) valid named agree
  -- The steps of the reader in order: the items, the names, and the node.
  simp only [startTag]
  rw [if_neg notXmlns]
  show (tag.attributes.foldlM (tagAttribute nesting false) begun >>= _) = _
  rw [read]
  show (pure _ >>= _) = _
  rw [pure_bind, opens]
  show (Draft.element { begun with
      declarations := Item.bindings (Script.itemsOf items), attributes := pending } tag >>= _) = _
  rw [element]
  show (Draft.append { begun with declarations := [], attributes := [] } _ >>= _) = _
  simp only [append]
  rw [if_neg (Nat.not_le_of_lt limit)]
  show Except.ok _ = Except.ok _
  simp only [opening]
  rw [settled.declarations, settled.attributes]
  rfl

/-- The draft after the end tag of its innermost element `p`. -/
def closing (d : Draft) (p : OpenElement) (rest : List OpenElement) (stop : Nat) : Draft :=
  { d with
    opened := rest
    afterText := false
    siblings := .element { p.element with tag := spelled? p.tag stop } d.siblings.reverse p.before }

theorem endTag_spelled {p : OpenElement} {rest : List OpenElement} (settled : d.Settled)
    (seen : d.tagSeen = true) (opened : d.opened = p :: rest) (stop : Nat) :
    d.endTag p.tag.name stop = .ok (d.closing p rest stop) := by
  obtain ⟨source, options, entities, size, opened', siblings, afterText, declarations, attributes,
    tagSeen, references⟩ := d
  obtain ⟨rfl, rfl⟩ := settled
  dsimp only at seen opened
  subst seen opened
  simp only [endTag]
  show (if p.tag.name ≠ p.tag.name then _ else _) = _
  rw [if_neg fun different => different rfl]
  rfl

/-! ## Leaves -/

/-- The draft with a leaf that is no text. -/
def withLeaf (d : Draft) (l : Leaf) : Draft :=
  { d with siblings := .leaf l d.siblings, size := d.size + 1, afterText := false }

theorem append_leaf (l : Leaf) (limit : d.size < d.options.nodeLimit) :
    d.append (.leaf l) = .ok (d.withLeaf l) := by
  simp only [append]
  rw [if_neg (Nat.not_le_of_lt limit)]
  rfl

theorem appendText_fresh (text : String) (fresh : d.afterText = false)
    (limit : d.size < d.options.nodeLimit) :
    d.appendText text = .ok { d.withLeaf (.text text) with afterText := true } := by
  simp only [appendText]
  rw [fresh]
  dsimp only
  rw [append_leaf _ limit]
  rfl

end Reading.Draft

end CanonicalXml
