import CanonicalXml.Reading

/-! # Steps of a draft

What has become of a draft once something was added to it.  There is one description for each
function that adds something, guards included, and whatever is said of drafts that are read is
derived from them.

* `Draft.append_eq_ok`, `Draft.declarePrefix_eq_ok`, `Draft.startTag_eq_ok`, … — the drafts that
  the functions leave.
* `Draft.readAll_preserves` — what each lexeme preserves is preserved by all of them, those of the
  texts of entities included.
-/

namespace CanonicalXml

theorem except_bind_eq_ok {ε α β : Type} {x : Except ε α} {f : α → Except ε β} {b : β} :
    x >>= f = .ok b ↔ ∃ a, x = .ok a ∧ f a = .ok b := by
  cases x with
  | error fault =>
    constructor
    · exact nofun
    · rintro ⟨_, ⟨⟩, _⟩
  | ok a =>
    constructor
    · intro next
      exact ⟨a, rfl, next⟩
    · rintro ⟨_, ⟨⟩, next⟩
      exact next

theorem except_map_eq_ok {ε α β : Type} {x : Except ε α} {f : α → β} {b : β} :
    x.map f = .ok b ↔ ∃ a, x = .ok a ∧ f a = b := by
  cases x with
  | error fault =>
    constructor
    · exact nofun
    · rintro ⟨_, ⟨⟩, _⟩
  | ok a =>
    constructor
    · intro same
      cases same
      exact ⟨a, rfl, rfl⟩
    · rintro ⟨_, ⟨⟩, rfl⟩
      rfl

/-- What every step preserves is preserved by all of them. -/
theorem foldlM_preserves {α β : Type} {holds : β → Prop} {step : β → α → Except Fault β}
    {xs : List α} (preserves : ∀ x ∈ xs, ∀ b b', holds b → step b x = .ok b' → holds b') :
    ∀ {b b' : β}, holds b → xs.foldlM step b = .ok b' → holds b' := by
  induction xs with
  | nil =>
    intro b b' first same
    cases same
    exact first
  | cons x xs ih =>
    intro b b' first steps
    rw [List.foldlM_cons, except_bind_eq_ok] at steps
    obtain ⟨c, here, later⟩ := steps
    obtain ⟨preservesHere, preservesLater⟩ := List.forall_mem_cons.mp preserves
    exact ih preservesLater (preservesHere b c first here) later

namespace Reading.Draft

open Markup (Lexeme Tag TagAttribute TextPart)

variable {d d' : Draft}

/-! ## Nodes -/

/-- A node is added if there is room for it. -/
theorem append_eq_ok {node : Content → Content} (added : d.append node = .ok d') :
    d.size < d.options.nodeLimit ∧
      d' = { d with siblings := node d.siblings, size := d.size + 1, afterText := false } := by
  simp only [append] at added
  split at added
  · cases added
  · rename_i room
    cases added
    exact ⟨Nat.lt_of_not_le room, rfl⟩

/-- Text joins the text before it, or is a node of its own. -/
theorem appendText_eq_ok {text : String} (added : d.appendText text = .ok d') :
    (∃ old rest, d.siblings = .leaf (.text old) rest ∧
      d' = { d with siblings := .leaf (.text (old ++ text)) rest }) ∨
    ∃ d₁, d.append (.leaf (.text text)) = .ok d₁ ∧ d' = { d₁ with afterText := true } := by
  simp only [appendText] at added
  split at added
  · rename_i old rest _ siblings
    cases added
    exact .inl ⟨old, rest, siblings, rfl⟩
  · obtain ⟨d₁, appended, rfl⟩ := except_map_eq_ok.mp added
    exact .inr ⟨d₁, appended, rfl⟩

theorem flush_eq_ok {buffer : LineBuffer} (added : d.flush buffer = .ok d') :
    d' = d ∨ d.appendText buffer.text = .ok d' := by
  simp only [flush] at added
  split at added
  · cases added
    exact .inl rfl
  · exact .inr added

/-! ## Tags -/

/-- The prefix `xml` is bound already.  Any other one is declared once. -/
theorem declarePrefix_eq_ok {p uri : String} (declared : d.declarePrefix p uri = .ok d') :
    (p = xmlPrefix ∧ d' = d) ∨
    (p ≠ xmlPrefix ∧ uri ≠ xmlNamespace ∧ uri ≠ xmlnsNamespace ∧
      (∀ b ∈ d.declarations, b.nsPrefix ≠ p) ∧
      d' = { d with declarations := d.declarations ++ [⟨p, uri⟩] }) := by
  simp only [declarePrefix] at declared
  split at declared
  · cases declared
  rename_i notXmlnsUri
  split at declared
  · rename_i xml
    split at declared
    · cases declared
      exact .inl ⟨xml, rfl⟩
    · cases declared
  rename_i notXml
  split at declared
  · cases declared
  rename_i notXmlUri
  split at declared
  · cases declared
  · rename_i fresh
    cases declared
    refine .inr ⟨notXml, notXmlUri, notXmlnsUri, fun b member same => fresh ?_, rfl⟩
    exact List.any_eq_true.mpr ⟨b, member, decide_eq_true same⟩

theorem declareDefault_eq_ok {uri : String} (declared : d.declareDefault uri = .ok d') :
    uri ≠ xmlNamespace ∧ uri ≠ xmlnsNamespace ∧
      d' = { d with declarations := d.declarations ++ [⟨"", uri⟩] } := by
  simp only [declareDefault] at declared
  split at declared
  · cases declared
  · rename_i other
    cases declared
    exact ⟨fun xml => other (.inr xml), fun xmlns => other (.inl xmlns), rfl⟩

/-- An item of a tag declares a prefix, or the default namespace, or is an attribute, which is
pending. -/
theorem tagAttribute_cases {nesting : Nat} {deep : Bool} {a : TagAttribute}
    (added : d.tagAttribute nesting deep a = .ok d') : ∃ (value : String) (references : Nat),
      (a.name.nsPrefix = xmlnsPrefix ∧
        declarePrefix { d with references } a.name.localName value = .ok d') ∨
      (a.name.nsPrefix ≠ xmlnsPrefix ∧ a.name.localName = xmlnsPrefix ∧
        declareDefault { d with references } value = .ok d') ∨
      (a.name.nsPrefix ≠ xmlnsPrefix ∧ a.name.localName ≠ xmlnsPrefix ∧
        d' = { d with references, attributes := d.attributes ++ [⟨a.name, value, a.offset⟩] }) := by
  unfold tagAttribute at added
  split at added
  · cases added
  rename_i chars references _
  dsimp only at added
  refine ⟨String.ofList chars, references, ?_⟩
  split at added
  · rename_i declares
    exact .inl ⟨declares, added⟩
  rename_i other
  split at added
  · rename_i default
    exact .inr (.inl ⟨other, default, added⟩)
  · rename_i plain
    cases added
    exact .inr (.inr ⟨other, plain, rfl⟩)

/-- The names of a tag are resolved: nothing is pending any more. -/
theorem resolve_eq_ok {scope : Scope} {attributes : List Attribute}
    (resolves : d.resolve = .ok (scope, attributes, d')) :
    scope = Scope.extend d.declarations d.outerScope ∧
      resolveAttributes d.source scope [] d.attributes = .ok attributes ∧
      d' = { d with declarations := [], attributes := [] } := by
  simp only [resolve] at resolves
  obtain ⟨resolved, found, same⟩ := except_bind_eq_ok.mp resolves
  cases same
  exact ⟨rfl, found, rfl⟩

theorem element_cases {tag : Tag} {e : Element} (found : d.element tag = .ok (e, d')) :
    ∃ scope attributes nsUri?, d.resolve = .ok (scope, attributes, d') ∧
      elementNamespace d'.source scope tag.name tag.start = .ok nsUri? ∧
      e = ⟨nsUri?, tag.name.localName, attributes, scope, none⟩ := by
  simp only [element] at found
  obtain ⟨⟨scope, attributes, d₁⟩, resolves, found⟩ := except_bind_eq_ok.mp found
  obtain ⟨nsUri?, named, same⟩ := except_bind_eq_ok.mp found
  cases same
  exact ⟨scope, attributes, nsUri?, resolves, named, rfl⟩

/-- The items of a start tag are added one by one.  Then, unless the text ends before the tag does,
there is one more element, and if that is open, its siblings stay with it. -/
theorem startTag_eq_ok {nesting : Nat} {deep : Bool} {tag : Tag}
    (read : d.startTag nesting deep tag = .ok d') :
    tag.name.nsPrefix ≠ xmlnsPrefix ∧ ∃ d₁,
      tag.attributes.foldlM (tagAttribute nesting deep)
        { d with tagSeen := true, afterText := false } = .ok d₁ ∧
      ((tag.ending = .unfinished ∧ d' = d₁) ∨
      (tag.ending = .empties ∧ ∃ e d₂, d₁.element tag = .ok (e, d₂) ∧
        d₂.append (.element { e with tag := spelled? tag tag.stop } .nil) = .ok d') ∨
      (tag.ending = .opens ∧ ∃ e d₂ d₃, d₁.element tag = .ok (e, d₂) ∧
        (d₂.append fun _ => .nil) = .ok d₃ ∧
        d' = { d₃ with opened := ⟨tag, e, d₂.siblings⟩ :: d₃.opened })) := by
  unfold startTag at read
  dsimp only at read
  by_cases reserved : tag.name.nsPrefix = xmlnsPrefix
  · rw [if_pos reserved] at read
    cases read
  rw [if_neg reserved] at read
  obtain ⟨d₁, attributes, read⟩ := except_bind_eq_ok.mp read
  refine ⟨reserved, d₁, attributes, ?_⟩
  split at read
  · rename_i cut
    cases read
    exact .inl ⟨cut, rfl⟩
  · rename_i closes
    obtain ⟨⟨e, d₂⟩, element, appended⟩ := except_bind_eq_ok.mp read
    exact .inr (.inl ⟨closes, e, d₂, element, appended⟩)
  · rename_i opens
    obtain ⟨⟨e, d₂⟩, element, read⟩ := except_bind_eq_ok.mp read
    obtain ⟨d₃, appended, same⟩ := except_bind_eq_ok.mp read
    cases same
    exact .inr (.inr ⟨opens, e, d₂, d₃, element, appended, rfl⟩)

/-- The innermost element goes back among its siblings, with its children in order. -/
theorem endTag_eq_ok {name : QName} {stop : Nat} (read : d.endTag name stop = .ok d') :
    ∃ p rest, d.opened = p :: rest ∧
      d' = { d with
        declarations := []
        attributes := []
        opened := rest
        afterText := false
        siblings :=
          .element { p.element with tag := spelled? p.tag stop } d.siblings.reverse p.before } := by
  unfold endTag at read
  dsimp only at read
  by_cases unseen : (!d.tagSeen) = true
  · rw [if_pos unseen] at read
    cases read
  rw [if_neg unseen] at read
  obtain ⟨⟨scope, attributes, d₁⟩, resolves, read⟩ := except_bind_eq_ok.mp read
  obtain ⟨-, -, rfl⟩ := resolve_eq_ok resolves
  dsimp only at read
  split at read
  · cases read
  · rename_i p rest opened
    split at read
    · cases read
    · cases read
      exact ⟨p, rest, opened, rfl⟩

/-! ## Lexemes -/

variable {nesting : Nat} {deep : Bool} {expand : List Lexeme → Draft → Except Fault Draft}

/-- The text of an entity is read on its own, as far as start tags are asked for. -/
theorem readEntity_eq_ok {entity : Entity} (read : d.readEntity deep expand entity = .ok d') :
    ∃ references inner, expand (Markup.replacement entity.stop entity.value)
        { d with references, tagSeen := false } = .ok inner ∧
      d' = { inner with
        tagSeen := d.tagSeen
        references := if deep then inner.references else 0 } := by
  simp only [readEntity] at read
  split at read
  · cases read
  · rename_i references _
    obtain ⟨inner, expanded, same⟩ := except_bind_eq_ok.mp read
    cases same
    exact ⟨references, inner, expanded, rfl⟩

/-- What is in the buffer comes before what the entity stands for. -/
theorem readText_entity_eq_ok {buffer : LineBuffer} {raw : Bool} {name : String}
    {parts : List TextPart}
    (read : d.readText deep expand buffer raw (.entity name :: parts) = .ok d') :
    ∃ entity d₁ d₂, d.entities.find? (·.name = name) = some entity ∧ d.flush buffer = .ok d₁ ∧
      d₁.readEntity deep expand entity = .ok d₂ ∧
      d₂.readText deep expand [] false parts = .ok d' := by
  rw [readText] at read
  split at read
  · cases read
  · rename_i entity found
    obtain ⟨d₁, flushed, read⟩ := except_bind_eq_ok.mp read
    obtain ⟨d₂, expanded, read⟩ := except_bind_eq_ok.mp read
    exact ⟨entity, d₁, d₂, found, flushed, expanded, read⟩

theorem read_doctype_eq_ok (read : d.read nesting deep expand .doctype = .ok d') : d' = d := by
  change (if d.options.allowDoctype then _ else _) = _ at read
  split at read
  · cases read
    rfl
  · cases read

/-- What each lexeme preserves, if the texts of entities do, is preserved by lexemes in order.  The
induction is over the depth to which entities may nest. -/
theorem readAll_preserves {ok : Lexeme → Prop} {holds : Draft → Prop}
    (step : ∀ {nesting : Nat} {deep : Bool} {expand : List Lexeme → Draft → Except Fault Draft},
      (∀ {ls : List Lexeme} {d d' : Draft}, (∀ l ∈ ls, ok l) → holds d →
        expand ls d = .ok d' → holds d') →
      ∀ {l : Lexeme} {d d' : Draft}, ok l → holds d → d.read nesting deep expand l = .ok d' →
        holds d') :
    ∀ (nesting : Nat) (deep : Bool) {ls : List Lexeme} {d d' : Draft}, (∀ l ∈ ls, ok l) →
      holds d → readAll nesting deep ls d = .ok d' → holds d'
  | 0, _ => fun fine first read =>
    foldlM_preserves (fun l member _ _ holds read =>
      @step 0 _ (fun _ _ => .error .malformed) nofun _ _ _ (fine l member) holds read) first read
  | nesting + 1, _ => fun fine first read =>
    foldlM_preserves (fun l member _ _ holds read =>
      step (readAll_preserves step nesting true) (fine l member) holds read) first read

end Reading.Draft

end CanonicalXml
