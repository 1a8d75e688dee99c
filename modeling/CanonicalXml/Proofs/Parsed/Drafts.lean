import CanonicalXml.Proofs.Parsed.Lexemes
import CanonicalXml.Proofs.Parsed.Steps

/-! # Drafts that are read

Each lexeme keeps a draft sound, whether it comes from the text itself or from that of an entity.

* `Draft.Sound` — the invariant of a draft.
* `Draft.Sound.read` — one lexeme; `Draft.preserves_readAll` — a list of lexemes.
* `Document.sound_of_read` — what holds of a document that was read.
-/

namespace CanonicalXml

namespace Content

theorem size_reverseOnto (front c : Content) :
    (reverseOnto front c).size = front.size + c.size := by
  induction c generalizing front with
  | nil => rfl
  | leaf l next ih =>
    rw [reverseOnto, ih, size, size]
    omega
  | element e inner next _ ih =>
    rw [reverseOnto, ih, size, size]
    omega

theorem size_reverse (c : Content) : c.reverse.size = c.size := by
  simp only [reverse]
  rw [size_reverseOnto, size, Nat.zero_add]

end Content

namespace Scope

theorem mem_merge {seen outer : Scope} {b : Binding} (member : b ∈ merge seen outer) :
    b ∈ seen ∨ b ∈ outer := by
  simp only [merge] at member
  induction outer generalizing seen with
  | nil => exact .inl member
  | cons c outer ih =>
    rw [List.foldl_cons] at member
    -- The first binding of `outer` is taken over unless its prefix has been seen.
    rcases ih member with inSeen | inOuter
    · split at inSeen
      · exact .inl inSeen
      · rcases List.mem_append.mp inSeen with inSeen | here
        · exact .inl inSeen
        · exact .inr (List.mem_cons.mpr (.inl (List.mem_singleton.mp here)))
    · exact .inr (List.mem_cons_of_mem c inOuter)

theorem mem_extend {own outer : Scope} {b : Binding} (member : b ∈ extend own outer) :
    b ∈ own ∨ b ∈ outer := by
  simp only [extend] at member
  split at member
  · exact .inr member
  · exact mem_merge member

end Scope

namespace Reading

open Markup (Lexeme Tag TagAttribute TextPart)

namespace Draft

/-- The number of nodes outside of the innermost open element. -/
def outside : List OpenElement → Nat
  | [] => 0
  | p :: opened => p.before.size + 1 + outside opened

/-- The invariant of a draft that is read with these options. -/
structure Sound (options : ReadOptions) (d : Draft) : Prop where
  siblings : d.siblings.All Leaf.Sound Element.Sound
  opened : ∀ p ∈ d.opened, p.element.Sound ∧ p.before.All Leaf.Sound Element.Sound
  declarations : ∀ b ∈ d.declarations, b.Sound
  attributes : ∀ a ∈ d.attributes, a.name.Valid ∧ a.name.localName ≠ xmlnsPrefix
  counted : d.size = 1 + outside d.opened + d.siblings.size
  limited : d.size ≤ max 1 options.nodeLimit
  same : d.options = options

variable {options : ReadOptions} {d d' : Draft}

theorem sound_empty (source : List Char) (options : ReadOptions) :
    (empty source options).Sound options :=
  ⟨trivial, nofun, nofun, nofun, rfl, Nat.le_max_left _ _, rfl⟩

/-- What a draft remembers besides its nodes and the tag that is being read does not matter. -/
theorem Sound.remember (sound : d.Sound options) (entities : List Entity) (references : Nat)
    (tagSeen afterText : Bool) :
    Sound options { d with entities, references, tagSeen, afterText } :=
  ⟨sound.siblings, sound.opened, sound.declarations, sound.attributes, sound.counted,
    sound.limited, sound.same⟩

/-! ## Nodes -/

theorem Sound.limit_of_room (sound : d.Sound options) (room : d.size < d.options.nodeLimit) :
    d.size + 1 ≤ max 1 options.nodeLimit := by
  rw [sound.same] at room
  exact Nat.le_trans room (Nat.le_max_right _ _)

theorem Sound.append_leaf (sound : d.Sound options) {l : Leaf} (leaf : l.Sound)
    (added : d.append (.leaf l) = .ok d') : d'.Sound options := by
  obtain ⟨room, rfl⟩ := append_eq_ok added
  have counted : d.size + 1 = 1 + outside d.opened + (Content.leaf l d.siblings).size := by
    rw [sound.counted, Content.size]
    omega
  exact ⟨⟨leaf, sound.siblings⟩, sound.opened, sound.declarations, sound.attributes, counted,
    sound.limit_of_room room, sound.same⟩

theorem Sound.appendText (sound : d.Sound options) {text : String}
    (admitted : ∀ c ∈ text.toList, Chars.isXml c = true)
    (added : d.appendText text = .ok d') : d'.Sound options := by
  rcases appendText_eq_ok added with ⟨old, rest, siblings, rfl⟩ | ⟨d₁, appended, rfl⟩
  · -- The text joins the one before it, so that there are no more nodes than before.
    have sound' := sound.siblings
    have counted := sound.counted
    rw [siblings] at sound' counted
    refine ⟨⟨?_, sound'.2⟩, sound.opened, sound.declarations, sound.attributes, counted,
      sound.limited, sound.same⟩
    show ∀ c ∈ (old ++ text).toList, _
    rw [String.toList_append, List.forall_mem_append]
    exact ⟨sound'.1, admitted⟩
  · have sound₁ := sound.append_leaf (l := .text text) admitted appended
    exact sound₁.remember d₁.entities d₁.references d₁.tagSeen true

/-! ## Tags -/

theorem sound_outerScope (sound : d.Sound options) : ∀ b ∈ d.outerScope, b.Sound := by
  simp only [outerScope]
  split
  · exact nofun
  · rename_i p _ opened
    have member : p ∈ d.opened := by
      rw [opened]
      exact List.mem_cons_self
    exact (sound.opened p member).1.scope

theorem Sound.declare (sound : d.Sound options) {b : Binding} (declared : b.Sound) :
    Sound options { d with declarations := d.declarations ++ [b] } := by
  have declarations : ∀ c ∈ d.declarations ++ [b], c.Sound :=
    List.forall_mem_append.mpr ⟨sound.declarations, List.forall_mem_singleton.mpr declared⟩
  exact ⟨sound.siblings, sound.opened, declarations, sound.attributes, sound.counted,
    sound.limited, sound.same⟩

theorem Sound.declarePrefix (sound : d.Sound options) {p uri : String} (named : Markup.NcName p)
    (declared : d.declarePrefix p uri = .ok d') : d'.Sound options := by
  rcases declarePrefix_eq_ok declared with ⟨-, rfl⟩ | ⟨notXml, notXmlUri, notXmlnsUri, -, rfl⟩
  · exact sound
  · exact sound.declare ⟨.inr named, notXml, notXmlUri, notXmlnsUri⟩

theorem Sound.declareDefault (sound : d.Sound options) {uri : String}
    (declared : d.declareDefault uri = .ok d') : d'.Sound options := by
  obtain ⟨notXmlUri, notXmlnsUri, rfl⟩ := declareDefault_eq_ok declared
  have notXml : "" ≠ xmlPrefix := by decide
  exact sound.declare ⟨.inl rfl, notXml, notXmlUri, notXmlnsUri⟩

theorem Sound.tagAttribute {nesting : Nat} {deep : Bool} {a : TagAttribute}
    (sound : d.Sound options) (valid : a.name.Valid)
    (added : d.tagAttribute nesting deep a = .ok d') : d'.Sound options := by
  obtain ⟨value, references, cases⟩ := tagAttribute_cases added
  have sound' := sound.remember d.entities references d.tagSeen d.afterText
  rcases cases with ⟨-, declared⟩ | ⟨-, -, declared⟩ | ⟨-, notXmlns, rfl⟩
  · exact sound'.declarePrefix valid.localName declared
  · exact sound'.declareDefault declared
  · refine ⟨sound.siblings, sound.opened, sound.declarations, ?_, sound.counted, sound.limited,
      sound.same⟩
    refine List.forall_mem_append.mpr ⟨sound.attributes, ?_⟩
    exact List.forall_mem_singleton.mpr ⟨valid, notXmlns⟩

theorem attributeNamespace_ne {source : List Char} {scope : Scope} {a : UnresolvedAttribute}
    {nsUri? : Option String} (sound : ∀ b ∈ scope, b.Sound)
    (found : attributeNamespace source scope a = .ok nsUri?) : nsUri? ≠ some xmlnsNamespace := by
  simp only [attributeNamespace] at found
  split at found
  · cases found
    exact nofun
  split at found
  · cases found
    decide
  split at found
  · rename_i uri bound
    cases found
    intro same
    exact (sound _ (Scope.mem_of_uri? bound)).notXmlnsUri (Option.some.inj same)
  · cases found

theorem sound_resolveAttributes {source : List Char} {scope : Scope}
    (scopeSound : ∀ b ∈ scope, b.Sound) {pending : List UnresolvedAttribute}
    (valid : ∀ a ∈ pending, a.name.Valid ∧ a.name.localName ≠ xmlnsPrefix) :
    ∀ {resolved attributes : List Attribute}, (∀ a ∈ resolved, a.Sound) →
    resolved.Pairwise Attribute.Apart →
    resolveAttributes source scope resolved pending = .ok attributes →
    (∀ a ∈ attributes, a.Sound) ∧ attributes.Pairwise Attribute.Apart := by
  induction pending with
  | nil =>
    intro resolved attributes sound apart same
    cases same
    exact ⟨sound, apart⟩
  | cons a pending ih =>
    intro resolved attributes sound apart resolves
    obtain ⟨validHere, validLater⟩ := List.forall_mem_cons.mp valid
    rw [resolveAttributes, except_bind_eq_ok] at resolves
    obtain ⟨nsUri?, found, resolves⟩ := resolves
    split at resolves
    · cases resolves
    · rename_i different
      -- The attribute joins the resolved ones, all of which have other names.
      refine ih validLater ?_ ?_ resolves
      · refine List.forall_mem_append.mpr ⟨sound, List.forall_mem_cons.mpr ⟨?_, nofun⟩⟩
        exact ⟨validHere.1.localName, validHere.2, attributeNamespace_ne scopeSound found⟩
      · refine List.pairwise_append.mpr ⟨apart, List.pairwise_singleton _ _, ?_⟩
        intro b member c last same
        rw [List.mem_singleton.mp last] at same
        refine different (List.any_eq_true.mpr ⟨b, member, ?_⟩)
        rw [Bool.and_eq_true, decide_eq_true_eq, decide_eq_true_eq]
        exact same

theorem Sound.resolve (sound : d.Sound options) {scope : Scope} {attributes : List Attribute}
    (resolves : d.resolve = .ok (scope, attributes, d')) :
    (∀ b ∈ scope, b.Sound) ∧ (∀ a ∈ attributes, a.Sound) ∧
      attributes.Pairwise Attribute.Apart := by
  obtain ⟨rfl, found, -⟩ := resolve_eq_ok resolves
  have scopeSound : ∀ b ∈ Scope.extend d.declarations d.outerScope, b.Sound := by
    intro b member
    rcases Scope.mem_extend member with declared | outer
    · exact sound.declarations b declared
    · exact sound_outerScope sound b outer
  exact ⟨scopeSound, sound_resolveAttributes scopeSound sound.attributes
    (List.forall_mem_nil _) List.Pairwise.nil found⟩

theorem Sound.element (sound : d.Sound options) {tag : Tag} {e : Element}
    (valid : tag.name.Valid) (found : d.element tag = .ok (e, d')) :
    e.Sound ∧ d' = { d with declarations := [], attributes := [] } := by
  obtain ⟨scope, attributes, nsUri?, resolves, named, rfl⟩ := element_cases found
  obtain ⟨scopeSound, attributesSound, apart⟩ := sound.resolve resolves
  obtain ⟨-, -, rfl⟩ := resolve_eq_ok resolves
  refine ⟨⟨valid.localName, scopeSound, ?_, attributesSound, apart⟩, rfl⟩
  have bound : scope.uri? tag.name.nsPrefix = nsUri? := by
    simp only [elementNamespace] at named
    split at named
    · cases named
    · cases named
      rfl
  intro uri same
  have sound' := scopeSound _ (Scope.mem_of_uri? (bound.trans same))
  exact ⟨sound'.notXmlUri, sound'.notXmlnsUri⟩

/-- How a tag is spelled does not matter. -/
theorem sound_withTag {e : Element} (sound : e.Sound) (tag : Option StartTag) :
    Element.Sound { e with tag } :=
  ⟨sound.localName, sound.scope, sound.nsUri, sound.attributes, sound.apart⟩

theorem Sound.startTag {nesting : Nat} {deep : Bool} {tag : Tag} (sound : d.Sound options)
    (valid : tag.Sound) (read : d.startTag nesting deep tag = .ok d') : d'.Sound options := by
  obtain ⟨-, d₁, attributes, read⟩ := startTag_eq_ok read
  have begun := sound.remember d.entities d.references true false
  have sound₁ : d₁.Sound options :=
    foldlM_preserves
      (fun a member b b' sound added => sound.tagAttribute (valid.attributes a member) added)
      begun attributes
  have counted := sound₁.counted
  rcases read with ⟨-, rfl⟩ | ⟨-, e, d₂, element, appended⟩ |
    ⟨-, e, d₂, d₃, element, appended, rfl⟩
  · exact sound₁
  · -- The element is empty.
    obtain ⟨soundElement, rfl⟩ := sound₁.element valid.name element
    obtain ⟨room, rfl⟩ := append_eq_ok appended
    refine ⟨⟨sound_withTag soundElement _, trivial, sound₁.siblings⟩, sound₁.opened, nofun, nofun,
      ?_, sound₁.limit_of_room room, sound₁.same⟩
    simp only [Content.size]
    omega
  · -- The element is open, and its siblings stay with it.
    obtain ⟨soundElement, rfl⟩ := sound₁.element valid.name element
    obtain ⟨room, rfl⟩ := append_eq_ok appended
    refine ⟨trivial, ?_, nofun, nofun, ?_, sound₁.limit_of_room room, sound₁.same⟩
    · exact List.forall_mem_cons.mpr ⟨⟨soundElement, sound₁.siblings⟩, sound₁.opened⟩
    · simp only [Content.size, outside] at counted ⊢
      omega

theorem Sound.endTag {name : QName} {stop : Nat} (sound : d.Sound options)
    (read : d.endTag name stop = .ok d') : d'.Sound options := by
  obtain ⟨p, rest, opened, rfl⟩ := endTag_eq_ok read
  have open' := sound.opened
  have counted := sound.counted
  rw [opened] at open' counted
  obtain ⟨⟨soundElement, soundBefore⟩, soundRest⟩ := List.forall_mem_cons.mp open'
  refine ⟨⟨sound_withTag soundElement _, sound.siblings.reverse, soundBefore⟩, soundRest,
    nofun, nofun, ?_, sound.limited, sound.same⟩
  simp only [Content.size, Content.size_reverse, outside] at counted ⊢
  omega

/-! ## References -/

/-- The character that a part stands for is admitted. -/
def AdmittedPart : TextPart → Prop
  | .literal c | .character c => Chars.isXml c = true
  | .entity _ | .malformed => True

theorem numeric?_admitted {base : Nat} {isDigit : Char → Bool} {cs rest : List Char}
    {part : TextPart} (read : Markup.numeric? base isDigit cs = some (part, rest)) :
    AdmittedPart part ∧ rest ⊆ cs := by
  obtain ⟨c, -, read⟩ := Option.bind_eq_some_iff.mp read
  split at read
  · rename_i admitted
    cases read
    exact ⟨admitted, (List.dropWhile_sublist _).subset⟩
  · cases read

theorem named_admitted (name : List Char) : AdmittedPart (TextPart.named name) := by
  simp only [TextPart.named]
  split
  · show Chars.isXml '"' = true
    decide
  · show Chars.isXml '&' = true
    decide
  · show Chars.isXml '\'' = true
    decide
  · show Chars.isXml '<' = true
    decide
  · show Chars.isXml '>' = true
    decide
  · trivial

theorem reference?_admitted {cs rest : List Char} {part : TextPart}
    (read : Markup.reference? cs = some (part, rest)) : AdmittedPart part ∧ rest ⊆ cs := by
  obtain ⟨⟨found, tail⟩, body, read⟩ := Option.bind_eq_some_iff.mp read
  obtain ⟨after, strips, same⟩ := Option.map_eq_some_iff.mp read
  cases same
  rw [Text.strip?_eq_some] at strips
  have inTail : rest ⊆ tail := by
    rw [strips]
    exact List.subset_append_right _ _
  have inBody : AdmittedPart part ∧ tail ⊆ cs := by
    simp only [Markup.referenceBody?] at body
    split at body
    · obtain ⟨admitted, within⟩ := numeric?_admitted body
      exact ⟨admitted, List.subset_cons_of_subset _ (List.subset_cons_of_subset _ within)⟩
    · obtain ⟨admitted, within⟩ := numeric?_admitted body
      exact ⟨admitted, List.subset_cons_of_subset _ within⟩
    · obtain ⟨⟨name, afterName⟩, named, same⟩ := Option.map_eq_some_iff.mp body
      cases same
      refine ⟨named_admitted name, ?_⟩
      simp only [Markup.name?] at named
      split at named
      · cases named
      · split at named
        · cases named
          exact List.subset_cons_of_subset _ (List.dropWhile_sublist _).subset
        · cases named
  exact ⟨inBody.1, List.Subset.trans inTail inBody.2⟩

theorem list_admitted {raw : List Char} (admitted : ∀ c ∈ raw, Chars.isXml c = true) :
    ∀ part ∈ TextPart.list raw, AdmittedPart part := by
  fun_induction TextPart.list raw with
  | case1 => exact nofun
  | case2 => exact List.forall_mem_cons.mpr ⟨trivial, nofun⟩
  | case3 cs part rest read ih =>
    -- After a reference, what is left is a part of the text.
    obtain ⟨admittedPart, within⟩ := reference?_admitted read
    exact List.forall_mem_cons.mpr ⟨admittedPart,
      ih fun c member => admitted c (List.mem_cons_of_mem _ (within member))⟩
  | case4 c cs _ ih =>
    obtain ⟨here, later⟩ := List.forall_mem_cons.mp admitted
    exact List.forall_mem_cons.mpr ⟨here, ih later⟩

/-! ## Text -/

/-- All characters in the buffer are admitted. -/
def Admits (buffer : LineBuffer) : Prop :=
  ∀ c ∈ buffer, Chars.isXml c = true

theorem admits_nil : Admits [] :=
  fun _ absent => nomatch absent

theorem Admits.keep {buffer : LineBuffer} (admits : Admits buffer) {c : Char}
    (admitted : Chars.isXml c = true) : Admits (buffer.keep c) :=
  List.forall_mem_cons.mpr ⟨admitted, admits⟩

theorem Admits.push {buffer : LineBuffer} (admits : Admits buffer) {c : Char}
    (admitted : Chars.isXml c = true) (last : Bool) : Admits (buffer.push last c) := by
  have feed : Chars.isXml '\n' = true := by decide
  simp only [LineBuffer.push]
  -- A carriage return that is already in the buffer becomes a line feed.
  split
  · obtain ⟨-, rest⟩ := List.forall_mem_cons.mp admits
    split
    · exact List.forall_mem_cons.mpr ⟨feed, List.forall_mem_cons.mpr ⟨feed, rest⟩⟩
    split
    · exact List.forall_mem_cons.mpr ⟨feed, rest⟩
    · exact List.forall_mem_cons.mpr ⟨admitted, List.forall_mem_cons.mpr ⟨feed, rest⟩⟩
  · split
    · exact List.forall_mem_cons.mpr ⟨feed, admits⟩
    · exact List.forall_mem_cons.mpr ⟨admitted, admits⟩

theorem Admits.pushAll {cs : List Char} (admitted : ∀ c ∈ cs, Chars.isXml c = true) :
    ∀ {buffer : LineBuffer}, Admits buffer → Admits (buffer.pushAll cs) := by
  induction cs with
  | nil => exact fun admits => admits
  | cons c cs ih =>
    intro buffer admits
    obtain ⟨here, later⟩ := List.forall_mem_cons.mp admitted
    exact ih later (admits.push here cs.isEmpty)

theorem Admits.text {buffer : LineBuffer} (admits : Admits buffer) :
    ∀ c ∈ buffer.text.toList, Chars.isXml c = true := by
  simp only [LineBuffer.text]
  rw [String.toList_ofList]
  exact fun c member => admits c (List.mem_reverse.mp member)

theorem Sound.flush (sound : d.Sound options) {buffer : LineBuffer} (admits : Admits buffer)
    (added : d.flush buffer = .ok d') : d'.Sound options := by
  rcases flush_eq_ok added with rfl | added
  · exact sound
  · exact sound.appendText admits.text added

section Lexemes

variable {nesting : Nat} {deep : Bool} {expand : List Lexeme → Draft → Except Fault Draft}

/-- The reader of entities keeps drafts sound. -/
def Preserves (options : ReadOptions) (expand : List Lexeme → Draft → Except Fault Draft) : Prop :=
  ∀ {ls : List Lexeme} {d d' : Draft}, (∀ l ∈ ls, l.Sound) → d.Sound options →
    expand ls d = .ok d' → d'.Sound options

theorem Sound.readEntity (sound : d.Sound options) (preserves : Preserves options expand)
    {entity : Entity} (read : d.readEntity deep expand entity = .ok d') : d'.Sound options := by
  obtain ⟨references, inner, expanded, rfl⟩ := readEntity_eq_ok read
  have begun := sound.remember d.entities references false d.afterText
  have ended := preserves (Markup.sound_replacement _ _) begun expanded
  exact ended.remember inner.entities _ d.tagSeen inner.afterText

theorem Sound.readText (preserves : Preserves options expand) {parts : List TextPart}
    (admitted : ∀ part ∈ parts, AdmittedPart part) : ∀ {d : Draft} {buffer : LineBuffer}
    {raw : Bool}, d.Sound options → Admits buffer →
    d.readText deep expand buffer raw parts = .ok d' → d'.Sound options := by
  induction parts with
  | nil =>
    intro d buffer raw sound admits read
    exact sound.flush admits read
  | cons part parts ih =>
    intro d buffer raw sound admits read
    obtain ⟨here, later⟩ := List.forall_mem_cons.mp admitted
    cases part with
    | literal c =>
      refine ih later sound ?_ read
      cases raw with
      | true => exact admits.keep here
      | false => exact admits.push here _
    | character c =>
      refine ih later sound ?_ read
      cases deep with
      | true => exact admits.push here _
      | false => exact admits.keep here
    | entity name =>
      obtain ⟨entity, d₁, d₂, -, flushed, expanded, read⟩ := readText_entity_eq_ok read
      exact ih later ((sound.flush admits flushed).readEntity preserves expanded) admits_nil read
    | malformed => cases read

/-- A lexeme keeps a draft sound. -/
theorem Sound.read (sound : d.Sound options) (preserves : Preserves options expand) {l : Lexeme}
    (soundLexeme : l.Sound) (read : d.read nesting deep expand l = .ok d') :
    d'.Sound options := by
  cases l with
  | startTag tag => exact sound.startTag soundLexeme read
  | endTag name stop => exact sound.endTag read
  | text raw =>
    exact Sound.readText preserves (list_admitted soundLexeme) sound admits_nil read
  | cdata raw =>
    have admits : Admits (LineBuffer.pushAll [] raw) := Admits.pushAll soundLexeme admits_nil
    exact sound.appendText admits.text read
  | comment data =>
    refine sound.append_leaf ?_ read
    show Markup.CommentText (String.ofList data).toList
    rwa [String.toList_ofList]
  | instruction target data =>
    obtain ⟨named, admitted, noMark, first⟩ := soundLexeme
    refine sound.append_leaf ?_ read
    split
    · show Markup.IsName (String.ofList target).toList
      rwa [String.toList_ofList]
    · rename_i nonempty
      refine ⟨?_, ?_, ?_⟩
      · intro empty
        have spelled := congrArg String.toList empty
        rw [String.toList_ofList] at spelled
        exact nonempty (List.isEmpty_iff.mpr spelled)
      · rwa [String.toList_ofList]
      · rw [String.toList_ofList]
        exact ⟨admitted, noMark, first⟩
  | doctype =>
    obtain rfl := read_doctype_eq_ok read
    exact sound
  | entity name value stop =>
    cases read
    exact sound.remember _ d.references d.tagSeen d.afterText
  | malformed => cases read

theorem preserves_readAll (options : ReadOptions) (nesting : Nat) (deep : Bool) :
    Preserves options (readAll nesting deep) :=
  readAll_preserves (fun preserves _ _ _ soundLexeme sound read =>
    sound.read preserves soundLexeme read) nesting deep

end Lexemes

end Draft

end Reading

/-- A document that was read is sound, and no larger than was asked for. -/
theorem Document.sound_of_read {text : String} {options : ReadOptions} {d : Document}
    (parsed : Document.read text options = .ok d) :
    d.content.All Leaf.Sound Element.Sound ∧ d.size ≤ options.nodeLimit := by
  simp only [Document.read] at parsed
  obtain ⟨draft, lexemes, finished⟩ := except_bind_eq_ok.mp parsed
  have sound := Reading.Draft.preserves_readAll options _ _ (Markup.sound_ofDocument _)
    (Reading.Draft.sound_empty _ options) lexemes
  simp only [Document.ofDraft] at finished
  split at finished
  · rename_i complete
    cases finished
    rw [Bool.and_eq_true, List.isEmpty_iff] at complete
    refine ⟨sound.siblings.reverse, ?_⟩
    have counted := sound.counted
    have limited := sound.limited
    -- There is a document element, so that the limit is not the one for an empty document.
    have nonempty : draft.siblings.size ≠ 0 := by
      intro empty
      cases siblings : draft.siblings with
      | nil =>
        rw [siblings] at complete
        cases complete.2
      | leaf l next =>
        rw [siblings] at empty
        cases empty
      | element e inner next =>
        rw [siblings] at empty
        cases empty
    rw [complete.1] at counted
    show draft.siblings.reverse.size + 1 ≤ options.nodeLimit
    rw [Content.size_reverse]
    simp only [Reading.Draft.outside] at counted
    omega
  · cases finished

end CanonicalXml
