import CanonicalXml.Markup.Prolog
import CanonicalXml.Proofs.Parsed.Sound
import CanonicalXml.Proofs.Parsed.Tags

/-! # Lexemes that are read

Whatever a text spells, its lexemes have well-formed names and admitted characters.

* `Markup.Lexeme.Sound` — what holds of a lexeme.
* `Markup.sound_markup?`, `Markup.sound_content` — the readers of content find sound lexemes.
* `Markup.sound_ofDocument` — so does the reader of a document.
-/

namespace CanonicalXml.Markup

open Text

/-- A tag with well-formed names. If the text shows all of it, it can be read as spelled. -/
structure Tag.Sound (tag : Tag) : Prop where
  name : tag.name.Valid
  attributes : ∀ a ∈ tag.attributes, a.name.Valid
  spelled : tag.ending ≠ .unfinished →
    ∃ spelled, StartTag.readChars? tag.text = some spelled ∧ spelled.Shows tag

/-- A lexeme with well-formed names and admitted characters. -/
def Lexeme.Sound : Lexeme → Prop
  | .startTag tag => tag.Sound
  | .text raw | .cdata raw => ∀ c ∈ raw, Chars.isXml c = true
  | .comment data => CommentText data
  | .instruction target data =>
    IsName target ∧ (∀ c ∈ data, Chars.isXml c = true) ∧ occurs ['?', '>'] data = false ∧
      Ends Chars.isSpace data
  | .endTag _ _ | .doctype | .entity _ _ _ | .malformed => True

/-! ## Names -/

theorem isName_of_name? {cs name rest : List Char} (read : name? cs = some (name, rest)) :
    IsName name := by
  simp only [name?] at read
  split at read
  · cases read
  · split at read
    · rename_i begins
      cases read
      refine ⟨begins, List.forall_mem_cons.mpr ⟨Chars.isName_of_isNameStart begins, ?_⟩⟩
      exact List.all_eq_true.mp List.all_takeWhile
    · cases read

/-! ## Content -/

theorem sound_comment? {cs rest : List Char} {l : Lexeme} (read : comment? cs = some (l, rest)) :
    l.Sound := by
  obtain ⟨⟨data, tail⟩, -, read⟩ := Option.bind_eq_some_iff.mp read
  dsimp only at read
  split at read
  · rename_i conditions
    cases read
    simp only [Bool.and_eq_true, Bool.not_eq_true', List.all_eq_true, decide_eq_true_eq]
      at conditions
    exact ⟨conditions.1.1, conditions.1.2, conditions.2⟩
  · cases read

theorem sound_cdata? {cs rest : List Char} {l : Lexeme} (read : cdata? cs = some (l, rest)) :
    l.Sound := by
  obtain ⟨⟨data, tail⟩, -, read⟩ := Option.bind_eq_some_iff.mp read
  dsimp only at read
  split at read
  · rename_i admitted
    cases read
    exact List.all_eq_true.mp admitted
  · cases read

theorem ends_skipSpace (cs : List Char) : Ends Chars.isSpace (skipSpace cs) := by
  intro c first
  have outside := List.head?_dropWhile_not Chars.isSpace cs
  rw [skipSpace] at first
  rw [first] at outside
  exact outside

theorem sound_instruction? {cs rest : List Char} {l : Lexeme}
    (read : instruction? cs = some (l, rest)) : l.Sound := by
  simp only [instruction?] at read
  split at read
  · cases read
  · obtain ⟨⟨target, afterTarget⟩, named, read⟩ := Option.bind_eq_some_iff.mp read
    obtain ⟨⟨data, tail⟩, found, read⟩ := Option.bind_eq_some_iff.mp read
    dsimp only at read found
    split at read
    · rename_i admitted
      cases read
      obtain ⟨split, noMark⟩ := until?_eq_some (by simp) found
      -- White space before the data has been skipped, so that the data does not begin with any.
      refine ⟨isName_of_name? named, List.all_eq_true.mp admitted, noMark, ?_⟩
      intro c first
      refine ends_skipSpace afterTarget c ?_
      rw [split, List.head?_append, first]
      rfl
    · cases read

theorem sound_text? {cs rest : List Char} {l : Lexeme} (read : text? cs = some (l, rest)) :
    l.Sound := by
  unfold text? at read
  dsimp only at read
  split at read
  · rename_i conditions
    cases read
    rw [Bool.and_eq_true, List.all_eq_true] at conditions
    exact conditions.1
  · cases read

theorem sound_tagRest? {stop : Nat} {cs rest : List Char} {attributes : List TagAttribute}
    {ending : TagEnding} (read : tagRest? stop cs = some (attributes, ending, rest)) :
    ∀ a ∈ attributes, a.name.Valid := by
  -- The text ends, the tag ends in one of two ways, it goes on badly, or an attribute follows.
  fun_induction tagRest? stop cs generalizing attributes ending rest with
  | case1 =>
    cases read
    exact List.forall_mem_nil _
  | case2 =>
    cases read
    exact List.forall_mem_nil _
  | case3 =>
    obtain ⟨_, -, same⟩ := Option.map_eq_some_iff.mp read
    cases same
    exact List.forall_mem_nil _
  | case4 => cases read
  | case5 cs _ name value tail found _ _ ih =>
    obtain ⟨⟨later, _, _⟩, readLater, same⟩ := Option.map_eq_some_iff.mp read
    cases same
    obtain ⟨_, -, attribute?⟩ := Option.bind_eq_some_iff.mp found
    obtain ⟨⟨_, _⟩, qname, attributeRest⟩ := Option.bind_eq_some_iff.mp attribute?
    obtain ⟨_, -, same⟩ := Option.map_eq_some_iff.mp attributeRest
    cases same
    exact List.forall_mem_cons.mpr ⟨valid_of_qname? qname, ih readLater⟩

theorem sound_startTag? {stop : Nat} {cs rest : List Char} {l : Lexeme}
    (read : startTag? stop cs = some (l, rest)) : l.Sound := by
  obtain ⟨⟨name, afterName⟩, qname, readRest⟩ := Option.bind_eq_some_iff.mp read
  obtain ⟨⟨attributes, ending, tail⟩, tagRest, same⟩ := Option.map_eq_some_iff.mp readRest
  cases same
  exact ⟨valid_of_qname? qname, sound_tagRest? tagRest, startTag?_spelled read⟩

theorem sound_endTag? {stop : Nat} {cs rest : List Char} {l : Lexeme}
    (read : endTag? stop cs = some (l, rest)) : l.Sound := by
  obtain ⟨⟨name, afterName⟩, -, read⟩ := Option.bind_eq_some_iff.mp read
  obtain ⟨tail, -, same⟩ := Option.map_eq_some_iff.mp read
  cases same
  trivial

theorem sound_markup? {stop : Nat} {cs rest : List Char} {l : Lexeme}
    (read : markup? stop cs = some (l, rest)) : l.Sound := by
  simp only [markup?] at read
  split at read
  · exact sound_comment? read
  · obtain ⟨_, -, cdata⟩ := Option.bind_eq_some_iff.mp read
    exact sound_cdata? cdata
  · exact sound_instruction? read
  · exact sound_endTag? read
  · exact sound_startTag? read

theorem sound_malformed : ∀ l ∈ [Lexeme.malformed], l.Sound :=
  List.forall_mem_cons.mpr ⟨trivial, nofun⟩

/-- What holds of each lexeme that can stand in content holds of all lexemes of content. -/
theorem forall_content {ok : Lexeme → Prop} {stop level : Nat} {after : List Char → List Lexeme}
    {cs : List Char} (malformed : ok .malformed)
    (markup : ∀ {cs rest l}, markup? stop cs = some (l, rest) → ok l)
    (text : ∀ {cs rest l}, text? cs = some (l, rest) → ok l)
    (behind : ∀ cs, ∀ l ∈ after cs, ok l) : ∀ l ∈ content stop after level cs, ok l := by
  -- The text ends; markup is bad, ends the content, or goes on; text is bad, or goes on.
  fun_induction content stop after level cs with
  | case1 => exact behind []
  | case2 => exact List.forall_mem_singleton.mpr malformed
  | case3 level cs l rest read _ =>
    exact List.forall_mem_cons.mpr ⟨markup read, behind rest⟩
  | case4 level cs l rest read _ ih =>
    exact List.forall_mem_cons.mpr ⟨markup read, ih⟩
  | case5 => exact List.forall_mem_singleton.mpr malformed
  | case6 level c cs plain l rest read ih =>
    exact List.forall_mem_cons.mpr ⟨text read, ih⟩

theorem sound_content {stop level : Nat} {after : List Char → List Lexeme} {cs : List Char}
    (soundAfter : ∀ cs, ∀ l ∈ after cs, l.Sound) :
    ∀ l ∈ content stop after level cs, l.Sound :=
  forall_content trivial sound_markup? sound_text? soundAfter

theorem sound_replacement (stop : Nat) (cs : List Char) :
    ∀ l ∈ replacement stop cs, l.Sound :=
  sound_content fun _ => nofun

/-! ## Documents -/

theorem sound_misc {after : List Char → List Lexeme}
    (soundAfter : ∀ cs, ∀ l ∈ after cs, l.Sound) (cs : List Char) :
    ∀ l ∈ misc after cs, l.Sound := by
  fun_induction misc after cs with
  | case1 => exact sound_malformed
  | case2 cs _ _ l rest read ih =>
    exact List.forall_mem_cons.mpr ⟨sound_instruction? read, ih⟩
  | case3 => exact sound_malformed
  | case4 cs _ _ l rest read ih =>
    exact List.forall_mem_cons.mpr ⟨sound_comment? read, ih⟩
  | case5 cs => exact soundAfter _

theorem sound_finish (cs : List Char) : ∀ l ∈ finish cs, l.Sound := by
  cases cs with
  | nil => exact nofun
  | cons c cs => exact sound_malformed

theorem sound_root (stop : Nat) (cs : List Char) : ∀ l ∈ root stop cs, l.Sound := by
  simp only [root]
  split
  · split
    · exact sound_malformed
    · rename_i read
      split
      · exact List.forall_mem_cons.mpr ⟨sound_startTag? read, sound_misc sound_finish _⟩
      · exact List.forall_mem_cons.mpr
          ⟨sound_startTag? read, sound_content (sound_misc sound_finish)⟩
  · exact sound_finish _

theorem sound_entityDeclaration? {stop : Nat} {cs rest : List Char} {ls : List Lexeme}
    (read : entityDeclaration? stop cs = some (ls, rest)) : ∀ l ∈ ls, l.Sound := by
  obtain ⟨_, -, read⟩ := Option.bind_eq_some_iff.mp read
  obtain ⟨⟨_, _⟩, -, read⟩ := Option.bind_eq_some_iff.mp read
  obtain ⟨⟨_, _⟩, -, read⟩ := Option.bind_eq_some_iff.mp read
  obtain ⟨_, -, read⟩ := Option.bind_eq_some_iff.mp read
  obtain ⟨⟨value?, _⟩, -, read⟩ := Option.bind_eq_some_iff.mp read
  obtain ⟨_, -, same⟩ := Option.map_eq_some_iff.mp read
  cases value? with
  | none =>
    cases same
    exact nofun
  | some value =>
    cases same
    exact List.forall_mem_cons.mpr ⟨trivial, nofun⟩

theorem sound_subsetItem? {stop : Nat} {cs rest : List Char} {ls : List Lexeme}
    (read : subsetItem? stop cs = some (ls, rest)) : ∀ l ∈ ls, l.Sound := by
  simp only [subsetItem?] at read
  split at read
  · obtain ⟨⟨l, _⟩, found, same⟩ := Option.map_eq_some_iff.mp read
    cases same
    exact List.forall_mem_cons.mpr ⟨sound_instruction? found, nofun⟩
  · obtain ⟨⟨l, _⟩, found, same⟩ := Option.map_eq_some_iff.mp read
    cases same
    exact List.forall_mem_cons.mpr ⟨sound_comment? found, nofun⟩
  · split at read
    · exact sound_entityDeclaration? read
    · split at read
      · obtain ⟨_, -, same⟩ := Option.map_eq_some_iff.mp read
        cases same
        exact nofun
      · cases read
  · cases read

theorem sound_subset (stop : Nat) (cs : List Char) : ∀ l ∈ subset stop cs, l.Sound := by
  fun_induction subset stop cs with
  | case1 => exact sound_misc (sound_root stop) _
  | case2 => exact sound_malformed
  | case3 => exact sound_malformed
  | case4 cs ls rest read _ ih =>
    exact List.forall_mem_append.mpr ⟨sound_subsetItem? read, ih⟩

theorem sound_doctype (stop : Nat) (cs : List Char) : ∀ l ∈ doctype stop cs, l.Sound := by
  simp only [doctype]
  split
  · exact sound_root stop cs
  · refine List.forall_mem_cons.mpr ⟨trivial, ?_⟩
    simp only [doctypeBody]
    split
    · exact sound_malformed
    · split
      · exact sound_malformed
      · split
        · exact sound_subset stop _
        · exact sound_misc (sound_root stop) _
        · exact sound_malformed

/-- All lexemes of a document are sound. -/
theorem sound_ofDocument (text : List Char) : ∀ l ∈ ofDocument text, l.Sound := by
  unfold ofDocument
  dsimp only
  split
  · exact sound_misc (sound_doctype _) _
  · split
    · exact sound_malformed
    · exact sound_misc (sound_doctype _) _

end CanonicalXml.Markup
