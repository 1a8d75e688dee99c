import CanonicalXml.Proofs.Physical.Elements
import CanonicalXml.Proofs.Readback.Content

/-! # The physical form as a script

What the physical form writes of some content is a script that can be read inside of every scope
with the same bindings.

* `Element.Rewritable` — what has to hold of an element.
* `Physical.Scripts` — content with the script that is written of it.
* `Content.exists_script` — there is one for all content that can be written.
* `Physical.Scripts.toList_text` — it is what is written.
* `Physical.Scripts.valid` — it can be read.
-/

namespace CanonicalXml

/-! ## What can be written -/

/-- An element that can be written so that it is read again. -/
structure Element.Rewritable (outer : Scope) (e : Element) : Prop where
  stems : e.Stems outer
  sound : e.Sound
  admitted : e.Admitted
  restorable : e.Restorable outer

namespace Content

/-- A property of all elements, each with the scope around it. -/
def Within (ok : Scope → Element → Prop) : Scope → Content → Prop
  | _, nil => True
  | outer, leaf _ next => next.Within ok outer
  | outer, element e inner next => ok outer e ∧ inner.Within ok e.scope ∧ next.Within ok outer

theorem within_of_allFrom {ok : Scope → Element → Prop} {content : Content} :
    ∀ {number : Nat} {ancestors : List Ancestor} {before : List NodeKind},
    (∀ loc ∈ Location.allFrom number ancestors before content, ∀ e ∈ loc.element?,
      ok loc.outerScope e) → content.Within ok (Ancestor.scope ancestors) := by
  induction content with
  | nil => exact fun _ => trivial
  | leaf l next ih => exact fun holds => ih (List.forall_mem_cons.mp holds).2
  | element e inner next ihInner ihNext =>
    intro number ancestors before holds
    obtain ⟨here, below⟩ := List.forall_mem_cons.mp holds
    obtain ⟨inside, later⟩ := List.forall_mem_append.mp below
    exact ⟨here e rfl, ihInner inside, ihNext later⟩

/-- Content that can be written so that it is read again. -/
structure Rewritable (outer : Scope) (c : Content) : Prop where
  stems : c.Stems outer
  sound : c.All Leaf.Sound Element.Sound
  writable : c.All Leaf.Undeclaring Element.Admitted
  restorable : c.Within Element.Restorable outer

variable {outer : Scope} {l : Leaf} {e : Element} {inner next : Content}

theorem Rewritable.afterLeaf (rewritable : (leaf l next).Rewritable outer) :
    next.Rewritable outer :=
  ⟨rewritable.stems, rewritable.sound.2, rewritable.writable.2, rewritable.restorable⟩

theorem Rewritable.inside (rewritable : (element e inner next).Rewritable outer) :
    inner.Rewritable e.scope :=
  ⟨rewritable.stems.2.1, rewritable.sound.2.1, rewritable.writable.2.1,
    rewritable.restorable.2.1⟩

theorem Rewritable.afterElement (rewritable : (element e inner next).Rewritable outer) :
    next.Rewritable outer :=
  ⟨rewritable.stems.2.2, rewritable.sound.2.2, rewritable.writable.2.2,
    rewritable.restorable.2.2⟩

theorem Rewritable.here (rewritable : (element e inner next).Rewritable outer) :
    e.Rewritable outer :=
  ⟨rewritable.stems.1, rewritable.sound.1, rewritable.writable.1, rewritable.restorable.1⟩

end Content

/-! ## Scripts of content -/

namespace Physical

/-- A comment or an instruction, and the remark that it is written as. -/
structure Remarks (l : Leaf) (r : Remark) : Prop where
  notText : l.kind ≠ .text
  valid : r.Valid
  reads : r.leaf = l.escaped
  writes : l.write.toList = '<' :: r.body

/-- Content inside of a scope, and the script that the physical form writes of it.  Text outside of
the document element (`top`) is not written. -/
inductive Scripts : Bool → Scope → Content → Script → Prop where
  | nil {top : Bool} {outer : Scope} : Scripts top outer .nil .nil
  | skipped {outer : Scope} {value : String} {next : Content} {s : Script}
      (later : Scripts true outer next s) : Scripts true outer (.leaf (.text value) next) s
  | text {outer : Scope} {value : String} {next : Content} {s : Script}
      (admitted : ∀ c ∈ value.toList, Chars.isXml c = true) (later : Scripts false outer next s) :
      Scripts false outer (.leaf (.text value) next) (.text value s)
  | remark {top : Bool} {outer : Scope} {l : Leaf} {r : Remark} {next : Content} {s : Script}
      (remarks : Remarks l r) (later : Scripts top outer next s) :
      Scripts top outer (.leaf l next) (.remark r s)
  | element {top : Bool} {outer : Scope} {e : Element} {inner next : Content} {s s' : Script}
      (rewritable : e.Rewritable outer) (inside : Scripts false e.scope inner s)
      (later : Scripts top outer next s') :
      Scripts top outer (.element e inner next)
        (.element (Spelling.of outer e).name (parts e (Spelling.of outer e)) s s')

end Physical

theorem Leaf.exists_remarks {l : Leaf} (sound : l.Sound) (undeclaring : l.Undeclaring)
    (notText : l.kind ≠ .text) : ∃ r, Physical.Remarks l r := by
  obtain ⟨r, valid, reads, writes, -⟩ := Leaf.exists_remark sound undeclaring notText
  exact ⟨r, notText, valid, reads, writes⟩

/-- There is a script for all content that can be written. -/
theorem Content.exists_script {c : Content} : ∀ {outer : Scope} (top : Bool),
    c.Rewritable outer → ∃ s, Physical.Scripts top outer c s := by
  induction c with
  | nil => exact fun top _ => ⟨.nil, .nil⟩
  | leaf l next ih =>
    intro outer top rewritable
    obtain ⟨s, later⟩ := ih top rewritable.afterLeaf
    have sound := rewritable.sound.1
    by_cases text : l.kind = .text
    · cases l with
      | text value =>
        cases top with
        | true => exact ⟨s, .skipped later⟩
        | false => exact ⟨.text value s, .text sound later⟩
      | comment data => cases text
      | instruction target data => cases text
    · obtain ⟨r, remarks⟩ := l.exists_remarks sound rewritable.writable.1 text
      exact ⟨.remark r s, .remark remarks later⟩
  | element e inner next ihInner ihNext =>
    intro outer top rewritable
    obtain ⟨s, inside⟩ := ihInner false rewritable.inside
    obtain ⟨s', later⟩ := ihNext top rewritable.afterElement
    exact ⟨_, .element rewritable.here inside later⟩

/-! ## Written scripts -/

namespace Transcript

variable {α β : Type}

/-- The text of one operation after another. -/
theorem text_bind {t : Transcript String α} {f : α → Transcript String β} {b : β}
    (ends : (t >>= f).outcome = .ok b) :
    ∃ a, t.outcome = .ok a ∧ (f a).outcome = .ok b ∧ (t >>= f).text = t.text ++ (f a).text := by
  obtain ⟨a, first, second⟩ := outcome_bind_eq_ok.mp ends
  refine ⟨a, first, second, ?_⟩
  rw [text, pieces_bind, first]
  exact String.join_append

theorem text_write (piece : String) : (write piece).text = piece := by
  show String.join [piece] = piece
  simp [String.join]

theorem text_pure (a : α) : (pure a : Transcript String α).text = "" := rfl

theorem text_ofExcept (x : Except Fault α) : (ofExcept x : Transcript String α).text = "" := by
  cases x with
  | ok a => rfl
  | error fault => rfl

end Transcript

namespace Physical

open Transcript

/-- A comment or an instruction is written as it is read. -/
theorem Remarks.toList_text {l : Leaf} {r : Remark} (remarks : Remarks l r)
    {limits : Option Limits} {top : Bool} {comments counted : Nat}
    (ends : (leaf limits top comments l).outcome = .ok counted) :
    (leaf limits top comments l).text.toList = '<' :: r.body := by
  rw [← remarks.writes]
  refine congrArg String.toList ?_
  cases l with
  | text value => exact absurd rfl remarks.notText
  | comment data =>
    obtain ⟨_, checked, written, text⟩ := text_bind ends
    obtain ⟨_, -, -, text'⟩ := text_bind written
    refine text.trans ?_
    rw [text', text_ofExcept, text_write, text_pure, String.empty_append, String.append_empty]
  | instruction target data =>
    obtain ⟨_, -, -, text⟩ := text_bind ends
    refine text.trans ?_
    rw [text_write, text_pure, String.append_empty]

/-- The script is what is written, by induction over the script. -/
theorem Scripts.toList_text {top : Bool} {outer : Scope} {c : Content} {s : Script}
    (scripts : Scripts top outer c s) : ∀ {limits : Option Limits} {depth comments counted : Nat},
    (content limits depth top outer comments c).outcome = .ok counted →
    (content limits depth top outer comments c).text.toList = s.spell := by
  induction scripts with
  | nil => exact fun _ => rfl
  | skipped later ih => exact ih
  | @text outer value next s admitted later ih =>
    intro limits depth comments counted ends
    obtain ⟨_, -, rest, text⟩ := text_bind ends
    refine (congrArg String.toList text).trans ?_
    rw [String.toList_append, ih rest]
    exact congrArg (String.toList · ++ s.spell) (text_write (escapeText value))
  | @remark top outer l r next s remarks later ih =>
    intro limits depth comments counted ends
    obtain ⟨_, here, rest, text⟩ := text_bind ends
    refine (congrArg String.toList text).trans ?_
    rw [String.toList_append, ih rest, remarks.toList_text here]
    rfl
  | @element top outer e inner next s s' rewritable inside later ihInside ihLater =>
    intro limits depth comments counted ends
    -- Two checks, the start tag, what is inside, and the end tag; then what comes later.
    obtain ⟨_, -, ends, text₁⟩ := text_bind ends
    obtain ⟨_, -, ends, text₂⟩ := text_bind ends
    obtain ⟨_, -, ends, text₃⟩ := text_bind ends
    obtain ⟨_, here, ends, text₄⟩ := text_bind ends
    obtain ⟨_, -, rest, text₅⟩ := text_bind ends
    refine (congrArg String.toList text₁).trans ?_
    rw [text₂, text₃, text₄, text₅, text_ofExcept, text_ofExcept, text_write, text_write]
    simp only [String.toList_append, String.empty_append, ihInside here, ihLater rest, toList_items]
    simp [Script.spell, Script.elementText]

/-- The script can be read. -/
theorem Scripts.valid {top : Bool} {outer : Scope} {c : Content} {s : Script}
    (scripts : Scripts top outer c s) : ∀ {around : Scope},
    (∀ p, around.uri? p = outer.uri? p) → s.Valid around := by
  induction scripts with
  | nil => exact fun _ => trivial
  | skipped later ih => exact ih
  | text admitted later ih => exact fun same => ⟨admitted, ih same⟩
  | remark remarks later ih => exact fun same => ⟨remarks.valid, ih same⟩
  | element rewritable inside later ihInside ihLater =>
    intro around same
    have printable := rewritable.stems.printable rewritable.sound rewritable.admitted
      rewritable.restorable
    exact ⟨printable.validTag same, ihInside (printable.uri?_scopeOf same), ihLater same⟩

end Physical

end CanonicalXml
