import CanonicalXml.Reading

/-! # The faults of reading

Which faults an operation can end with is told from those of its parts.

* `FailsWith P` — an operation that fails, fails with a fault for which `P` holds.
* `Fault.OfReading` — the faults that a document's text is to blame for.
* `Document.failsWith_readBytes` — reading a document fails with no others.
-/

namespace CanonicalXml

/-- If this fails, then with such a fault. -/
def FailsWith {α : Type} (P : Fault → Prop) (x : Except Fault α) : Prop :=
  ∀ fault, x = .error fault → P fault

namespace FailsWith

variable {α β : Type} {P : Fault → Prop}

@[simp] theorem ok (a : α) : FailsWith P (.ok a) :=
  nofun

theorem error {fault : Fault} (holds : P fault) :
    FailsWith P (.error fault : Except Fault α) := by
  rintro _ ⟨⟩
  exact holds

theorem bind {x : Except Fault α} {f : α → Except Fault β} (first : FailsWith P x)
    (second : ∀ a, FailsWith P (f a)) : FailsWith P (x >>= f) := by
  cases x with
  | ok a => exact second a
  | error fault => exact error (first fault rfl)

theorem map {x : Except Fault α} (f : α → β) (first : FailsWith P x) :
    FailsWith P (x.map f) := by
  cases x with
  | ok a => exact ok (f a)
  | error fault => exact error (first fault rfl)

theorem foldlM {step : β → α → Except Fault β} (each : ∀ b a, FailsWith P (step b a))
    (xs : List α) : ∀ b, FailsWith P (xs.foldlM step b) := by
  induction xs with
  | nil =>
    intro b
    exact ok b
  | cons x xs ih =>
    intro b
    rw [List.foldlM_cons]
    exact (each b x).bind ih

end FailsWith

/-! ## Drafts -/

/-- What a document can be refused for when it is read. -/
inductive Fault.OfReading : Fault → Prop where
  | malformed : OfReading .malformed
  | encoding (fault : Utf8Fault) : OfReading (.encoding fault)
  | undeclaredPrefix (nsPrefix : String) (row column : Nat) :
      OfReading (.undeclaredPrefix nsPrefix (.source row column))
  | nodes : OfReading (.excess .nodes)
  | doctype : OfReading (.excess .doctype)

open FailsWith (ok error foldlM)
open Fault (OfReading)

namespace Reading.Draft

open Markup (Lexeme Tag TagAttribute TextPart)

variable {d : Draft}

theorem failsWith_append (node : Content → Content) : FailsWith OfReading (d.append node) := by
  simp only [append]
  split
  · exact error .nodes
  · exact ok _

theorem failsWith_appendText (text : String) : FailsWith OfReading (d.appendText text) := by
  simp only [appendText]
  split
  · exact ok _
  · exact (failsWith_append _).map _

theorem failsWith_declarePrefix (p uri : String) :
    FailsWith OfReading (d.declarePrefix p uri) := by
  have malformed : FailsWith OfReading (.error .malformed : Except Fault Draft) :=
    error .malformed
  simp only [declarePrefix]
  split
  · exact malformed
  split
  · split
    · exact ok d
    · exact malformed
  split
  · exact malformed
  split
  · exact malformed
  · exact ok _

theorem failsWith_declareDefault (uri : String) : FailsWith OfReading (d.declareDefault uri) := by
  simp only [declareDefault]
  split
  · exact error .malformed
  · exact ok _

theorem failsWith_tagAttribute (nesting : Nat) (deep : Bool) (a : TagAttribute) :
    FailsWith OfReading (d.tagAttribute nesting deep a) := by
  simp only [tagAttribute]
  split
  · exact error .malformed
  split
  · exact failsWith_declarePrefix _ _
  split
  · exact failsWith_declareDefault _
  · exact ok _

theorem failsWith_attributeNamespace (source : List Char) (scope : Scope)
    (a : UnresolvedAttribute) : FailsWith OfReading (attributeNamespace source scope a) := by
  simp only [attributeNamespace]
  split
  · exact ok none
  split
  · exact ok _
  split
  · exact ok _
  · exact error (.undeclaredPrefix _ _ _)

theorem failsWith_resolveAttributes (source : List Char) (scope : Scope)
    (pending : List UnresolvedAttribute) : ∀ resolved : List Attribute,
    FailsWith OfReading (resolveAttributes source scope resolved pending) := by
  induction pending with
  | nil =>
    intro resolved
    exact ok resolved
  | cons a pending ih =>
    intro resolved
    simp only [resolveAttributes]
    refine (failsWith_attributeNamespace source scope a).bind fun nsUri? => ?_
    split
    · exact error .malformed
    · exact ih _

theorem failsWith_resolve : FailsWith OfReading d.resolve :=
  (failsWith_resolveAttributes _ _ _ _).bind fun _ => ok _

theorem failsWith_elementNamespace (source : List Char) (scope : Scope) (name : QName)
    (start : Nat) : FailsWith OfReading (elementNamespace source scope name start) := by
  simp only [elementNamespace]
  split
  · exact error (.undeclaredPrefix _ _ _)
  · exact ok _

theorem failsWith_element (tag : Tag) : FailsWith OfReading (d.element tag) :=
  failsWith_resolve.bind fun _ => (failsWith_elementNamespace _ _ _ _).bind fun _ => ok _

theorem failsWith_startTag (nesting : Nat) (deep : Bool) (tag : Tag) :
    FailsWith OfReading (d.startTag nesting deep tag) := by
  unfold startTag
  dsimp only
  split
  · exact error .malformed
  refine (foldlM (fun d a => failsWith_tagAttribute nesting deep a) _ _).bind fun d => ?_
  split
  · exact ok d
  · exact (failsWith_element tag).bind fun _ => failsWith_append _
  · exact (failsWith_element tag).bind fun _ => (failsWith_append _).bind fun _ => ok _

theorem failsWith_endTag (name : QName) (stop : Nat) :
    FailsWith OfReading (d.endTag name stop) := by
  unfold endTag
  dsimp only
  split
  · exact error .malformed
  refine failsWith_resolve.bind fun _ => ?_
  split
  · exact error .malformed
  split
  · exact error .malformed
  · exact ok _

theorem failsWith_flush (buffer : LineBuffer) : FailsWith OfReading (d.flush buffer) := by
  simp only [flush]
  split
  · exact ok d
  · exact failsWith_appendText _

variable {expand : List Lexeme → Draft → Except Fault Draft}

theorem failsWith_readEntity (expands : ∀ ls d, FailsWith OfReading (expand ls d)) (deep : Bool)
    (entity : Entity) : FailsWith OfReading (d.readEntity deep expand entity) := by
  simp only [readEntity]
  split
  · exact error .malformed
  · exact (expands _ _).bind fun _ => ok _

theorem failsWith_readText (expands : ∀ ls d, FailsWith OfReading (expand ls d)) (deep : Bool)
    (parts : List TextPart) : ∀ (d : Draft) (buffer : LineBuffer) (raw : Bool),
    FailsWith OfReading (d.readText deep expand buffer raw parts) := by
  induction parts with
  | nil =>
    intro d buffer raw
    exact failsWith_flush buffer
  | cons part parts ih =>
    intro d buffer raw
    cases part with
    | literal c => exact ih _ _ _
    | character c => exact ih _ _ _
    | entity name =>
      simp only [readText]
      split
      · exact error .malformed
      · refine (failsWith_flush buffer).bind fun d => ?_
        exact (failsWith_readEntity expands deep _).bind fun d => ih _ _ _
    | malformed => exact error .malformed

theorem failsWith_read (expands : ∀ ls d, FailsWith OfReading (expand ls d)) (nesting : Nat)
    (deep : Bool) (d : Draft) (l : Lexeme) :
    FailsWith OfReading (d.read nesting deep expand l) := by
  cases l with
  | startTag tag => exact failsWith_startTag nesting deep tag
  | endTag name stop => exact failsWith_endTag name stop
  | text raw => exact failsWith_readText expands deep _ _ _ _
  | cdata raw => exact failsWith_appendText _
  | comment text => exact failsWith_append _
  | instruction target data => exact failsWith_append _
  | doctype =>
    simp only [read]
    split
    · exact ok d
    · exact error .doctype
  | entity name value stop => exact ok _
  | malformed => exact error .malformed

/-- A list of lexemes, by induction over the depth to which entities may nest. -/
theorem failsWith_readAll (nesting : Nat) : ∀ (deep : Bool) (ls : List Lexeme) (d : Draft),
    FailsWith OfReading (readAll nesting deep ls d) := by
  induction nesting with
  | zero =>
    intro deep ls d
    exact foldlM (failsWith_read (fun _ _ => error .malformed) 0 deep) ls d
  | succ nesting ih =>
    intro deep ls d
    exact foldlM (failsWith_read (ih true) (nesting + 1) deep) ls d

end Reading.Draft

namespace Document

theorem failsWith_read (text : String) (options : ReadOptions) :
    FailsWith OfReading (read text options) := by
  refine (Reading.Draft.failsWith_readAll _ _ _ _).bind fun d => ?_
  simp only [ofDraft]
  split
  · exact ok _
  · exact error .malformed

theorem failsWith_readBytes (bytes : List UInt8) (options : ReadOptions) :
    FailsWith OfReading (readBytes bytes options) := by
  unfold readBytes
  split
  · exact error (.encoding _)
  · exact failsWith_read _ options

end Document

end CanonicalXml
