import CanonicalXml.Canonical.Attributes
import CanonicalXml.Proofs.Spelled.Forms

/-! # Canonical forms, as forms

What is written by a canonical method can be told from the form alone: nothing in it could have
been left out, and everything stands in its order.

* `Form.CanonicalTag` — start tags whose declarations all say something new, and whose items are
  in order.
* `Remark.Canonical` — remarks that a method writes as they are.
* `Form.Canonical` — forms made of these.
-/

namespace CanonicalXml

/-- The attribute that a reader makes of an item, as it is written again. -/
def Form.rewritten (scope : Scope) (i : Item) : WrittenAttribute :=
  .of (resolve scope i) i.name.nsPrefix

/-- A start tag as a method writes it inside of the scope `outer`.  Each declaration changes what
is in scope; exclusive methods declare only what the tag uses and what is listed. -/
structure Form.CanonicalTag (method : Method) (listed : List String) (outer : Scope)
    (name : QName) (declarations : List Binding) (attributes : List Item) : Prop where
  sorted : declarations.Pairwise (·.nsPrefix < ·.nsPrefix)
  keepsPrefixes : ∀ b ∈ declarations, b.uri = "" → b.nsPrefix = ""
  needed : ∀ b ∈ declarations, b.uri ≠ (outer.uri? b.nsPrefix).getD ""
  used : method.namespaces = .exclusive → ∀ b ∈ declarations,
    b.nsPrefix = name.nsPrefix ∨ b.nsPrefix ∈ listed ∨
      b.nsPrefix ≠ "" ∧ ∃ i ∈ attributes, i.name.nsPrefix = b.nsPrefix
  ordered : (attributes.map (rewritten (Scope.extend declarations outer))).Pairwise
    fun a b => a.precedes b = true

/-- A remark that a method writes as it is. -/
def Remark.Canonical (method : Method) : Remark → Prop
  | comment data => method.withComments = true ∧ escapeData data = data
  | instruction _ data => escapeData data = data

/-- A form as a method writes it inside of a scope. -/
def Form.Canonical (method : Method) (listed : List String) : Scope → Form → Prop
  | _, nil => True
  | scope, text _ next => Canonical method listed scope next
  | scope, remark r next => r.Canonical method ∧ Canonical method listed scope next
  | scope, element name declarations attributes inner next =>
    CanonicalTag method listed scope name declarations attributes ∧
      Canonical method listed (Scope.extend declarations scope) inner ∧
      Canonical method listed scope next

theorem Markup.flatMap_dataReference {cs : List Char} (clean : '\r' ∉ cs) :
    cs.flatMap (Escape.chars dataReference) = cs := by
  induction cs with
  | nil => rfl
  | cons c cs ih =>
    have here : c ≠ '\r' := fun returns => clean (returns ▸ List.mem_cons_self)
    rw [List.flatMap_cons, chars_dataReference here,
      ih fun member => clean (List.mem_cons_of_mem c member)]
    rfl

/-- Escaped data has nothing left to be escaped. -/
theorem escapeData_escapeData (text : String) : escapeData (escapeData text) = escapeData text := by
  rw [← String.toList_inj, Markup.toList_escapeData (escapeData text)]
  apply Markup.flatMap_dataReference
  rw [Markup.toList_escapeData]
  exact Escape.not_mem_escaped Escape.dataReference_cases (by decide) (by decide) _

end CanonicalXml
