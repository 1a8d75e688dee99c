import CanonicalXml.Proofs.Physical.Walks
import CanonicalXml.Proofs.Parsed.Drafts

/-! # The physical form is read back

The physical form of a document is a document, with the elements of the source under the same names
and in the same order, and every algorithm writes of it what it writes of the source.

* `Sheet.script` — a sheet without gaps as a script.
* `Physical.Scripts.exists_sheet` — the script of a document is such a sheet.
* `Document.physical_reads_back` — the physical form is read back, and kept by all algorithms.
-/

namespace CanonicalXml

/-! ## Sheets without gaps -/

namespace Remark

/-- Remarks before a script. -/
def script (rs : List Remark) (s : Script) : Script :=
  rs.foldr Script.remark s

variable {rs : List Remark} {s : Script} {scope : Scope}

theorem spell_script (rs : List Remark) (s : Script) :
    (script rs s).spell = spellBefore [] rs s.spell := by
  induction rs with
  | nil => rfl
  | cons r rs ih => exact congrArg (fun rest => '<' :: (r.body ++ rest)) ih

theorem tree_script (rs : List Remark) (s : Script) (scope : Scope) :
    (script rs s).tree scope "" = tree rs (s.tree scope "") := by
  induction rs with
  | nil => rfl
  | cons r rs ih => exact congrArg (Content.leaf r.leaf) ih

theorem valid_script (valid : (script rs s).Valid scope) : (∀ r ∈ rs, r.Valid) ∧ s.Valid scope := by
  induction rs with
  | nil => exact ⟨nofun, valid⟩
  | cons r rs ih =>
    obtain ⟨here, later⟩ := valid
    obtain ⟨remarks, rest⟩ := ih later
    exact ⟨List.forall_mem_cons.mpr ⟨here, remarks⟩, rest⟩

end Remark

namespace Sheet

/-- The script of a sheet, if there are no gaps in it. -/
def script (p : Sheet) : Script :=
  Remark.script p.before (.element p.name p.items p.inner (Remark.script p.after .nil))

variable {p : Sheet} (dense : p.gap = [])

theorem tree_script (p : Sheet) : p.script.tree [] "" = p.tree := by
  rw [script, Remark.tree_script, Script.tree, Remark.tree_script]
  rfl

include dense

theorem spell_script : p.script.spell = p.spell := by
  rw [script, Remark.spell_script, Script.spell, Remark.spell_script, spell, ending, dense]
  rfl

theorem valid_of_script (valid : p.script.Valid []) : p.Valid := by
  obtain ⟨before, tag, inner, after⟩ := Remark.valid_script valid
  refine ⟨?_, before, tag, inner, (Remark.valid_script after).1⟩
  rw [dense]
  exact nofun

end Sheet

namespace Physical.Scripts

variable {outer : Scope} {c : Content}

/-- Without elements there are only remarks. -/
theorem exists_remarks (none : c.kinds.count .element = 0) :
    ∀ {s : Script}, Scripts true outer c s → ∃ rs, s = Remark.script rs .nil := by
  induction c with
  | nil =>
    rintro _ ⟨⟩
    exact ⟨[], rfl⟩
  | leaf l next ih =>
    intro s scripts
    rw [Content.count_element_leaf] at none
    cases scripts with
    | skipped later => exact ih none later
    | @remark _ _ _ r _ _ remarks later =>
      obtain ⟨rs, rfl⟩ := ih none later
      exact ⟨r :: rs, rfl⟩
  | element e inner next _ _ =>
    rw [Content.kinds, List.count_cons_self] at none
    cases none

/-- With one element there is a sheet. -/
theorem exists_sheet (single : c.kinds.count .element = 1) :
    ∀ {s : Script}, Scripts true outer c s → ∃ p : Sheet, p.gap = [] ∧ p.script = s := by
  induction c with
  | nil => cases single
  | leaf l next ih =>
    intro s scripts
    rw [Content.count_element_leaf] at single
    cases scripts with
    | skipped later => exact ih single later
    | @remark _ _ _ r _ _ remarks later =>
      obtain ⟨p, dense, rfl⟩ := ih single later
      exact ⟨{ p with before := r :: p.before }, dense, rfl⟩
  | element e inner next _ _ =>
    intro s scripts
    rw [Content.kinds, List.count_cons_self] at single
    cases scripts with
    | element rewritable inside later =>
      obtain ⟨rs, rfl⟩ := exists_remarks (Nat.succ.inj single) later
      exact ⟨⟨[], [], _, _, _, rs⟩, rfl, rfl⟩

end Physical.Scripts

/-! ## Documents -/

namespace Document

/-- All elements can be written so that they are read again. -/
def Restorable (d : Document) : Prop :=
  ∀ loc ∈ d.locations, ∀ e ∈ loc.element?, e.Restorable loc.outerScope

instance : DecidablePred Restorable := fun d =>
  inferInstanceAs (Decidable (∀ loc ∈ d.locations, ∀ e ∈ loc.element?, e.Restorable loc.outerScope))

/-- The places of the elements, in their order. -/
def elements (d : Document) : List Location :=
  d.locations.filter (·.element?.isSome)

/-- The physical form is what is written of the content of the document node. -/
theorem physical_eq_ok {d : Document} {params : Params} {w : String}
    (written : (physical (.document d) params).result = .ok w) :
    ∃ counted, (Physical.content params.limits 0 true [] 0 d.content).outcome = .ok counted ∧
      (Physical.content params.limits 0 true [] 0 d.content).text = w := by
  simp only [physical] at written
  split at written
  · exact except_map_eq_ok.mp written
  · cases written

/-- The physical form of a document is read back, with the same elements, and every algorithm
writes of it what it writes of the source. -/
theorem physical_reads_back {text : String} {options : ReadOptions} {d : Document}
    {params : Params} {w : String} (parsed : Document.read text options = .ok d)
    (finishes : Document.FinishesTags text) (restorable : d.Restorable)
    (rooted : Input.Rooted d (.document d)) (writable : Input.Writable (.document d))
    (written : (physical (.document d) params).result = .ok w) :
    ∃ d', Document.read w options = .ok d' ∧
      List.Forall₂ Location.Keeps d.elements d'.elements ∧
      ∀ (mode : Mode) (again : Params),
        Transcript.Alike (mode.run (.document d') again) (mode.run (.document d) again) := by
  obtain ⟨sound, limit⟩ := Document.sound_of_read parsed
  obtain ⟨single⟩ := rooted
  have within : d.content.Within Element.Restorable (Ancestor.scope []) :=
    Content.within_of_allFrom restorable
  have rewritable : d.content.Rewritable [] :=
    ⟨Document.stems_of_read parsed finishes, sound, writable.content, within⟩
  obtain ⟨s, scripts⟩ := Content.exists_script true rewritable
  obtain ⟨p, dense, rfl⟩ := Physical.Scripts.exists_sheet single scripts
  have valid : p.Valid := p.valid_of_script dense (scripts.valid fun _ => rfl)
  have reread : d.content.Reread true [] [] "" p.tree := by
    rw [← p.tree_script]
    exact scripts.reread "" fun _ => rfl
  obtain ⟨counted, ends, rfl⟩ := physical_eq_ok written
  have spelled : (Physical.content params.limits 0 true [] 0 d.content).text =
      String.ofList p.spell := by
    rw [← String.toList_inj, String.toList_ofList, ← p.spell_script dense]
    exact scripts.toList_text ends
  refine ⟨p.document, ?_, reread.elements rfl rfl, Mode.reread_alike reread⟩
  rw [spelled]
  -- A page is read back if it is not too large.
  have small : p.tree.size ≤ d.content.size := by
    have written := reread.size_le
    rwa [show (Form.before "" .nil).size = 0 from rfl, Nat.zero_add] at written
  exact Sheet.read valid (Nat.le_trans (Nat.add_le_add_right small 1) limit)

/-- A document with an entity in which an element is closed, and with declarations between
attributes. -/
theorem physical_reads_back_mixed :
    let text := "<!DOCTYPE r [<!ENTITY e '<y q:b=\"2\"/></x>'>]><!-- c -->" ++
      "<r a='1' xmlns='d' xmlns:q='u' q:a='&#13;'>x<![CDATA[<]]><x xmlns:p='v' a='1'>&e;</r><?t d?>"
    let w := "<!-- c --><r a=\"1\" xmlns=\"d\" xmlns:q=\"u\" q:a=\"&#xD;\">x&lt;" ++
      "<x xmlns:p=\"v\" a=\"1\"><y q:b=\"2\"></y></x></r><?t d?>"
    ∃ d, Document.read text = .ok d ∧ Document.FinishesTags text ∧ d.Restorable ∧
      Input.Rooted d (.document d) ∧ Input.Writable (.document d) ∧
      (physical (.document d) {}).result = .ok w ∧
      ∃ d', Document.read w = .ok d' ∧ List.Forall₂ Location.Keeps d.elements d'.elements ∧
        ∀ (mode : Mode) (again : Params),
          Transcript.Alike (mode.run (.document d') again) (mode.run (.document d) again) := by
  intro text w
  let d := (Document.read text).toOption.getD ⟨"", .nil⟩
  have facts : Document.read text = .ok d ∧ Document.FinishesTags text ∧ d.Restorable ∧
      d.content.kinds.count .element = 1 ∧ Input.Writable (.document d) ∧
      (physical (.document d) {}).result = .ok w := by
    decide +kernel
  obtain ⟨parsed, finishes, restorable, single, writable, written⟩ := facts
  exact ⟨d, parsed, finishes, restorable, .document single, writable, written,
    physical_reads_back parsed finishes restorable (.document single) writable written⟩

/-- The start tag of an element that is closed in an entity is not known. Its declarations are
written before its attributes, whatever their order in the source. -/
theorem physical_reordered :
    let spelled := "<x a='1' xmlns:q='u'>"
    let text := "<!DOCTYPE r [<!ENTITY e '<y/></x>'>]><r>" ++ spelled ++ "&e;</r>"
    let w := "<r><x xmlns:q=\"u\" a=\"1\"><y></y></x></r>"
    ∃ d d' loc loc' e e' source tag, Document.read text = .ok d ∧ loc ∈ d.locations ∧
      loc.element? = some e ∧ e.localName = "x" ∧ StartTag.read? spelled = some source ∧
      (physical (.document d) {}).result = .ok w ∧ Document.read w = .ok d' ∧
      loc' ∈ d'.locations ∧ loc'.number = loc.number ∧ loc'.element? = some e' ∧
      e'.tag = some tag ∧ source.attributes.map (·.qname) = ["a", "xmlns:q"] ∧
      tag.attributes.map (·.qname) = ["xmlns:q", "a"] := by
  intro spelled text w
  let d := (Document.read text).toOption.getD ⟨"", .nil⟩
  let d' := (Document.read w).toOption.getD ⟨"", .nil⟩
  let loc := (d.locate? 2).getD (.top d.content)
  let loc' := (d'.locate? 2).getD (.top d'.content)
  let scope : Scope := [⟨"q", "u"⟩]
  let attributes : List Attribute := [⟨none, "a", "1"⟩]
  let source : StartTag := ⟨"x", [⟨"a", "1"⟩, ⟨"xmlns:q", "u"⟩]⟩
  let tag : StartTag := ⟨"x", [⟨"xmlns:q", "u"⟩, ⟨"a", "1"⟩]⟩
  let e : Element := ⟨none, "x", attributes, scope, none⟩
  let e' : Element := ⟨none, "x", attributes, scope, some tag⟩
  refine ⟨d, d', loc, loc', e, e', source, tag, ?_⟩
  decide +kernel

end Document

end CanonicalXml
