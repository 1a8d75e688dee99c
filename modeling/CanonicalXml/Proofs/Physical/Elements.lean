import CanonicalXml.Proofs.Physical.Tags

/-! # Elements that are written and read again

The start tag that is written for an element can be read, and what is read of it is the element once
more, under the same names.

* `Element.Printable.validTag` — the tag can be read.
* `Element.Printable.spelling_elementOf`, `Element.Printable.parts_elementOf` — the element that is
  read has the same names, and its tag is written again.
* `Element.Kept` — all that is the same.
-/

namespace CanonicalXml

namespace Element

variable {outer : Scope} {e : Element}

/-- The names of an element fit, and these are the items that are written. -/
structure Printable (outer : Scope) (e : Element) (names : Spelling) (parts : List SpelledItem) :
    Prop where
  sound : e.Sound
  fits : names.Fits outer e
  interleaves : Physical.Interleaves parts names.declarations
    (e.attributes.zip names.attributePrefixes)

theorem Stems.printable (stems : e.Stems outer) (sound : e.Sound) (admitted : e.Admitted)
    (restorable : e.Restorable outer) :
    e.Printable outer (Spelling.of outer e) (Physical.parts e (Spelling.of outer e)) :=
  ⟨sound, stems.fits sound restorable, stems.interleaves sound admitted restorable⟩

namespace Printable

variable {names : Spelling} {parts : List SpelledItem} (printable : e.Printable outer names parts)
  {around : Scope}
include printable

theorem validName : names.name.Valid :=
  printable.sound.valid_of_binds printable.fits.bound
    (printable.fits.localName ▸ printable.sound.localName)

theorem map_fst : (e.attributes.zip names.attributePrefixes).map Prod.fst = e.attributes :=
  List.map_fst_zip (Nat.le_of_eq printable.fits.length.symm)

theorem map_snd : (e.attributes.zip names.attributePrefixes).map Prod.snd =
    names.attributePrefixes :=
  List.map_snd_zip (Nat.le_of_eq printable.fits.length)

variable (same : ∀ p, around.uri? p = outer.uri? p)
include same

/-- A reader of the tag has in scope what the tree has. -/
theorem uri?_scopeOf (p : String) :
    (Script.scopeOf around parts).uri? p = e.scope.uri? p := by
  show (Scope.extend (Item.bindings (Script.itemsOf parts)) around).uri? p = _
  rw [printable.interleaves.bindings]
  exact printable.fits.uri?_extend same p

theorem binds_iff (name : QName) :
    (Script.scopeOf around parts).Binds name ↔ e.scope.Binds name := by
  simp only [Scope.Binds]
  rw [printable.uri?_scopeOf same]

/-- The attributes of the tree are found again. -/
theorem resolve_plain :
    (Item.plain (Script.itemsOf parts)).map (Form.resolve (Script.scopeOf around parts)) =
      e.attributes := by
  rw [printable.interleaves.plainItems, List.map_map]
  refine Eq.trans (List.map_congr_left fun own member => ?_) printable.map_fst
  have uri : Form.attributeUri? (Script.scopeOf around parts) (Attribute.item own).name =
      own.1.nsUri? := by
    rw [← (printable.fits.attributes own member).nsUri]
    simp only [Form.attributeUri?]
    rw [printable.uri?_scopeOf same]
  simp only [Function.comp_apply, Form.resolve]
  rw [uri]
  rfl

theorem validTag : Script.ValidTag around names.name parts := by
  constructor
  case wellNamed => exact printable.validName
  case notXmlns => exact printable.fits.notXmlns
  case bound => exact (printable.binds_iff same _).mpr printable.fits.bound
  case writable => exact fun s member => (printable.interleaves.writable s member).1
  case notXml => exact fun s member => (printable.interleaves.writable s member).2
  case unreserved =>
    rw [printable.interleaves.bindings]
    intro b member
    have valid := printable.interleaves.validBindings b member
    exact ⟨valid.notXmlUri, valid.notXmlnsUri⟩
  case distinct =>
    rw [printable.interleaves.bindings]
    exact printable.fits.distinct
  case attributed =>
    rw [printable.interleaves.plainItems]
    intro i member
    obtain ⟨own, inElement, rfl⟩ := List.mem_map.mp member
    exact (printable.fits.attributes own inElement).bound.imp_right
      (printable.binds_iff same _).mpr
  case named =>
    rw [printable.resolve_plain same]
    exact printable.sound.apart

/-- The start tag of the element that is read shows its attributes. -/
theorem shows : (Script.elementOf around names.name parts).Shows
    ⟨names.name.text, parts.map SpelledItem.raw⟩ := by
  refine ⟨rfl, ?_⟩
  have plain := congrArg (List.map QName.localName) printable.interleaves.plainNames
  have attributes := congrArg (List.map Attribute.localName) printable.map_fst
  rw [List.map_map, List.map_map] at plain
  rw [List.map_map] at attributes
  have resolved : (Script.elementOf around names.name parts).attributes = e.attributes :=
    printable.resolve_plain same
  rw [resolved, ← attributes]
  exact plain

/-- The element that is read has the same names. -/
theorem spelling_elementOf (within : Scope) :
    Spelling.of within (Script.elementOf around names.name parts) = names := by
  have shows := printable.shows same
  have name : (Spelling.of within (Script.elementOf around names.name parts)).name =
      names.name := by
    rw [shows.name_eq, StartTag.name, printable.validName.ofText_text]
    rfl
  have declarations : (Spelling.of within (Script.elementOf around names.name parts)).declarations =
      names.declarations := by
    have prefixes := printable.interleaves.declaredPrefixes
    have bound : ∀ b ∈ names.declarations,
        (⟨b.nsPrefix, ((Script.scopeOf around parts).uri? b.nsPrefix).getD ""⟩ : Binding) = b := by
      intro b member
      rw [printable.uri?_scopeOf same, printable.fits.declared b member]
      rfl
    calc
      _ = ((parts.map SpelledItem.raw).filterMap (·.declaredPrefix?)).map
            fun p => ⟨p, ((Script.scopeOf around parts).uri? p).getD ""⟩ := by
          rw [shows.declarations_eq, StartTag.declarations, List.map_filterMap, List.map_filterMap]
          refine List.filterMap_congr fun raw _ => ?_
          rw [Option.map_map]
          rfl
      _ = names.declarations := by
          rw [prefixes, List.map_map]
          exact (List.map_congr_left bound).trans (List.map_id' _)
  -- The attributes of the tag are those of the tree, so their prefixes are read off the tag.
  have attributePrefixes :
      (Spelling.of within (Script.elementOf around names.name parts)).attributePrefixes =
        names.attributePrefixes := by
    have plain := congrArg (List.map QName.nsPrefix) printable.interleaves.plainNames
    rw [List.map_map, List.map_map] at plain
    rw [shows.attributePrefixes_eq]
    exact plain.trans printable.map_snd
  calc Spelling.of within (Script.elementOf around names.name parts)
      = ⟨(Spelling.of within (Script.elementOf around names.name parts)).name,
          (Spelling.of within (Script.elementOf around names.name parts)).declarations,
          (Spelling.of within (Script.elementOf around names.name parts)).attributePrefixes⟩ := rfl
    _ = names := by
        rw [name, declarations, attributePrefixes]

/-- And its tag is written again. -/
theorem parts_elementOf :
    Physical.parts (Script.elementOf around names.name parts) names = parts := by
  have counted := congrArg List.length (printable.shows same).aligned
  rw [List.length_map, List.length_map] at counted
  rw [Physical.parts, (printable.shows same).known]
  dsimp only
  rw [if_pos counted]
  have attributes : (Script.elementOf around names.name parts).attributes =
      (e.attributes.zip names.attributePrefixes).map Prod.fst :=
    (printable.resolve_plain same).trans printable.map_fst.symm
  rw [attributes]
  refine printable.interleaves.spelledParts_eq fun b member => ?_
  exact (printable.uri?_scopeOf same b.nsPrefix).trans (printable.fits.declared b member)

end Printable

/-! ## What is kept -/

/-- The second element, inside of a scope, is the first one as it is read again: the same names,
declarations and attributes, in the same order on the start tag, and the same namespaces. -/
structure Kept (outer outer' : Scope) (e e' : Element) : Prop where
  spelling : Spelling.of outer' e' = Spelling.of outer e
  nsUri : e'.nsUri? = e.nsUri?
  localName : e'.localName = e.localName
  attributes : e'.attributes = e.attributes
  scope : ∀ p, e'.scope.uri? p = e.scope.uri? p
  order : ∃ tag ∈ e'.tag, tag.attributes.map (·.qname) = e.itemNames (Spelling.of outer e)
  /-- The physical form writes the same items. -/
  items : Physical.items e' (Spelling.of outer' e') = Physical.items e (Spelling.of outer e)

/-- What is read of the written tag is the element once more. -/
theorem Stems.kept (stems : e.Stems outer) (sound : e.Sound) (admitted : e.Admitted)
    (restorable : e.Restorable outer) {around : Scope} (same : ∀ p, around.uri? p = outer.uri? p) :
    e.Kept outer around (Script.elementOf around (Spelling.of outer e).name
      (Physical.parts e (Spelling.of outer e))) := by
  have printable := stems.printable sound admitted restorable
  have spelling := printable.spelling_elementOf same around
  constructor
  case spelling => exact spelling
  case nsUri =>
    rw [printable.fits.nsUri]
    exact printable.uri?_scopeOf same _
  case localName => exact printable.fits.localName
  case attributes => exact printable.resolve_plain same
  case scope => exact printable.uri?_scopeOf same
  case order =>
    refine ⟨_, rfl, ?_⟩
    rw [← stems.map_qname_parts restorable, List.map_map]
    rfl
  case items =>
    rw [spelling, Physical.items_eq, Physical.items_eq, printable.parts_elementOf same]

end Element

end CanonicalXml
