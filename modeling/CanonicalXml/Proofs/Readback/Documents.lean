import CanonicalXml.Proofs.Parsed.Drafts
import CanonicalXml.Proofs.Readback.Apex

/-! # Canonical forms are read back

A canonical form is a document, and it says what the part of the source says that was written.

* `Input.pieces_spelled` — what is written of an input is a page.
* `Document.written_page` — what is written of a document that was read, and it is read back.
* `Document.canonical_reads_back` — reading the page finds the content again.
-/

namespace CanonicalXml

/-! ## Sizes -/

namespace Content

theorem size_written (comments : Bool) (c : Content) : (c.written comments).size ≤ c.size := by
  induction c with
  | nil => exact Nat.le_refl _
  | leaf l next ih =>
    rw [written]
    split
    · rw [size]
      omega
    · rw [size, size]
      omega
  | element e inner next ihInner ihNext =>
    rw [written, size, size]
    omega

theorem size_withoutText (c : Content) : c.withoutText.size ≤ c.size := by
  induction c with
  | nil => exact Nat.le_refl _
  | leaf l next ih =>
    rw [withoutText]
    split
    · rw [size]
      omega
    · rw [size, size]
      omega
  | element e inner next _ ih =>
    rw [withoutText, size, size]
    omega

end Content

theorem Location.size_here {content : Content} {number : Nat} {ancestors : List Ancestor}
    {before : List NodeKind} : ∀ loc ∈ allFrom number ancestors before content,
      loc.here.size ≤ content.size := by
  have handed : HandedOn fun loc => loc.here.size ≤ content.size := by
    constructor
    case next =>
      rintro ⟨number, ancestors, before, here⟩ bound
      cases here with
      | nil => exact bound
      | leaf l next => exact Nat.le_of_succ_le bound
      | element e inner next =>
        refine Nat.le_trans ?_ bound
        simp only [Location.next, Content.size]
        omega
    case inside =>
      intro loc e inner next here bound
      rw [here] at bound
      refine Nat.le_trans ?_ bound
      simp only [Location.inside, Content.size]
      omega
  exact handed.of_mem_allFrom (Nat.le_refl _)

theorem Input.size_part {d : Document} {input : Input} (rooted : input.Rooted d) (method : Method) :
    (input.part method).size ≤ d.content.size := by
  cases rooted with
  | document single =>
    exact Nat.le_trans (Content.size_written _ _) (Content.size_withoutText _)
  | @element loc e member here =>
    have within : loc.here.size ≤ d.content.size := Location.size_here loc member
    unfold Input.part
    dsimp only
    split
    · rename_i e inner next found
      have smaller := Content.size_written method.withComments inner
      rw [found, Content.size] at within
      rw [Content.size, Content.size]
      omega
    · exact Nat.zero_le _

/-! ## Pages -/

/-- What is written of an input is a page that says what its part says. -/
theorem Input.pieces_spelled {d : Document} {input : Input} {method : Method} {params : Params}
    (sound : d.content.All Leaf.Sound Element.Sound) (names : input.NamesAgree)
    (rooted : input.Rooted d) (writable : input.Writable) {pieces : List Piece} {w : Walk}
    (gives : (Walk.ofInput method input params).Gives pieces w) :
    Piece.SpellPage (.of method input params) pieces input.scope (input.part method) := by
  cases rooted with
  | document single =>
    have whole : (Request.of method (.document d) params).Whole := fun s => nofun
    rw [Walk.ofInput_document] at gives
    exact Walk.top_spelled whole single ⟨sound, writable.content, names⟩ rfl
      (Stage.seed (List.forall_mem_nil _) (List.forall_mem_nil _)) gives
  | @element loc e member element =>
    obtain ⟨inner, next, here⟩ := Location.here_of_element? element
    have whole : (Request.of method (.subtree (.node loc)) params).Whole := fun s => nofun
    rw [Walk.ofInput_node] at gives
    have soundHere := sound.allFrom loc member
    rw [here] at soundHere
    have writableHere := writable.content
    rw [Input.content_element here] at writableHere
    unfold Input.NamesAgree Input.locations Place.locations at names
    dsimp only at names
    rw [Location.subtree_of_here here] at names
    obtain ⟨namesHere, namesBelow⟩ := List.forall_mem_cons.mp names
    have page := Walk.apex_spelled whole here soundHere.1 writableHere.1 (namesHere e element)
      ⟨soundHere.2.1, writableHere.2.1, namesBelow⟩
      (Stage.seed (Location.forall_ancestors sound member) writable.around) gives
    -- Nothing around the apex is output, and so it takes from all elements around it.
    have around : (Request.of method (.subtree (.node loc)) params).omittedAncestors
        loc.ancestors = loc.ancestors :=
      Request.omittedAncestors_of_suffix (.node member) (List.suffix_refl _)
    have carrier : (Request.of method (.subtree (.node loc)) params).carrier false loc.ancestors e =
        e.carrying method.inheritance loc.ancestors := by
      unfold Request.carrier
      rw [around]
      rfl
    rw [carrier] at page
    rw [Input.part_element method here]
    exact page

/-! ## Documents -/

/-- The canonical form is the text of the pieces that a walk writes, if the walk succeeds. -/
theorem canonicalize_eq_ok {method : Method} {input : Input} {params : Params} {w : String} :
    (canonicalize method input params).result = .ok w ↔ ∃ pieces last,
      (Walk.ofInput method input params).Gives pieces last ∧
        String.ofList (Piece.chars pieces) = w := by
  have text (t : Transcript Piece Walk) :
      (t.render Piece.text).text = String.ofList (Piece.chars t.pieces) := by
    rw [Transcript.text, Transcript.pieces_render, ← String.toList_inj, String.toList_join,
      String.toList_ofList, List.flatMap_map]
    rfl
  unfold canonicalize Transcript.result
  rw [except_map_eq_ok]
  simp only [Transcript.outcome_render, text]
  constructor
  · rintro ⟨last, outcome, same⟩
    exact ⟨_, last, ⟨rfl, outcome⟩, same⟩
  · rintro ⟨_, last, ⟨rfl, outcome⟩, same⟩
    exact ⟨last, outcome, same⟩

/-- What is written is a page, and that is read back. -/
theorem Document.written_page {text : String} {options : ReadOptions} {d : Document}
    {method : Method} {input : Input} {params : Params} {w : String}
    (parsed : Document.read text options = .ok d) (names : input.NamesAgree)
    (rooted : input.Rooted d) (writable : input.Writable)
    (written : (canonicalize method input params).result = .ok w) :
    ∃ p : Page, p.Valid ∧ w = String.ofList p.spell ∧ Document.read w options = .ok p.document ∧
      p.form.Tells (.of method input params) [] input.scope (input.part method) := by
  obtain ⟨sound, limit⟩ := Document.sound_of_read parsed
  obtain ⟨pieces, last, gives, rfl⟩ := canonicalize_eq_ok.mp written
  obtain ⟨p, valid, chars, tells⟩ := Input.pieces_spelled sound names rooted writable gives
  -- A page is read back if it is not too large.
  have small : p.tree.size ≤ d.content.size := by
    have written := tells.small ""
    have part := Input.size_part rooted method
    rw [p.tree_form] at written
    exact Nat.le_trans written (by simpa [Form.before, Content.size] using part)
  refine ⟨p, valid, congrArg String.ofList chars, ?_, tells⟩
  rw [chars]
  exact Page.read valid (Nat.le_trans (Nat.add_le_add_right small 1) limit)

/-- A canonical form is read back, and it says what was written of the source. -/
theorem Document.canonical_reads_back {text : String} {options : ReadOptions} {d : Document}
    {method : Method} {input : Input} {params : Params} {w : String}
    (parsed : Document.read text options = .ok d) (names : d.NamesAgree)
    (rooted : input.Rooted d) (writable : input.Writable)
    (written : (canonicalize method input params).result = .ok w) :
    ∃ d', Document.read w options = .ok d' ∧
      d'.content.view [] "" = (input.part method).view input.scope "" := by
  obtain ⟨p, -, -, read, tells⟩ :=
    Document.written_page parsed (names.input rooted.taken) rooted writable written
  refine ⟨p.document, read, ?_⟩
  have view := tells.tells ""
  rw [p.tree_form] at view
  exact view

/-- The part of a document below an element that has a base URI around it. -/
theorem Document.canonical_reads_back_apex :
    let text := "<a xmlns='u' xml:base='http://h/d/'><b xml:base='f'>x<!-- y --></b></a>"
    let method : Method := ⟨false, .inclusive, .revised⟩
    let w := "<b xmlns=\"u\" xml:base=\"http://h/d/f\">x</b>"
    ∃ d input, Document.read text = .ok d ∧ d.NamesAgree ∧ input.Rooted d ∧ input.Writable ∧
      (canonicalize method input {}).result = .ok w ∧
      ∃ d', Document.read w = .ok d' ∧
        d'.content.view [] "" = (input.part method).view input.scope "" := by
  intro text method w
  let d := (Document.read text).toOption.getD ⟨"", .nil⟩
  let loc := (d.locate? 2).getD (.top d.content)
  have parsed : Document.read text = .ok d := by decide +kernel
  have names : d.NamesAgree := by decide +kernel
  have writable : Input.Writable (.subtree (.node loc)) := by decide +kernel
  have member : loc ∈ d.locations := by decide +kernel
  have element : loc.element?.isSome = true := by decide +kernel
  obtain ⟨e, here⟩ := Option.isSome_iff_exists.mp element
  have written : (canonicalize method (.subtree (.node loc)) {}).result = .ok w := by
    decide +kernel
  have rooted : Input.Rooted d (.subtree (.node loc)) := .element member here
  exact ⟨d, .subtree (.node loc), parsed, names, rooted, writable, written,
    Document.canonical_reads_back parsed names rooted writable written⟩

/-- An own attribute of an apex is not read back: the base URI of the element has been joined with
the one around it. -/
theorem Document.apex_base_joined :
    let text := "<a xml:base='http://example.org/dir/'><c xml:base='file.xml'/></a>"
    let base : Attribute := ⟨some xmlNamespace, "base", "file.xml"⟩
    let w := "<c xml:base=\"http://example.org/dir/file.xml\"></c>"
    ∃ d loc e e', Document.read text = .ok d ∧ d.NamesAgree ∧ loc ∈ d.locations ∧
      loc.element? = some e ∧ base ∈ e.attributes ∧
      (canonicalize ⟨false, .inclusive, .revised⟩ (.subtree (.node loc)) {}).result = .ok w ∧
      Document.read w = .ok ⟨w, .element e' .nil .nil⟩ ∧ base ∉ e'.attributes := by
  intro text base w
  let d := (Document.read text).toOption.getD ⟨"", .nil⟩
  let loc := (d.locate? 2).getD (.top d.content)
  let e : Element := ⟨none, "c", [base], [], some ⟨"c", [⟨"xml:base", "file.xml"⟩]⟩⟩
  let joined := "http://example.org/dir/file.xml"
  let e' : Element := ⟨none, "c", [⟨some xmlNamespace, "base", joined⟩], [],
    some ⟨"c", [⟨"xml:base", joined⟩]⟩⟩
  refine ⟨d, loc, e, e', ?_⟩
  decide +kernel

end CanonicalXml
