import CanonicalXml.Proofs.FixedPoint.Content
import CanonicalXml.Proofs.Readback.Documents
import Mathlib

/-! # Canonical form is a fixed point

A canonical form is read back, and the canonical form of what was read is the same text.

* `Page.Canonical` — a page as a method writes it.
* `Walk.page_again` — the walk writes such a page again.
* `Document.canonical_fixed_point` — a canonical form is its own canonical form.
-/

namespace CanonicalXml

/-- A page as a method writes it. -/
structure Page.Canonical (method : Method) (listed : List String) (p : Page) : Prop where
  before : ∀ remark ∈ p.before, remark.Canonical method
  tag : Form.CanonicalTag method listed [] p.name p.declarations p.attributes
  inner : p.inner.Canonical method listed (Scope.extend p.declarations [])
  after : ∀ remark ∈ p.after, remark.Canonical method

theorem Remark.canonical_form {method : Method} {listed : List String} {scope : Scope}
    {rs : List Remark} {f : Form} (canonical : (form rs f).Canonical method listed scope) :
    (∀ remark ∈ rs, remark.Canonical method) ∧ f.Canonical method listed scope := by
  induction rs with
  | nil => exact ⟨nofun, canonical⟩
  | cons remark rs ih =>
    obtain ⟨here, later⟩ := canonical
    obtain ⟨remarks, rest⟩ := ih later
    exact ⟨List.forall_mem_cons.mpr ⟨here, remarks⟩, rest⟩

theorem Page.canonical_of_form {method : Method} {listed : List String} {p : Page}
    (canonical : p.form.Canonical method listed []) : p.Canonical method listed := by
  obtain ⟨before, tag, inner, after⟩ := Remark.canonical_form canonical
  exact ⟨before, tag, inner, (Remark.canonical_form after).1⟩

namespace Walk

open Transcript

variable {r : Request} {axis : NamespaceAxis} {cs : List Char}

/-- Remarks behind the document element. -/
theorem after_again (whole : r.Whole) (unlimited : r.limits = none) {rs : List Remark}
    (canonical : ∀ remark ∈ rs, remark.Canonical r.method) :
    ∀ {number : Nat} {before : List NodeKind}, before.contains .element = true →
      Again r false ⟨number, [], before, Remark.tree rs .nil⟩ axis
        (Remark.spellAfter ['\n'] rs) := by
  induction rs with
  | nil => exact fun _ => Again.nil
  | cons remark rs ih =>
    intro number before follows
    obtain ⟨here, later⟩ := List.forall_mem_cons.mp canonical
    let loc : Location := ⟨number, [], before, Remark.tree (remark :: rs) .nil⟩
    have behind : loc.followsRoot = true := follows
    have last : loc.precedesRoot = false := Remark.hasElement_tree rs .nil
    have spelled : Piece.chars [.leaf loc remark.leaf] = '\n' :: '<' :: remark.body := by
      rw [chars_leafAfter behind last, Remark.toList_write here]
    have followed : (remark.leaf.kind :: before).contains .element = true := by
      rw [List.contains_cons, follows, Bool.or_true]
    have again := Again.leaf (leaf_again whole unlimited here loc axis) spelled (ih later followed)
    exact again

/-- Remarks in front of the document element. -/
theorem before_again (whole : r.Whole) (unlimited : r.limits = none) {rs : List Remark}
    {content : Content} (canonical : ∀ remark ∈ rs, remark.Canonical r.method)
    (element : content.hasElement = true)
    (later : ∀ {number : Nat} {before : List NodeKind}, before.contains .element = false →
      Again r false ⟨number, [], before, content⟩ axis cs) :
    ∀ {number : Nat} {before : List NodeKind}, before.contains .element = false →
      Again r false ⟨number, [], before, Remark.tree rs content⟩ axis
        (Remark.spellBefore ['\n'] rs cs) := by
  induction rs with
  | nil => exact later
  | cons remark rs ih =>
    intro number before precedes
    obtain ⟨here, others⟩ := List.forall_mem_cons.mp canonical
    let loc : Location := ⟨number, [], before, Remark.tree (remark :: rs) content⟩
    have first : loc.followsRoot = false := precedes
    have ahead : loc.precedesRoot = true := (Remark.hasElement_tree rs content).trans element
    have spelled : Piece.chars [.leaf loc remark.leaf] = '<' :: (remark.body ++ ['\n']) := by
      rw [chars_leafBefore first ahead, Remark.toList_write here, List.cons_append]
    have preceded : (remark.leaf.kind :: before).contains .element = false := by
      rw [List.contains_cons, precedes, Bool.or_false]
      cases remark <;> rfl
    have again := Again.leaf (leaf_again whole unlimited here loc axis) spelled
      (ih others preceded)
    rw [List.cons_append, List.append_assoc] at again
    exact again

/-- A page is written again. -/
theorem page_again (whole : r.Whole) (calm : r.propagateDefault = false)
    (unlimited : r.limits = none) {p : Page} (valid : p.Valid)
    (canonical : p.Canonical r.method r.listed) :
    Again r false (.top p.tree) .start p.spell := by
  refine before_again whole unlimited canonical.before rfl (fun _ => ?_) rfl
  exact Again.element whole calm unlimited Echo.start valid.tag canonical.tag (.inr rfl)
    (fun echo => siblings_again whole calm unlimited "" rfl echo valid.inner canonical.inner)
    (after_again whole unlimited canonical.after rfl)

end Walk

theorem Request.calm_of {params : Params} (calm : params.propagateDefault = false)
    (method : Method) (input : Input) :
    (Request.of method input params).propagateDefault = false := by
  simp [Request.of, calm]

/-- A canonical form is a document, and the same method writes it as it is, if all names of the
source resolve to the namespaces that they were given. -/
theorem Document.canonical_fixed_point {text : String} {options : ReadOptions} {d : Document}
    {method : Method} {input : Input} {params : Params} {w : String}
    (parsed : Document.read text options = .ok d) (names : input.NamesAgree)
    (rooted : input.Rooted d) (writable : input.Writable) (calm : params.propagateDefault = false)
    (written : (canonicalize method input params).result = .ok w) :
    ∃ d', Document.read w options = .ok d' ∧
      (canonicalize method (.document d') { params with limits := none }).result = .ok w := by
  obtain ⟨p, valid, spelled, read, tells⟩ :=
    Document.written_page parsed names rooted writable written
  have canonical := Page.canonical_of_form (tells.canonical (Request.calm_of calm method input))
  let again : Params := { params with limits := none }
  have whole : (Request.of method (.document p.document) again).Whole := fun s => nofun
  have calmAgain : again.propagateDefault = false := calm
  obtain ⟨pieces, comments, gives, chars⟩ :=
    Walk.page_again whole (Request.calm_of calmAgain method _) rfl valid canonical 0
  have walked : (Walk.ofInput method (.document p.document) again).Gives pieces
      ⟨.start, comments⟩ := by
    rw [Walk.ofInput_document]
    exact gives
  refine ⟨p.document, read, canonicalize_eq_ok.mpr ⟨pieces, _, walked, ?_⟩⟩
  rw [chars, spelled]

/-- The part of a document below an element, with a default namespace that is listed and taken
back. -/
theorem Document.canonical_fixed_point_apex :
    let text := "<a xmlns='u' xmlns:p='v'><!-- y --><p:b k='&lt;'>x&#xD;<c xmlns=''/></p:b></a>"
    let method : Method := ⟨false, .exclusive, .nothing⟩
    let params : Params := ⟨["#default"], false, none⟩
    let w := "<p:b xmlns=\"u\" xmlns:p=\"v\" k=\"&lt;\">x&#xD;<c xmlns=\"\"></c></p:b>"
    ∃ d input, Document.read text = .ok d ∧ input.NamesAgree ∧ input.Rooted d ∧ input.Writable ∧
      (canonicalize method input params).result = .ok w ∧
      ∃ d', Document.read w = .ok d' ∧
        (canonicalize method (.document d') { params with limits := none }).result = .ok w := by
  intro text method params w
  let d := (Document.read text).toOption.getD ⟨"", .nil⟩
  let loc := (d.locate? 3).getD (.top d.content)
  have parsed : Document.read text = .ok d := by decide +kernel
  have names : Input.NamesAgree (.subtree (.node loc)) := by decide +kernel
  have writable : Input.Writable (.subtree (.node loc)) := by decide +kernel
  have member : loc ∈ d.locations := by decide +kernel
  have element : loc.element?.isSome = true := by decide +kernel
  obtain ⟨e, here⟩ := Option.isSome_iff_exists.mp element
  have rooted : Input.Rooted d (.subtree (.node loc)) := .element member here
  have written : (canonicalize method (.subtree (.node loc)) params).result = .ok w := by
    decide +kernel
  exact ⟨d, .subtree (.node loc), parsed, names, rooted, writable, written,
    Document.canonical_fixed_point parsed names rooted writable rfl written⟩

/-- An attribute `p:xmlns` is read as a default declaration, but it counts among the attributes of
its start tag.  The attribute `p:a` is then matched with the spelling of another one and written
without a prefix, so that the second walk sorts it elsewhere. -/
theorem Document.canonical_form_reordered :
    let text := "<r p:xmlns='v' xmlns:p='v' xmlns:t='t' t:b='1' p:a='2'/>"
    let method : Method := ⟨false, .inclusive, .everything⟩
    let w := "<r xmlns:p=\"v\" xmlns:t=\"t\" t:b=\"1\" a=\"2\"></r>"
    let w' := "<r xmlns:p=\"v\" xmlns:t=\"t\" a=\"2\" t:b=\"1\"></r>"
    ∃ d d', Document.read text = .ok d ∧ ¬ Input.NamesAgree (.document d) ∧
      (canonicalize method (.document d) {}).result = .ok w ∧ Document.read w = .ok d' ∧
      (canonicalize method (.document d') {}).result = .ok w' := by
  intro text method w w'
  let d : Document := ⟨text, .element ⟨some "v", "r", [⟨some "t", "b", "1"⟩, ⟨some "v", "a", "2"⟩],
    [⟨"", "v"⟩, ⟨"p", "v"⟩, ⟨"t", "t"⟩], some ⟨"r", [⟨"p:xmlns", "v"⟩, ⟨"xmlns:p", "v"⟩,
      ⟨"xmlns:t", "t"⟩, ⟨"t:b", "1"⟩, ⟨"p:a", "2"⟩]⟩⟩ .nil .nil⟩
  let d' : Document := ⟨w, .element ⟨none, "r", [⟨some "t", "b", "1"⟩, ⟨none, "a", "2"⟩],
    [⟨"p", "v"⟩, ⟨"t", "t"⟩], some ⟨"r", [⟨"xmlns:p", "v"⟩, ⟨"xmlns:t", "t"⟩, ⟨"t:b", "1"⟩,
      ⟨"a", "2"⟩]⟩⟩ .nil .nil⟩
  have first : Document.read text = .ok d := by decide +kernel
  have names : ¬ Input.NamesAgree (.document d) := by decide +kernel
  have second : Document.read w = .ok d' := by decide +kernel
  have written : (canonicalize method (.document d) {}).result = .ok w := by
    cbv
  have again : (canonicalize method (.document d') {}).result = .ok w' := by
    cbv
  exact ⟨d, d', first, names, written, second, again⟩

end CanonicalXml
