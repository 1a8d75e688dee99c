import CanonicalXml.Proofs.Readback.Attributes
import CanonicalXml.Proofs.Spelled.CanonicalForms

/-! # The tags of what is read back

What a walk that succeeds writes for an element is a start tag that can be read back, and an end
tag.

* `Transcript.Gives` — an operation succeeds, and what it writes.
* `Request.Whole` — a request that leaves out nothing but comments.
* `Stage.canonicalTag` — a start tag has nothing in it that could be left out.
* `Walk.startTag_gives` — the start tag of an element, as a tag of a form.
-/

namespace CanonicalXml

/-! ## Transcripts that succeed -/

namespace Transcript

variable {π α β : Type}

/-- The operation succeeds with a result and writes these pieces. -/
structure Gives (t : Transcript π α) (pieces : List π) (a : α) : Prop where
  pieces : t.pieces = pieces
  outcome : t.outcome = .ok a

theorem gives_bind {t : Transcript π α} {f : α → Transcript π β} {pieces : List π} {b : β} :
    (t >>= f).Gives pieces b ↔
      ∃ a first last, t.Gives first a ∧ (f a).Gives last b ∧ pieces = first ++ last := by
  constructor
  · rintro ⟨written, ends⟩
    obtain ⟨a, outcome, ends⟩ := outcome_bind_eq_ok.mp ends
    rw [pieces_bind, outcome] at written
    exact ⟨a, t.pieces, (f a).pieces, ⟨rfl, outcome⟩, ⟨rfl, ends⟩, written.symm⟩
  · rintro ⟨a, first, last, ⟨rfl, outcome⟩, ⟨rfl, ends⟩, rfl⟩
    constructor
    · rw [pieces_bind, outcome]
    · exact outcome_bind_eq_ok.mpr ⟨a, outcome, ends⟩

theorem gives_pure {a b : α} {pieces : List π} :
    (pure a : Transcript π α).Gives pieces b ↔ pieces = [] ∧ a = b := by
  constructor
  · rintro ⟨rfl, ends⟩
    cases ends
    exact ⟨rfl, rfl⟩
  · rintro ⟨rfl, rfl⟩
    exact ⟨rfl, rfl⟩

theorem gives_ofExcept {e : Except Fault α} {a : α} {pieces : List π} :
    (ofExcept e : Transcript π α).Gives pieces a ↔ pieces = [] ∧ e = .ok a := by
  cases e with
  | error fault =>
    constructor
    · rintro ⟨-, ends⟩
      cases ends
    · rintro ⟨-, ends⟩
      cases ends
  | ok b =>
    rw [Except.ok.injEq]
    exact gives_pure

theorem gives_write {piece : π} {pieces : List π} :
    (write piece : Transcript π Unit).Gives pieces () ↔ pieces = [piece] := by
  constructor
  · rintro ⟨rfl, -⟩
    rfl
  · rintro rfl
    exact ⟨rfl, rfl⟩

theorem gives_write_pure {piece : π} {pieces : List π} {a b : α} :
    (write piece >>= fun _ => pure a : Transcript π α).Gives pieces b ↔
      pieces = [piece] ∧ a = b := by
  rw [gives_bind]
  constructor
  · rintro ⟨_, first, last, here, later, rfl⟩
    obtain ⟨rfl, same⟩ := gives_pure.mp later
    rw [gives_write.mp here]
    exact ⟨rfl, same⟩
  · rintro ⟨rfl, same⟩
    exact ⟨(), [piece], [], gives_write.mpr rfl, gives_pure.mpr ⟨rfl, same⟩, rfl⟩

end Transcript

/-! ## Requests -/

namespace Request

theorem forcesDefault_of_calm {r : Request} (calm : r.propagateDefault = false)
    (chain : List Ancestor) : r.forcesDefault chain = false := by
  cases chain with
  | nil => rfl
  | cons a above =>
    simp only [forcesDefault, propagatesAt]
    rw [calm]
    split <;> rfl

/-- A request that leaves out nothing but comments. -/
def Whole (r : Request) : Prop :=
  ∀ s, r.extent ≠ .nodeSet s

variable {r : Request}

theorem Whole.free (whole : r.Whole) : r.restrictsNamespaces = false := by
  simp only [restrictsNamespaces]
  split
  · rename_i s extent
    exact absurd extent (whole s)
  · rfl

theorem Whole.included (whole : r.Whole) : r.excludesAttributes = false := by
  simp only [excludesAttributes]
  split
  · rename_i s extent
    exact absurd extent (whole s)
  · rfl

theorem Whole.isOutput (whole : r.Whole) (loc : Location) (kind : NodeKind) :
    r.isOutput loc kind = !(kind = .comment && !r.method.withComments) := by
  simp only [Request.isOutput]
  split
  · rename_i comment
    rw [comment]
    rfl
  · rename_i other
    rw [Bool.not_eq_true] at other
    rw [other]
    split
    · exact absurd ‹r.extent = _› (whole _)
    · exact absurd ‹r.extent = _› (whole _)
    · exact absurd ‹r.extent = _› (whole _)
    · rfl

end Request

/-! ## Start tags -/

theorem Spelling.length_prefixesOf (scope : Scope) (attributes : List Attribute) :
    ∀ raws, (prefixesOf scope raws attributes).length = attributes.length := by
  induction attributes with
  | nil =>
    intro raws
    simp only [prefixesOf]
    rfl
  | cons a attributes ih =>
    intro raws
    cases raws with
    | nil =>
      simp only [prefixesOf]
      exact congrArg (· + 1) (ih [])
    | cons raw raws =>
      simp only [prefixesOf]
      exact congrArg (· + 1) (ih raws)

variable {r : Request} {tags : Reader.Tags} {scope : Scope} {a : Ancestor} {above : List Ancestor}
  {axis : NamespaceAxis} {parentOutput : Bool}

theorem Request.carrier_sound (sound : a.element.Sound) (others : ∀ b ∈ above, b.element.Sound) :
    (r.carrier parentOutput above a.element).Sound := by
  simp only [Request.carrier]
  split
  · exact sound
  · exact sound.carrying fun b member => others b (r.omittedAncestors_subset above member)

theorem Request.carrier_admitted (admitted : a.element.Admitted)
    (others : ∀ b ∈ above, b.element.Admitted) :
    (r.carrier parentOutput above a.element).Admitted := by
  simp only [Request.carrier]
  split
  · exact admitted
  · exact admitted.carrying fun b member => others b (r.omittedAncestors_subset above member)

/-- All attributes of a start tag can be written. -/
theorem Stage.carries (stage : Stage tags scope (a :: above) axis) (whole : r.Whole)
    (names : Ancestor.NamesAgree a above) {owns : List (Attribute × String)}
    (attributes : (owns.map Prod.fst).Perm (r.carrier parentOutput above a.element).attributes)
    (known : ∀ own ∈ owns, (own.2 = xmlPrefix ∧ own.1.nsUri? = some xmlNamespace) ∨
      ∃ unjoined, (unjoined, own.2) ∈
          a.element.attributes.zip (a.spelling above).attributePrefixes ∧
        own.1.nsUri? = unjoined.nsUri? ∧ (own.2 = "" ∨ axis.uri? own.2 ≠ none)) :
    ∀ own ∈ owns, axis.Carries r (a :: above) own := by
  obtain ⟨sound, others⟩ := List.forall_mem_cons.mp stage.sound
  obtain ⟨admitted, othersAdmitted⟩ := List.forall_mem_cons.mp stage.admitted
  intro own member
  have inCarrier := attributes.subset (List.mem_map_of_mem member)
  have soundOwn := (Request.carrier_sound sound others).attributes own.1 inCarrier
  have admittedOwn := (Request.carrier_admitted admitted othersAdmitted).attributes own.1 inCarrier
  rcases known own member with ⟨xml, uri⟩ | ⟨unjoined, spelled, same, checked⟩
  · -- The prefix of what an element takes from around it is always bound.
    refine ⟨?_, .inr ?_, fun _ other => absurd xml other, soundOwn, admittedOwn⟩
    · simp only [Ancestor.Agrees, Ancestor.namespace?]
      rw [xml, if_neg (by decide), if_pos rfl, uri]
    · simp only [NamespaceAxis.uri?]
      rw [if_pos xml]
      exact Option.some_ne_none _
  · refine ⟨?_, checked, ?_, soundOwn, admittedOwn⟩
    · simp only [Ancestor.Agrees]
      rw [same]
      exact names.attributes _ spelled
    · intro prefixed _
      exact Reader.uses_attributePrefix whole.included prefixed (List.of_mem_zip spelled).2

/-- A start tag of a form that says what the element says. -/
structure Opens (r : Request) (scope : Scope) (a : Ancestor) (above : List Ancestor)
    (parentOutput : Bool) (declarations : List Binding) (items : List Item) : Prop where
  valid : Form.ValidTag scope (a.spelling above).name declarations items
  uri : ((Scope.extend declarations scope).uri? (a.spelling above).name.nsPrefix).getD "" =
    a.element.nsUri?.getD ""
  attributes : (items.map (Form.resolve (Scope.extend declarations scope))).Perm
    (r.carrier parentOutput above a.element).attributes
  canonical : r.propagateDefault = false →
    Form.CanonicalTag r.method r.listed scope (a.spelling above).name declarations items

/-- What is declared differs from what a reader has seen so far. -/
theorem Stage.declares (stage : Stage tags scope (a :: above) axis)
    (calm : r.propagateDefault = false) {b : Binding}
    (member : b ∈ (r.declarations axis a.number (a.spelling above)).1) :
    r.settles (a :: above) b.nsPrefix = true ∧ (b.uri = "" → b.nsPrefix = "") ∧
      b.uri ≠ (scope.uri? b.nsPrefix).getD "" := by
  obtain ⟨p, u⟩ := b
  obtain ⟨settled, due⟩ := (Request.mem_declarations stage.follows.inScope).mp member
  have shown := stage.follows.shown_eq stage.shows p
  rcases (NamespaceAxis.due?_eq_some stage.follows.inScope.bound).mp due with
    ⟨sees, notShown⟩ | ⟨rfl, rfl, -, why⟩
  · have nonempty : u ≠ "" :=
      fun empty => NamespaceAxis.seen_ne_empty stage.follows.inScope.bound (empty ▸ sees)
    refine ⟨settled, fun empty => absurd empty nonempty, fun same => notShown ?_⟩
    rw [shown]
    dsimp only at same
    cases seen : scope.uri? p with
    | none =>
      rw [seen] at same
      exact absurd same nonempty
    | some v =>
      rw [seen] at same
      obtain rfl : u = v := same
      simp [nonempty]
  · -- A default namespace is taken back because the reader has seen one.
    have seen := why.resolve_left (by
      rw [Request.forcesDefault_of_calm calm]
      exact Bool.false_ne_true)
    refine ⟨settled, fun _ => rfl, fun same => seen ?_⟩
    rw [shown]
    dsimp only at same
    cases found : scope.uri? "" with
    | none => rfl
    | some v =>
      rw [found] at same
      obtain rfl : "" = v := same
      rfl

/-- The tag is as a canonical method writes it. -/
theorem Stage.canonicalTag (stage : Stage tags scope (a :: above) axis) (whole : r.Whole)
    (calm : r.propagateDefault = false) {owns : List (Attribute × String)}
    (ordered : (owns.map Attribute.written).Pairwise fun a b => a.precedes b = true)
    (spelled : (a.spelling above).attributePrefixes ⊆ owns.map Prod.snd)
    (carries : ∀ own ∈ owns, axis.Carries r (a :: above) own) :
    Form.CanonicalTag r.method r.listed scope (a.spelling above).name
      (r.declarations axis a.number (a.spelling above)).1 (owns.map Attribute.item) := by
  refine ⟨r.sorted_declarations axis a.number _, fun b member => (stage.declares calm member).2.1,
    fun b member => (stage.declares calm member).2.2, fun exclusive b member => ?_, ?_⟩
  · have used := (stage.declares calm member).1
    simp only [Request.settles, Request.uses, Request.propagatesAt] at used
    rw [exclusive, calm, whole.included] at used
    simp only [Bool.or_eq_true, Bool.and_eq_true, decide_eq_true_eq, List.contains_iff_mem] at used
    rcases used with ((name | listed) | ⟨⟨-, named⟩, onTag⟩) | ⟨-, propagated, -⟩
    · exact .inl name
    · exact .inr (.inl listed)
    · obtain ⟨own, inOwns, same⟩ := List.mem_map.mp (spelled onTag)
      exact .inr (.inr ⟨named, _, List.mem_map_of_mem inOwns, same⟩)
    · cases propagated
  · have rewritten : (owns.map Attribute.item).map
        (Form.rewritten (Stage.inside r scope axis a above)) = owns.map Attribute.written := by
      rw [List.map_map]
      refine List.map_congr_left fun own member => ?_
      simp only [Function.comp_apply, Form.rewritten]
      rw [stage.resolve_item whole.free (carries own member)]
      rfl
    rw [← rewritten] at ordered
    exact ordered

theorem Stage.opens (stage : Stage tags scope (a :: above) axis) (whole : r.Whole)
    (names : Ancestor.NamesAgree a above)
    (checked : (a.spelling above).name.nsPrefix = "" ∨
      axis.uri? (a.spelling above).name.nsPrefix ≠ none)
    {owns : List (Attribute × String)}
    (ordered : (owns.map Attribute.written).Pairwise fun a b => a.precedes b = true)
    (attributes : (owns.map Prod.fst).Perm (r.carrier parentOutput above a.element).attributes)
    (spelled : (a.spelling above).attributePrefixes ⊆ owns.map Prod.snd)
    (carries : ∀ own ∈ owns, axis.Carries r (a :: above) own) :
    Opens r scope a above parentOutput (r.declarations axis a.number (a.spelling above)).1
      (owns.map Attribute.item) := by
  obtain ⟨sound, others⟩ := List.forall_mem_cons.mp stage.sound
  have apart : (owns.map Prod.fst).Pairwise Attribute.Apart := by
    refine (attributes.pairwise_iff ?_).mpr (Request.carrier_sound sound others).apart
    intro b c different same
    exact different ⟨same.1.symm, same.2.symm⟩
  constructor
  · -- A reader that has seen the declarations so far knows all prefixes of the tag.
    exact stage.validTag whole.free names checked carries apart
  · exact (stage.elementUri whole.free names checked).2
  · have read := stage.resolve_items whole.free carries
    simp only [Stage.inside] at read
    rw [read]
    exact attributes
  · exact fun calm => stage.canonicalTag whole calm ordered spelled carries

namespace Walk

open Transcript

/-- What entering an element writes, and where the walk goes on. -/
structure Entered (r : Request) (tags : Reader.Tags) (scope : Scope) (loc : Location) (e : Element)
    (parentOutput : Bool) (before after : Walk) (closing : Option String) (pieces : List Piece)
    (declarations : List Binding) (owns : List (Attribute × String)) : Prop where
  pieces : pieces = [.startTag loc (loc.spelling e).name.text declarations
    (owns.map Attribute.written)]
  closing : closing = some (loc.spelling e).name.text
  opens : Opens r scope ⟨loc.number, e⟩ loc.ancestors parentOutput declarations
    (owns.map Attribute.item)
  stage : Stage (((loc.spelling e).name.text, declarations) :: tags)
    (Scope.extend declarations scope) (⟨loc.number, e⟩ :: loc.ancestors) after.axis
  leave : after.axis.leave = before.axis

theorem startTag_gives {w w' : Walk} {loc : Location} {e : Element} {closing : Option String}
    {pieces : List Piece} (whole : r.Whole) (stage : Stage tags scope loc.ancestors w.axis)
    (sound : e.Sound) (admitted : e.Admitted)
    (names : Ancestor.NamesAgree ⟨loc.number, e⟩ loc.ancestors)
    (gives : (w.startTag r loc e parentOutput).Gives pieces (w', closing)) :
    ∃ declarations owns,
      Entered r tags scope loc e parentOutput w w' closing pieces declarations owns := by
  have output : r.isOutput loc .element = true := whole.isOutput loc .element
  have entered := stage.enter (a := ⟨loc.number, e⟩) sound admitted
  -- An element that is output is checked, its attributes are, and then its tag is written.
  unfold startTag at gives
  dsimp only at gives
  rw [output] at gives
  simp only [gives_bind, gives_ofExcept, if_true] at gives
  obtain ⟨_, _, _, ⟨rfl, -⟩, ⟨_, _, _, ⟨rfl, -⟩, ⟨_, _, _, ⟨rfl, checked⟩, ⟨attributes, _, _,
    ⟨rfl, written⟩, ⟨_, _, _, tag, after, rfl⟩, rfl⟩, rfl⟩, rfl⟩, rfl⟩ := gives
  rw [gives_write] at tag
  obtain ⟨rfl, result⟩ := gives_pure.mp after
  cases result
  have checked' := NamespaceAxis.checkPrefix_eq_ok.mp checked
  have aligned : e.attributes.length = (loc.spelling e).attributePrefixes.length :=
    (Spelling.length_prefixesOf _ _ _).symm
  obtain ⟨owns, rfl, ordered, perm, spelled, known⟩ :=
    Request.writtenAttributes_eq whole.included aligned written
  refine ⟨_, owns, ?_, rfl, ?_, entered.render whole.free _, ?_⟩
  · rw [tag]
    rfl
  · exact entered.opens whole names checked' ordered perm spelled
      (entered.carries whole names perm known)
  · exact (leave_declarations (NamespaceAxis.frames_enter_ne_nil _ _) _ _).trans
      (NamespaceAxis.leave_enter _ _)

end Walk

end CanonicalXml
