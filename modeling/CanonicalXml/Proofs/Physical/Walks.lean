import CanonicalXml.Proofs.Comparison.Walks
import CanonicalXml.Proofs.Physical.Contents

/-! # Walks through content that is read again

A walk writes the same of some content as of what is read of its physical form, and so does the
physical form itself.

* `Transcript.Trails` — an operation that writes some text first, and then what another one writes.
* `Walk.startTag_kept` — start tags of an element that is kept.
* `Walk.siblings_reread`, `Physical.content_reread` — whole content, by induction over the relation
  between the two.
-/

namespace CanonicalXml

/-! ## Text that comes first -/

namespace Transcript

variable {π α β : Type} {textOf : π → String} {first : String}

/-- The second operation writes some text before all that the first one writes, and ends alike. -/
structure Trails (textOf : π → String) (first : String) (t u : Transcript π α) : Prop where
  text : (u.render textOf).text = first ++ (t.render textOf).text
  outcome : u.outcome = t.outcome

theorem Trails.refl (t : Transcript π α) : Trails textOf "" t t :=
  ⟨String.empty_append.symm, rfl⟩

theorem Matches.trails {t u : Transcript Piece α} (same : Matches Eq Eq t u) :
    Trails Piece.text "" t u :=
  ⟨same.1.symm.trans String.empty_append.symm, same.2.eq.symm⟩

theorem Trails.bind {t u : Transcript π α} {f g : α → Transcript π β}
    (here : Trails textOf first t u) (later : ∀ a, Trails textOf "" (f a) (g a)) :
    Trails textOf first (t >>= f) (u >>= g) := by
  obtain ⟨text, outcome⟩ := here
  constructor
  · rw [text_render_bind, text_render_bind, text, outcome, String.append_assoc]
    cases t.outcome with
    | ok a =>
      dsimp only
      rw [(later a).text, String.empty_append]
    | error fault => rfl
  · rw [outcome_bind, outcome_bind, outcome]
    cases t.outcome with
    | ok a => exact (later a).outcome
    | error fault => rfl

/-- A piece that both write, and the first one only now. -/
theorem Trails.later {piece : π} {t u : Transcript π α}
    (trails : Trails textOf (first ++ textOf piece) t u) :
    Trails textOf first (write piece >>= fun _ => t) u := by
  refine ⟨?_, trails.outcome⟩
  rw [trails.text, String.append_assoc]
  exact congrArg (first ++ ·) String.join_cons.symm

/-- A piece that the second one writes first. -/
theorem Trails.sooner {piece : π} {t u : Transcript π α} (trails : Trails textOf "" t u) :
    Trails textOf (textOf piece) t (write piece >>= fun _ => u) := by
  refine ⟨?_, trails.outcome⟩
  rw [← String.empty_append (s := (t.render textOf).text), ← trails.text]
  exact String.join_cons

end Transcript

/-! ## Leaves and tags -/

/-- Data that has been escaped is written as before. -/
theorem Leaf.write_escaped (l : Leaf) : l.escaped.write = l.write := by
  cases l with
  | text value => rfl
  | comment data => rw [escaped, write, write, escapeData_escapeData]
  | instruction target data =>
    cases data with
    | none => rfl
    | some data =>
      have empty : (escapeData data).isEmpty = data.isEmpty := by
        by_cases nothing : data = ""
        · rw [nothing]
          rfl
        · rw [String.isEmpty_eq_false_iff.mpr (Markup.escapeData_ne_empty nothing),
            String.isEmpty_eq_false_iff.mpr nothing]
      rw [escaped, Option.map_some, write, write, escapeData_escapeData, empty]

namespace Request

variable {r : Request}

theorem whole_document (extent : r.extent = .document) : r.Whole := fun s set => by
  rw [extent] at set
  cases set

/-- Below a document all is output, so nothing is taken from ancestors. -/
theorem omittedAncestors_document (extent : r.extent = .document) (ancestors : List Ancestor) :
    r.omittedAncestors ancestors = [] := by
  cases ancestors with
  | nil => rfl
  | cons a above =>
    refine omittedAncestors_of_output ?_
    rw [ancestorIsOutput, extent]

/-- In a document the declarations of a tag do not depend on the place. -/
theorem declarations_document (extent : r.extent = .document) (axis : NamespaceAxis)
    (names : Spelling) (element element' : Nat) :
    r.declarations axis element names = r.declarations axis element' names := by
  have visible : r.isVisible element = r.isVisible element' := by
    funext p
    simp only [isVisible]
    rw [extent]
  have propagates : r.propagatesAt element = r.propagatesAt element' := by
    simp [propagatesAt, extent]
  simp only [declarations, utilized]
  rw [visible, propagates]

end Request

namespace Walk

open Transcript

variable {r : Request} {loc loc' : Location} {w : Walk}

/-- The start tag of an element that is kept. -/
theorem startTag_kept (extent : r.extent = .document) {e e' : Element}
    (kept : e.Kept loc.outerScope loc'.outerScope e') (parentOutput : Bool) :
    Matches Eq Eq (w.startTag r loc e parentOutput) (w.startTag r loc' e' parentOutput) := by
  have whole : r.Whole := Request.whole_document extent
  have names : loc'.spelling e' = loc.spelling e := kept.spelling
  have reflexive : ∀ f : Fault, f = f := fun _ => rfl
  have tags : Matches Eq
      (fun v v' => v.1.axis = v'.1.axis ∧ v.1.comments = v'.1.comments ∧ v.2 = v'.2)
      (w.startTag r loc e parentOutput) (w.startTag r loc' e' parentOutput) := by
    refine startTag_matches Eq rfl ?name ?output ?counted ?deep ?omitted ?written
    case name => rw [names]
    case output => rw [whole.isOutput, whole.isOutput]
    case counted =>
      intro qname
      rw [names, kept.attributes]
      exact .refl reflexive _
    case deep =>
      rw [names]
      exact .refl reflexive _
    case omitted =>
      intro hidden
      rw [whole.isOutput] at hidden
      cases hidden
    case written =>
      intro _
      rw [names]
      refine ⟨.refl reflexive _, ?_, ?_, ?_⟩
      · rw [Request.writtenAttributes, Request.writtenAttributes, kept.attributes,
          r.omittedAncestors_document extent, r.omittedAncestors_document extent]
        exact .refl reflexive _
      · rw [Request.declarations_document extent]
      · rw [Request.declarations_document extent]
  refine tags.mono ?_
  rintro ⟨⟨axis, comments⟩, closing⟩ ⟨⟨_, _⟩, _⟩ - - ⟨rfl, rfl, rfl⟩
  rfl

/-- A remark that is kept. -/
theorem leaf_kept (extent : r.extent = .document) {l : Leaf} (top : loc.isTop = loc'.isTop)
    (follows : loc.followsRoot = loc'.followsRoot)
    (precedes : loc.precedesRoot = loc'.precedesRoot) :
    Matches Eq Eq (w.leaf r loc l) (w.leaf r loc' l.escaped) := by
  have whole : r.Whole := Request.whole_document extent
  have text : loc.writeSeparated l = loc'.writeSeparated l.escaped := by
    simp only [Location.writeSeparated]
    rw [follows, precedes, l.write_escaped]
  have output : r.isOutput loc l.kind = r.isOutput loc' l.escaped.kind := by
    rw [whole.isOutput, whole.isOutput, l.kind_escaped]
  have leaves : Matches Eq (Unmoved w w) (w.leaf r loc l) (w.leaf r loc' l.escaped) :=
    leaf_matches (fun _ => rfl) rfl rfl l.kind_escaped.symm output top text
  refine leaves.mono ?_
  rintro ⟨_, _⟩ ⟨_, _⟩ - - ⟨rfl, rfl, rfl⟩
  rfl

/-! ## Whole content -/

/-- Text that is output inside of an element. -/
theorem leaf_text (extent : r.extent = .document) (inside : loc.isTop = false) (value : String)
    (f : Walk → Transcript Piece Walk) :
    (w.leaf r loc (.text value) >>= f) = write (.leaf loc (.text value)) >>= fun _ => f w := by
  have whole : r.Whole := Request.whole_document extent
  simp only [Walk.leaf]
  rw [whole.isOutput, inside]
  rfl

/-- Text outside of the document element is not output. -/
theorem leaf_outside (top : loc.isTop = true) (value : String) :
    w.leaf r loc (.text value) = pure w := by
  simp only [Walk.leaf]
  rw [top]
  split <;> rfl

/-- What is around some content, and what is around the content that is read of it. -/
structure Counterparts (top : Bool) (outer outer' : Scope) (ancestors ancestors' : List Ancestor)
    (before before' : List NodeKind) : Prop where
  scope : Ancestor.scope ancestors = outer
  scope' : Ancestor.scope ancestors' = outer'
  isTop : ancestors.isEmpty = top
  isTop' : ancestors'.isEmpty = top
  follows : before'.contains .element = before.contains .element

variable {top : Bool} {outer outer' : Scope} {ancestors ancestors' : List Ancestor}
  {before before' : List NodeKind}

/-- The content of two elements. -/
theorem Counterparts.inside (a a' : Ancestor) (above above' : List Ancestor) :
    Counterparts false a.element.scope a'.element.scope (a :: above) (a' :: above') [] [] :=
  ⟨rfl, rfl, rfl, rfl, rfl⟩

theorem Counterparts.next
    (around : Counterparts top outer outer' ancestors ancestors' before before')
    (kind : NodeKind) :
    Counterparts top outer outer' ancestors ancestors' (kind :: before) (kind :: before') := by
  refine { around with follows := ?_ }
  rw [List.contains_cons, List.contains_cons, around.follows]

/-- Text before some content is written first. Outside of the document element there is none. -/
theorem trails_before (extent : r.extent = .document) {t : Transcript Piece Walk}
    {parentOutput : Bool} {value : String} {next' : Content} {number' : Nat}
    (around : Counterparts top outer outer' ancestors ancestors' before before')
    (outside : top = true → value = "")
    (trails : ∀ number' before',
      Counterparts top outer outer' ancestors ancestors' before before' →
      Trails Piece.text "" t (siblings r parentOutput number' ancestors' before' next' w)) :
    Trails Piece.text (escapeText value) t
      (siblings r parentOutput number' ancestors' before' (Form.before value next') w) := by
  by_cases empty : value = ""
  · rw [empty]
    exact trails number' before' around
  · rw [Form.before, if_neg empty]
    let loc : Location := ⟨number', ancestors', before', .leaf (.text value) next'⟩
    have below : loc.isTop = false :=
      around.isTop'.trans (Bool.eq_false_iff.mpr fun top => empty (outside top))
    have text : (Piece.leaf loc (.text value)).text = escapeText value := text_leaf below _
    rw [siblings, leaf_text extent below, ← text]
    -- The text has become a sibling, which is not an element.
    have behind : Counterparts top outer outer' ancestors ancestors' before (.text :: before') :=
      { around with follows := around.follows }
    exact (trails _ _ behind).sooner

/-- A walk through content and one through what is read of it write the same, by induction over
how the one is read of the other. -/
theorem siblings_reread (extent : r.extent = .document) {value : String} {c c' : Content}
    (reread : c.Reread top outer outer' value c') :
    ∀ {number number' : Nat} {ancestors ancestors' : List Ancestor}
      {before before' : List NodeKind} {parentOutput : Bool} {w : Walk},
    Counterparts top outer outer' ancestors ancestors' before before' → (top = true → value = "") →
    Trails Piece.text (escapeText value)
      (siblings r parentOutput number ancestors before c w)
      (siblings r parentOutput number' ancestors' before' c' w) := by
  induction reread with
  | nil =>
    intro number number' ancestors ancestors' before before' parentOutput w around outside
    exact trails_before extent around outside fun _ _ _ => .refl _
  | @skipped outer outer' value more next next' later ih =>
    intro number number' ancestors ancestors' before before' parentOutput w around outside
    let loc : Location := ⟨number, ancestors, before, .leaf (.text more) next⟩
    have outermost : loc.isTop = true := around.isTop
    rw [siblings, leaf_outside outermost]
    exact ih { around with follows := around.follows } outside
  | @text outer outer' value more next next' later ih =>
    intro number number' ancestors ancestors' before before' parentOutput w around _
    let loc : Location := ⟨number, ancestors, before, .leaf (.text more) next⟩
    have below : loc.isTop = false := around.isTop
    have text : (Piece.leaf loc (.text more)).text = escapeText more := text_leaf below _
    -- The text waits to be written together with the next one.
    rw [siblings, leaf_text extent below]
    refine Trails.later ?_
    rw [text, ← escapeText_append]
    exact ih { around with follows := around.follows } fun top => absurd top Bool.false_ne_true
  | @remark top outer outer' value l next next' notText later ih =>
    intro number number' ancestors ancestors' before before' parentOutput w around outside
    refine trails_before extent around outside fun number' before' around => ?_
    have leaves : Matches Eq Eq
        (w.leaf r ⟨number, ancestors, before, .leaf l next⟩ l)
        (w.leaf r ⟨number', ancestors', before', .leaf l.escaped next'⟩ l.escaped) := by
      refine leaf_kept extent (around.isTop.trans around.isTop'.symm) ?_ ?_
      · simp only [Location.followsRoot, Location.isTop]
        rw [around.isTop, around.isTop', around.follows]
      · simp only [Location.precedesRoot, Location.isTop]
        rw [around.isTop, around.isTop']
        exact congrArg (_ && ·) later.hasElement_eq.symm
    refine leaves.trails.bind fun w => ?_
    refine ih ?_ fun _ => rfl
    rw [l.kind_escaped]
    exact around.next l.kind
  | @element top outer outer' value e e' inner inner' next next' kept inside later ihInside
      ihLater =>
    intro number number' ancestors ancestors' before before' parentOutput w around outside
    refine trails_before extent around outside fun number' before' around => ?_
    have tags : Matches Eq Eq
        (w.startTag r ⟨number, ancestors, before, .element e inner next⟩ e parentOutput)
        (w.startTag r ⟨number', ancestors', before', .element e' inner' next'⟩ e'
          parentOutput) := by
      refine startTag_kept extent ?_ parentOutput
      rw [Location.outerScope, Location.outerScope, around.scope, around.scope']
      exact kept
    refine tags.trails.bind fun entered => ?_
    refine (ihInside (.inside ⟨number, e⟩ ⟨number', e'⟩ _ _) fun top =>
      absurd top Bool.false_ne_true).bind fun w => ?_
    refine (Trails.refl _).bind fun w => ?_
    exact ihLater (around.next .element) fun _ => rfl

end Walk

/-! ## The physical form itself -/

namespace Physical

open Transcript

variable {limits : Option Limits} {depth comments : Nat} {top : Bool} {outer outer' : Scope}
  {value : String}

/-- Text before some content is written first. -/
theorem trails_before {t : Transcript String Nat} {c : Content} (outside : top = true → value = "")
    (trails : Trails id "" t (content limits depth top outer comments c)) :
    Trails id (escapeText value) t
      (content limits depth top outer comments (Form.before value c)) := by
  by_cases empty : value = ""
  · rw [empty]
    exact trails
  · rw [Form.before, if_neg empty]
    cases top with
    | true => exact absurd (outside rfl) empty
    | false => exact trails.sooner

/-- Data that has been escaped is written as before. -/
theorem leaf_escaped (l : Leaf) :
    leaf limits top comments l.escaped = leaf limits top comments l := by
  have written := l.write_escaped
  cases l with
  | text value => rfl
  | comment data | instruction target data =>
    simp only [Leaf.escaped] at written
    simp only [Leaf.escaped, leaf]
    rw [written]

/-- The physical form of content and of what is read of that are the same, by induction. -/
theorem content_reread {c c' : Content} (reread : c.Reread top outer outer' value c') :
    ∀ {depth comments : Nat}, (top = true → value = "") →
    Trails id (escapeText value) (content limits depth top outer comments c)
      (content limits depth top outer' comments c') := by
  induction reread with
  | nil => exact fun outside => trails_before outside (.refl _)
  | skipped later ih => exact fun outside => ih outside
  | @text outer outer' value more next next' later ih =>
    intro depth comments _
    have joined : Trails id (escapeText (value ++ more))
        (content limits depth false outer comments next)
        (content limits depth false outer' comments next') := ih nofun
    rw [escapeText_append] at joined
    exact joined.later
  | remark notText later ih =>
    intro depth comments outside
    refine trails_before outside ?_
    simp only [content]
    rw [leaf_escaped]
    exact (Trails.refl _).bind fun _ => ih fun _ => rfl
  | @element top outer outer' value e e' inner inner' next next' kept inside later ihInside
      ihLater =>
    intro depth comments outside
    refine trails_before outside ?_
    have sameItems : items e' (Spelling.of outer e) = items e (Spelling.of outer e) := by
      rw [← kept.items, kept.spelling]
    simp only [content]
    rw [kept.spelling, kept.attributes, sameItems]
    refine (Trails.refl _).bind fun _ => ?_
    refine (Trails.refl _).bind fun _ => ?_
    refine (Trails.refl _).bind fun _ => ?_
    refine (ihInside nofun).bind fun _ => ?_
    exact (Trails.refl _).bind fun _ => ihLater fun _ => rfl

end Physical

/-! ## All algorithms -/

namespace Transcript

variable {α : Type}

theorem Trails.matches {t u : Transcript Piece α} (trails : Trails Piece.text "" t u) :
    Matches Eq Eq u t := by
  refine ⟨trails.text.trans String.empty_append, ?_⟩
  rw [trails.outcome]
  exact .refl (fun _ => rfl) _

theorem Trails.alike {t u : Transcript String α} (trails : Trails id "" t u) : Alike u t := by
  refine ⟨?_, trails.outcome⟩
  have same := trails.text
  simp only [Transcript.text, pieces_render, List.map_id, String.empty_append] at same
  exact same

end Transcript

open Transcript in
/-- Every algorithm writes of a document what it writes of its physical form. -/
theorem Mode.reread_alike {d d' : Document} (reread : d.content.Reread true [] [] "" d'.content)
    (mode : Mode) (params : Params) :
    Alike (mode.run (.document d') params) (mode.run (.document d) params) := by
  cases mode with
  | canonical family withComments =>
    refine run_alike (R := Eq) ?_
    rw [Walk.ofInput_document, Walk.ofInput_document]
    have around : Walk.Counterparts true [] [] [] [] [] [] := ⟨rfl, rfl, rfl, rfl, rfl⟩
    exact (Walk.siblings_reread rfl reread around fun _ => rfl).matches
  | physical =>
    simp only [run, CanonicalXml.physical]
    split
    · exact ((Physical.content_reread reread fun _ => rfl).bind fun _ => .refl _).alike
    · exact ⟨rfl, rfl⟩

end CanonicalXml
