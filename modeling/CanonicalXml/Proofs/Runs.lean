import CanonicalXml.Mode
import CanonicalXml.Proofs.Completeness
import CanonicalXml.Proofs.InputForms.Requests
import CanonicalXml.Proofs.Rows

/-! # Runs of comments and instructions

From a node set, comments and instructions are not written one by one: of a run of siblings all
are, in document order, as soon as one of them is a member of the set, and otherwise none.

* `Walk.JoinsRuns` — the kinds of nodes that this is about.
* `Location.isOutput_of_run` — whether a member of a run is output.
* `Mode.runs_admitted` — what is written of a run, and that further members of a run that is
  written anyway make no difference.
-/

namespace CanonicalXml

/-- Of this kind whole runs are written: of instructions, and of comments if there are any. -/
def JoinsRuns (withComments : Bool) (kind : NodeKind) : Prop :=
  kind = .instruction ∨ kind = .comment ∧ withComments = true

instance (withComments : Bool) (kind : NodeKind) : Decidable (JoinsRuns withComments kind) :=
  inferInstanceAs (Decidable (_ ∨ _ ∧ _))

theorem JoinsRuns.ne_element {withComments : Bool} {kind : NodeKind}
    (joins : JoinsRuns withComments kind) : kind ≠ .element := by
  rcases joins with rfl | ⟨rfl, -⟩
  · decide
  · decide

theorem JoinsRuns.ne_text {withComments : Bool} {kind : NodeKind}
    (joins : JoinsRuns withComments kind) : kind ≠ .text := by
  rcases joins with rfl | ⟨rfl, -⟩
  · decide
  · decide

/-- What a part of a list has of the list is the part. -/
theorem filter_mem_of_sublist {α : Type} [DecidableEq α] {part whole : List α}
    (nodup : whole.Nodup) (sublist : part.Sublist whole) : whole.filter (· ∈ part) = part := by
  induction sublist with
  | slnil => rfl
  | cons a sublist ih =>
    obtain ⟨absent, nodup⟩ := List.nodup_cons.mp nodup
    rw [List.filter_cons_of_neg (by simpa using fun member => absent (sublist.subset member))]
    exact ih nodup
  | @cons_cons part whole a sublist ih =>
    obtain ⟨absent, nodup⟩ := List.nodup_cons.mp nodup
    rw [List.filter_cons_of_pos (by simp)]
    refine congrArg (a :: ·) ((List.filter_congr fun b member => ?_).trans (ih nodup))
    have other : b ≠ a := fun same => absent (same ▸ member)
    simp [other]

namespace Location

theorem nodup_locations (d : Document) : d.locations.Nodup := by
  refine List.Nodup.of_map (·.number) ?_
  unfold Document.locations all
  rw [numbers_allFrom]
  exact List.nodup_range'

theorem here_of_kind? {loc : Location} {kind : NodeKind} (here : loc.kind? = some kind)
    (markup : kind ≠ .element) : ∃ l rest, loc.here = .leaf l rest ∧ l.kind = kind := by
  unfold kind? at here
  cases content : loc.here with
  | nil =>
    rw [content] at here
    cases here
  | leaf l rest =>
    rw [content] at here
    exact ⟨l, rest, rfl, Option.some.inj here⟩
  | element e inner rest =>
    rw [content] at here
    exact absurd (Option.some.inj here).symm markup

variable {d : Document} {s : NodeSet} {method : Method} {params : Params}
  {row run : List Location} {loc : Location} {kind : NodeKind}

/-- A member of a run is output if the set has a member of the run. -/
theorem isOutput_of_run (joins : JoinsRuns method.withComments kind) (among : row ∈ d.rows)
    (part : run ∈ runs row) (member : loc ∈ run) (here : loc.kind? = some kind) :
    (Request.of method (.nodeSet d s) params).isOutput loc kind =
      run.any (s.contains ·.number) := by
  have counted : (Request.run loc kind).any s.contains = run.any (s.contains ·.number) := by
    rw [run_eq_map_number among part member here joins.ne_element, List.any_map]
    rfl
  rw [← counted]
  rcases joins with rfl | ⟨rfl, comments⟩
  · rfl
  · simp [Request.isOutput, Request.of, Request.extentOf, comments]

theorem writes_of_run (joins : JoinsRuns method.withComments kind) (among : row ∈ d.rows)
    (part : run ∈ runs row) (member : loc ∈ run) (here : loc.kind? = some kind) :
    (Request.of method (.nodeSet d s) params).writes loc = run.any (s.contains ·.number) := by
  obtain ⟨l, rest, content, rfl⟩ := here_of_kind? here joins.ne_element
  have notText := joins.ne_text
  simp only [Request.writes]
  rw [content]
  dsimp only
  rw [isOutput_of_run joins among part member here]
  simp [notText]

/-- Of all that a walk writes something for, the members of a run are all or none. -/
theorem filter_writes_run (s : NodeSet) (params : Params)
    (joins : JoinsRuns method.withComments kind) (among : row ∈ d.rows)
    (part : run ∈ runs row) (alike : ∀ loc ∈ run, loc.kind? = some kind) :
    (d.locations.filter (Request.of method (.nodeSet d s) params).writes).filter (· ∈ run) =
      if run.any (s.contains ·.number) then run else [] := by
  have written : ∀ loc ∈ run, (Request.of method (.nodeSet d s) params).writes loc =
      run.any (s.contains ·.number) := fun loc member =>
    writes_of_run joins among part member (alike loc member)
  rw [List.filter_filter]
  cases met : run.any (s.contains ·.number) with
  | false =>
    rw [if_neg Bool.false_ne_true, List.filter_eq_nil_iff]
    intro loc _ both
    obtain ⟨inRun, writes⟩ := (Bool.and_eq_true _ _).mp both
    rw [written loc (of_decide_eq_true inRun), met] at writes
    cases writes
  | true =>
    rw [if_pos rfl]
    refine (List.filter_congr fun loc _ => ?_).trans (filter_mem_of_sublist (nodup_locations d)
      ((runs_sublist part).trans (sublist_of_mem_rows among)))
    cases inRun : decide (loc ∈ run) with
    | false => rfl
    | true =>
      rw [written loc (of_decide_eq_true inRun), met]
      rfl

end Location

/-! ## Further members of a run -/

/-- The number of a comment or an instruction in a run that has a member in the set. -/
def NodeSet.Meets (d : Document) (s : NodeSet) (n : Nat) : Prop :=
  ∃ row ∈ d.rows, ∃ run ∈ Location.runs row, run.any (s.contains ·.number) = true ∧
    ∃ loc ∈ run, loc.number = n ∧ (loc.kind? = some .comment ∨ loc.kind? = some .instruction)

instance (d : Document) (s : NodeSet) (n : Nat) : Decidable (s.Meets d n) :=
  inferInstanceAs (Decidable (∃ row ∈ d.rows, ∃ run ∈ Location.runs row, _ ∧ ∃ loc ∈ run, _))

namespace Request

variable {d : Document} {s : NodeSet} {added : List Nat} {method : Method} {params : Params}

/-- Whether a run has a member in the set does not change when a member of a run is added that has
one already. -/
theorem any_run_of_meets (meets : ∀ n ∈ added, s.Meets d n) {row run : List Location}
    (among : row ∈ d.rows) (part : run ∈ Location.runs row) {kind : NodeKind}
    (markup : kind ≠ .element) (alike : ∀ loc ∈ run, loc.kind? = some kind) :
    run.any ((added.foldl NodeSet.insert s).contains ·.number) = run.any (s.contains ·.number) := by
  have member : ∀ {row run : List Location}, row ∈ d.rows → run ∈ Location.runs row →
      ∀ loc ∈ run, loc ∈ d.locations := fun among part _ inRun =>
    ((Location.runs_sublist part).trans (Location.sublist_of_mem_rows among)).subset inRun
  rw [Bool.eq_iff_iff, List.any_eq_true, List.any_eq_true]
  constructor
  · rintro ⟨loc, inRun, contained⟩
    rw [NodeSet.contains_foldl_insert, Bool.or_eq_true, decide_eq_true_eq] at contained
    rcases contained with contained | isAdded
    · exact ⟨loc, inRun, contained⟩
    -- The run that the set meets there is this one: both are counted around the same place.
    obtain ⟨row', among', run', part', met, other, inOther, number, -⟩ := meets _ isAdded
    obtain rfl := Location.eq_of_number (member among' part' other inOther)
      (member among part loc inRun) number
    have numbers : run'.map (·.number) = run.map (·.number) :=
      (Location.run_eq_map_number among' part' inOther (alike other inRun) markup).symm.trans
        (Location.run_eq_map_number among part inRun (alike other inRun) markup)
    obtain ⟨first, inFirst, contained⟩ := List.any_eq_true.mp met
    have sameNumber := List.mem_map_of_mem (f := (·.number)) inFirst
    rw [numbers] at sameNumber
    obtain ⟨second, inSecond, same⟩ := List.mem_map.mp sameNumber
    exact ⟨second, inSecond, same ▸ contained⟩
  · rintro ⟨loc, inRun, contained⟩
    refine ⟨loc, inRun, ?_⟩
    rw [NodeSet.contains_foldl_insert, contained]
    rfl

theorem agreeOn_added (meets : ∀ n ∈ added, s.Meets d n) :
    AgreeOn d.locations (.of method (.nodeSet d (added.foldl NodeSet.insert s)) params)
      (.of method (.nodeSet d s) params) := by
  obtain ⟨visible, attributes⟩ := NodeSet.foldl_insert_axes added s
  refine agreeOn_of_output rfl rfl visible attributes ?_
  intro loc member kind here
  obtain ⟨row, among, run, part, inRun⟩ := Location.exists_run member
  have alike : ∀ other ∈ run, other.kind? = some kind := by
    obtain ⟨before, after, -, surrounded⟩ := Location.exists_surrounded part
    exact fun other inOther => (surrounded.alike other inOther loc inRun).trans here
  have joined : JoinsRuns method.withComments kind →
      (Request.of method (.nodeSet d (added.foldl NodeSet.insert s)) params).isOutput loc kind =
        (Request.of method (.nodeSet d s) params).isOutput loc kind := by
    intro joins
    rw [Location.isOutput_of_run joins among part inRun here,
      Location.isOutput_of_run joins among part inRun here,
      any_run_of_meets meets among part joins.ne_element alike]
  have single : kind ≠ .comment → kind ≠ .instruction →
      (added.foldl NodeSet.insert s).contains loc.number = s.contains loc.number := by
    intro notComment notInstruction
    rw [NodeSet.contains_foldl_insert, Bool.or_eq_left_iff_imp, decide_eq_true_eq]
    intro isAdded
    obtain ⟨row', among', run', part', -, other, inOther, number, is⟩ := meets _ isAdded
    have inDocument := ((Location.runs_sublist part').trans
      (Location.sublist_of_mem_rows among')).subset inOther
    obtain rfl := Location.eq_of_number inDocument member number
    rw [here] at is
    rcases is with comment | instruction
    · exact absurd (Option.some.inj comment) notComment
    · exact absurd (Option.some.inj instruction) notInstruction
  cases kind with
  | element => exact single nofun nofun
  | text => exact single nofun nofun
  | instruction => exact joined (.inl rfl)
  | comment =>
    cases comments : method.withComments with
    | true => exact joined (.inr ⟨rfl, comments⟩)
    | false => simp [isOutput, Request.of, comments]

end Request

theorem Walk.ofInput_added {d : Document} {s : NodeSet} {added : List Nat} {method : Method}
    {params : Params} (meets : ∀ n ∈ added, s.Meets d n) :
    ofInput method (.nodeSet d (added.foldl NodeSet.insert s)) params =
      ofInput method (.nodeSet d s) params := by
  rw [ofInput_nodeSet, ofInput_nodeSet]
  exact siblings_congr (Request.agreeOn_added meets) false _

/-- What is written for a leaf is that leaf. -/
theorem Piece.Fits.eq_leaf {piece : Piece} {loc : Location} {kind : NodeKind} (fits : piece.Fits)
    (place : piece.place? = some loc) (here : loc.kind? = some kind) (markup : kind ≠ .element) :
    ∃ l rest, loc.here = .leaf l rest ∧ piece.text = loc.writeSeparated l := by
  obtain ⟨l, rest, content, -⟩ := Location.here_of_kind? here markup
  have plain : ¬ loc.element?.isSome = true := by
    unfold Location.element?
    rw [content]
    exact Bool.false_ne_true
  cases piece with
  | startTag other qname declarations attributes =>
    cases place
    exact absurd fits plain
  | bare other declarations =>
    cases place
    exact absurd fits plain
  | leaf other l =>
    cases place
    obtain ⟨rest, content⟩ := fits
    exact ⟨l, rest, content, rfl⟩
  | endTag qname => cases place

namespace Mode

/-- Of every run of comments or instructions, wherever it stands, a canonical form has all nodes in
document order if the set has one of them, and otherwise none.  Adding more of a run that the set
meets changes nothing. -/
theorem runs_admitted (d : Document) (s : NodeSet) (family : Family) (withComments : Bool)
    (params : Params) :
    let walk := Walk.ofInput (method family withComments) (.nodeSet d s) params
    (∀ row ∈ d.rows, ∀ run ∈ Location.runs row, ∀ kind, JoinsRuns withComments kind →
      (∀ loc ∈ run, loc.kind? = some kind) →
      let written := (walk.pieces.filterMap Piece.place?).filter (· ∈ run)
      let admitted := if run.any (s.contains ·.number) then run else []
      written <+: admitted ∧ (∀ w, walk.outcome = .ok w → written = admitted) ∧
        ∀ piece ∈ walk.pieces, ∀ loc ∈ run, piece.place? = some loc →
          ∃ l rest, loc.here = .leaf l rest ∧ piece.text = loc.writeSeparated l) ∧
    ∀ added : List Nat, (∀ n ∈ added, s.Meets d n) →
      (canonical family withComments).run (.nodeSet d (added.foldl NodeSet.insert s)) params =
        (canonical family withComments).run (.nodeSet d s) params := by
  intro walk
  have comments : (method family withComments).withComments = withComments := by
    cases family <;> rfl
  refine ⟨?_, ?_⟩
  · intro row among run part kind joins alike written admitted
    rw [← comments] at joins
    have expected : _ = admitted :=
      Location.filter_writes_run s params joins among part alike
    refine ⟨?_, ?_, ?_⟩
    · rw [← expected]
      exact Walk.places_prefix.filter _
    · intro w ends
      rw [← expected]
      exact congrArg (List.filter (· ∈ run)) (Walk.places_of_outcome ends)
    · intro piece inPieces loc member place
      exact (Walk.pieces_fit piece inPieces).eq_leaf place (alike loc member) joins.ne_element
  · intro added meets
    simp only [Mode.run, canonicalize]
    rw [Walk.ofInput_added meets]

/-- Of the runs before and inside of the document element the set has the second comment each time,
so that the comments next to it are written, too, and not the one on the other side of the
instruction. -/
theorem runs_admitted_mixed :
    let text := "<!--a--><!--b--><r><!--c--><?p?><!--d--><!--e--></r>"
    let s := NodeSet.ofList [2, 3, 7]
    ∃ d, Document.read text = .ok d ∧
      ((canonical .inclusive true).run (.nodeSet d s) {}).result =
        .ok "<!--a-->\n<!--b-->\n<r><!--d--><!--e--></r>" ∧
      (∃ row ∈ d.rows, ∃ run ∈ Location.runs row, run.map (·.number) = [6, 7] ∧
        ((Walk.ofInput (method .inclusive true) (.nodeSet d s) {}).pieces.filterMap
          Piece.place?).filter (· ∈ run) = run) ∧
      (canonical .inclusive true).run (.nodeSet d ([1, 6].foldl NodeSet.insert s)) {} =
        (canonical .inclusive true).run (.nodeSet d s) {} := by
  intro text s
  let d := (Document.read text).toOption.getD ⟨"", .nil⟩
  have parsed : Document.read text = .ok d := by decide +kernel
  have result : ((canonical .inclusive true).run (.nodeSet d s) {}).result =
      .ok "<!--a-->\n<!--b-->\n<r><!--d--><!--e--></r>" := by decide +kernel
  have found : ∃ row ∈ d.rows, ∃ run ∈ Location.runs row, run.map (·.number) = [6, 7] ∧
      (∀ loc ∈ run, loc.kind? = some .comment) ∧ run.any (s.contains ·.number) = true := by
    decide +kernel
  have meets : ∀ n ∈ [1, 6], s.Meets d n := by decide +kernel
  have succeeds : (Walk.ofInput (method .inclusive true) (.nodeSet d s) {}).outcome.isOk =
      true := by decide +kernel
  clear_value d
  obtain ⟨wholes, further⟩ := runs_admitted d s .inclusive true {}
  obtain ⟨row, among, run, part, numbers, alike, met⟩ := found
  refine ⟨d, parsed, result, ⟨row, among, run, part, numbers, ?_⟩, further _ meets⟩
  cases ends : (Walk.ofInput (method .inclusive true) (.nodeSet d s) {}).outcome with
  | error fault =>
    rw [ends] at succeeds
    cases succeeds
  | ok w =>
    have written := (wholes row among run part .comment (by decide) alike).2.1 w ends
    rwa [met] at written

end Mode

end CanonicalXml
