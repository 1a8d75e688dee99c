import CanonicalXml.Mode
import CanonicalXml.Proofs.Comparison.Transcripts
import CanonicalXml.Proofs.Traversal

/-! # Two walks side by side

Two walks through trees of one shape write the same if they do so at every pair of places.

* `Location.Parallel visits` — from two places on the trees have one shape, and `visits` holds of
  every pair of places that a walk through both comes to.
* `Walk.Simulation` — what has to hold at such a pair: leaves are output alike and written
  alike, and start tags match.  `Rel` relates the two namespace axes.
* `Walk.Simulation.siblingsAt`, `Walk.Simulation.nodeAt` — the whole walks match, by one
  induction over both trees.
* `Mode.run_ends`, `Mode.run_alike` — and then the canonical forms do.
-/

namespace CanonicalXml

/-- Two trees of one shape, from these places on. -/
inductive Location.Parallel (visits : Location → Location → Prop) : Location → Location → Prop where
  | nil {loc₁ loc₂ : Location} (here₁ : loc₁.here = .nil) (here₂ : loc₂.here = .nil) :
      Parallel visits loc₁ loc₂
  | leaf {loc₁ loc₂ : Location} {l₁ l₂ : Leaf} {rest₁ rest₂ : Content}
      (here₁ : loc₁.here = .leaf l₁ rest₁) (here₂ : loc₂.here = .leaf l₂ rest₂)
      (visited : visits loc₁ loc₂) (later : Parallel visits loc₁.next loc₂.next) :
      Parallel visits loc₁ loc₂
  | element {loc₁ loc₂ : Location} {e₁ e₂ : Element} {inner₁ inner₂ rest₁ rest₂ : Content}
      (here₁ : loc₁.here = .element e₁ inner₁ rest₁)
      (here₂ : loc₂.here = .element e₂ inner₂ rest₂) (visited : visits loc₁ loc₂)
      (inside : Parallel visits (loc₁.inside e₁ inner₁) (loc₂.inside e₂ inner₂))
      (later : Parallel visits loc₁.next loc₂.next) : Parallel visits loc₁ loc₂

namespace Walk

/-! ## One walk, place by place -/

section Places

variable {r : Request} {parentOutput : Bool} {loc : Location} {w : Walk}

theorem siblingsAt_nil (here : loc.here = .nil) : siblingsAt r parentOutput loc w = pure w := by
  unfold siblingsAt
  rw [here]
  rfl

theorem siblingsAt_leaf {l : Leaf} {rest : Content} (here : loc.here = .leaf l rest) :
    siblingsAt r parentOutput loc w =
      (do let w ← w.leaf r loc l; siblingsAt r parentOutput loc.next w) := by
  obtain ⟨number, ancestors, before, content⟩ := loc
  cases here
  rfl

theorem siblings_element (number : Nat) (ancestors : List Ancestor) (before : List NodeKind)
    (e : Element) (inner rest : Content) (w : Walk) :
    siblings r parentOutput number ancestors before (.element e inner rest) w =
      nodeAt r parentOutput ⟨number, ancestors, before, .element e inner rest⟩ w >>=
        siblings r parentOutput (number + inner.size + 1) ancestors (.element :: before) rest := by
  dsimp only [siblings, nodeAt]
  rw [bind_assoc]
  refine bind_congr fun ⟨w, closing⟩ => ?_
  exact (bind_assoc _ _ _).symm

theorem siblingsAt_element {e : Element} {inner rest : Content}
    (here : loc.here = .element e inner rest) :
    siblingsAt r parentOutput loc w =
      nodeAt r parentOutput loc w >>= siblingsAt r parentOutput loc.next := by
  obtain ⟨number, ancestors, before, content⟩ := loc
  cases here
  exact siblings_element number ancestors before e inner rest w

theorem nodeAt_element {e : Element} {inner rest : Content}
    (here : loc.here = .element e inner rest) :
    nodeAt r parentOutput loc w = (do
      let (w, closing) ← w.startTag r loc e parentOutput
      let w ← siblingsAt r closing.isSome (loc.inside e inner) w
      w.leave closing) := by
  obtain ⟨number, ancestors, before, content⟩ := loc
  cases here
  rfl

open Transcript in
/-- What a start tag does to the axis, leaving the element takes back. -/
theorem leave_startTag {e : Element} {entered : Walk × Option String}
    (ends : (w.startTag r loc e parentOutput).outcome = .ok entered) :
    entered.1.axis.leave = w.axis ∧ entered.1.comments = w.comments := by
  have along : Along (fun _ _ => ()) (fun _ _ => True)
      (fun _ (entered : Walk × Option String) =>
        entered.1.axis.leave = w.axis ∧ entered.1.comments = w.comments) ()
      (w.startTag r loc e parentOutput) := by
    simp only [startTag]
    simp only [along_bind, along_ofExcept]
    intro _ _ _ _
    split
    · simp only [along_bind, along_ofExcept, along_write, along_pure]
      intro _ _ attributes _
      refine ⟨trivial, ?_, trivial⟩
      exact (leave_declarations (NamespaceAxis.frames_enter_ne_nil _ _) _ _).trans
        (NamespaceAxis.leave_enter _ _)
    · simp only [along_bind, along_write, along_pure]
      exact ⟨trivial, NamespaceAxis.leave_enter _ _, trivial⟩
  exact along.of_outcome ends

end Places

/-! ## Two walks at one pair of places -/

open Transcript

variable {r₁ r₂ : Request} {F : Fault → Fault → Prop} {loc₁ loc₂ : Location} {w₁ w₂ : Walk}

/-- The walks have their axes left as they were, and as many comments counted. -/
def Unmoved (w₁ w₂ v₁ v₂ : Walk) : Prop :=
  v₁.axis = w₁.axis ∧ v₂.axis = w₂.axis ∧ v₁.comments = v₂.comments

/-- Leaves of one kind that are output alike and written alike. -/
theorem leaf_matches (reflexive : ∀ f, F f f) (limits : r₁.limits = r₂.limits)
    (comments : w₁.comments = w₂.comments) {l₁ l₂ : Leaf} (kind : l₁.kind = l₂.kind)
    (output : r₁.isOutput loc₁ l₁.kind = r₂.isOutput loc₂ l₂.kind)
    (top : loc₁.isTop = loc₂.isTop) (text : loc₁.writeSeparated l₁ = loc₂.writeSeparated l₂) :
    Matches F (Unmoved w₁ w₂) (w₁.leaf r₁ loc₁ l₁) (w₂.leaf r₂ loc₂ l₂) := by
  have wrote : Matches F (fun _ _ => True) (write (.leaf loc₁ l₁)) (write (.leaf loc₂ l₂)) :=
    .write text
  have unmoved : Matches F (Unmoved w₁ w₂) (pure w₁) (pure w₂) := .pure ⟨rfl, rfl, comments⟩
  simp only [Walk.leaf]
  rw [output]
  cases r₂.isOutput loc₂ l₂.kind with
  | false => exact unmoved
  | true =>
    cases l₁ with
    | text value₁ =>
      cases l₂ with
      | text value₂ =>
        rw [top]
        cases loc₂.isTop with
        | true => exact unmoved
        | false => exact wrote.bind fun _ _ _ => unmoved
      | comment _ | instruction _ _ => cases kind
    | comment value₁ =>
      cases l₂ with
      | comment value₂ =>
        rw [limits, comments]
        refine (Matches.ofExcept (.refl reflexive _)).bind fun _ _ _ => ?_
        exact wrote.bind fun _ _ _ => .pure ⟨rfl, rfl, rfl⟩
      | text _ | instruction _ _ => cases kind
    | instruction target₁ data₁ =>
      cases l₂ with
      | instruction target₂ data₂ => exact wrote.bind fun _ _ _ => unmoved
      | text _ | comment _ => cases kind

/-- Start tags with the same names, declarations and attributes. -/
theorem startTag_matches {e₁ e₂ : Element} {parentOutput : Bool}
    (After : NamespaceAxis → NamespaceAxis → Prop) (comments : w₁.comments = w₂.comments)
    (name : (loc₁.spelling e₁).name = (loc₂.spelling e₂).name)
    (output : r₁.isOutput loc₁ .element = r₂.isOutput loc₂ .element)
    (counted : ∀ qname, Ends F Eq
      (checkAttributes r₁.limits qname
        (e₁.attributes.length + (loc₁.spelling e₁).declarations.length))
      (checkAttributes r₂.limits qname
        (e₂.attributes.length + (loc₂.spelling e₂).declarations.length)))
    (deep : Ends F Eq
      (checkDepth r₁.limits (w₁.axis.enter (loc₁.spelling e₁).declarations).depth)
      (checkDepth r₂.limits (w₂.axis.enter (loc₂.spelling e₂).declarations).depth))
    (omitted : r₂.isOutput loc₂ .element = false →
      let axis₁ := w₁.axis.enter (loc₁.spelling e₁).declarations
      let axis₂ := w₂.axis.enter (loc₂.spelling e₂).declarations
      r₁.bareDeclarations axis₁ loc₁.number = r₂.bareDeclarations axis₂ loc₂.number ∧
        After axis₁ axis₂)
    (written : r₂.isOutput loc₂ .element = true →
      let names₁ := loc₁.spelling e₁
      let names₂ := loc₂.spelling e₂
      let axis₁ := w₁.axis.enter names₁.declarations
      let axis₂ := w₂.axis.enter names₂.declarations
      Ends F Eq (axis₁.checkPrefix names₁.name.nsPrefix names₁.name.text)
        (axis₂.checkPrefix names₂.name.nsPrefix names₂.name.text) ∧
      Ends F Eq (r₁.writtenAttributes axis₁ loc₁ e₁ names₁ parentOutput)
        (r₂.writtenAttributes axis₂ loc₂ e₂ names₂ parentOutput) ∧
      (r₁.declarations axis₁ loc₁.number names₁).1 =
        (r₂.declarations axis₂ loc₂.number names₂).1 ∧
      After (r₁.declarations axis₁ loc₁.number names₁).2
        (r₂.declarations axis₂ loc₂.number names₂).2) :
    Matches F
      (fun v₁ v₂ => After v₁.1.axis v₂.1.axis ∧ v₁.1.comments = v₂.1.comments ∧ v₁.2 = v₂.2)
      (w₁.startTag r₁ loc₁ e₁ parentOutput) (w₂.startTag r₂ loc₂ e₂ parentOutput) := by
  simp only [startTag]
  dsimp only at written
  rw [name] at written ⊢
  refine (Matches.ofExcept (counted _)).bind fun _ _ _ => ?_
  refine (Matches.ofExcept deep).bind fun _ _ _ => ?_
  rw [output]
  split
  · rename_i shown
    obtain ⟨bound, attributes, declarations, after⟩ := written shown
    refine (Matches.ofExcept bound).bind fun _ _ _ => ?_
    refine (Matches.ofExcept attributes).bind fun _ _ same => ?_
    refine Matches.bind (Matches.write ?_) fun _ _ _ => .pure ⟨after, comments, rfl⟩
    simp only [Piece.text]
    rw [declarations, same]
  · rename_i hidden
    obtain ⟨declarations, after⟩ := omitted (Bool.not_eq_true _ ▸ hidden)
    refine Matches.bind (Matches.write ?_) fun _ _ _ => .pure ⟨after, comments, rfl⟩
    simp only [Piece.text]
    rw [declarations]

/-! ## Whole walks -/

/-- What two walks have to keep up, at the pairs of places that they visit, to write the same.
`Rel` relates the elements that are open and the axes inside of them. -/
structure Simulation (r₁ r₂ : Request) (F : Fault → Fault → Prop)
    (visits : Location → Location → Prop)
    (Rel : List Ancestor → NamespaceAxis → List Ancestor → NamespaceAxis → Prop) : Prop where
  reflexive : ∀ f, F f f
  limits : r₁.limits = r₂.limits
  leaf : ∀ {loc₁ loc₂ l₁ l₂ rest₁ rest₂}, visits loc₁ loc₂ → loc₁.here = .leaf l₁ rest₁ →
    loc₂.here = .leaf l₂ rest₂ →
    l₁ = l₂ ∧ r₁.isOutput loc₁ l₁.kind = r₂.isOutput loc₂ l₁.kind ∧ loc₁.isTop = loc₂.isTop ∧
      loc₁.writeSeparated l₁ = loc₂.writeSeparated l₁
  element : ∀ {loc₁ loc₂ e₁ e₂ inner₁ inner₂ rest₁ rest₂ parentOutput} {w₁ w₂ : Walk},
    visits loc₁ loc₂ → loc₁.here = .element e₁ inner₁ rest₁ →
    loc₂.here = .element e₂ inner₂ rest₂ →
    Rel loc₁.ancestors w₁.axis loc₂.ancestors w₂.axis → w₁.comments = w₂.comments →
    Matches F
      (fun v₁ v₂ => Rel (⟨loc₁.number, e₁⟩ :: loc₁.ancestors) v₁.1.axis
          (⟨loc₂.number, e₂⟩ :: loc₂.ancestors) v₂.1.axis ∧
        v₁.1.comments = v₂.1.comments ∧ v₁.2 = v₂.2)
      (w₁.startTag r₁ loc₁ e₁ parentOutput) (w₂.startTag r₂ loc₂ e₂ parentOutput)

namespace Simulation

variable {visits : Location → Location → Prop}
  {Rel : List Ancestor → NamespaceAxis → List Ancestor → NamespaceAxis → Prop}

/-- An element, whose children are known to match from wherever they are entered. -/
theorem element_matches (sim : Simulation r₁ r₂ F visits Rel) {e₁ e₂ : Element}
    {inner₁ inner₂ rest₁ rest₂ : Content} {parentOutput : Bool} (visited : visits loc₁ loc₂)
    (here₁ : loc₁.here = .element e₁ inner₁ rest₁)
    (here₂ : loc₂.here = .element e₂ inner₂ rest₂)
    (holds : Rel loc₁.ancestors w₁.axis loc₂.ancestors w₂.axis)
    (comments : w₁.comments = w₂.comments)
    (children₁ children₂ : Bool → Walk → Transcript Piece Walk)
    (preserved : ∀ closing v₁ v₂,
      Rel (⟨loc₁.number, e₁⟩ :: loc₁.ancestors) v₁.axis
        (⟨loc₂.number, e₂⟩ :: loc₂.ancestors) v₂.axis → v₁.comments = v₂.comments →
      Matches F (Unmoved v₁ v₂) (children₁ closing v₁) (children₂ closing v₂)) :
    Matches F (Unmoved w₁ w₂)
      (do let (w, closing) ← w₁.startTag r₁ loc₁ e₁ parentOutput
          let w ← children₁ closing.isSome w
          w.leave closing)
      (do let (w, closing) ← w₂.startTag r₂ loc₂ e₂ parentOutput
          let w ← children₂ closing.isSome w
          w.leave closing) := by
  -- What the start tags leave behind is what leaving the elements takes back.
  have tags : Matches F _ (w₁.startTag r₁ loc₁ e₁ parentOutput)
      (w₂.startTag r₂ loc₂ e₂ parentOutput) :=
    (sim.element visited here₁ here₂ holds comments).mono fun _ _ ends₁ ends₂ related =>
      And.intro related (And.intro (leave_startTag ends₁).1 (leave_startTag ends₂).1)
  refine tags.bind ?_
  rintro ⟨v₁, closing⟩ ⟨v₂, _⟩ ⟨⟨entered, counted, rfl⟩, back₁, back₂⟩
  refine (preserved _ v₁ v₂ entered counted).bind ?_
  rintro u₁ u₂ ⟨same₁, same₂, counted⟩
  have unmoved : Unmoved w₁ w₂ { u₁ with axis := u₁.axis.leave }
      { u₂ with axis := u₂.axis.leave } := by
    refine ⟨?_, ?_, counted⟩
    · dsimp only
      rw [same₁]
      exact back₁
    · dsimp only
      rw [same₂]
      exact back₂
  simp only [Walk.leave]
  cases closing with
  | none => exact .pure unmoved
  | some qname => exact (Matches.write rfl).bind fun _ _ _ => .pure unmoved

/-- Walks through siblings, by induction over the two trees. -/
theorem siblingsAt (sim : Simulation r₁ r₂ F visits Rel)
    (parallel : Location.Parallel visits loc₁ loc₂) : ∀ {parentOutput : Bool} {w₁ w₂ : Walk},
    Rel loc₁.ancestors w₁.axis loc₂.ancestors w₂.axis → w₁.comments = w₂.comments →
    Matches F (Unmoved w₁ w₂) (siblingsAt r₁ parentOutput loc₁ w₁)
      (siblingsAt r₂ parentOutput loc₂ w₂) := by
  have go_on : ∀ {w₁ w₂ : Walk} {t₁ t₂ : Transcript Piece Walk}
      {f₁ f₂ : Walk → Transcript Piece Walk}, Matches F (Unmoved w₁ w₂) t₁ t₂ →
      (∀ v₁ v₂, Unmoved w₁ w₂ v₁ v₂ → Matches F (Unmoved v₁ v₂) (f₁ v₁) (f₂ v₂)) →
      Matches F (Unmoved w₁ w₂) (t₁ >>= f₁) (t₂ >>= f₂) := by
    intro w₁ w₂ t₁ t₂ f₁ f₂ first second
    refine first.bind ?_
    rintro v₁ v₂ ⟨same₁, same₂, counted⟩
    refine (second v₁ v₂ ⟨same₁, same₂, counted⟩).mono ?_
    rintro u₁ u₂ - - ⟨same₁', same₂', counted⟩
    exact ⟨same₁'.trans same₁, same₂'.trans same₂, counted⟩
  induction parallel with
  | nil here₁ here₂ =>
    intro parentOutput w₁ w₂ _ comments
    rw [siblingsAt_nil here₁, siblingsAt_nil here₂]
    exact .pure ⟨rfl, rfl, comments⟩
  | leaf here₁ here₂ visited later ihLater =>
    intro parentOutput w₁ w₂ holds comments
    rw [siblingsAt_leaf here₁, siblingsAt_leaf here₂]
    obtain ⟨rfl, output, top, text⟩ := sim.leaf visited here₁ here₂
    refine go_on (leaf_matches sim.reflexive sim.limits comments rfl output top text) ?_
    rintro v₁ v₂ ⟨same₁, same₂, counted⟩
    refine ihLater ?_ counted
    rw [Location.ancestors_next, Location.ancestors_next, same₁, same₂]
    exact holds
  | element here₁ here₂ visited inside later ihInside ihLater =>
    intro parentOutput w₁ w₂ holds comments
    rw [siblingsAt_element here₁, siblingsAt_element here₂, nodeAt_element here₁,
      nodeAt_element here₂]
    refine go_on (sim.element_matches visited here₁ here₂ holds comments
      (fun closing => Walk.siblingsAt r₁ closing (Location.inside _ _ _))
      (fun closing => Walk.siblingsAt r₂ closing (Location.inside _ _ _))
      fun closing v₁ v₂ entered counted => ihInside entered counted) ?_
    rintro v₁ v₂ ⟨same₁, same₂, counted⟩
    refine ihLater ?_ counted
    rw [Location.ancestors_next, Location.ancestors_next, same₁, same₂]
    exact holds

/-- Walks through two elements. -/
theorem nodeAt (sim : Simulation r₁ r₂ F visits Rel) {e₁ e₂ : Element}
    {inner₁ inner₂ rest₁ rest₂ : Content} (parentOutput : Bool) (visited : visits loc₁ loc₂)
    (here₁ : loc₁.here = .element e₁ inner₁ rest₁)
    (here₂ : loc₂.here = .element e₂ inner₂ rest₂)
    (inside : Location.Parallel visits (loc₁.inside e₁ inner₁) (loc₂.inside e₂ inner₂))
    (holds : Rel loc₁.ancestors w₁.axis loc₂.ancestors w₂.axis)
    (comments : w₁.comments = w₂.comments) :
    Matches F (Unmoved w₁ w₂) (nodeAt r₁ parentOutput loc₁ w₁)
      (nodeAt r₂ parentOutput loc₂ w₂) := by
  rw [nodeAt_element here₁, nodeAt_element here₂]
  exact sim.element_matches visited here₁ here₂ holds comments
    (fun closing => Walk.siblingsAt r₁ closing (loc₁.inside e₁ inner₁))
    (fun closing => Walk.siblingsAt r₂ closing (loc₂.inside e₂ inner₂))
    fun closing v₁ v₂ entered counted => sim.siblingsAt inside entered counted

/-- Walks through two nodes of whatever kind. -/
theorem nodeAt_of_parallel (sim : Simulation r₁ r₂ F visits Rel) (parentOutput : Bool)
    (parallel : Location.Parallel visits loc₁ loc₂)
    (holds : Rel loc₁.ancestors w₁.axis loc₂.ancestors w₂.axis)
    (comments : w₁.comments = w₂.comments) :
    Matches F (Unmoved w₁ w₂) (Walk.nodeAt r₁ parentOutput loc₁ w₁)
      (Walk.nodeAt r₂ parentOutput loc₂ w₂) := by
  cases parallel with
  | nil here₁ here₂ =>
    simp only [Walk.nodeAt, here₁, here₂]
    exact .pure ⟨rfl, rfl, comments⟩
  | leaf here₁ here₂ visited later =>
    simp only [Walk.nodeAt, here₁, here₂]
    obtain ⟨rfl, output, top, text⟩ := sim.leaf visited here₁ here₂
    exact leaf_matches sim.reflexive sim.limits comments rfl output top text
  | element here₁ here₂ visited inside later =>
    exact sim.nodeAt parentOutput visited here₁ here₂ inside holds comments

end Simulation

end Walk

namespace Mode

open Transcript (Matches Ends Alike)

/-- Walks that match make canonical forms with one text, which end in related ways. -/
theorem run_ends {family family' : Family} {c c' : Bool} {input input' : Input}
    {params params' : Params} {F : Fault → Fault → Prop} {R : Walk → Walk → Prop}
    (walks : Matches F R (Walk.ofInput (method family c) input params)
      (Walk.ofInput (method family' c') input' params')) :
    ((canonical family c).run input params).text =
        ((canonical family' c').run input' params').text ∧
      Ends F Eq ((canonical family c).run input params).outcome
        ((canonical family' c').run input' params').outcome := by
  have text : ∀ t : Transcript String Walk,
      (t >>= fun _ => (pure () : Transcript String Unit)).text = t.text := by
    intro t
    unfold Transcript.text
    rw [Transcript.pieces_bind]
    cases t.outcome <;> exact congrArg String.join (List.append_nil _)
  obtain ⟨same, ends⟩ := walks
  simp only [run, canonicalize]
  refine ⟨?_, ?_⟩
  · rw [text, text]
    exact same
  · rw [Transcript.outcome_bind, Transcript.outcome_bind, Transcript.outcome_render,
      Transcript.outcome_render]
    revert ends
    generalize (Walk.ofInput (method family c) input params).outcome = x
    generalize (Walk.ofInput (method family' c') input' params').outcome = y
    intro ends
    cases ends with
    | ok related => exact .ok rfl
    | error related => exact .error related

/-- Walks that match make canonical forms that are alike. -/
theorem run_alike {family family' : Family} {c c' : Bool} {input input' : Input}
    {params params' : Params} {R : Walk → Walk → Prop}
    (walks : Matches Eq R (Walk.ofInput (method family c) input params)
      (Walk.ofInput (method family' c') input' params')) :
    Alike ((canonical family c).run input params) ((canonical family' c').run input' params') := by
  obtain ⟨text, ends⟩ := run_ends walks
  exact ⟨text, ends.eq⟩

theorem run_alike_of_eq {family : Family} {c c' : Bool} {input input' : Input}
    {params params' : Params}
    (walks : Walk.ofInput (method family c) input params =
      Walk.ofInput (method family c') input' params') :
    Alike ((canonical family c).run input params) ((canonical family c').run input' params') :=
  run_alike (R := Eq) (by
    rw [walks]
    exact .refl (fun _ => rfl) _)

end Mode

end CanonicalXml
