import CanonicalXml.Proofs.Comparison.Walks
import CanonicalXml.Proofs.DisjointTrees.Sets

/-! # Walking to several trees

A walk from the document node that finds something to be output only in some disjoint trees does
there, one after the other, what walks through the single trees do.  Nothing is left over from
one tree when the next one is reached: the axis has been brought back, and the number of comments
does not matter where they are not limited.

* `Walk.siblings_uncounted` — the comments written so far do not show.
* `Walk.visits` — the walks through the trees.  `Walk.Gathers` — the places that a walk to them
  comes to, and what is left of them step by step; `Walk.siblings_visits` — the walk itself.
* `Walk.ofInput_visits`, `Walk.ofInput_tree` — what a walk through a document does, of which only
  the trees are output, or only one tree; `Walk.yield_visits` — what it yields.
* `Mode.disjoint_trees` — so their canonical forms stand one after the other.
-/

namespace CanonicalXml

/-- What is written, if the operation succeeds. -/
def Transcript.yield {α : Type} (t : Transcript Piece α) : Except Fault String :=
  t.outcome.map fun _ => t.written

open Transcript in
/-- What two operations in a row yield. -/
theorem Transcript.yield_bind {α β : Type} (t : Transcript Piece α) (u : Transcript Piece β) :
    (t >>= fun _ => u).yield = t.yield >>= fun first => (first ++ ·) <$> u.yield := by
  unfold yield
  rw [written_bind, outcome_bind]
  cases t.outcome with
  | error fault => rfl
  | ok a =>
    show (u.outcome.map fun _ => t.written ++ u.written) =
      (t.written ++ ·) <$> u.outcome.map fun _ => u.written
    cases u.outcome with
    | error fault => rfl
    | ok b => rfl

theorem Transcript.Matches.yield {α β : Type} {R : α → β → Prop} {t : Transcript Piece α}
    {u : Transcript Piece β} (same : Matches Eq R t u) : t.yield = u.yield := by
  obtain ⟨written, ends⟩ := same
  unfold Transcript.yield
  rw [written]
  revert ends
  generalize t.outcome = x
  generalize u.outcome = y
  intro ends
  cases ends with
  | ok related => rfl
  | error related => exact congrArg Except.error related

namespace Walk

open Transcript (Matches Silent)

variable {r : Request}

/-! ## Comments that are not counted -/

/-- The walks have come to one axis, whatever they have counted. -/
def Abreast (axis : NamespaceAxis) (v₁ v₂ : Walk) : Prop :=
  ∃ c₁ c₂, v₁ = ⟨axis, c₁⟩ ∧ v₂ = ⟨axis, c₂⟩

theorem Abreast.refl (axis : NamespaceAxis) (c₁ c₂ : Nat) : Abreast axis ⟨axis, c₁⟩ ⟨axis, c₂⟩ :=
  ⟨c₁, c₂, rfl, rfl⟩

/-- What a start tag leaves behind, leaving the element takes back. -/
theorem startTag_uncounted (loc : Location) (e : Element) (parentOutput : Bool)
    (axis : NamespaceAxis) (c₁ c₂ : Nat) :
    Matches Eq
      (fun v₁ v₂ => ∃ entered, entered.leave = axis ∧ Abreast entered v₁.1 v₂.1 ∧ v₁.2 = v₂.2)
      (startTag r ⟨axis, c₁⟩ loc e parentOutput) (startTag r ⟨axis, c₂⟩ loc e parentOutput) := by
  have alike : ∀ {α : Type} (t : Transcript Piece α), Matches Eq Eq t t :=
    fun t => .refl (fun _ => rfl) t
  have tags : Matches Eq (fun v₁ v₂ => ∃ entered, Abreast entered v₁.1 v₂.1 ∧ v₁.2 = v₂.2)
      (startTag r ⟨axis, c₁⟩ loc e parentOutput) (startTag r ⟨axis, c₂⟩ loc e parentOutput) := by
    simp only [startTag]
    refine (alike _).bind fun _ _ _ => (alike _).bind fun _ _ _ => ?_
    split
    · refine (alike _).bind fun _ _ _ => (alike _).bind ?_
      rintro attributes _ rfl
      exact (alike _).bind fun _ _ _ => .pure ⟨_, .refl _ _ _, rfl⟩
    · exact (alike _).bind fun _ _ _ => .pure ⟨_, .refl _ _ _, rfl⟩
  refine tags.mono ?_
  rintro ⟨_, closing⟩ ⟨_, _⟩ ends - ⟨entered, ⟨c₁, c₂, rfl, rfl⟩, same⟩
  exact ⟨entered, (leave_startTag ends).1, .refl _ _ _, same⟩

section Uncounted

variable (limits : r.limits = none)
include limits

theorem leaf_uncounted (loc : Location) (l : Leaf) (axis : NamespaceAxis) (c₁ c₂ : Nat) :
    Matches Eq (Abreast axis) (leaf r ⟨axis, c₁⟩ loc l) (leaf r ⟨axis, c₂⟩ loc l) := by
  have unmoved : Matches Eq (Abreast axis) (pure ⟨axis, c₁⟩) (pure ⟨axis, c₂⟩) :=
    .pure (.refl _ _ _)
  have wrote : Matches Eq (fun _ _ => True) (Transcript.write (.leaf loc l))
      (Transcript.write (.leaf loc l)) := .write rfl
  simp only [leaf]
  rw [limits]
  cases r.isOutput loc l.kind with
  | false => exact unmoved
  | true =>
    cases l with
    | text value =>
      cases loc.isTop with
      | true => exact unmoved
      | false => exact wrote.bind fun _ _ _ => unmoved
    | comment value => exact wrote.bind fun _ _ _ => .pure (.refl _ _ _)
    | instruction target data => exact wrote.bind fun _ _ _ => unmoved

omit limits in
/-- An element, of whose children this is known. -/
theorem nodeAt_abreast {loc : Location} {e : Element} {inner rest : Content}
    (here : loc.here = .element e inner rest)
    (children : ∀ closing axis c₁ c₂, Matches Eq (Abreast axis)
      (siblingsAt r closing (loc.inside e inner) ⟨axis, c₁⟩)
      (siblingsAt r closing (loc.inside e inner) ⟨axis, c₂⟩))
    (parentOutput : Bool) (axis : NamespaceAxis) (c₁ c₂ : Nat) :
    Matches Eq (Abreast axis) (nodeAt r parentOutput loc ⟨axis, c₁⟩)
      (nodeAt r parentOutput loc ⟨axis, c₂⟩) := by
  rw [nodeAt_element here, nodeAt_element here]
  refine (startTag_uncounted loc e parentOutput axis c₁ c₂).bind ?_
  rintro ⟨_, closing⟩ ⟨_, _⟩ ⟨entered, back, ⟨c₁, c₂, rfl, rfl⟩, rfl⟩
  refine (children closing.isSome entered c₁ c₂).bind ?_
  rintro _ _ ⟨c₁, c₂, rfl, rfl⟩
  have left : Abreast axis ⟨entered.leave, c₁⟩ ⟨entered.leave, c₂⟩ := back ▸ .refl _ _ _
  simp only [leave]
  cases closing with
  | none => exact .pure left
  | some qname => exact (Matches.write rfl).bind fun _ _ _ => .pure left

/-- Without limits the comments that were written before do not show. -/
theorem siblings_uncounted {content : Content} : ∀ (parentOutput : Bool) (number : Nat)
    (ancestors : List Ancestor) (before : List NodeKind) (axis : NamespaceAxis) (c₁ c₂ : Nat),
    Matches Eq (Abreast axis) (siblings r parentOutput number ancestors before content ⟨axis, c₁⟩)
      (siblings r parentOutput number ancestors before content ⟨axis, c₂⟩) := by
  induction content with
  | nil =>
    intro parentOutput number ancestors before axis c₁ c₂
    exact .pure (.refl _ _ _)
  | leaf l rest ihRest =>
    intro parentOutput number ancestors before axis c₁ c₂
    simp only [siblings]
    refine (leaf_uncounted limits _ l axis c₁ c₂).bind ?_
    rintro _ _ ⟨c₁, c₂, rfl, rfl⟩
    exact ihRest _ _ _ _ _ _ _
  | element e inner rest ihInner ihRest =>
    intro parentOutput number ancestors before axis c₁ c₂
    rw [siblings_element, siblings_element]
    refine (nodeAt_abreast rfl (fun closing => ihInner closing _ _ _) _ axis c₁ c₂).bind ?_
    rintro _ _ ⟨c₁, c₂, rfl, rfl⟩
    exact ihRest _ _ _ _ _ _ _

end Uncounted

/-! ## Tree by tree -/

/-- The walks through the trees, one after the other, each as if it were the only one. -/
def visits (r : Request) : List Location → Transcript Piece Unit
  | [] => pure ()
  | apex :: apexes => do
    let _ ← nodeAt r false apex ⟨seed apex.ancestors, 0⟩
    visits r apexes

theorem visits_append (r : Request) (before after : List Location) :
    visits r (before ++ after) = visits r before >>= fun _ => visits r after := by
  induction before with
  | nil => rfl
  | cons apex before ih =>
    simp only [List.cons_append, visits]
    rw [ih, bind_assoc]

/-- Trees that are given in document order are those that begin before a number, followed by the
others. -/
theorem exists_split {apexes : List Location} (apart : apexes.Pairwise Location.Apart) (n : Nat) :
    ∃ before after, apexes = before ++ after ∧ (∀ apex ∈ before, apex.number < n) ∧
      ∀ apex ∈ after, n ≤ apex.number := by
  induction apexes with
  | nil => exact ⟨[], [], rfl, nofun, nofun⟩
  | cons apex apexes ih =>
    obtain ⟨first, rest⟩ := List.pairwise_cons.mp apart
    rcases Nat.lt_or_ge apex.number n with less | more
    · obtain ⟨before, after, rfl, low, high⟩ := ih rest
      exact ⟨apex :: before, after, rfl, List.forall_mem_cons.mpr ⟨less, low⟩, high⟩
    · refine ⟨[], apex :: apexes, rfl, nofun, List.forall_mem_cons.mpr ⟨more, ?_⟩⟩
      exact fun later inList => Nat.le_trans more (Nat.le_of_lt (first later inList).1)

/-- Elements among some places, with nothing to be output there outside of their trees. -/
structure Gathers (r : Request) (places apexes : List Location) : Prop where
  among : ∀ apex ∈ apexes, apex ∈ places
  elements : ∀ apex ∈ apexes, apex.element?.isSome = true
  apart : apexes.Pairwise Location.Apart
  skips : ∀ loc ∈ places, (∀ apex ∈ apexes, loc ∉ apex.subtree) → Skips r [loc]

/-- Fewer places, with those of the trees that begin there, if the other ones do not reach
there. -/
theorem Gathers.part {places apexes some : List Location} (fewer others : List Location)
    (gathers : Gathers r places apexes) (within : fewer ⊆ places) (part : some.Sublist apexes)
    (covers : ∀ apex ∈ apexes, apex ∈ some ∨ apex ∈ others)
    (among : ∀ apex ∈ some, apex ∈ fewer)
    (beside : ∀ apex ∈ others, ∀ loc ∈ fewer, loc ∉ apex.subtree) : Gathers r fewer some where
  among := among
  elements := fun apex inList => gathers.elements apex (part.subset inList)
  apart := gathers.apart.sublist part
  skips := by
    intro loc member outside
    refine gathers.skips loc (within member) fun apex inList => ?_
    rcases covers apex inList with inSome | inOthers
    · exact outside apex inSome
    · exact beside apex inOthers loc member

section Around

variable {number : Nat} {ancestors : List Ancestor} {before : List NodeKind} {l : Leaf}
  {e : Element} {inner rest : Content} {apexes first later : List Location}

/-- A leaf is not output where the trees are those of later elements. -/
theorem Gathers.leaf
    (gathers : Gathers r (Location.allFrom number ancestors before (.leaf l rest)) apexes) :
    r.isOutput ⟨number, ancestors, before, .leaf l rest⟩ l.kind = false ∧
      Gathers r (Location.allFrom (number + 1) ancestors (l.kind :: before) rest) apexes := by
  have later : ∀ apex ∈ apexes,
      apex ∈ Location.allFrom (number + 1) ancestors (l.kind :: before) rest := by
    intro apex inList
    rcases List.mem_cons.mp (gathers.among apex inList) with rfl | member
    · cases gathers.elements _ inList
    · exact member
  have outside : ∀ apex ∈ apexes,
      (⟨number, ancestors, before, .leaf l rest⟩ : Location) ∉ apex.subtree := fun apex inList =>
    Location.not_mem_subtree_of_number (later apex inList) (.inl (Nat.lt_succ_self number))
  constructor
  · exact gathers.skips _ List.mem_cons_self outside _ List.mem_cons_self l.kind rfl
  · exact gathers.part _ [] (List.subset_cons_self _ _) (List.Sublist.refl _)
      (fun apex => .inl) later fun apex inList => (List.not_mem_nil inList).elim

/-- Around an element: its own tree or trees inside of it come first, and then those behind it. -/
theorem Gathers.element
    (gathers : Gathers r (Location.allFrom number ancestors before (.element e inner rest))
      apexes) :
    ∃ first later, apexes = first ++ later ∧
      (first = [⟨number, ancestors, before, .element e inner rest⟩] ∨
        ∀ apex ∈ first,
          apex ∈ Location.allFrom (number + 1) (⟨number, e⟩ :: ancestors) [] inner) ∧
      ∀ apex ∈ later,
        apex ∈ Location.allFrom (number + inner.size + 1) ancestors (.element :: before) rest := by
  obtain ⟨first, later, rfl, low, high⟩ :=
    exists_split gathers.apart (number + inner.size + 1)
  obtain ⟨apart, -, -⟩ := List.pairwise_append.mp gathers.apart
  have places : ∀ apex ∈ first, apex = ⟨number, ancestors, before, .element e inner rest⟩ ∨
      apex ∈ Location.allFrom (number + 1) (⟨number, e⟩ :: ancestors) [] inner := by
    intro apex inList
    refine (List.mem_cons.mp (gathers.among apex (List.mem_append_left _ inList))).imp_right ?_
    intro member
    refine (List.mem_append.mp member).resolve_right fun behind => ?_
    have least := (Location.number_of_mem_allFrom behind).1
    have less := low apex inList
    omega
  refine ⟨first, later, rfl, ?_, fun apex inList => ?_⟩
  · cases first with
    | nil => exact .inr nofun
    | cons apex others =>
      obtain ⟨ahead, -⟩ := List.pairwise_cons.mp apart
      rcases places apex List.mem_cons_self with rfl | inside
      · -- Whatever else begins inside of the element has it as an ancestor.
        left
        cases others with
        | nil => rfl
        | cons other others =>
          obtain ⟨less, around⟩ := ahead other List.mem_cons_self
          rcases places other (List.mem_cons_of_mem _ List.mem_cons_self) with rfl | inside
          · exact absurd less (Nat.lt_irrefl _)
          · have kept := Location.suffix_of_mem_allFrom other inside
            exact absurd rfl (around _ (kept.subset List.mem_cons_self))
      · right
        refine List.forall_mem_cons.mpr ⟨inside, fun other inList => ?_⟩
        refine (places other (List.mem_cons_of_mem _ inList)).resolve_left ?_
        rintro rfl
        have least := (Location.number_of_mem_allFrom inside).1
        have less : apex.number < number := (ahead _ inList).1
        omega
  · have more := high apex inList
    have member := gathers.among apex (List.mem_append_right _ inList)
    rcases List.mem_cons.mp member with rfl | member
    · dsimp only at more
      omega
    · refine (List.mem_append.mp member).resolve_left fun inside => ?_
      have bound := (Location.number_of_mem_allFrom inside).2
      omega

/-- The trees inside of an element, which is not output itself. -/
theorem Gathers.inside
    (gathers : Gathers r (Location.allFrom number ancestors before (.element e inner rest))
      (first ++ later))
    (inside : ∀ apex ∈ first,
      apex ∈ Location.allFrom (number + 1) (⟨number, e⟩ :: ancestors) [] inner)
    (behind : ∀ apex ∈ later,
      apex ∈ Location.allFrom (number + inner.size + 1) ancestors (.element :: before) rest) :
    r.isOutput ⟨number, ancestors, before, .element e inner rest⟩ .element = false ∧
      Gathers r (Location.allFrom (number + 1) (⟨number, e⟩ :: ancestors) [] inner) first := by
  constructor
  · refine gathers.skips _ List.mem_cons_self (fun apex inList => ?_) _ List.mem_cons_self
      .element rfl
    rcases List.mem_append.mp inList with inList | inList
    · exact Location.not_mem_subtree_of_number (inside apex inList)
        (.inl (Nat.lt_succ_self number))
    · exact Location.not_mem_subtree_of_number (behind apex inList)
        (.inl (by dsimp only; omega))
  · refine gathers.part _ later (List.subset_cons_of_subset _ (List.subset_append_left _ _))
      (List.sublist_append_left first later) (fun apex => List.mem_append.mp) inside ?_
    intro apex inList loc member
    have bound := (Location.number_of_mem_allFrom member).2
    exact Location.not_mem_subtree_of_number (behind apex inList) (.inl (by omega))

/-- The trees behind an element. -/
theorem Gathers.behind
    (gathers : Gathers r (Location.allFrom number ancestors before (.element e inner rest))
      (first ++ later))
    (inside : first = [⟨number, ancestors, before, .element e inner rest⟩] ∨
      ∀ apex ∈ first, apex ∈ Location.allFrom (number + 1) (⟨number, e⟩ :: ancestors) [] inner)
    (behind : ∀ apex ∈ later,
      apex ∈ Location.allFrom (number + inner.size + 1) ancestors (.element :: before) rest) :
    Gathers r (Location.allFrom (number + inner.size + 1) ancestors (.element :: before) rest)
      later := by
  refine gathers.part _ first (List.subset_cons_of_subset _ (List.subset_append_right _ _))
    (List.sublist_append_right first later)
    (fun apex inList => (List.mem_append.mp inList).symm) behind ?_
  intro apex inList loc member
  have low := (Location.number_of_mem_allFrom member).1
  rcases inside with rfl | inside
  · cases List.mem_singleton.mp inList
    exact Location.not_mem_subtree_of_lt rfl low
  · exact Location.not_mem_subtree_of_number (inside apex inList) (.inr (by omega))

end Around

section Visits

variable (limits : r.limits = none) (unrestricted : r.restrictsNamespaces = false)
include limits unrestricted

/-- The start tag of an element that is not output brings its declarations into scope. -/
theorem startTag_omitted {loc : Location} {e : Element}
    (omitted : r.isOutput loc .element = false) (parentOutput : Bool) (w : Walk) :
    Silent (w.startTag r loc e parentOutput)
      ({ w with axis := w.axis.enter (loc.spelling e).declarations }, none) := by
  have bare : r.bareDeclarations (w.axis.enter (loc.spelling e).declarations) loc.number = [] := by
    simp [Request.bareDeclarations, unrestricted]
  simp only [startTag]
  rw [limits, omitted, bare]
  exact ⟨rfl, rfl⟩

/-- An element that is not output, with trees inside of it. -/
theorem nodeAt_visits {loc : Location} {e : Element} {inner rest : Content}
    (here : loc.here = .element e inner rest) (omitted : r.isOutput loc .element = false)
    {apexes : List Location}
    (children : ∀ c, Matches Eq
      (fun w _ => ∃ c, w = ⟨seed (⟨loc.number, e⟩ :: loc.ancestors), c⟩)
      (siblingsAt r false (loc.inside e inner) ⟨seed (⟨loc.number, e⟩ :: loc.ancestors), c⟩)
      (visits r apexes)) (c : Nat) :
    Matches Eq (fun w _ => ∃ c, w = ⟨seed loc.ancestors, c⟩)
      (nodeAt r false loc ⟨seed loc.ancestors, c⟩) (visits r apexes) := by
  rw [nodeAt_element here, ← bind_pure (visits r apexes)]
  -- The start tag brings the axis into place, and leaving the element takes it back.
  refine (startTag_omitted limits unrestricted omitted false _).bind_matches ?_
  refine (children c).bind ?_
  rintro _ _ ⟨c, rfl⟩
  refine .pure ⟨c, ?_⟩
  exact congrArg (Walk.mk · c) (NamespaceAxis.leave_enter _ _)

omit unrestricted in
/-- The root of a tree, which is visited as such. -/
theorem nodeAt_apex {apex : Location} (element : apex.element?.isSome = true) (c : Nat) :
    Matches Eq (fun w _ => ∃ c, w = ⟨seed apex.ancestors, c⟩)
      (nodeAt r false apex ⟨seed apex.ancestors, c⟩) (visits r [apex]) := by
  obtain ⟨e, here⟩ := Option.isSome_iff_exists.mp element
  obtain ⟨inner, rest, content⟩ := Location.here_of_element? here
  have alike := nodeAt_abreast content
    (fun closing axis c₁ c₂ => siblings_uncounted limits closing _ _ _ axis c₁ c₂) false
    (seed apex.ancestors) c 0
  simp only [visits]
  rw [← bind_pure (nodeAt r false apex ⟨seed apex.ancestors, c⟩)]
  refine alike.bind ?_
  rintro _ _ ⟨c₁, _, rfl, rfl⟩
  exact .pure ⟨c₁, rfl⟩

/-- A walk from the document node to all of the trees, and past them. -/
theorem siblings_visits {content : Content} : ∀ {number : Nat} {ancestors : List Ancestor}
    {before : List NodeKind} {apexes : List Location},
    Gathers r (Location.allFrom number ancestors before content) apexes →
    ∀ c : Nat, Matches Eq (fun w _ => ∃ c, w = ⟨seed ancestors, c⟩)
      (siblings r false number ancestors before content ⟨seed ancestors, c⟩)
      (visits r apexes) := by
  induction content with
  | nil =>
    intro number ancestors before apexes gathers c
    cases apexes with
    | nil => exact .pure ⟨c, rfl⟩
    | cons apex apexes => cases gathers.among apex List.mem_cons_self
  | leaf l rest ihRest =>
    intro number ancestors before apexes gathers c
    obtain ⟨omitted, later⟩ := gathers.leaf
    simp only [siblings, leaf]
    rw [omitted]
    exact ihRest later c
  | element e inner rest ihInner ihRest =>
    intro number ancestors before apexes gathers c
    obtain ⟨first, later, rfl, inside, behind⟩ := gathers.element
    have here : Matches Eq (fun w _ => ∃ c, w = ⟨seed ancestors, c⟩)
        (nodeAt r false ⟨number, ancestors, before, .element e inner rest⟩ ⟨seed ancestors, c⟩)
        (visits r first) := by
      rcases inside with rfl | inside
      · -- The element is the root of a tree.
        exact nodeAt_apex limits (gathers.elements _ List.mem_cons_self) c
      · -- The element is on the way to other trees.
        obtain ⟨omitted, below⟩ := gathers.inside inside behind
        exact nodeAt_visits limits unrestricted rfl omitted (ihInner below) c
    rw [siblings_element, visits_append]
    refine here.bind ?_
    rintro _ _ ⟨c, rfl⟩
    exact ihRest (gathers.behind inside behind) c

end Visits

open Transcript in
/-- The texts of the trees stand one after the other, up to the first failure. -/
theorem yield_visits {apexes : List Location} {alone : Location → Except Fault String}
    (texts : ∀ apex ∈ apexes, (nodeAt r false apex ⟨seed apex.ancestors, 0⟩).yield = alone apex) :
    (visits r apexes).yield = (apexes.mapM alone).map String.join := by
  induction apexes with
  | nil => rfl
  | cons apex apexes ih =>
    obtain ⟨here, later⟩ := List.forall_mem_cons.mp texts
    simp only [visits]
    rw [yield_bind, ih later, here, List.mapM_cons]
    cases alone apex with
    | error fault => rfl
    | ok first =>
      cases apexes.mapM alone with
      | error fault => rfl
      | ok others => exact congrArg Except.ok String.join_cons.symm

section Trees

variable {d : Document} {apexes : List Location} (disjoint : d.Disjoint apexes) (method : Method)
  {params : Params} (limits : params.limits = none) (comments : Bool)
include disjoint limits

/-- A walk through a document, of which the trees are to be output. -/
theorem ofInput_visits :
    Matches Eq (fun _ _ => True) (ofInput method (.nodeSet d (.trees apexes comments)) params)
      (visits (.of method (.nodeSet d (.trees apexes comments)) params) apexes) := by
  have unrestricted : (Request.of method (.nodeSet d (.trees apexes comments))
      params).restrictsNamespaces = false :=
    congrArg Option.isSome (NodeSet.trees_axes apexes comments).1
  have gathers : Gathers (.of method (.nodeSet d (.trees apexes comments)) params) d.locations
      apexes := {
    among := disjoint.among
    elements := disjoint.elements
    apart := disjoint.apart
    skips := fun _ => skips_beside disjoint method params comments }
  rw [ofInput_nodeSet]
  exact (siblings_visits limits unrestricted gathers 0).mono fun _ _ _ _ _ => trivial

omit disjoint in
/-- A walk through a document, of which the tree of one element is to be output. -/
theorem ofInput_tree {apex : Location} (member : apex ∈ d.locations)
    (element : apex.element?.isSome = true) :
    Matches Eq (fun _ _ => True) (ofInput method (.nodeSet d (.tree (.node apex) comments)) params)
      (nodeAt (.of method (.nodeSet d (.tree (.node apex) comments)) params) false apex
        ⟨seed apex.ancestors, 0⟩) := by
  have alone :=
    ofInput_visits (Document.disjoint_singleton member element) method limits comments
  rw [NodeSet.trees_singleton] at alone
  exact alone.of_bind_pure

/-- The text of one of the trees within the set of all of them is its text within its own set. -/
theorem yield_apex {apex : Location} (inList : apex ∈ apexes) :
    (nodeAt (.of method (.nodeSet d (.trees apexes comments)) params) false apex
        ⟨seed apex.ancestors, 0⟩).yield =
      (ofInput method (.nodeSet d (.tree (.node apex) comments)) params).yield := by
  have element := disjoint.elements apex inList
  obtain ⟨e, here⟩ := Option.isSome_iff_exists.mp element
  obtain ⟨inner, rest, content⟩ := Location.here_of_element? here
  have alone := ofInput_tree method limits comments (disjoint.among apex inList) element
  rw [alone.yield, nodeAt_congr content (agreeOn_trees disjoint method params comments inList)]

end Trees

end Walk

namespace Mode

open Transcript in
/-- What an algorithm of the family returns is what its walk yields. -/
theorem result_eq_yield (family : Family) (withComments : Bool) (input : Input)
    (params : Params) :
    ((canonical family withComments).run input params).result =
      (Walk.ofInput (method family withComments) input params).yield := by
  simp only [run, canonicalize, result, yield, written, text]
  rw [outcome_bind, pieces_bind, outcome_render]
  cases (Walk.ofInput (method family withComments) input params).outcome with
  | error fault => rfl
  | ok w => exact congrArg (Except.ok ∘ String.join) (List.append_nil _)

/-- The canonical form of disjoint trees, taken together as a set of nodes, is made of the
canonical forms of the trees, each taken as a set of its own; and if one of these cannot be made,
it fails with the first such fault.  So no tree leaves anything behind that a later one sees. -/
theorem disjoint_trees {d : Document} {apexes : List Location} (disjoint : d.Disjoint apexes)
    (family : Family) (withComments comments : Bool) {params : Params}
    (limits : params.limits = none) :
    ((canonical family withComments).run (.nodeSet d (.trees apexes comments)) params).result =
      (apexes.mapM fun apex => ((canonical family withComments).run
        (.nodeSet d (.tree (.node apex) comments)) params).result).map String.join := by
  have together := (Walk.ofInput_visits disjoint (method family withComments) limits comments).yield
  rw [result_eq_yield, together]
  refine Walk.yield_visits fun apex inList => ?_
  rw [result_eq_yield]
  exact Walk.yield_apex disjoint _ limits comments inList

/-- Two trees that give one prefix different meanings, in the exclusive form and in the inclusive
one, which takes the language over from around them. -/
theorem disjoint_trees_declarations :
    let text := "<a xmlns='u' xmlns:p='v' xml:lang='en'>z<p:b>x<!--k--></p:b>" ++
      "<c xmlns:p='w'><d xml:lang='de'><p:e/></d></c></a>"
    let run := fun family d places =>
      ((canonical family true).run (.nodeSet d (.trees places true)) {}).result
    ∃ d b e, Document.read text = .ok d ∧ d.Disjoint [b, e] ∧
      run .exclusive d [b, e] =
        .ok "<p:b xmlns:p=\"v\">x<!--k--></p:b><p:e xmlns:p=\"w\"></p:e>" ∧
      run .inclusive d [b, e] =
        .ok ("<p:b xmlns=\"u\" xmlns:p=\"v\" xml:lang=\"en\">x<!--k--></p:b>" ++
          "<p:e xmlns=\"u\" xmlns:p=\"w\" xml:lang=\"de\"></p:e>") ∧
      ∀ family, run family d [b, e] =
        ([b, e].mapM fun apex => ((canonical family true).run
          (.nodeSet d (.tree (.node apex) true)) {}).result).map String.join := by
  intro text run
  let d := (Document.read text).toOption.getD ⟨"", .nil⟩
  let b := (d.locate? 3).getD (.top d.content)
  let e := (d.locate? 8).getD (.top d.content)
  -- One evaluation, since each would read the text again.
  obtain ⟨parsed, among, elements, apart, exclusive, inclusive⟩ :
      Document.read text = .ok d ∧ (∀ apex ∈ [b, e], apex ∈ d.locations) ∧
      (∀ apex ∈ [b, e], apex.element?.isSome = true) ∧ [b, e].Pairwise Location.Apart ∧
      run .exclusive d [b, e] =
        .ok "<p:b xmlns:p=\"v\">x<!--k--></p:b><p:e xmlns:p=\"w\"></p:e>" ∧
      run .inclusive d [b, e] =
        .ok ("<p:b xmlns=\"u\" xmlns:p=\"v\" xml:lang=\"en\">x<!--k--></p:b>" ++
          "<p:e xmlns=\"u\" xmlns:p=\"w\" xml:lang=\"de\"></p:e>") := by decide +kernel
  have disjoint : d.Disjoint [b, e] := ⟨among, elements, apart⟩
  exact ⟨d, b, e, parsed, disjoint, exclusive, inclusive, fun family =>
    disjoint_trees disjoint family true true rfl⟩

end Mode

end CanonicalXml
