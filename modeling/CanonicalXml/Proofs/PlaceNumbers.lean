import Mathlib.Data.List.Nodup
import CanonicalXml.Proofs.Places

/-! # Places by their numbers

Places are numbered in document order without gaps, so a place of a document is known by its
number.  Runs of siblings and subtrees are described here by the places that have the numbers.

* `Location.numbers_allFrom` — the numbers of all places from one on.
* `Location.eq_of_number` — two places of a document with one number are the same.
* `Location.mem_run` — the numbers of a run of comments or instructions belong to siblings of
  that kind.
* `Location.mem_subtree_iff` — a subtree is its root and whatever has the root as an ancestor.
-/

namespace CanonicalXml

namespace Location

/-- The kind of the node that stands at a place. -/
def kind? (loc : Location) : Option NodeKind :=
  loc.here.kinds.head?

theorem numbers_allFrom (content : Content) : ∀ (number : Nat) (ancestors : List Ancestor)
    (before : List NodeKind),
    (allFrom number ancestors before content).map (·.number) =
      List.range' number content.size := by
  induction content with
  | nil => intro number ancestors before; rfl
  | leaf l rest ihRest =>
    intro number ancestors before
    simp only [allFrom, List.map_cons, Content.size]
    rw [ihRest, List.range'_succ]
  | element e inner rest ihInner ihRest =>
    intro number ancestors before
    simp only [allFrom, List.map_cons, List.map_append, Content.size]
    rw [ihInner, ihRest, List.range'_succ]
    have split := List.range'_append_1 (s := number + 1) (m := inner.size) (n := rest.size)
    rw [← split, Nat.add_right_comm]

theorem number_of_mem_allFrom {content : Content} {number : Nat} {ancestors : List Ancestor}
    {before : List NodeKind} {loc : Location}
    (member : loc ∈ allFrom number ancestors before content) :
    number ≤ loc.number ∧ loc.number < number + content.size := by
  have inRange := List.mem_map_of_mem (f := (·.number)) member
  rw [numbers_allFrom] at inRange
  exact List.mem_range'_1.mp inRange

theorem eq_of_number {d : Document} {loc other : Location} (member : loc ∈ d.locations)
    (member' : other ∈ d.locations) (same : loc.number = other.number) : loc = other := by
  have numbers : (d.locations.map (·.number)).Nodup := by
    unfold Document.locations all
    rw [numbers_allFrom]
    exact List.nodup_range'
  exact List.inj_on_of_nodup_map numbers member member' same

/-! ## Runs of siblings -/

section Runs

variable {places : List Location} {kind : NodeKind}

/-- Among the places is one with the number, which holds a node of the kind and has these
ancestors. -/
def Holds (places : List Location) (ancestors : List Ancestor) (kind : NodeKind) (n : Nat) :
    Prop :=
  ∃ other ∈ places, other.number = n ∧ other.kind? = some kind ∧ other.ancestors = ancestors

/-- The siblings before a number that are of the kind, nearest first, are among the places. -/
def HoldsBefore (places : List Location) (number : Nat) (ancestors : List Ancestor)
    (before : List NodeKind) (kind : NodeKind) : Prop :=
  (before.takeWhile (· = kind)).length ≤ number ∧
    ∀ i < (before.takeWhile (· = kind)).length, Holds places ancestors kind (number - (i + 1))

theorem HoldsBefore.leaf {number : Nat} {ancestors : List Ancestor} {before : List NodeKind}
    {l : Leaf} {rest : Content} (earlier : HoldsBefore places number ancestors before kind)
    (member : (⟨number, ancestors, before, .leaf l rest⟩ : Location) ∈ places) :
    HoldsBefore places (number + 1) ancestors (l.kind :: before) kind := by
  unfold HoldsBefore
  by_cases same : l.kind = kind
  · rw [List.takeWhile_cons_of_pos (by simpa using same), List.length_cons]
    refine ⟨Nat.succ_le_succ earlier.1, fun i bound => ?_⟩
    cases i with
    | zero => exact ⟨_, member, rfl, congrArg some same, rfl⟩
    | succ i =>
      rw [Nat.add_sub_add_right]
      exact earlier.2 i (Nat.lt_of_succ_lt_succ bound)
  · rw [List.takeWhile_cons_of_neg (by simpa using same)]
    exact ⟨Nat.zero_le _, fun i bound => absurd bound (Nat.not_lt_zero i)⟩

theorem HoldsBefore.nil (number : Nat) (ancestors : List Ancestor) :
    HoldsBefore places number ancestors [] kind :=
  ⟨Nat.zero_le _, fun i bound => absurd bound (Nat.not_lt_zero i)⟩

theorem HoldsBefore.element (markup : kind ≠ .element) (number : Nat) (ancestors : List Ancestor)
    (before : List NodeKind) :
    HoldsBefore places number ancestors (.element :: before) kind := by
  unfold HoldsBefore
  rw [List.takeWhile_cons_of_neg (by simpa using markup.symm)]
  exact ⟨Nat.zero_le _, fun i bound => absurd bound (Nat.not_lt_zero i)⟩

/-- The siblings from a place on that are of one kind, as long as no other comes between. -/
theorem holds_here (markup : kind ≠ .element) {content : Content} : ∀ {number : Nat}
    {ancestors : List Ancestor} {before : List NodeKind},
    allFrom number ancestors before content ⊆ places →
    ∀ i < (content.kinds.takeWhile (· = kind)).length,
      Holds places ancestors kind (number + i) := by
  induction content with
  | nil => intro number ancestors before _ i bound; exact absurd bound (Nat.not_lt_zero i)
  | leaf l rest ihRest =>
    intro number ancestors before within i bound
    obtain ⟨here, later⟩ := List.cons_subset.mp within
    simp only [Content.kinds] at bound
    by_cases same : l.kind = kind
    · cases i with
      | zero => exact ⟨_, here, rfl, congrArg some same, rfl⟩
      | succ i =>
        rw [List.takeWhile_cons_of_pos (by simpa using same), List.length_cons] at bound
        have found := ihRest later i (Nat.lt_of_succ_lt_succ bound)
        rw [Nat.add_assoc, Nat.add_comm 1] at found
        exact found
    · rw [List.takeWhile_cons_of_neg (by simpa using same)] at bound
      exact absurd bound (Nat.not_lt_zero i)
  | element e inner rest ihInner ihRest =>
    intro number ancestors before within i bound
    simp only [Content.kinds] at bound
    rw [List.takeWhile_cons_of_neg (by simpa using markup.symm)] at bound
    exact absurd bound (Nat.not_lt_zero i)

/-- The run around a place is counted from the siblings on both sides. -/
theorem holds_of_mem_run (markup : kind ≠ .element) {loc : Location}
    (earlier : HoldsBefore places loc.number loc.ancestors loc.before kind)
    (within : loc.all ⊆ places) {n : Nat} (inRun : n ∈ Request.run loc kind) :
    Holds places loc.ancestors kind n := by
  simp only [Request.run] at inRun
  obtain ⟨low, high⟩ := List.mem_range'_1.mp inRun
  have bound := earlier.1
  rcases Nat.lt_or_ge n loc.number with less | more
  · have found := earlier.2 (loc.number - n - 1) (by omega)
    rwa [show loc.number - (loc.number - n - 1 + 1) = n by omega] at found
  · have found := holds_here markup within (n - loc.number) (by omega)
    rwa [Nat.add_sub_cancel' more] at found

theorem handedOn_holdsBefore (markup : kind ≠ .element) : HandedOn fun loc =>
    HoldsBefore places loc.number loc.ancestors loc.before kind ∧ loc.all ⊆ places := by
  constructor
  case next =>
    rintro ⟨number, ancestors, before, here⟩ ⟨earlier, within⟩
    refine ⟨?_, (handedOn_subset _).next within⟩
    cases here with
    | nil => exact earlier
    | leaf l rest => exact earlier.leaf (within List.mem_cons_self)
    | element e inner rest => exact .element markup _ _ _
  case inside =>
    rintro loc e inner rest here ⟨-, within⟩
    exact ⟨.nil _ _, (handedOn_subset _).inside here within⟩

end Runs

/-- The members of a run of comments or instructions are siblings of that kind. -/
theorem mem_run {d : Document} {loc : Location} (member : loc ∈ d.locations) (kind : NodeKind)
    (markup : kind ≠ .element) {n : Nat} (inRun : n ∈ Request.run loc kind) :
    ∃ other ∈ d.locations, other.number = n ∧ other.kind? = some kind ∧
      other.ancestors = loc.ancestors := by
  have start : HoldsBefore d.locations 1 [] [] kind := .nil _ _
  obtain ⟨earlier, within⟩ := (handedOn_holdsBefore markup).of_mem_allFrom
    ⟨start, List.Subset.refl _⟩ loc member
  exact holds_of_mem_run markup earlier within inRun

/-- A place belongs to the run of its own kind. -/
theorem number_mem_run {loc : Location} {kind : NodeKind} (here : loc.kind? = some kind) :
    loc.number ∈ Request.run loc kind := by
  have bound : 0 < (loc.here.kinds.takeWhile (· = kind)).length := by
    obtain ⟨rest, kinds⟩ := List.head?_eq_some_iff.mp here
    rw [kinds, List.takeWhile_cons_of_pos (by simp)]
    exact Nat.succ_pos _
  simp only [Request.run]
  rw [List.mem_range'_1]
  omega

/-! ## Subtrees -/

/-- What is numbered outside of a run of siblings is in no subtree of it. -/
theorem not_mem_subtree_of_number {root loc : Location} {content : Content} {number : Nat}
    {ancestors : List Ancestor} {before : List NodeKind}
    (among : root ∈ allFrom number ancestors before content)
    (apart : loc.number < number ∨ number + content.size ≤ loc.number) : loc ∉ root.subtree := by
  intro below
  have range := number_of_mem_allFrom (subtree_subset_allFrom root among below)
  omega

/-- What is numbered behind an element is not in its subtree. -/
theorem not_mem_subtree_of_lt {root loc : Location} {e : Element} {inner rest : Content}
    (here : root.here = .element e inner rest) (behind : root.number + inner.size < loc.number) :
    loc ∉ root.subtree := by
  intro below
  rw [subtree_of_here here] at below
  rcases List.mem_cons.mp below with rfl | below
  · omega
  · have range : loc.number < root.number + 1 + inner.size := (number_of_mem_allFrom below).2
    omega

/-- A place of a document is never past the end of its siblings. -/
theorem mem_subtree_self {content : Content} : ∀ {number : Nat} {ancestors : List Ancestor}
    {before : List NodeKind}, ∀ loc ∈ allFrom number ancestors before content,
      loc ∈ loc.subtree := by
  induction content with
  | nil => intro number ancestors before loc member; cases member
  | leaf l rest ihRest =>
    intro number ancestors before loc member
    rcases List.mem_cons.mp member with rfl | member
    · exact List.mem_cons_self
    · exact ihRest loc member
  | element e inner rest ihInner ihRest =>
    intro number ancestors before loc member
    rcases List.mem_cons.mp member with rfl | member
    · exact List.mem_cons_self
    · exact (List.mem_append.mp member).elim (ihInner loc) (ihRest loc)

/-- An ancestor of a place that is not around all of the places has its own place among them. -/
theorem mem_subtree_of_mem_ancestors {content : Content} : ∀ {number : Nat}
    {ancestors : List Ancestor} {before : List NodeKind},
    ∀ loc ∈ allFrom number ancestors before content, ∀ a ∈ loc.ancestors, a ∈ ancestors ∨
      ∃ root ∈ allFrom number ancestors before content,
        root.number = a.number ∧ loc ∈ root.subtree := by
  induction content with
  | nil => intro number ancestors before loc member; cases member
  | leaf l rest ihRest =>
    intro number ancestors before loc member a above
    rcases List.mem_cons.mp member with rfl | member
    · exact .inl above
    · refine (ihRest loc member a above).imp_right ?_
      rintro ⟨root, among, same, below⟩
      exact ⟨root, List.mem_cons_of_mem _ among, same, below⟩
  | element e inner rest ihInner ihRest =>
    intro number ancestors before loc member a above
    rcases List.mem_cons.mp member with rfl | member
    · exact .inl above
    rcases List.mem_append.mp member with member | member
    · rcases ihInner loc member a above with outer | ⟨root, among, same, below⟩
      · rcases List.mem_cons.mp outer with rfl | outer
        · exact .inr ⟨_, List.mem_cons_self, rfl, List.mem_cons_of_mem _ member⟩
        · exact .inl outer
      · exact .inr ⟨root, List.mem_cons_of_mem _ (List.mem_append_left _ among), same, below⟩
    · refine (ihRest loc member a above).imp_right ?_
      rintro ⟨root, among, same, below⟩
      exact ⟨root, List.mem_cons_of_mem _ (List.mem_append_right _ among), same, below⟩

theorem mem_subtree_iff {d : Document} {root loc : Location} (memberRoot : root ∈ d.locations)
    (member : loc ∈ d.locations) :
    loc ∈ root.subtree ↔ loc = root ∨ ∃ a ∈ loc.ancestors, a.number = root.number := by
  constructor
  · intro below
    simp only [subtree] at below
    split at below
    · cases below
    · exact .inl (List.mem_singleton.mp below)
    · rcases List.mem_cons.mp below with rfl | below
      · exact .inl rfl
      · have kept := suffix_of_mem_allFrom loc below
        exact .inr ⟨_, kept.subset List.mem_cons_self, rfl⟩
  · rintro (rfl | ⟨a, above, same⟩)
    · exact mem_subtree_self loc member
    · rcases mem_subtree_of_mem_ancestors loc member a above with outer | ⟨other, among, is, below⟩
      · cases outer
      · rwa [eq_of_number among memberRoot (is.trans same)] at below

end Location

end CanonicalXml
