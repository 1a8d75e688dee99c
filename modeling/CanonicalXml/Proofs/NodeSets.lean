import CanonicalXml.Proofs.PlaceNumbers

/-! # The members of the usual node sets

* `NodeSet.contains_all`, `NodeSet.contains_tree_node` — which places the sets have that hold a
  whole document or a tree.
* `NodeSet.dropComments` — a set without the comments of a document, and the same visible
  namespace nodes.
* `NodeSet.dropComments_all`, `NodeSet.dropComments_tree` — the sets without comments are those
  with comments after the comments have been dropped.
-/

namespace CanonicalXml

namespace NodeSet

/-- The set without all comments of the document. -/
def dropComments (d : Document) (s : NodeSet) : NodeSet :=
  (d.locations.filter (·.kind? = some .comment)).foldl (fun s loc => s.erase loc.number) s

/-- A set is determined by its members and by what it says about namespaces and attributes. -/
theorem ext_contains {s t : NodeSet} (visible : s.visible? = t.visible?)
    (attributes : s.excludesAttributes = t.excludesAttributes)
    (same : ∀ n, s.contains n = t.contains n) : s = t := by
  obtain ⟨members, visible?, excludesAttributes⟩ := s
  obtain ⟨members', visible?', excludesAttributes'⟩ := t
  obtain rfl : members = members' := Nat.eq_of_testBit_eq same
  obtain rfl : visible? = visible?' := visible
  obtain rfl : excludesAttributes = excludesAttributes' := attributes
  rfl

/-! ## Sets from lists -/

theorem contains_foldl_insert (numbers : List Nat) (s : NodeSet) (n : Nat) :
    (numbers.foldl insert s).contains n = (s.contains n || decide (n ∈ numbers)) := by
  induction numbers generalizing s with
  | nil => simp
  | cons m numbers ih =>
    rw [List.foldl_cons, ih, contains_insert, Bool.or_assoc]
    simp [eq_comm]

theorem contains_ofList (numbers : List Nat) (n : Nat) :
    (ofList numbers).contains n = decide (n ∈ numbers) := by
  unfold ofList
  rw [contains_foldl_insert, contains_empty, Bool.false_or]

theorem foldl_insert_axes (numbers : List Nat) (s : NodeSet) :
    (numbers.foldl insert s).visible? = s.visible? ∧
      (numbers.foldl insert s).excludesAttributes = s.excludesAttributes := by
  induction numbers generalizing s with
  | nil => exact ⟨rfl, rfl⟩
  | cons m numbers ih => exact ih (s.insert m)

/-- The usual sets say nothing about namespace nodes and attributes. -/
theorem tree_axes (p : Place) (comments : Bool) :
    (tree p comments).visible? = none ∧ (tree p comments).excludesAttributes = false := by
  unfold tree ofList
  exact foldl_insert_axes _ empty

/-! ## Whole documents and trees -/

/-- The numbers of the places that are kept, with or without comments. -/
theorem mem_kept {places : List Location} {comments : Bool} {n : Nat} :
    n ∈ (places.filter fun loc => comments || loc.here.kinds.head? ≠ some .comment).map
        (·.number) ↔
      ∃ other ∈ places, other.number = n ∧ (comments = true ∨ other.kind? ≠ some .comment) := by
  simp only [List.mem_map, List.mem_filter, Bool.or_eq_true, decide_eq_true_eq]
  constructor
  · rintro ⟨other, ⟨among, kept⟩, same⟩
    exact ⟨other, among, same, kept⟩
  · rintro ⟨other, among, same, kept⟩
    exact ⟨other, ⟨among, kept⟩, same⟩

theorem contains_tree_node {loc : Location} {comments : Bool} {n : Nat} :
    (tree (.node loc) comments).contains n = true ↔
      ∃ other ∈ loc.subtree, other.number = n ∧
        (comments = true ∨ other.kind? ≠ some .comment) := by
  unfold tree
  rw [contains_ofList, decide_eq_true_eq]
  exact mem_kept

theorem contains_tree_document {d : Document} {comments : Bool} {n : Nat} :
    (tree (.document d.content) comments).contains n = true ↔
      n = 0 ∨ ∃ other ∈ d.locations, other.number = n ∧
        (comments = true ∨ other.kind? ≠ some .comment) := by
  unfold tree
  rw [contains_ofList, decide_eq_true_eq]
  dsimp only
  rw [List.mem_cons]
  exact or_congr_right mem_kept

theorem contains_all {d : Document} {loc : Location} (member : loc ∈ d.locations) :
    (all d).contains loc.number = true :=
  contains_tree_document.mpr (.inr ⟨loc, member, rfl, .inl rfl⟩)

/-! ## Without comments -/

theorem contains_foldl_erase (places : List Location) (s : NodeSet) (n : Nat) :
    (places.foldl (fun s loc => s.erase loc.number) s).contains n = true ↔
      s.contains n = true ∧ ∀ loc ∈ places, loc.number ≠ n := by
  induction places generalizing s with
  | nil => simp
  | cons loc places ih =>
    rw [List.foldl_cons, ih, contains_erase, Bool.and_eq_true, decide_eq_true_eq,
      List.forall_mem_cons, and_assoc]

theorem contains_dropComments {d : Document} {s : NodeSet} {n : Nat} :
    (s.dropComments d).contains n = true ↔ s.contains n = true ∧
      ∀ loc ∈ d.locations, loc.kind? = some .comment → loc.number ≠ n := by
  unfold dropComments
  rw [contains_foldl_erase]
  simp

theorem dropComments_axes (d : Document) (s : NodeSet) :
    (s.dropComments d).visible? = s.visible? ∧
      (s.dropComments d).excludesAttributes = s.excludesAttributes := by
  unfold dropComments
  induction d.locations.filter (·.kind? = some .comment) generalizing s with
  | nil => exact ⟨rfl, rfl⟩
  | cons loc places ih => exact ih (s.erase loc.number)

/-- At the place of another node nothing has changed. -/
theorem contains_dropComments_of_kind {d : Document} {s : NodeSet} {loc : Location}
    (member : loc ∈ d.locations) (kind : loc.kind? ≠ some .comment) :
    (s.dropComments d).contains loc.number = s.contains loc.number := by
  rw [Bool.eq_iff_iff, contains_dropComments, and_iff_left_iff_imp]
  intro _ other among comment same
  rw [Location.eq_of_number among member same] at comment
  exact kind comment

theorem not_contains_dropComments {d : Document} {s : NodeSet} {loc : Location}
    (member : loc ∈ d.locations) (kind : loc.kind? = some .comment) :
    (s.dropComments d).contains loc.number = false := by
  rw [← Bool.not_eq_true, contains_dropComments]
  rintro ⟨-, others⟩
  exact others loc member kind rfl

theorem dropComments_tree {d : Document} {loc : Location} (member : loc ∈ d.locations) :
    (tree (.node loc) true).dropComments d = tree (.node loc) false := by
  obtain ⟨visible, attributes⟩ := dropComments_axes d (tree (.node loc) true)
  refine ext_contains (visible.trans ?_) (attributes.trans ?_) fun n => ?_
  · rw [(tree_axes _ _).1, (tree_axes _ _).1]
  · rw [(tree_axes _ _).2, (tree_axes _ _).2]
  rw [Bool.eq_iff_iff, contains_dropComments, contains_tree_node, contains_tree_node]
  constructor
  · rintro ⟨⟨other, below, rfl, -⟩, others⟩
    exact ⟨other, below, rfl, .inr fun comment =>
      others other (Location.subtree_subset member below) comment rfl⟩
  · rintro ⟨other, below, rfl, kept⟩
    refine ⟨⟨other, below, rfl, .inl rfl⟩, fun comment among kind same => ?_⟩
    rw [Location.eq_of_number among (Location.subtree_subset member below) same] at kind
    exact kept.resolve_left Bool.false_ne_true kind

theorem dropComments_all (d : Document) : (all d).dropComments d = withoutComments d := by
  obtain ⟨visible, attributes⟩ := dropComments_axes d (all d)
  unfold all withoutComments at *
  refine ext_contains (visible.trans ?_) (attributes.trans ?_) fun n => ?_
  · rw [(tree_axes _ _).1, (tree_axes _ _).1]
  · rw [(tree_axes _ _).2, (tree_axes _ _).2]
  rw [Bool.eq_iff_iff, contains_dropComments, contains_tree_document, contains_tree_document]
  constructor
  · rintro ⟨rfl | ⟨other, among, rfl, -⟩, others⟩
    · exact .inl rfl
    · exact .inr ⟨other, among, rfl, .inr fun comment => others other among comment rfl⟩
  · rintro (rfl | ⟨other, among, rfl, kept⟩)
    · exact ⟨.inl rfl, fun comment among _ => Nat.ne_of_gt (Location.lt_of_mem_locations among).1⟩
    · refine ⟨.inr ⟨other, among, rfl, .inl rfl⟩, fun comment among' kind same => ?_⟩
      rw [Location.eq_of_number among' among same] at kind
      exact kept.resolve_left Bool.false_ne_true kind

end NodeSet

end CanonicalXml
