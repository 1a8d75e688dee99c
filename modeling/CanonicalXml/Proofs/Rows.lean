import CanonicalXml.Proofs.PlaceNumbers
import Mathlib.Data.List.SplitBy

/-! # Rows of siblings and their runs

The children of a node are a row of places, and a row falls apart into runs: maximal parts of it
whose members are of one kind.  A walk knows a run of comments or instructions by the kinds of the
siblings on both sides of a place; that this is the same for all members is shown here.

* `Document.rows` — the children of the document node, and those of every element.
* `Location.runs` — the runs of a row.
* `Location.exists_run` — every place of a document is in a run of a row.
* `Location.run_eq_map_number` — what is counted around a member of a run is the run.
-/

namespace CanonicalXml

/-! ## Rows -/

namespace Location

/-- A place and its later siblings, as `allFrom` has them, without what is inside of elements. -/
def rowFrom (number : Nat) (ancestors : List Ancestor) (before : List NodeKind) :
    Content → List Location
  | .nil => []
  | .leaf l next =>
    ⟨number, ancestors, before, .leaf l next⟩ ::
      rowFrom (number + 1) ancestors (l.kind :: before) next
  | .element e inner next =>
    ⟨number, ancestors, before, .element e inner next⟩ ::
      rowFrom (number + inner.size + 1) ancestors (.element :: before) next

/-- The children of the node at a place. -/
def children (loc : Location) : List Location :=
  match loc.here with
  | .element e inner _ => rowFrom (loc.number + 1) (⟨loc.number, e⟩ :: loc.ancestors) [] inner
  | _ => []

/-- The maximal runs of neighbours of one kind. -/
def runs (row : List Location) : List (List Location) :=
  row.splitBy fun a b => a.kind? = b.kind?

theorem rowFrom_sublist {content : Content} : ∀ {number : Nat} {ancestors : List Ancestor}
    {before : List NodeKind},
    (rowFrom number ancestors before content).Sublist
      (allFrom number ancestors before content) := by
  induction content with
  | nil => intro number ancestors before; exact .slnil
  | leaf l rest ihRest => intro number ancestors before; exact ihRest.cons_cons _
  | element e inner rest ihInner ihRest =>
    intro number ancestors before
    exact (ihRest.trans (List.sublist_append_right _ _)).cons_cons _

theorem children_sublist_all (loc : Location) : loc.children.Sublist loc.all := by
  unfold children
  split
  · rename_i e inner rest here
    exact rowFrom_sublist.trans (all_inside_sublist here)
  · exact List.nil_sublist _

/-- The children of a place come among the places around it. -/
theorem children_sublist {content : Content} {number : Nat} {ancestors : List Ancestor}
    {before : List NodeKind} : ∀ loc ∈ allFrom number ancestors before content,
      loc.children.Sublist (allFrom number ancestors before content) := by
  have handed : HandedOn fun loc =>
      loc.all.Sublist (allFrom number ancestors before content) := by
    constructor
    case next => exact fun within => (all_next_sublist _).trans within
    case inside => exact fun here within => (all_inside_sublist here).trans within
  intro loc member
  exact (children_sublist_all loc).trans
    (handed.of_mem_allFrom (List.Sublist.refl _) loc member)

/-- A place stands in the row that it is reached by, or is a child of another one. -/
theorem mem_rowFrom_or_children {content : Content} : ∀ {number : Nat}
    {ancestors : List Ancestor} {before : List NodeKind},
    ∀ loc ∈ allFrom number ancestors before content,
      loc ∈ rowFrom number ancestors before content ∨
        ∃ parent ∈ allFrom number ancestors before content, loc ∈ parent.children := by
  induction content with
  | nil => intro number ancestors before loc member; cases member
  | leaf l rest ihRest =>
    intro number ancestors before loc member
    rcases List.mem_cons.mp member with rfl | member
    · exact .inl List.mem_cons_self
    · refine (ihRest loc member).imp (List.mem_cons_of_mem _) ?_
      rintro ⟨parent, among, child⟩
      exact ⟨parent, List.mem_cons_of_mem _ among, child⟩
  | element e inner rest ihInner ihRest =>
    intro number ancestors before loc member
    rcases List.mem_cons.mp member with rfl | member
    · exact .inl List.mem_cons_self
    rcases List.mem_append.mp member with member | member
    · -- Inside of the element is its own row, and what is a child of something there.
      rcases ihInner loc member with child | ⟨parent, among, child⟩
      · exact .inr ⟨_, List.mem_cons_self, child⟩
      · exact .inr ⟨parent, List.mem_cons_of_mem _ (List.mem_append_left _ among), child⟩
    · refine (ihRest loc member).imp (List.mem_cons_of_mem _) ?_
      rintro ⟨parent, among, child⟩
      exact ⟨parent, List.mem_cons_of_mem _ (List.mem_append_right _ among), child⟩

end Location

/-- The children of the document node, and those of every other node. -/
def Document.rows (d : Document) : List (List Location) :=
  Location.rowFrom 1 [] [] d.content :: d.locations.map Location.children

namespace Location

variable {d : Document} {row run : List Location} {loc : Location}

theorem sublist_of_mem_rows (among : row ∈ d.rows) : row.Sublist d.locations := by
  rcases List.mem_cons.mp among with rfl | among
  · exact rowFrom_sublist
  · obtain ⟨parent, member, rfl⟩ := List.mem_map.mp among
    exact children_sublist parent member

theorem rowFrom_of_mem_rows (among : row ∈ d.rows) :
    ∃ number ancestors content, row = rowFrom number ancestors [] content := by
  rcases List.mem_cons.mp among with rfl | among
  · exact ⟨_, _, _, rfl⟩
  · obtain ⟨parent, -, rfl⟩ := List.mem_map.mp among
    unfold children
    split
    · exact ⟨_, _, _, rfl⟩
    · exact ⟨0, [], .nil, rfl⟩

/-! ## Runs -/

theorem runs_sublist (part : run ∈ runs row) : run.Sublist row := by
  have whole := List.flatten_splitBy (fun a b : Location => decide (a.kind? = b.kind?)) row
  rw [← whole]
  exact List.sublist_flatten_of_mem part

/-- Every place of a document is in a run of a row. -/
theorem exists_run (member : loc ∈ d.locations) :
    ∃ row ∈ d.rows, ∃ run ∈ runs row, loc ∈ run := by
  have inRow : ∃ row ∈ d.rows, loc ∈ row := by
    rcases mem_rowFrom_or_children loc member with top | ⟨parent, among, child⟩
    · exact ⟨_, List.mem_cons_self, top⟩
    · exact ⟨_, List.mem_cons_of_mem _ (List.mem_map_of_mem among), child⟩
  obtain ⟨row, among, inRow⟩ := inRow
  have whole := List.flatten_splitBy (fun a b : Location => decide (a.kind? = b.kind?)) row
  rw [← whole] at inRow
  obtain ⟨run, part, inRun⟩ := List.mem_flatten.mp inRow
  exact ⟨row, among, run, part, inRun⟩

/-- A run is surrounded by nodes of other kinds. -/
structure Surrounded (before run after : List Location) : Prop where
  alike : ∀ a ∈ run, ∀ b ∈ run, a.kind? = b.kind?
  before : ∀ a ∈ before.getLast?, ∀ b ∈ run, a.kind? ≠ b.kind?
  after : ∀ a ∈ after.head?, ∀ b ∈ run, a.kind? ≠ b.kind?

theorem exists_surrounded (part : run ∈ runs row) :
    ∃ before after, row = before ++ run ++ after ∧ Surrounded before run after := by
  obtain ⟨earlier, later, split⟩ := List.append_of_mem part
  have whole : (runs row).flatten = row := List.flatten_splitBy _ row
  have filled : [] ∉ runs row := List.nil_notMem_splitBy _ row
  have borders : (runs row).IsChain fun xs ys => ∃ inXs inYs,
      decide ((xs.getLast inXs).kind? = (ys.head inYs).kind?) = false :=
    List.isChain_getLast_head_splitBy (fun a b => decide (a.kind? = b.kind?)) row
  have alike : ∀ a ∈ run, ∀ b ∈ run, a.kind? = b.kind? := by
    have chain : (run.map kind?).IsChain (· = ·) := by
      rw [List.isChain_map]
      exact (List.isChain_of_mem_splitBy part).imp fun _ _ => of_decide_eq_true
    intro a inA b inB
    exact List.Pairwise.forall_of_forall (fun _ _ => rfl) chain.pairwise
      (List.mem_map_of_mem inA) (List.mem_map_of_mem inB)
  rw [split] at whole borders filled
  obtain ⟨-, fromHere, toHere⟩ := List.isChain_append.mp borders
  refine ⟨earlier.flatten, later.flatten, ?_, alike, ?_, ?_⟩
  · rw [← whole, List.flatten_append, List.flatten_cons, List.append_assoc]
  · -- What comes before the run ends with the last place of the run before it.
    intro a last b inRun same
    rcases List.eq_nil_or_concat earlier with rfl | ⟨others, previous, rfl⟩
    · cases last
    · obtain ⟨nonempty, inRun', differ⟩ := toHere previous (by simp) run (by simp)
      rw [List.concat_eq_append, List.flatten_append, List.flatten_singleton,
        List.getLast?_append_of_ne_nil _ nonempty, List.getLast?_eq_some_getLast nonempty] at last
      cases last
      exact of_decide_eq_false differ (same.trans (alike b inRun _ (List.head_mem inRun')))
  · intro a first b inRun same
    cases later with
    | nil => cases first
    | cons next others =>
      obtain ⟨inRun', nonempty, differ⟩ := (List.isChain_cons.mp fromHere).1 next (by simp)
      rw [List.flatten_cons, List.head?_append_of_ne_nil _ nonempty,
        List.head?_eq_some_head nonempty] at first
      cases first
      exact of_decide_eq_false differ ((alike _ (List.getLast_mem inRun') b inRun).trans same.symm)

/-! ## What is counted around a place -/

variable {number : Nat} {ancestors : List Ancestor} {before : List NodeKind} {content : Content}
  {earlier later : List Location} {kind : NodeKind}

theorem map_kind?_rowFrom : (rowFrom number ancestors before content).map kind? =
    content.kinds.map some := by
  induction content generalizing number before with
  | nil => rfl
  | leaf l rest ihRest => exact congrArg (some l.kind :: ·) ihRest
  | element e inner rest ihInner ihRest => exact congrArg (some .element :: ·) ihRest

/-- What is left of a row is the row from a later place on, which has the earlier ones before it. -/
theorem exists_rowFrom_of_append
    (split : rowFrom number ancestors before content = earlier ++ later) :
    ∃ number' before' content', later = rowFrom number' ancestors before' content' ∧
      before'.map some = (earlier.map kind?).reverse ++ before.map some := by
  induction earlier generalizing number before content with
  | nil => exact ⟨number, before, content, split.symm, rfl⟩
  | cons first others ih =>
    cases content with
    | nil => cases split
    | leaf l rest =>
      obtain ⟨rfl, left⟩ := List.cons.inj split
      obtain ⟨number', before', content', rfl, kinds⟩ := ih left
      exact ⟨number', before', content', rfl, by simpa [kind?, Content.kinds] using kinds⟩
    | element e inner rest =>
      obtain ⟨rfl, left⟩ := List.cons.inj split
      obtain ⟨number', before', content', rfl, kinds⟩ := ih left
      exact ⟨number', before', content', rfl, by simpa [kind?, Content.kinds] using kinds⟩

theorem eq_of_rowFrom_eq_cons (split : loc :: later = rowFrom number ancestors before content) :
    loc = ⟨number, ancestors, before, content⟩ := by
  cases content with
  | nil => cases split
  | leaf l rest => exact (List.cons.inj split).1
  | element e inner rest => exact (List.cons.inj split).1

/-- Leaves have nothing inside of them, so those in a row are numbered one after the other. -/
theorem numbers_rowFrom (split : rowFrom number ancestors before content = run ++ later)
    (leaves : ∀ a ∈ run, a.kind? ≠ some .element) :
    run.map (·.number) = List.range' number run.length := by
  induction run generalizing number before content with
  | nil => rfl
  | cons first others ih =>
    obtain ⟨isLeaf, areLeaves⟩ := List.forall_mem_cons.mp leaves
    cases content with
    | nil => cases split
    | leaf l rest =>
      obtain ⟨rfl, left⟩ := List.cons.inj split
      rw [List.map_cons, List.length_cons, List.range'_succ, ih left areLeaves]
    | element e inner rest =>
      obtain ⟨rfl, -⟩ := List.cons.inj split
      exact absurd rfl isLeaf

/-- Counting neighbours of one kind stops where the run does. -/
theorem length_takeWhile_kinds {kinds : List NodeKind}
    (alike : ∀ a ∈ run, a.kind? = some kind) (stops : ∀ a ∈ later.head?, a.kind? ≠ some kind)
    (is : kinds.map some = run.map kind? ++ later.map kind?) :
    (kinds.takeWhile (· = kind)).length = run.length := by
  induction run generalizing kinds with
  | nil =>
    cases kinds with
    | nil => rfl
    | cons k kinds =>
      cases later with
      | nil => cases is
      | cons a later =>
        have first : some k = a.kind? := (List.cons.inj is).1
        have other : k ≠ kind := fun same => stops a rfl (first ▸ congrArg some same)
        rw [List.takeWhile_cons_of_neg (by simpa using other)]
        rfl
  | cons a run ih =>
    obtain ⟨here, areAlike⟩ := List.forall_mem_cons.mp alike
    cases kinds with
    | nil => cases is
    | cons k kinds =>
      obtain ⟨first, is⟩ := List.cons.inj is
      have same : k = kind := Option.some.inj (first.trans here)
      rw [List.takeWhile_cons_of_pos (by simpa using same), List.length_cons, ih areAlike is,
        List.length_cons]

/-- The numbers that are counted around a member of a run of comments or instructions are those of
the whole run, whichever member it is. -/
theorem run_eq_map_number (among : row ∈ d.rows) (part : run ∈ runs row) (member : loc ∈ run)
    (here : loc.kind? = some kind) (markup : kind ≠ .element) :
    Request.run loc kind = run.map (·.number) := by
  obtain ⟨before, after, split, surrounded⟩ := exists_surrounded part
  obtain ⟨number, ancestors, content, rfl⟩ := rowFrom_of_mem_rows among
  have alike : ∀ a ∈ run, a.kind? = some kind := fun a inRun =>
    (surrounded.alike a inRun loc member).trans here
  have stopsBefore : ∀ a ∈ before.reverse.head?, a.kind? ≠ some kind := by
    rw [List.head?_reverse, ← here]
    exact fun a last => surrounded.before a last loc member
  have stopsAfter : ∀ a ∈ after.head?, a.kind? ≠ some kind := by
    rw [← here]
    exact fun a first => surrounded.after a first loc member
  -- The numbers of the run, which are consecutive.
  obtain ⟨first, _, _, fromRun, -⟩ :=
    exists_rowFrom_of_append (split.trans (List.append_assoc _ _ _))
  have numbers := numbers_rowFrom fromRun.symm fun a inRun element =>
    markup (Option.some.inj ((alike a inRun).symm.trans element))
  -- The run on both sides of the place.
  obtain ⟨left, right, rfl⟩ := List.append_of_mem member
  have atPlace : rowFrom number ancestors [] content =
      (before ++ left) ++ loc :: (right ++ after) := by simpa using split
  obtain ⟨place, earlierKinds, fromPlace, later, kindsBefore⟩ := exists_rowFrom_of_append atPlace
  have kindsHere := congrArg (List.map kind?) later
  rw [map_kind?_rowFrom] at kindsHere
  obtain rfl := eq_of_rowFrom_eq_cons later
  have countedBefore : (earlierKinds.takeWhile (· = kind)).length = left.length := by
    rw [← left.length_reverse]
    refine length_takeWhile_kinds ?_ stopsBefore ?_
    · exact fun a inLeft => alike a (List.mem_append_left _ (List.mem_reverse.mp inLeft))
    · simpa using kindsBefore
  have countedHere : (fromPlace.kinds.takeWhile (· = kind)).length = right.length + 1 := by
    rw [← List.length_cons]
    refine length_takeWhile_kinds (fun a inRight => alike a (List.mem_append_right _ inRight))
      stopsAfter ?_
    simpa using kindsHere.symm
  have position : place = first + left.length := by
    have entry := congrArg (·[left.length]?) numbers
    simpa using entry
  simp only [Request.run]
  rw [countedBefore, countedHere, numbers, position, List.length_append, List.length_cons,
    Nat.add_sub_cancel]

end Location

end CanonicalXml
