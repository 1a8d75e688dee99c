import CanonicalXml.Mode
import CanonicalXml.Proofs.NodeSets

/-! # Combinations of node sets

What a combination of two sets holds, place by place, and which namespace nodes are visible in
it.  A set without a list of namespace nodes shows all of them, and one with a list shows what is
on the list.

* `isVisible_intersection`, `isVisible_union`, `isVisible_subtract` — the namespace nodes of each
  combination; `combinations_pointwise` — together with its members.
* `Construction` — the ways in which a set comes about; `Construction.build_contains`,
  `Construction.build_isVisible` — what it holds and shows, however deep combinations are nested.
* `subtract_hides_unlisted` — a difference of a set without a list and a set with one shows no
  namespace node at all, also none of those that the second set does not show.
-/

namespace CanonicalXml.NodeSet

/-- Whether the set has a list of namespace nodes, and this one is on it. -/
def lists (s : NodeSet) (element : Nat) (nsPrefix : String) : Bool :=
  s.restrictsNamespaces && s.isVisible element nsPrefix

/-! ## Two sets -/

section Pair

variable (s t : NodeSet) (element : Nat) (nsPrefix : String)

@[simp] theorem restricts_intersection :
    (s.intersection t).restrictsNamespaces = (s.restrictsNamespaces || t.restrictsNamespaces) := by
  unfold restrictsNamespaces intersection
  cases s.visible? <;> cases t.visible? <;> rfl

@[simp] theorem restricts_union :
    (s.union t).restrictsNamespaces = (s.restrictsNamespaces && t.restrictsNamespaces) := by
  unfold restrictsNamespaces union
  cases s.visible? <;> cases t.visible? <;> rfl

@[simp] theorem restricts_subtract :
    (s.subtract t).restrictsNamespaces = (s.restrictsNamespaces || t.restrictsNamespaces) := by
  unfold restrictsNamespaces subtract
  cases s.visible? <;> cases t.visible? <;> rfl

/-- Both sides have to show it, and a side without a list does. -/
theorem isVisible_intersection :
    (s.intersection t).isVisible element nsPrefix =
      (s.isVisible element nsPrefix && t.isVisible element nsPrefix) := by
  unfold isVisible intersection
  cases s.visible? with
  | none =>
    cases t.visible? with
    | none => rfl
    | some b => rfl
  | some a =>
    cases t.visible? with
    | none => exact (Bool.and_true _).symm
    | some b => simp [visibleInBoth, List.mem_filter]

/-- One side is enough, and a side without a list shows all. -/
theorem isVisible_union :
    (s.union t).isVisible element nsPrefix =
      (s.isVisible element nsPrefix || t.isVisible element nsPrefix) := by
  unfold isVisible union
  cases s.visible? with
  | none =>
    cases t.visible? with
    | none => rfl
    | some b => rfl
  | some a =>
    cases t.visible? with
    | none => exact (Bool.or_true _).symm
    | some b => simp [visibleInEither]

/-- What the second set lists is hidden.  Where only the second one has a list, nothing is left
to be seen. -/
theorem isVisible_subtract :
    (s.subtract t).isVisible element nsPrefix =
      (s.isVisible element nsPrefix && !t.lists element nsPrefix &&
        (s.restrictsNamespaces || !t.restrictsNamespaces)) := by
  unfold lists isVisible restrictsNamespaces subtract
  cases s.visible? with
  | none =>
    cases t.visible? with
    | none => rfl
    | some b => simp [visibleInFirst]
  | some a =>
    cases t.visible? with
    | none => simp [visibleInFirst]
    | some b => simp [visibleInFirst, List.mem_filter]

end Pair

/-- Combinations act on every node and on every namespace node by itself, an absent list showing
all.  A difference hides what the second set lists, and nothing else as long as the first set has
a list where the second one has. -/
theorem combinations_pointwise (s t : NodeSet) (n element : Nat) (nsPrefix : String) :
    (s.intersection t).contains n = (s.contains n && t.contains n) ∧
    (s.union t).contains n = (s.contains n || t.contains n) ∧
    (s.subtract t).contains n = (s.contains n && !t.contains n) ∧
    (s.intersection t).isVisible element nsPrefix =
      (s.isVisible element nsPrefix && t.isVisible element nsPrefix) ∧
    (s.union t).isVisible element nsPrefix =
      (s.isVisible element nsPrefix || t.isVisible element nsPrefix) ∧
    (s.subtract t).isVisible element nsPrefix =
      (s.isVisible element nsPrefix && !t.lists element nsPrefix &&
        (s.restrictsNamespaces || !t.restrictsNamespaces)) :=
  ⟨contains_intersection s t n, contains_union s t n, contains_subtract s t n,
    isVisible_intersection s t element nsPrefix, isVisible_union s t element nsPrefix,
    isVisible_subtract s t element nsPrefix⟩

/-- All nodes of a document, less a set without nodes that lists one namespace node.  What is
left shows neither this one nor the other one, and declares nothing. -/
theorem subtract_hides_unlisted :
    let text := "<r xmlns:p='u' xmlns:q='v'></r>"
    let listing := empty.showOnly [((1, "p"), true)]
    let written := fun d s => ((Mode.canonical .inclusive false).run (.nodeSet d s) {}).result
    ∃ d, Document.read text = .ok d ∧ (all d).isVisible 1 "q" = true ∧
      listing.lists 1 "q" = false ∧ ((all d).subtract listing).isVisible 1 "q" = false ∧
      written d (all d) = .ok "<r xmlns:p=\"u\" xmlns:q=\"v\"></r>" ∧
      written d ((all d).subtract listing) = .ok "<r></r>" := by
  intro text listing written
  let d := (Document.read text).toOption.getD ⟨"", .nil⟩
  have parsed : Document.read text = .ok d := by decide +kernel
  exact ⟨d, parsed, by decide +kernel, by decide +kernel, by decide +kernel, by decide +kernel,
    by decide +kernel⟩

/-! ## Nested combinations -/

/-- The ways in which a set comes about. -/
inductive Construction where
  | nodes (numbers : List Nat)
  | insert (c : Construction) (n : Nat)
  | erase (c : Construction) (n : Nat)
  | showOnly (c : Construction) (entries : List ((Nat × String) × Bool))
  | excludeAttributes (c : Construction) (excluded : Bool)
  | intersection (c c' : Construction)
  | union (c c' : Construction)
  | subtract (c c' : Construction)

namespace Construction

def build : Construction → NodeSet
  | nodes numbers => .ofList numbers
  | insert c n => c.build.insert n
  | erase c n => c.build.erase n
  | showOnly c entries => c.build.showOnly entries
  | excludeAttributes c excluded => { c.build with excludesAttributes := excluded }
  | intersection c c' => c.build.intersection c'.build
  | union c c' => c.build.union c'.build
  | subtract c c' => c.build.subtract c'.build

/-- Whether a node is to be a member. -/
def Holds : Construction → Nat → Prop
  | nodes numbers, n => n ∈ numbers
  | insert c m, n => c.Holds n ∨ n = m
  | erase c m, n => c.Holds n ∧ n ≠ m
  | showOnly c _, n | excludeAttributes c _, n => c.Holds n
  | intersection c c', n => c.Holds n ∧ c'.Holds n
  | union c c', n => c.Holds n ∨ c'.Holds n
  | subtract c c', n => c.Holds n ∧ ¬ c'.Holds n

/-- Whether namespace nodes were selected one by one. -/
def Restricts : Construction → Prop
  | nodes _ => False
  | insert c _ | erase c _ | excludeAttributes c _ => c.Restricts
  | showOnly _ _ => True
  | intersection c c' | subtract c c' => c.Restricts ∨ c'.Restricts
  | union c c' => c.Restricts ∧ c'.Restricts

/-- Whether a namespace node is to be visible.  Of several entries for it the last one counts. -/
def Shows : Construction → Nat × String → Prop
  | nodes _, _ => True
  | insert c _, pair | erase c _, pair | excludeAttributes c _, pair => c.Shows pair
  | showOnly _ entries, pair => (entries.reverse.find? (·.1 = pair)).map (·.2) = some true
  | intersection c c', pair => c.Shows pair ∧ c'.Shows pair
  | union c c', pair => c.Shows pair ∨ c'.Shows pair
  | subtract c c', pair => c.Shows pair ∧ (c'.Restricts → ¬ c'.Shows pair ∧ c.Restricts)

end Construction

/-- The last entry decides about its pair, and leaves the others as they are. -/
theorem mem_shownPairs_concat (entries : List ((Nat × String) × Bool))
    (entry : (Nat × String) × Bool) (pair : Nat × String) :
    pair ∈ shownPairs (entries ++ [entry]) ↔
      if entry.1 = pair then entry.2 = true else pair ∈ shownPairs entries := by
  obtain ⟨other, isShown⟩ := entry
  unfold shownPairs
  rw [List.foldl_append, List.foldl_cons, List.foldl_nil]
  by_cases same : other = pair
  · cases isShown <;> simp [same]
  · cases isShown <;> simp [same, Ne.symm same]

theorem mem_shownPairs (entries : List ((Nat × String) × Bool)) (pair : Nat × String) :
    pair ∈ shownPairs entries ↔
      (entries.reverse.find? (·.1 = pair)).map (·.2) = some true := by
  -- The entries are taken from the last one on, since that is the one that counts.
  have general : ∀ entries : List ((Nat × String) × Bool),
      pair ∈ shownPairs entries.reverse ↔
        (entries.find? (·.1 = pair)).map (·.2) = some true := by
    intro entries
    induction entries with
    | nil => simp [shownPairs]
    | cons entry entries ih =>
      rw [List.reverse_cons, mem_shownPairs_concat]
      by_cases same : entry.1 = pair
      · rw [if_pos same, List.find?_cons_of_pos (by simpa using same)]
        exact Option.some_inj.symm
      · rw [if_neg same, List.find?_cons_of_neg (by simpa using same)]
        exact ih
  have reversed := general entries.reverse
  rw [List.reverse_reverse] at reversed
  exact reversed

theorem isVisible_showOnly (s : NodeSet) (entries : List ((Nat × String) × Bool))
    (element : Nat) (nsPrefix : String) :
    (s.showOnly entries).isVisible element nsPrefix = true ↔
      (entries.reverse.find? (·.1 = (element, nsPrefix))).map (·.2) = some true := by
  rw [← mem_shownPairs]
  exact List.contains_iff_mem

theorem visible?_ofList (numbers : List Nat) : (ofList numbers).visible? = none :=
  (foldl_insert_axes numbers empty).1

theorem Construction.build_restricts (c : Construction) :
    c.build.restrictsNamespaces = true ↔ c.Restricts := by
  induction c with
  | nodes numbers =>
    simp only [build, Restricts, restrictsNamespaces]
    rw [visible?_ofList]
    exact iff_of_false Bool.false_ne_true id
  | insert c n ih | erase c n ih | excludeAttributes c excluded ih => exact ih
  | showOnly c entries ih => exact iff_of_true rfl trivial
  | intersection c c' ih ih' | union c c' ih ih' | subtract c c' ih ih' =>
    simp [build, Restricts, ih, ih']

theorem Construction.build_contains (c : Construction) (n : Nat) :
    c.build.contains n = true ↔ c.Holds n := by
  induction c with
  | nodes numbers => simp [build, Holds, contains_ofList]
  | insert c m ih => simp [build, Holds, ih, @eq_comm _ m n]
  | erase c m ih => simp [build, Holds, ih, @eq_comm _ m n]
  | showOnly c entries ih | excludeAttributes c excluded ih => exact ih
  | intersection c c' ih ih' | union c c' ih ih' => simp [build, Holds, ih, ih']
  | subtract c c' ih ih' => simp [build, Holds, ih, ← ih']

theorem Construction.build_isVisible (c : Construction) (element : Nat) (nsPrefix : String) :
    c.build.isVisible element nsPrefix = true ↔ c.Shows (element, nsPrefix) := by
  induction c with
  | nodes numbers =>
    simp only [build, Shows, isVisible]
    rw [visible?_ofList]
    exact iff_of_true rfl trivial
  | insert c n ih | erase c n ih | excludeAttributes c excluded ih => exact ih
  | showOnly c entries ih => exact isVisible_showOnly c.build entries element nsPrefix
  | intersection c c' ih ih' => simp [build, Shows, isVisible_intersection, ih, ih']
  | union c c' ih ih' => simp [build, Shows, isVisible_union, ih, ih']
  | subtract c c' ih ih' =>
    simp only [build, Shows]
    rw [isVisible_subtract, ← ih, ← ih', ← build_restricts, ← build_restricts]
    simp only [lists]
    cases c.build.restrictsNamespaces <;> cases c'.build.restrictsNamespaces <;> simp

end CanonicalXml.NodeSet
