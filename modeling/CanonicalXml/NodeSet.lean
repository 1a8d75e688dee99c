import CanonicalXml.Location
/-! # Node sets

A possibly sparse set of the nodes of a document, as the result of a query
would be.

* `NodeSet` — the members by number, and what the query says about namespace
  nodes and attribute nodes.
* `NodeSet.all`, `NodeSet.withoutComments`, `NodeSet.tree` — the usual sets.
* `NodeSet.intersection`, `NodeSet.union`, `NodeSet.subtract` — combinations,
  each with a lemma on its members.

The members are the positions of the bits of a natural number, so two sets
with the same members are equal. Nothing is said about order: a walk goes
through the document and only asks for membership.
-/

namespace CanonicalXml

/-- A set of the nodes of a document.

`visible?` lists the namespace nodes that were selected, each by its element and its
prefix, the default one being empty; without the list all of them are. `excludesAttributes`
says that elements were selected without their attributes. -/
structure NodeSet where
  members : Nat := 0
  visible? : Option (List (Nat × String)) := none
  excludesAttributes : Bool := false
deriving DecidableEq

namespace NodeSet

def empty : NodeSet := {}

def contains (s : NodeSet) (n : Nat) : Bool :=
  s.members.testBit n

def insert (s : NodeSet) (n : Nat) : NodeSet :=
  { s with members := s.members ||| (1 <<< n) }

def erase (s : NodeSet) (n : Nat) : NodeSet :=
  { s with members := s.members &&& (s.members ^^^ (1 <<< n)) }

def ofList (numbers : List Nat) : NodeSet :=
  numbers.foldl insert empty

def toList (s : NodeSet) : List Nat :=
  (List.range (s.members.log2 + 1)).filter s.contains

def size (s : NodeSet) : Nat :=
  s.toList.length

def isEmpty (s : NodeSet) : Bool :=
  s.members = 0

/-! ## The usual sets -/

def tree (p : Place) (comments : Bool) : NodeSet :=
  let kept := p.locations.filter fun loc => comments || loc.here.kinds.head? ≠ some .comment
  ofList (match p with
    | .document _ => 0 :: kept.map (·.number)
    | .node _ => kept.map (·.number))

def all (d : Document) : NodeSet :=
  tree (.document d.content) true

def withoutComments (d : Document) : NodeSet :=
  tree (.document d.content) false

/-! ## Namespace nodes -/

def restrictsNamespaces (s : NodeSet) : Bool :=
  s.visible?.isSome

/-- Whether the namespace node of a prefix at an element is visible. -/
def isVisible (s : NodeSet) (element : Nat) (nsPrefix : String) : Bool :=
  match s.visible? with
  | none => true
  | some shown => shown.contains (element, nsPrefix)

/-- The pairs that a list of entries shows; of several entries for a pair the last counts. -/
def shownPairs (entries : List ((Nat × String) × Bool)) : List (Nat × String) :=
  entries.foldl
    (fun shown (pair, isShown) =>
      let others := shown.filter (· ≠ pair)
      if isShown then pair :: others else others) []

/-- Makes exactly those namespace nodes visible that the entries show. -/
def showOnly (s : NodeSet) (entries : List ((Nat × String) × Bool)) : NodeSet :=
  { s with visible? := some (shownPairs entries) }

/-! ## Combinations -/

/-- The namespace nodes visible in an intersection: those that both sides show. -/
def visibleInBoth : Option (List (Nat × String)) → Option (List (Nat × String)) →
    Option (List (Nat × String))
  | none, b => b
  | a, none => a
  | some a, some b => some (a.filter b.contains)

/-- The namespace nodes visible in a union: those that one of the sides shows. -/
def visibleInEither : Option (List (Nat × String)) → Option (List (Nat × String)) →
    Option (List (Nat × String))
  | some a, some b => some (a ++ b)
  | _, _ => none

/-- The namespace nodes visible in a difference: those of the left list that the right
list does not show. A side without a list counts as showing none. -/
def visibleInFirst : Option (List (Nat × String)) → Option (List (Nat × String)) →
    Option (List (Nat × String))
  | a, none => a
  | a, some b => some ((a.getD []).filter (! b.contains ·))

def intersection (s t : NodeSet) : NodeSet where
  members := s.members &&& t.members
  visible? := visibleInBoth s.visible? t.visible?
  excludesAttributes := s.excludesAttributes || t.excludesAttributes

def union (s t : NodeSet) : NodeSet where
  members := s.members ||| t.members
  visible? := visibleInEither s.visible? t.visible?
  excludesAttributes := s.excludesAttributes && t.excludesAttributes

def subtract (s t : NodeSet) : NodeSet where
  members := s.members ^^^ (s.members &&& t.members)
  visible? := visibleInFirst s.visible? t.visible?
  excludesAttributes := s.excludesAttributes

/-! ## Membership -/

@[simp] theorem contains_empty (n : Nat) : empty.contains n = false :=
  Nat.zero_testBit n

@[simp] theorem contains_insert (s : NodeSet) (m n : Nat) :
    (s.insert m).contains n = (s.contains n || decide (m = n)) := by
  simp [contains, insert, Nat.one_shiftLeft, Nat.testBit_two_pow]

@[simp] theorem contains_erase (s : NodeSet) (m n : Nat) :
    (s.erase m).contains n = (s.contains n && decide (m ≠ n)) := by
  by_cases h : m = n <;> simp [contains, erase, Nat.one_shiftLeft, h]

@[simp] theorem contains_intersection (s t : NodeSet) (n : Nat) :
    (s.intersection t).contains n = (s.contains n && t.contains n) := by
  simp [contains, intersection]

@[simp] theorem contains_union (s t : NodeSet) (n : Nat) :
    (s.union t).contains n = (s.contains n || t.contains n) := by
  simp [contains, union]

@[simp] theorem contains_subtract (s t : NodeSet) (n : Nat) :
    (s.subtract t).contains n = (s.contains n && !t.contains n) := by
  simp only [contains, subtract, Nat.testBit_xor, Nat.testBit_and]
  cases s.members.testBit n <;> simp

/-- The list of members is complete: a bit of a number is not above its highest one. -/
theorem mem_toList {s : NodeSet} {n : Nat} : n ∈ s.toList ↔ s.contains n = true := by
  simp only [toList, List.mem_filter, List.mem_range, and_iff_right_iff_imp]
  intro h
  refine Decidable.byContradiction fun hn => ?_
  have hlt : s.members < 2 ^ n :=
    Nat.lt_of_lt_of_le Nat.lt_log2_self (Nat.pow_le_pow_right (by decide) (Nat.not_lt.mp hn))
  exact Bool.false_ne_true ((Nat.testBit_lt_two_pow hlt).symm.trans h)

end NodeSet

end CanonicalXml
