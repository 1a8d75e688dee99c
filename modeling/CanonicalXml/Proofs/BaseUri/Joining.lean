import CanonicalXml.Proofs.BaseUri.Resolution

/-! # Joining references

Relative references can be joined with each other before they are joined with an absolute base, as
long as every text that comes out of this has the components that it was made of.

* `Faithful` — what is read of a joined reference is what it was made of.
* `Joined.step` — joining is then associative.
* `UriParts.hasScheme_resolveUri` — what is joined with an absolute base is absolute.
-/

namespace CanonicalXml

/-! ## Faithful joins -/

section Faithful

variable {base reference : List Char}

/-- The components of a joined reference. -/
def joinedParts (base reference : List Char) : UriParts :=
  (UriParts.split base).asBase.resolve (UriParts.split reference)

/-- What is read of a joined reference is what it was made of: the base ends in dots if its path
does, the text shows the components, what is relative stays relative, and what names something else
than the base still does. -/
structure Faithful (base reference : List Char) : Prop where
  directory : UriParts.split (if endsInDots base then base ++ ['/'] else base) =
    (UriParts.split base).asBase
  read : UriParts.split (joinedParts base reference).text = joinedParts base reference
  rooted : UriParts.RootedFrom (UriParts.split base) (UriParts.split reference)
  named : UriParts.NamedFrom (UriParts.split base) (UriParts.split reference)

/-- Either there is nothing to join, or the join is faithful. -/
def JoinsFaithfully (base reference : List Char) : Prop :=
  base = [] ∨ reference = [] ∨ Faithful base reference

instance (base reference : List Char) : Decidable (Faithful base reference) :=
  decidable_of_iff (_ ∧ _ ∧ _ ∧ _)
    ⟨fun h => ⟨h.1, h.2.1, h.2.2.1, h.2.2.2⟩, fun h => ⟨h.directory, h.read, h.rooted, h.named⟩⟩

instance (base reference : List Char) : Decidable (JoinsFaithfully base reference) :=
  inferInstanceAs (Decidable (base = [] ∨ reference = [] ∨ Faithful base reference))

theorem toList_joinUri (base reference : String) :
    (joinUri base reference).toList = resolveUri base.toList reference.toList :=
  String.toList_ofList

theorem split_nil : UriParts.split [] = ⟨none, none, [], none, none⟩ :=
  rfl

theorem ne_nil_of_scheme (scheme : (UriParts.split base).scheme ≠ none) : base ≠ [] := by
  rintro rfl
  exact scheme rfl

/-- What a join that knows the directory of its base writes. -/
theorem resolveUri_eq
    (directory : UriParts.split (if endsInDots base then base ++ ['/'] else base) =
      (UriParts.split base).asBase) (some : base ≠ []) (some' : reference ≠ []) :
    resolveUri base reference = (joinedParts base reference).text := by
  rw [resolveUri, if_neg (by simpa using some), if_neg (by simpa using some')]
  dsimp only
  rw [directory]
  rfl

@[simp] theorem resolveUri_nil (base : List Char) : resolveUri base [] = base := by
  rw [resolveUri]
  cases base with
  | nil => rfl
  | cons c cs => rfl

@[simp] theorem nil_resolveUri (reference : List Char) : resolveUri [] reference = reference :=
  rfl

theorem Faithful.ne_nil (faithful : Faithful base reference) (some : reference ≠ []) :
    (joinedParts base reference).text ≠ [] := by
  intro empty
  have nothing := faithful.read
  rw [empty, split_nil] at nothing
  have isLocal : (joinedParts base reference).IsLocal := by
    rw [← nothing]
    exact ⟨rfl, rfl⟩
  have noPath : (UriParts.split reference).path = [] :=
    faithful.named isLocal (congrArg UriParts.path nothing).symm
  rcases UriParts.reference_cases (UriParts.split reference) with remote | ⟨here, -⟩ | ⟨-, path⟩
  · rw [joinedParts, UriParts.resolve_of_remote remote] at isLocal
    exact remote ⟨(Option.or_eq_none_iff.mp isLocal.1).1, isLocal.2⟩
  · -- A local reference without a path is empty if neither a query nor a fragment is left.
    rw [joinedParts, UriParts.resolve_of_empty here noPath] at nothing
    have query := Option.or_eq_none_iff.mp (congrArg UriParts.query nothing).symm
    have fragment : (UriParts.split reference).fragment = none :=
      (congrArg UriParts.fragment nothing).symm
    refine some ?_
    rw [← UriParts.text_split reference, UriParts.text, here.1, here.2, noPath, query.1, fragment]
    rfl
  · exact path noPath

/-- What comes of joining a reference with a base. -/
structure Joined (base reference result : List Char) : Prop where
  faithful : reference ≠ [] → Faithful base reference
  result : resolveUri base reference = result

theorem Joined.nil (base : List Char) : Joined base [] base :=
  ⟨fun some => absurd rfl some, resolveUri_nil base⟩

theorem Joined.split {result : List Char} (joined : Joined base reference result)
    (some : base ≠ []) (some' : reference ≠ []) :
    UriParts.split result = joinedParts base reference := by
  have faithful := joined.faithful some'
  rw [← joined.result, resolveUri_eq faithful.directory some some', faithful.read]

/-- References can be joined with each other before they are joined with a base. -/
theorem Joined.step {result last : List Char} (scheme : (UriParts.split base).scheme ≠ none)
    (joined : Joined base reference result) (inner : JoinsFaithfully reference last)
    (outer : JoinsFaithfully result last) :
    Joined base (resolveUri reference last) (resolveUri result last) := by
  have some := ne_nil_of_scheme scheme
  by_cases noLast : last = []
  · rw [noLast, resolveUri_nil, resolveUri_nil]
    exact joined
  by_cases noReference : reference = []
  · have start : base = result := by
      rw [← joined.result, noReference, resolveUri_nil]
    rw [noReference, nil_resolveUri, ← start]
    rw [← start] at outer
    exact ⟨fun some' => (outer.resolve_left some).resolve_left some', rfl⟩
  have faithful := joined.faithful noReference
  have first := joined.split some noReference
  have schemeFirst : (UriParts.split result).scheme ≠ none := by
    rw [first, joinedParts, UriParts.scheme_resolve, UriParts.scheme_asBase]
    exact fun none => scheme (Option.or_eq_none_iff.mp none).2
  have faithfulInner := (inner.resolve_left noReference).resolve_left noLast
  have faithfulOuter := (outer.resolve_left (ne_nil_of_scheme schemeFirst)).resolve_left noLast
  -- The components are the same, and so are their texts.
  have plain : (UriParts.split result).asBase = UriParts.split result := by
    rw [first]
    exact UriParts.asBase_of_plain (UriParts.endsInDots_resolve _ _)
  have same : (UriParts.split base).asBase.resolve (joinedParts reference last) =
      joinedParts result last := by
    rw [joinedParts, joinedParts, plain, first]
    exact UriParts.resolve_resolve (UriParts.placed_split _) (UriParts.placed_split _)
      faithful.rooted faithfulInner.rooted faithfulInner.named
  have inside : resolveUri reference last = (joinedParts reference last).text :=
    resolveUri_eq faithfulInner.directory noReference noLast
  have parts : joinedParts base (resolveUri reference last) = joinedParts result last := by
    rw [inside, joinedParts, faithfulInner.read, same]
  refine ⟨fun _ => ⟨faithful.directory, ?_, ?_, ?_⟩, ?_⟩
  · rw [parts]
    exact faithfulOuter.read
  · rw [inside, faithfulInner.read]
    refine UriParts.rootedFrom_resolve (UriParts.placed_split _) faithful.rooted ?_ ?_
    · rw [← joinedParts, ← first]
      exact faithfulOuter.rooted
    · rw [← joinedParts, ← joinedParts, ← first]
      exact same
  · rintro ⟨none, -⟩ _
    rw [UriParts.scheme_resolve, UriParts.scheme_asBase] at none
    exact absurd (Option.or_eq_none_iff.mp none).2 scheme
  · rw [resolveUri_eq faithful.directory some (inside ▸ faithfulInner.ne_nil noLast), parts,
      resolveUri_eq faithfulOuter.directory (ne_nil_of_scheme schemeFirst) noLast]

end Faithful

/-! ## Schemes -/

namespace UriParts

variable {cs : List Char}

/-- The text begins with a scheme. -/
def HasScheme (cs : List Char) : Prop :=
  ∃ s rest, isScheme s = true ∧ cs = s ++ ':' :: rest

theorem cut_append {mark : Char} {before : List Char} (plain : mark ∉ before) (cs : List Char) :
    cut mark (before ++ cs) = (before ++ (cut mark cs).1, (cut mark cs).2) := by
  have skips : ∀ c ∈ before, decide (c ≠ mark) = true := by
    intro c member
    rw [decide_eq_true_iff]
    rintro rfl
    exact plain member
  simp only [cut]
  rw [List.dropWhile_append_of_pos skips, List.takeWhile_append_of_pos skips]
  split
  · rfl
  · rfl

theorem cut_cons_self (mark : Char) (cs : List Char) : cut mark (mark :: cs) = ([], some cs) := by
  simp [cut]

theorem notMem_of_isScheme {s : List Char} (scheme : isScheme s = true) {mark : Char}
    (other : (mark.isAlphanum || mark = '+' || mark = '-' || mark = '.') = false) : mark ∉ s := by
  cases s with
  | nil => exact nofun
  | cons c s =>
    rw [isScheme, Bool.and_eq_true, List.all_eq_true] at scheme
    intro member
    rcases List.mem_cons.mp member with rfl | member
    · rw [Char.isAlphanum, scheme.1] at other
      cases other
    · rw [scheme.2 mark member] at other
      cases other

theorem isScheme_of_split {s : List Char} (found : (split cs).scheme = some s) :
    isScheme s = true := by
  simp only [split, splitScheme] at found
  split at found
  · split at found
    · rename_i scheme
      cases found
      exact scheme
    · cases found
  · cases found

theorem text_of_scheme {parts : UriParts} {s : List Char} (found : parts.scheme = some s) :
    ∃ rest, parts.text = s ++ ':' :: rest := by
  refine ⟨component ['/', '/'] parts.authority [] ++ parts.path ++
    component ['?'] parts.query [] ++ component ['#'] parts.fragment [], ?_⟩
  rw [text, found]
  simp [component]

theorem hasScheme_iff : HasScheme cs ↔ (split cs).scheme ≠ none := by
  constructor
  · rintro ⟨s, rest, scheme, rfl⟩
    have plain {mark : Char}
        (other : (mark.isAlphanum || mark = '+' || mark = '-' || mark = '.') = false) : mark ∉ s :=
      notMem_of_isScheme scheme other
    have marked {mark : Char} (notColon : mark ≠ ':')
        (other : (mark.isAlphanum || mark = '+' || mark = '-' || mark = '.') = false)
        (cs : List Char) : (cut mark (s ++ ':' :: cs)).1 = s ++ ':' :: (cut mark cs).1 := by
      have notMem : mark ∉ s ++ [':'] := by
        rw [List.mem_append, not_or, List.mem_singleton]
        exact ⟨plain other, notColon⟩
      rw [← List.singleton_append, ← List.append_assoc, cut_append notMem]
      simp
    have found (cs : List Char) : (splitScheme (s ++ ':' :: cs)).1 = some s := by
      rw [splitScheme, cut_append (plain (by decide)), cut_cons_self]
      simp [scheme]
    simp only [split]
    rw [marked (by decide) (by decide), marked (by decide) (by decide), found]
    exact Option.some_ne_none s
  · intro some
    obtain ⟨s, found⟩ := Option.ne_none_iff_exists'.mp some
    obtain ⟨rest, text⟩ := text_of_scheme found
    exact ⟨s, rest, isScheme_of_split found, (text_split cs).symm.trans text⟩

/-- What is joined with a base that has a scheme has one. -/
theorem hasScheme_resolveUri {base : List Char} (known : HasScheme base) (reference : List Char) :
    HasScheme (resolveUri base reference) := by
  have some := ne_nil_of_scheme (hasScheme_iff.mp known)
  by_cases none : reference = []
  · rw [none, resolveUri_nil]
    exact known
  rw [resolveUri, if_neg (by simpa using some), if_neg (by simpa using none)]
  dsimp only
  have opened : HasScheme (if endsInDots base then base ++ ['/'] else base) := by
    split
    · obtain ⟨s, rest, scheme, rfl⟩ := known
      exact ⟨s, rest ++ ['/'], scheme, by simp⟩
    · exact known
  generalize (if endsInDots base then base ++ ['/'] else base) = base at opened ⊢
  have joined := scheme_resolve (split base) (split reference)
  cases own : (split reference).scheme with
  | some s =>
    rw [own, Option.some_or] at joined
    obtain ⟨rest, text⟩ := text_of_scheme joined
    exact ⟨s, rest, isScheme_of_split own, text⟩
  | none =>
    obtain ⟨s, found⟩ := Option.ne_none_iff_exists'.mp (hasScheme_iff.mp opened)
    rw [own, Option.none_or, found] at joined
    obtain ⟨rest, text⟩ := text_of_scheme joined
    exact ⟨s, rest, isScheme_of_split found, text⟩

end UriParts

end CanonicalXml
