import CanonicalXml.Proofs.BaseUri.NormalForm

/-! # Resolving references

References are resolved component by component, and what comes of this can be resolved again.

* `UriParts.text_split` — the components of a reference make up its text.
* `UriParts.asBase` — a base whose path ends in dots names a directory.
* `UriParts.RootedFrom`, `UriParts.NamedFrom` — nothing turns into something else.
* `UriParts.resolve_resolve` — resolution is then associative.
-/

namespace CanonicalXml

/-! ## Paths from other paths on -/

section Paths

variable {base path rest : List Char}

/-- A path from another one on, unless it begins at the root. -/
def pathFrom (base path : List Char) : List Char :=
  if IsAbsolute path then path else directory base ++ path

theorem isAbsolute_pathFrom :
    IsAbsolute (pathFrom base path) ↔ IsAbsolute path ∨ IsAbsolute base := by
  rw [pathFrom]
  by_cases absolute : IsAbsolute path
  · rw [if_pos absolute]
    exact ⟨.inl, fun _ => absolute⟩
  · rw [if_neg absolute, isAbsolute_directory_append absolute]
    exact ⟨.inr, fun either => either.resolve_left absolute⟩

theorem endsInDots_pathFrom (base path : List Char) :
    endsInDots (pathFrom base path) = endsInDots path := by
  rw [pathFrom]
  split
  · rfl
  · rename_i relative
    exact endsInDots_directory_append base relative

/-- Two paths can be put together before they are put behind a third one. -/
theorem removeDotSegments_pathFrom (relative : ¬ IsAbsolute rest)
    (kept : KeepsRelative (directory path ++ rest)) :
    removeDotSegments (pathFrom base (removeDotSegments (directory path ++ rest))) =
      removeDotSegments (directory (pathFrom base path) ++ rest) := by
  by_cases absolute : IsAbsolute path
  · have whole := (isAbsolute_directory_append relative).mpr absolute
    rw [pathFrom, if_pos whole.removeDotSegments, pathFrom, if_pos absolute, removeDotSegments_idem]
  · have part := mt (isAbsolute_directory_append relative).mp absolute
    rw [pathFrom, if_neg (mt kept part), pathFrom, if_neg absolute,
      removeDotSegments_append _ part kept, directory_append _ absolute, List.append_assoc]

end Paths

namespace UriParts

/-! ## Components and texts -/

theorem cut_eq (mark : Char) (cs : List Char) :
    (cut mark cs).1 ++ component [mark] (cut mark cs).2 [] = cs := by
  simp only [cut]
  split
  · exact List.append_nil cs
  · rename_i c rest found
    have begins : c = mark := by
      have head := List.head?_dropWhile_not (fun d => decide (d ≠ mark)) cs
      rw [found] at head
      simpa using head
    have whole := List.takeWhile_append_dropWhile (p := fun d => decide (d ≠ mark)) (l := cs)
    rw [found, begins] at whole
    simpa [component] using whole

theorem splitScheme_eq (cs : List Char) :
    component [] (splitScheme cs).1 [':'] ++ (splitScheme cs).2 = cs := by
  have whole := cut_eq ':' cs
  simp only [splitScheme]
  split
  · rename_i before rest found
    rw [found] at whole
    split
    · simpa [component] using whole
    · rfl
  · rfl

theorem splitAuthority_eq (cs : List Char) :
    component ['/', '/'] (splitAuthority cs).1 [] ++ (splitAuthority cs).2 = cs := by
  simp only [splitAuthority]
  split
  · simp [component]
  · rfl

/-- The components of a reference make up its text. -/
theorem text_split (cs : List Char) : (split cs).text = cs := by
  simp only [split, text]
  rw [List.append_assoc (component [] _ _), splitAuthority_eq, splitScheme_eq, cut_eq, cut_eq]

/-- An authority is followed by an absolute path, if by any. -/
def Placed (parts : UriParts) : Prop :=
  parts.authority ≠ none → parts.path = [] ∨ IsAbsolute parts.path

theorem placed_split (cs : List Char) : (split cs).Placed := by
  have placed (cs : List Char) : (splitAuthority cs).1 ≠ none →
      (splitAuthority cs).2 = [] ∨ IsAbsolute (splitAuthority cs).2 := by
    simp only [splitAuthority]
    split
    · rename_i rest
      intro _
      have head := List.head?_dropWhile_not (fun c => decide (c ≠ '/')) rest
      cases after : rest.dropWhile (· ≠ '/') with
      | nil => exact .inl rfl
      | cons c cs =>
        rw [after] at head
        exact .inr (by simpa [IsAbsolute] using head)
    · exact fun h => absurd rfl h
  exact placed _

/-- A reference that is resolved from some authority on, or from the root of one. -/
def IsRooted (parts : UriParts) : Prop :=
  parts.authority ≠ none ∨ IsAbsolute parts.path

instance : DecidablePred IsRooted := fun parts =>
  inferInstanceAs (Decidable (parts.authority ≠ none ∨ IsAbsolute parts.path))

/-- A base whose path ends in dots names a directory. -/
def asBase (parts : UriParts) : UriParts :=
  if endsInDots parts.path then { parts with path := parts.path ++ ['/'] } else parts

/-- The path that a relative one is put behind. -/
def folder (base : UriParts) : List Char :=
  if base.authority.isSome && base.path.isEmpty then ['/'] else base.path

/-! ## Resolution, one kind of reference after another -/

section Resolve

variable {base reference : UriParts}

theorem mergePaths_eq (base reference : UriParts) :
    mergePaths base reference = directory base.folder ++ reference.path := by
  simp only [mergePaths, folder]
  split
  · rfl
  · rfl

/-- A reference with neither a scheme nor an authority. -/
def IsLocal (reference : UriParts) : Prop :=
  reference.scheme = none ∧ reference.authority = none

/-- A reference with a scheme or an authority takes nothing else of the base. -/
theorem resolve_of_remote (remote : ¬ reference.IsLocal) (base : UriParts) :
    base.resolve reference = { reference with
      scheme := reference.scheme.or base.scheme, path := removeDotSegments reference.path } := by
  rw [resolve]
  cases scheme : reference.scheme with
  | some s => rfl
  | none =>
    have authority : reference.authority ≠ none := fun none => remote ⟨scheme, none⟩
    rw [if_neg (by simp), if_pos (by simpa [Option.isSome_iff_ne_none] using authority)]
    rfl

theorem resolve_of_empty (isLocal : reference.IsLocal) (empty : reference.path = [])
    (base : UriParts) : base.resolve reference = { base with
      query := reference.query.or base.query, fragment := reference.fragment } := by
  rw [resolve, isLocal.1, isLocal.2, empty]
  rfl

/-- The path that the dot segments of a local reference are removed from. -/
def target (base reference : UriParts) : List Char :=
  pathFrom base.folder reference.path

theorem resolve_of_path (isLocal : reference.IsLocal) (nonempty : reference.path ≠ [])
    (base : UriParts) : base.resolve reference = { reference with
      scheme := base.scheme, authority := base.authority,
      path := removeDotSegments (base.target reference) } := by
  rw [resolve, isLocal.1, isLocal.2, if_neg (by simp), if_neg (by simp),
    if_neg (by simpa using nonempty), mergePaths_eq]
  rfl

theorem reference_cases (reference : UriParts) :
    ¬ reference.IsLocal ∨ (reference.IsLocal ∧ reference.path = []) ∨
      (reference.IsLocal ∧ reference.path ≠ []) := by
  by_cases isLocal : reference.IsLocal
  · by_cases empty : reference.path = []
    · exact .inr (.inl ⟨isLocal, empty⟩)
    · exact .inr (.inr ⟨isLocal, empty⟩)
  · exact .inl isLocal

theorem scheme_resolve (base reference : UriParts) :
    (base.resolve reference).scheme = reference.scheme.or base.scheme := by
  rcases reference_cases reference with remote | ⟨isLocal, empty⟩ | ⟨isLocal, nonempty⟩
  · rw [resolve_of_remote remote]
  · rw [resolve_of_empty isLocal empty, isLocal.1]
    rfl
  · rw [resolve_of_path isLocal nonempty, isLocal.1]
    rfl

theorem authority_resolve_of_local (isLocal : reference.IsLocal) (base : UriParts) :
    (base.resolve reference).authority = base.authority := by
  by_cases empty : reference.path = []
  · rw [resolve_of_empty isLocal empty]
  · rw [resolve_of_path isLocal empty]

end Resolve

/-! ## Bases whose path ends in dots -/

section AsBase

variable {parts : UriParts}

@[simp] theorem scheme_asBase (parts : UriParts) : parts.asBase.scheme = parts.scheme := by
  rw [asBase]
  split <;> rfl

@[simp] theorem authority_asBase (parts : UriParts) :
    parts.asBase.authority = parts.authority := by
  rw [asBase]
  split <;> rfl

@[simp] theorem query_asBase (parts : UriParts) : parts.asBase.query = parts.query := by
  rw [asBase]
  split <;> rfl

theorem asBase_of_plain (plain : endsInDots parts.path = false) : parts.asBase = parts := by
  rw [asBase, plain, if_neg Bool.false_ne_true]

/-- The path of a base is the same path, with a slash behind it if it ends in dots. -/
theorem path_asBase_cases (parts : UriParts) :
    (endsInDots parts.path = false ∧ parts.asBase.path = parts.path) ∨
      (endsInDots parts.path = true ∧ parts.asBase.path = parts.path ++ ['/']) := by
  rw [asBase]
  cases endsInDots parts.path with
  | true => exact .inr ⟨rfl, rfl⟩
  | false => exact .inl ⟨rfl, rfl⟩

theorem endsInDots_asBase (parts : UriParts) : endsInDots parts.asBase.path = false := by
  rcases path_asBase_cases parts with ⟨plain, same⟩ | ⟨-, slash⟩
  · rw [same, plain]
  · rw [slash, endsInDots_append_slash]

theorem removeDotSegments_asBase (parts : UriParts) :
    removeDotSegments parts.asBase.path = removeDotSegments parts.path := by
  rcases path_asBase_cases parts with ⟨-, same⟩ | ⟨ends, slash⟩
  · rw [same]
  · rw [slash, removeDotSegments_append_slash ends]

theorem path_asBase_eq_nil : parts.asBase.path = [] ↔ parts.path = [] := by
  rcases path_asBase_cases parts with ⟨-, same⟩ | ⟨ends, slash⟩
  · rw [same]
  · rw [slash]
    constructor
    · intro empty
      simp at empty
    · intro empty
      rw [empty] at ends
      cases ends

theorem isAbsolute_asBase : IsAbsolute parts.asBase.path ↔ IsAbsolute parts.path := by
  rcases path_asBase_cases parts with ⟨-, same⟩ | ⟨ends, slash⟩
  · rw [same]
  · rw [slash]
    cases path : parts.path with
    | nil =>
      rw [path] at ends
      cases ends
    | cons c rest => exact Iff.rfl

theorem Placed.asBase (placed : parts.Placed) : parts.asBase.Placed := by
  intro authority
  rw [authority_asBase] at authority
  rw [path_asBase_eq_nil, isAbsolute_asBase]
  exact placed authority

theorem isRooted_asBase : parts.asBase.IsRooted ↔ parts.IsRooted := by
  rw [IsRooted, IsRooted, authority_asBase, isAbsolute_asBase]

theorem isLocal_asBase : parts.asBase.IsLocal ↔ parts.IsLocal := by
  rw [IsLocal, IsLocal, scheme_asBase, authority_asBase]

/-- It makes no difference to the reference itself whether its path is that of a directory. -/
theorem removeDotSegments_target_asBase (base reference : UriParts) :
    removeDotSegments (base.target reference.asBase) =
      removeDotSegments (base.target reference) := by
  simp only [target]
  by_cases absolute : IsAbsolute reference.path
  · rw [pathFrom, pathFrom, if_pos absolute, if_pos (isAbsolute_asBase.mpr absolute),
      removeDotSegments_asBase]
  · rw [pathFrom, pathFrom, if_neg absolute, if_neg (mt isAbsolute_asBase.mp absolute)]
    rcases path_asBase_cases reference with ⟨-, same⟩ | ⟨ends, slash⟩
    · rw [same]
    · rw [slash, ← List.append_assoc]
      refine removeDotSegments_append_slash ?_
      rw [endsInDots_directory_append _ absolute, ends]

end AsBase

/-! ## The path that a relative one is put behind -/

section Folder

variable {base reference : UriParts}

theorem folder_of_authority_of_nil (authority : base.authority ≠ none) (empty : base.path = []) :
    base.folder = ['/'] := by
  have some := Option.isSome_iff_ne_none.mpr authority
  rw [folder, some, empty]
  rfl

theorem folder_of_path (inside : base.authority ≠ none → base.path ≠ []) :
    base.folder = base.path := by
  rw [folder]
  refine if_neg fun both => ?_
  rw [Bool.and_eq_true, Option.isSome_iff_ne_none, List.isEmpty_iff] at both
  exact inside both.1 both.2

theorem IsRooted.folder (placed : base.Placed) (rooted : base.IsRooted) :
    IsAbsolute base.folder := by
  by_cases authority : base.authority = none
  · rw [folder_of_path fun some => absurd authority some]
    exact rooted.resolve_left fun some => some authority
  · rcases placed authority with empty | absolute
    · rw [folder_of_authority_of_nil authority empty]
      rfl
    · rw [folder_of_path fun _ empty => by rw [empty] at absolute; cases absolute]
      exact absolute

theorem endsInDots_folder (plain : endsInDots base.path = false) :
    endsInDots base.folder = false := by
  rw [folder]
  split
  · rfl
  · exact plain

/-- What a relative path is put behind has no dot segments if the base has none. -/
theorem folder_removeDotSegments (placed : base.Placed) :
    folder { base with path := removeDotSegments base.path } = removeDotSegments base.folder := by
  by_cases empty : base.authority ≠ none ∧ base.path = []
  · have whole : base.folder = ['/'] := folder_of_authority_of_nil empty.1 empty.2
    rw [whole]
    exact folder_of_authority_of_nil empty.1 (by simp only [empty.2]; rfl)
  · have inside : base.authority ≠ none → base.path ≠ [] := fun some none => empty ⟨some, none⟩
    have whole : base.folder = base.path := folder_of_path inside
    rw [whole, folder_of_path]
    intro authority none
    have absolute := ((placed authority).resolve_left (inside authority)).removeDotSegments
    rw [show removeDotSegments base.path = [] from none] at absolute
    cases absolute

end Folder

/-! ## Resolving twice -/

section Twice

variable {above reference last : UriParts}

/-- A joined reference is rooted only if what it is made of is. -/
def RootedFrom (base reference : UriParts) : Prop :=
  (base.asBase.resolve reference).IsRooted →
    reference.IsRooted ∨ reference.scheme = none ∧ base.IsRooted

/-- A joined reference has no path only if the last one has none, if it is local. -/
def NamedFrom (base reference : UriParts) : Prop :=
  (base.asBase.resolve reference).IsLocal → (base.asBase.resolve reference).path = [] →
    reference.path = []

instance (base reference : UriParts) : Decidable (RootedFrom base reference) :=
  inferInstanceAs (Decidable (_ → _ ∨ _ ∧ _))

instance : DecidablePred IsLocal := fun reference =>
  inferInstanceAs (Decidable (reference.scheme = none ∧ reference.authority = none))

instance (base reference : UriParts) : Decidable (NamedFrom base reference) :=
  inferInstanceAs (Decidable (_ → _ → _))

/-- A joined reference does not end in dots. -/
theorem endsInDots_resolve (base reference : UriParts) :
    endsInDots (base.asBase.resolve reference).path = false := by
  rcases reference_cases reference with remote | ⟨isLocal, empty⟩ | ⟨isLocal, nonempty⟩
  · rw [resolve_of_remote remote]
    exact endsInDots_removeDotSegments _
  · rw [resolve_of_empty isLocal empty]
    exact endsInDots_asBase base
  · rw [resolve_of_path isLocal nonempty]
    exact endsInDots_removeDotSegments _

/-- The path of a reference that is not local stays relative if it is. -/
theorem keepsRelative_of_remote (placed : reference.Placed) (remote : ¬ reference.IsLocal)
    (rooted : RootedFrom above reference) : KeepsRelative reference.path := by
  intro absolute
  have ofRooted (rooted : reference.IsRooted) : IsAbsolute reference.path := by
    rcases rooted with authority | absolute
    · refine (placed authority).resolve_left fun empty => ?_
      rw [empty] at absolute
      cases absolute
    · assumption
  by_cases scheme : reference.scheme = none
  · exact ofRooted (.inl fun authority => remote ⟨scheme, authority⟩)
  · rw [RootedFrom, resolve_of_remote remote] at rooted
    exact ofRooted ((rooted (.inr absolute)).resolve_right fun none => scheme none.1)

/-- So does the path that the path of a local reference is merged to. -/
theorem keepsRelative_target (placed : above.Placed) (isLocal : reference.IsLocal)
    (nonempty : reference.path ≠ []) (rooted : RootedFrom above reference) :
    KeepsRelative (above.asBase.target reference) := by
  intro absolute
  rw [RootedFrom, resolve_of_path isLocal nonempty] at rooted
  rw [target, isAbsolute_pathFrom]
  rcases rooted (.inr absolute) with (authority | path) | ⟨-, base⟩
  · exact absurd isLocal.2 authority
  · exact .inl path
  · exact .inr ((isRooted_asBase.mpr base).folder placed.asBase)

/-- The last reference has a scheme or an authority. -/
theorem resolve_resolve_remote (remote : ¬ last.IsLocal) :
    above.asBase.resolve (reference.asBase.resolve last) =
      (above.asBase.resolve reference).resolve last := by
  have stays : ¬ IsLocal (reference.asBase.resolve last) := by
    rw [resolve_of_remote remote]
    rintro ⟨scheme, authority⟩
    exact remote ⟨(Option.or_eq_none_iff.mp scheme).1, authority⟩
  rw [resolve_of_remote stays, resolve_of_remote remote, resolve_of_remote remote, scheme_resolve]
  simp only [removeDotSegments_idem, Option.or_assoc, scheme_asBase]

/-- The last reference has no path. -/
theorem resolve_resolve_empty (isLocal : last.IsLocal) (empty : last.path = []) :
    above.asBase.resolve (reference.asBase.resolve last) =
      (above.asBase.resolve reference).resolve last := by
  rw [resolve_of_empty isLocal empty, resolve_of_empty isLocal empty]
  rcases reference_cases reference with remote | ⟨isLocal', empty'⟩ | ⟨isLocal', nonempty⟩
  · rw [resolve_of_remote remote, resolve_of_remote (by exact mt isLocal_asBase.mp remote)]
    simp only [removeDotSegments_asBase, scheme_asBase, authority_asBase, query_asBase]
  · rw [resolve_of_empty isLocal' empty',
      resolve_of_empty (by exact isLocal_asBase.mpr isLocal')
        (by exact path_asBase_eq_nil.mpr empty')]
    simp only [query_asBase, Option.or_assoc]
  · rw [resolve_of_path isLocal' nonempty,
      resolve_of_path (by exact isLocal_asBase.mpr isLocal')
        (by exact mt path_asBase_eq_nil.mp nonempty),
      ← removeDotSegments_target_asBase above.asBase reference]
    simp only [query_asBase]
    rfl

/-- The last reference has an absolute path. -/
theorem resolve_resolve_absolute (isLocal : last.IsLocal) (absolute : IsAbsolute last.path) :
    above.asBase.resolve (reference.asBase.resolve last) =
      (above.asBase.resolve reference).resolve last := by
  have nonempty : last.path ≠ [] := by
    intro empty
    rw [empty] at absolute
    cases absolute
  have path (base : UriParts) : base.target last = last.path := if_pos absolute
  have left : IsAbsolute (removeDotSegments last.path) := absolute.removeDotSegments
  have some : removeDotSegments last.path ≠ [] := by
    intro empty
    rw [empty] at left
    cases left
  rw [resolve_of_path isLocal nonempty, resolve_of_path isLocal nonempty, path, path,
    scheme_resolve]
  by_cases isLocal' : reference.IsLocal
  · rw [authority_resolve_of_local isLocal', resolve_of_path (by exact isLocal_asBase.mpr isLocal')
      (by exact some), isLocal'.1]
    simp only [target, pathFrom, if_pos left, removeDotSegments_idem, Option.none_or]
  · rw [resolve_of_remote isLocal', resolve_of_remote (by exact mt isLocal_asBase.mp isLocal')]
    simp only [removeDotSegments_idem, scheme_asBase, authority_asBase]

theorem target_of_relative (relative : ¬ IsAbsolute last.path) (base : UriParts) :
    base.target last = directory base.folder ++ last.path :=
  if_neg relative

section Relative

variable (isLocal : last.IsLocal) (nonempty : last.path ≠ []) (relative : ¬ IsAbsolute last.path)
include isLocal nonempty relative

/-- The last reference has a relative path, which is put behind that of a reference with a scheme
or an authority. -/
theorem resolve_resolve_of_remote (placed : reference.Placed) (remote : ¬ reference.IsLocal)
    (rooted : RootedFrom above reference) :
    above.asBase.resolve (reference.asBase.resolve last) =
      (above.asBase.resolve reference).resolve last := by
  have keeps : KeepsRelative reference.asBase.folder := by
    intro absolute
    by_cases authority : reference.authority = none
    · have whole : reference.asBase.folder = reference.asBase.path :=
        folder_of_path fun some => absurd (authority_asBase reference ▸ authority) some
      rw [whole, isAbsolute_asBase]
      rw [whole, removeDotSegments_asBase] at absolute
      exact keepsRelative_of_remote placed remote rooted absolute
    · exact (isRooted_asBase.mpr (.inl authority)).folder placed.asBase
  -- The joined reference has the dot segments of its path removed already.
  have folder : folder { reference with
      scheme := reference.scheme.or above.scheme,
      path := removeDotSegments reference.path } = removeDotSegments reference.asBase.folder := by
    rw [← folder_removeDotSegments placed.asBase, removeDotSegments_asBase]
    simp only [UriParts.folder, authority_asBase]
  have stays : ¬ IsLocal (reference.asBase.resolve last) := by
    rw [resolve_of_path isLocal nonempty]
    exact mt isLocal_asBase.mp remote
  rw [resolve_of_remote stays, resolve_of_path isLocal nonempty, resolve_of_remote remote,
    resolve_of_path isLocal nonempty]
  simp only [removeDotSegments_idem, scheme_asBase, authority_asBase]
  rw [target_of_relative relative, target_of_relative relative, folder,
    removeDotSegments_directory (endsInDots_folder (endsInDots_asBase reference)) keeps relative]

/-- It is the only path, behind that of the base. -/
theorem resolve_resolve_of_empty (isLocal' : reference.IsLocal) (empty : reference.path = [])
    (rooted : RootedFrom reference last) (named : NamedFrom reference last) :
    above.asBase.resolve (reference.asBase.resolve last) =
      (above.asBase.resolve reference).resolve last := by
  have folder : reference.asBase.folder = [] := by
    rw [folder_of_path fun some => absurd (isLocal_asBase.mpr isLocal').2 some]
    exact path_asBase_eq_nil.mpr empty
  have target : reference.asBase.target last = last.path := by
    rw [target_of_relative relative, folder]
    rfl
  have joined : reference.asBase.resolve last =
      { last with path := removeDotSegments last.path } := by
    rw [resolve_of_path isLocal nonempty, target, isLocal.1, isLocal.2,
      (isLocal_asBase.mpr isLocal').1, (isLocal_asBase.mpr isLocal').2]
  have placed : reference.Placed := fun some => absurd isLocal'.2 some
  have keeps := keepsRelative_target placed isLocal nonempty rooted
  rw [target] at keeps
  have some : removeDotSegments last.path ≠ [] := by
    rw [NamedFrom, joined] at named
    exact fun none => nonempty (named isLocal none)
  have left : ¬ IsAbsolute (removeDotSegments last.path) := mt keeps relative
  rw [joined, resolve_of_path (by exact isLocal) (by exact some), resolve_of_empty isLocal' empty,
    resolve_of_path isLocal nonempty, target_of_relative (by exact left),
    target_of_relative relative]
  simp only [removeDotSegments_append _ relative keeps]
  rfl

/-- It is put behind that of a local reference, and then behind that of the base. -/
theorem resolve_resolve_of_path (placed : above.Placed) (isLocal' : reference.IsLocal)
    (nonempty' : reference.path ≠ []) (rooted : RootedFrom above reference)
    (rooted' : RootedFrom reference last) (named : NamedFrom reference last) :
    above.asBase.resolve (reference.asBase.resolve last) =
      (above.asBase.resolve reference).resolve last := by
  have noAuthority : reference.asBase.authority = none := (isLocal_asBase.mpr isLocal').2
  have folder : reference.asBase.folder = reference.asBase.path :=
    folder_of_path fun some => absurd noAuthority some
  have placed' : reference.Placed := fun some => absurd isLocal'.2 some
  have joined : reference.asBase.resolve last = { last with
      path := removeDotSegments (directory reference.asBase.path ++ last.path) } := by
    rw [resolve_of_path isLocal nonempty, target_of_relative relative, folder, isLocal.1,
      isLocal.2, (isLocal_asBase.mpr isLocal').1, noAuthority]
  have some : removeDotSegments (directory reference.asBase.path ++ last.path) ≠ [] := by
    rw [NamedFrom, joined] at named
    exact fun none => nonempty (named isLocal none)
  have keeps := keepsRelative_target placed' isLocal nonempty rooted'
  rw [target_of_relative relative, folder] at keeps
  have ends : endsInDots (above.asBase.target reference.asBase) = false := by
    rw [target, endsInDots_pathFrom, endsInDots_asBase]
  have keepsFirst : KeepsRelative (above.asBase.target reference.asBase) := by
    have keeps := keepsRelative_target placed isLocal' nonempty' rooted
    rw [KeepsRelative, target, isAbsolute_pathFrom] at keeps ⊢
    rw [← target, removeDotSegments_target_asBase, isAbsolute_asBase]
    exact keeps
  -- What comes of the base and the first reference has its dot segments removed already.
  have folderFirst : UriParts.folder { reference with
      scheme := above.scheme, authority := above.authority,
      path := removeDotSegments (above.asBase.target reference) } =
        removeDotSegments (above.asBase.target reference.asBase) := by
    rw [removeDotSegments_target_asBase, folder_of_path]
    intro authority none
    have known : above.IsRooted := .inl authority
    have root := (isRooted_asBase.mpr known).folder placed.asBase
    have absolute : IsAbsolute (above.asBase.target reference) :=
      isAbsolute_pathFrom.mpr (.inr root)
    have left := absolute.removeDotSegments
    rw [show removeDotSegments (above.asBase.target reference) = [] from none] at left
    cases left
  rw [joined, resolve_of_path (by exact isLocal) (by exact some),
    resolve_of_path isLocal' nonempty', resolve_of_path isLocal nonempty,
    target_of_relative relative]
  simp only [scheme_asBase, authority_asBase]
  rw [folderFirst, removeDotSegments_directory ends keepsFirst relative]
  simp only [target]
  rw [removeDotSegments_pathFrom relative keeps]

end Relative

/-- Resolving components is associative, unless what comes between turns into something else. -/
theorem resolve_resolve (placedAbove : above.Placed) (placed : reference.Placed)
    (rooted : RootedFrom above reference) (rooted' : RootedFrom reference last)
    (named : NamedFrom reference last) :
    above.asBase.resolve (reference.asBase.resolve last) =
      (above.asBase.resolve reference).resolve last := by
  rcases reference_cases last with remote | ⟨isLocal, empty⟩ | ⟨isLocal, nonempty⟩
  · exact resolve_resolve_remote remote
  · exact resolve_resolve_empty isLocal empty
  · by_cases absolute : IsAbsolute last.path
    · exact resolve_resolve_absolute isLocal absolute
    · rcases reference_cases reference with remote | ⟨isLocal', empty⟩ | ⟨isLocal', nonempty'⟩
      · exact resolve_resolve_of_remote isLocal nonempty absolute placed remote rooted
      · exact resolve_resolve_of_empty isLocal nonempty absolute isLocal' empty rooted' named
      · exact resolve_resolve_of_path isLocal nonempty absolute placedAbove isLocal' nonempty'
          rooted rooted' named

/-- What is joined is rooted if the last reference is, or takes what is rooted. -/
theorem isRooted_resolve (placed : reference.Placed)
    (rooted : last.IsRooted ∨ last.scheme = none ∧ reference.IsRooted) :
    (reference.asBase.resolve last).IsRooted := by
  rcases reference_cases last with remote | ⟨isLocal, empty⟩ | ⟨isLocal, nonempty⟩
  · rw [resolve_of_remote remote]
    rcases rooted with (authority | path) | ⟨scheme, -⟩
    · exact .inl authority
    · exact .inr path.removeDotSegments
    · exact .inl fun authority => remote ⟨scheme, authority⟩
  · rw [resolve_of_empty isLocal empty]
    rcases rooted with (authority | path) | ⟨-, base⟩
    · exact absurd isLocal.2 authority
    · rw [empty] at path
      cases path
    · exact isRooted_asBase.mpr base
  · rw [resolve_of_path isLocal nonempty]
    refine .inr (IsAbsolute.removeDotSegments (isAbsolute_pathFrom.mpr ?_))
    rcases rooted with (authority | path) | ⟨-, base⟩
    · exact absurd isLocal.2 authority
    · exact .inl path
    · exact .inr ((isRooted_asBase.mpr base).folder placed.asBase)

/-- A reference is rooted only if what it is made of is, however it is put together. -/
theorem rootedFrom_resolve (placed : reference.Placed) (rooted : RootedFrom above reference)
    (rooted' : RootedFrom (above.asBase.resolve reference) last)
    (same : above.asBase.resolve (reference.asBase.resolve last) =
      (above.asBase.resolve reference).asBase.resolve last) :
    RootedFrom above (reference.asBase.resolve last) := by
  rw [RootedFrom, same]
  intro joined
  rcases rooted' joined with here | ⟨scheme, first⟩
  · exact .inl (isRooted_resolve placed (.inl here))
  · rcases rooted first with here | ⟨scheme', base⟩
    · exact .inl (isRooted_resolve placed (.inr ⟨scheme, here⟩))
    · refine .inr ⟨?_, base⟩
      rw [scheme_resolve, scheme, scheme_asBase, scheme']
      rfl

end Twice

end UriParts

end CanonicalXml
