import CanonicalXml.Proofs.BaseUri.PrefixRewriting

/-! # The normal form of a path

What is left of a path without its dot segments is settled: no segment is a dot, those that lead up
stand in front of all others, and the last one is none of them.  The settled paths are also those
that are left as they are.

* `IsSettled` — the paths in normal form.
* `isSettled_removeDotSegments`, `removeDotSegments_eq_self_iff` — they are what is left, and what
  stays.
* `removeDotSegments_idem` — dot segments have to be removed only once.
* `removeDotSegments_normal_form` — the same segment by segment, and beside the rules of RFC 3986,
  section 5.2.4.
-/

namespace CanonicalXml

/-- The segments that lead up stand in front of all others. -/
def UpFirst (segments : List (List Char)) : Prop :=
  segments.Pairwise fun earlier later => later = ['.', '.'] → earlier = ['.', '.']

instance : DecidablePred UpFirst := fun segments =>
  inferInstanceAs (Decidable (segments.Pairwise _))

/-- A path in normal form. -/
structure IsSettled (path : List Char) : Prop where
  noDot : ['.'] ∉ path.splitOn '/'
  upFirst : UpFirst (path.splitOn '/')
  name : ∀ s ∈ (path.splitOn '/').getLast?, isDots s = false

/-! ## Segments that lead up -/

section UpFirst

variable {segments names : List (List Char)}

theorem upFirst_of_names (plain : ∀ s ∈ names, isDots s = false) (count : Nat) :
    UpFirst (List.replicate count ['.', '.'] ++ names) := by
  refine List.pairwise_append.mpr ⟨?_, ?_, ?_⟩
  · exact List.pairwise_replicate.mpr (.inr fun _ => rfl)
  · refine List.pairwise_of_forall_mem_list ?_
    intro _ _ later member up
    exact absurd up (isDots_eq_false.mp (plain later member)).2
  · intro up member _ _ _
    exact List.eq_of_mem_replicate member

theorem noDot_of_names (plain : ∀ s ∈ names, isDots s = false) (count : Nat) :
    ['.'] ∉ List.replicate count ['.', '.'] ++ names := by
  intro dot
  rcases List.mem_append.mp dot with up | name
  · exact absurd (List.eq_of_mem_replicate up) (by decide)
  · exact absurd (plain _ name) (by decide)

/-- Nothing leads up from the root. -/
theorem UpFirst.notMem_of_root (upFirst : UpFirst ([] :: segments)) : ['.', '.'] ∉ segments :=
  fun up => absurd ((List.pairwise_cons.mp upFirst).1 _ up rfl) (by decide)

/-- Without dots, what stands behind the segments that lead up are names. -/
theorem UpFirst.exists_names (upFirst : UpFirst segments) (noDot : ['.'] ∉ segments) :
    ∃ count names, segments = List.replicate count ['.', '.'] ++ names ∧
      ∀ s ∈ names, isDots s = false := by
  induction segments with
  | nil => exact ⟨0, [], rfl, nofun⟩
  | cons segment segments ih =>
    obtain ⟨first, rest⟩ := List.pairwise_cons.mp upFirst
    rw [List.mem_cons, not_or] at noDot
    rcases segment_cases segment with rfl | rfl | plain
    · exact absurd rfl noDot.1
    · obtain ⟨count, names, rfl, plain⟩ := ih rest noDot.2
      exact ⟨count + 1, names, rfl, plain⟩
    · -- Behind a name nothing leads up any more.
      refine ⟨0, segment :: segments, rfl, List.forall_mem_cons.mpr ⟨plain, ?_⟩⟩
      intro s member
      refine isDots_eq_false.mpr ⟨?_, ?_⟩
      · rintro rfl
        exact noDot.2 member
      · rintro rfl
        exact (isDots_eq_false.mp plain).2 (first _ member rfl)

theorem foldl_replicate_up (count : Nat) :
    (List.replicate count ['.', '.']).foldl (settleSegment false) [] =
      List.replicate count ['.', '.'] := by
  induction count with
  | zero => rfl
  | succ count ih =>
    rw [List.replicate_succ', List.foldl_append, ih, List.foldl_cons, List.foldl_nil,
      settleSegment_dots, stepUp_replicate, List.replicate_succ']

/-- Directories that lead up only where they begin are what is left of them. -/
theorem climb_of_names (plain : ∀ s ∈ names, isDots s = false) {absolute : Bool} {count : Nat}
    (none : absolute = true → count = 0) :
    climb absolute (List.replicate count ['.', '.'] ++ names) =
      List.replicate count ['.', '.'] ++ names := by
  have up : (List.replicate count ['.', '.']).foldl (settleSegment absolute) [] =
      List.replicate count ['.', '.'] := by
    cases absolute with
    | true =>
      rw [none rfl]
      rfl
    | false => exact foldl_replicate_up count
  rw [climb, List.foldl_append, up, foldl_of_plain plain]
  simp

end UpFirst

/-! ## Segments of routes -/

namespace Route

variable {r : Route}

/-- The segments of a path that is taken apart.  In front of the first slash of an absolute one
there is an empty segment. -/
def segments (r : Route) : List (List Char) :=
  (if r.absolute then [[]] else []) ++ r.directories ++ [r.name]

theorem splitOn_text (valid : r.Valid) : r.text.splitOn '/' = r.segments := by
  have joined : r.text = ['/'].intercalate r.segments := by
    rw [segments, intercalate_eq, text]
    cases r.absolute with
    | true => rfl
    | false => rfl
  rw [joined, List.splitOn_intercalate]
  · simp only [segments, List.forall_mem_append, List.forall_mem_singleton]
    refine ⟨⟨?_, valid.directories⟩, valid.name⟩
    cases r.absolute with
    | true => exact List.forall_mem_singleton.mpr List.not_mem_nil
    | false => exact List.forall_mem_nil _
  · simp [segments]

theorem getLast?_segments (r : Route) : r.segments.getLast? = some r.name := by
  simp [segments]

/-- What is left are steps up, and names behind them. -/
theorem segments_settled (r : Route) : ∃ count names,
    r.settled.segments = List.replicate count ['.', '.'] ++ names ∧
      ∀ s ∈ names, isDots s = false := by
  obtain ⟨names, count, kept, plain, none⟩ := kept_shape r.absolute r.climbed
  have directories : r.settled.directories = List.replicate count ['.', '.'] ++ names.reverse := by
    rw [settled, climb, kept]
    simp
  have plainNames : ∀ s ∈ names.reverse ++ [r.settled.name], isDots s = false := by
    refine List.forall_mem_append.mpr ⟨?_, List.forall_mem_singleton.mpr (isDots_settled r)⟩
    simpa using plain
  rw [segments, directories, absolute_settled]
  cases absolute : r.absolute with
  | true =>
    rw [none absolute]
    exact ⟨0, [] :: (names.reverse ++ [r.settled.name]), rfl,
      List.forall_mem_cons.mpr ⟨rfl, plainNames⟩⟩
  | false =>
    exact ⟨count, names.reverse ++ [r.settled.name], by simp, plainNames⟩

/-- Nothing is taken away from the directories of a path in normal form. -/
theorem climb_directories (noDot : ['.'] ∉ r.segments) (upFirst : UpFirst r.segments) :
    climb r.absolute r.directories = r.directories := by
  have inside : r.directories.Sublist r.segments :=
    (List.sublist_append_right _ _).trans (List.sublist_append_left _ _)
  obtain ⟨count, names, shape, plain⟩ :=
    UpFirst.exists_names (upFirst.sublist inside) fun dot => noDot (inside.subset dot)
  have none : r.absolute = true → count = 0 := by
    intro absolute
    rw [segments, if_pos absolute, shape] at upFirst
    cases count with
    | zero => rfl
    | succ count => exact absurd (by simp) upFirst.notMem_of_root
  rw [shape]
  exact climb_of_names plain none

end Route

/-! ## Settled paths -/

section Settled

open Route

variable {path : List Char}

/-- What is left of a path is settled. -/
theorem isSettled_removeDotSegments (path : List Char) : IsSettled (removeDotSegments path) := by
  obtain ⟨r, valid, apt, rfl⟩ := exists_text path
  obtain ⟨count, names, left, plain⟩ := segments_settled r
  rw [removeDotSegments_text valid apt]
  refine ⟨?_, ?_, ?_⟩
  · rw [splitOn_text valid.settled, left]
    exact noDot_of_names plain count
  · rw [splitOn_text valid.settled, left]
    exact upFirst_of_names plain count
  · rw [splitOn_text valid.settled, getLast?_segments]
    rintro _ ⟨⟩
    exact isDots_settled r

/-- A settled path is left as it is. -/
theorem IsSettled.removeDotSegments (settled : IsSettled path) : removeDotSegments path = path := by
  obtain ⟨r, valid, apt, rfl⟩ := exists_text path
  obtain ⟨noDot, upFirst, name⟩ := settled
  rw [splitOn_text valid] at noDot upFirst name
  have plain : isDots r.name = false := name _ (getLast?_segments r)
  have same : r.settled = r := by
    rw [Route.settled, climbed_of_plain plain, climb_directories noDot upFirst, plain,
      if_neg Bool.false_ne_true]
  rw [removeDotSegments_text valid apt, same]

/-- The settled paths are those that are left as they are. -/
theorem removeDotSegments_eq_self_iff : removeDotSegments path = path ↔ IsSettled path :=
  ⟨fun same => same ▸ isSettled_removeDotSegments path, IsSettled.removeDotSegments⟩

/-- Dot segments have to be removed only once. -/
theorem removeDotSegments_idem (path : List Char) :
    removeDotSegments (removeDotSegments path) = removeDotSegments path :=
  removeDotSegments_eq_self_iff.mpr (isSettled_removeDotSegments path)

/-- An absolute path begins with an empty segment. -/
theorem IsAbsolute.splitOn (absolute : IsAbsolute path) :
    ∃ segments, path.splitOn '/' = [] :: segments := by
  obtain ⟨r, valid, -, rfl, isAbsolute⟩ := exists_route path
  rw [splitOn_text valid, Route.segments, if_pos (isAbsolute.mpr absolute)]
  exact ⟨_, rfl⟩

/-- Nothing leads up in a settled path that is absolute. -/
theorem IsSettled.notMem_up (settled : IsSettled path) (absolute : IsAbsolute path) :
    ['.', '.'] ∉ path.splitOn '/' := by
  obtain ⟨segments, shape⟩ := absolute.splitOn
  have upFirst := settled.upFirst
  rw [shape] at upFirst ⊢
  exact List.not_mem_cons_of_ne_of_not_mem (by decide) upFirst.notMem_of_root

/-- What is left of a path that ends in dots is a directory, or nothing. -/
theorem removeDotSegments_of_dots {name : List Char}
    (last : (path.splitOn '/').getLast? = some name) (dots : isDots name = true) :
    removeDotSegments path = [] ∨ (removeDotSegments path).getLast? = some '/' := by
  obtain ⟨r, valid, apt, rfl⟩ := exists_text path
  rw [splitOn_text valid, getLast?_segments, Option.some.injEq] at last
  have left : r.settled.name = [] := by
    rw [Route.settled, last, if_pos dots]
  rw [removeDotSegments_text valid apt, text_eq_folder, left, List.append_nil]
  rcases text_folder_cases r.settled with none | ⟨before, some⟩
  · exact .inl none
  · rw [some]
    exact .inr List.getLast?_concat

/-- What is left of a path has no dot, leads up only where it begins, and from the root not at all,
and stays as it is when dot segments are removed again.  Of dots at the end a slash is left, if
anything is.  What is left of an absolute path is absolute, and it is what the standard leaves. -/
theorem removeDotSegments_normal_form (path : List Char) :
    ['.'] ∉ (removeDotSegments path).splitOn '/' ∧
    (IsAbsolute path → ['.', '.'] ∉ (removeDotSegments path).splitOn '/') ∧
    UpFirst ((removeDotSegments path).splitOn '/') ∧
    removeDotSegments (removeDotSegments path) = removeDotSegments path ∧
    (∀ name, (path.splitOn '/').getLast? = some name → isDots name = true →
      removeDotSegments path = [] ∨ (removeDotSegments path).getLast? = some '/') ∧
    (IsAbsolute path →
      IsAbsolute (removeDotSegments path) ∧ removeDotSegments path = rewriteDots [] path) := by
  have settled := isSettled_removeDotSegments path
  refine ⟨settled.noDot, ?_, settled.upFirst, removeDotSegments_idem path, ?_, ?_⟩
  · intro absolute
    exact settled.notMem_up absolute.removeDotSegments
  · intro name last dots
    exact removeDotSegments_of_dots last dots
  · intro absolute
    exact ⟨absolute.removeDotSegments, removeDotSegments_of_absolute absolute⟩

/-- More steps up than there are directories, empty segments, and a step up at the end. -/
theorem removeDotSegments_normal_form_root :
    let path := "/a/../../b//./c/..".toList
    let left := "/b//".toList
    IsAbsolute path ∧ (path.splitOn '/').getLast? = some ['.', '.'] ∧ isDots ['.', '.'] = true ∧
      removeDotSegments path = left ∧ ['.', '.'] ∉ left.splitOn '/' ∧ UpFirst (left.splitOn '/') ∧
      removeDotSegments left = left ∧ left.getLast? = some '/' ∧ rewriteDots [] path = left := by
  intro path left
  have absolute : IsAbsolute path := by decide
  have last : (path.splitOn '/').getLast? = some ['.', '.'] := by decide
  have same : removeDotSegments path = left := by decide
  have normal := removeDotSegments_normal_form path
  rw [same] at normal
  obtain ⟨-, up, upFirst, idem, directory, standard⟩ := normal
  exact ⟨absolute, last, rfl, same, up absolute, upFirst, idem,
    (directory _ last rfl).resolve_left (by decide), (standard absolute).2.symm⟩

-- A relative path keeps what leads up from where it begins.
example : removeDotSegments "../x/../../y/.".toList = "../../y/".toList := by decide

end Settled

end CanonicalXml
