import CanonicalXml.Proofs.BaseUri.Components

/-! # What is read of a joined reference

A joined reference is composed by putting its components behind each other, so its path may be
taken for something else: for an authority if two slashes are left at its beginning, for a scheme if
a colon is left in its first segment, and for an absolute path if its first segment is empty.

* `UriParts.Disguised` — a path that is taken for an authority or for a scheme.
* `Recovered` — what is read of a joined reference is what it was composed of.
* `recovered_iff` — this is so unless the path is disguised, or not relative any more.
* `recovered_of_filled` — neither can be where no directory of a path has an empty name, and none
  has a colon in it.
-/

namespace CanonicalXml

namespace UriParts

/-- The path is taken for something else in the text of the components. -/
def Disguised (parts : UriParts) : Prop :=
  parts.authority = none ∧
    (['/', '/'] <+: parts.path ∨ parts.scheme = none ∧ HasScheme parts.path)

/-- A reference that is resolved from the path of its base on. -/
def IsRelative (parts : UriParts) : Prop :=
  parts.IsLocal ∧ ¬ IsAbsolute parts.path

instance : DecidablePred HasScheme := fun _ =>
  decidable_of_iff _ hasScheme_iff.symm

instance : DecidablePred Disguised := fun parts =>
  inferInstanceAs (Decidable (parts.authority = none ∧
    (['/', '/'] <+: parts.path ∨ parts.scheme = none ∧ HasScheme parts.path)))

instance : DecidablePred IsRelative := fun parts =>
  inferInstanceAs (Decidable (parts.IsLocal ∧ ¬ IsAbsolute parts.path))

variable {parts base reference : UriParts}

theorem separated_iff_not_disguised (delimited : parts.Delimited) :
    parts.Separated ↔ ¬ parts.Disguised := by
  constructor
  · rintro separated ⟨noAuthority, slashes | ⟨noScheme, scheme⟩⟩
    · exact separated.rooted noAuthority slashes
    · exact separated.named noScheme noAuthority scheme
  · exact fun plain => ⟨delimited,
      fun noScheme noAuthority scheme => plain ⟨noAuthority, .inr ⟨noScheme, scheme⟩⟩,
      fun noAuthority slashes => plain ⟨noAuthority, .inl slashes⟩⟩

/-- What is resolved takes its authority from the reference or from the base. -/
theorem authority_resolve (some : (base.resolve reference).authority ≠ none) :
    base.authority ≠ none ∨ reference.authority ≠ none := by
  by_cases isLocal : reference.IsLocal
  · rw [authority_resolve_of_local isLocal] at some
    exact .inl some
  · rw [resolve_of_remote isLocal] at some
    exact .inr some

theorem IsLocal.resolve (isLocal : reference.IsLocal) (isLocal' : base.IsLocal) :
    (base.resolve reference).IsLocal := by
  refine ⟨?_, ?_⟩
  · rw [scheme_resolve, isLocal.1, isLocal'.1]
    rfl
  · rw [authority_resolve_of_local isLocal, isLocal'.2]

end UriParts

/-! ## Paths without empty segments -/

namespace Route

/-- Every directory has a name. -/
def Filled (r : Route) : Prop :=
  ∀ s ∈ r.directories, s ≠ []

variable {r t : Route}

theorem Filled.apt (filled : r.Filled) : r.Apt :=
  .inr fun head => filled [] (List.mem_of_mem_head? head) rfl

/-- Two slashes are next to each other only where a directory has no name. -/
theorem filled_of_not_infix (apt : r.Apt) (plain : ¬ ['/', '/'] <:+: r.text) : r.Filled := by
  rintro _ member rfl
  obtain ⟨before, after, same⟩ := List.append_of_mem member
  have whole : r.text = (folder ⟨r.absolute, before, []⟩).text ++
      '/' :: (after.flatMap (· ++ ['/']) ++ r.name) := by
    simp [text, folder, same]
  rcases text_folder_cases ⟨r.absolute, before, []⟩ with nothing | ⟨earlier, slash⟩
  · rw [folder, text, List.append_nil, List.append_eq_nil_iff] at nothing
    have first : before = [] := by
      cases before with
      | nil => rfl
      | cons s before => simp at nothing
    rcases apt with absolute | apt
    · rw [absolute] at nothing
      cases nothing.1
    · exact apt (by rw [same, first]; rfl)
  · refine plain ⟨earlier, after.flatMap (· ++ ['/']) ++ r.name, ?_⟩
    rw [whole, slash]
    simp

theorem Filled.not_doubled (filled : r.Filled) (valid : r.Valid) : ¬ ['/', '/'] <+: r.text := by
  -- Behind the root stands what a relative path would be.
  have relative : (text ⟨false, r.directories, r.name⟩).head? ≠ some '/' := by
    have valid : Valid ⟨false, r.directories, r.name⟩ := ⟨valid.directories, valid.name⟩
    rw [Ne, head?_text valid]
    rintro (absolute | empty)
    · cases absolute
    · exact filled [] (List.mem_of_mem_head? empty) rfl
  rintro ⟨rest, same⟩
  cases absolute : r.absolute with
  | true =>
    have whole : r.text = '/' :: text ⟨false, r.directories, r.name⟩ := by
      simp [text, root, absolute]
    rw [whole] at same
    rw [← (List.cons.inj same).2] at relative
    exact relative rfl
  | false =>
    have whole : r.text = text ⟨false, r.directories, r.name⟩ := by
      simp [text, root, absolute]
    rw [whole] at same
    rw [← same] at relative
    exact relative rfl

theorem Filled.settled (filled : r.Filled) : r.settled.Filled := by
  intro s member
  rcases mem_climb member with rfl | member
  · exact List.cons_ne_nil _ _
  · rw [climbed] at member
    split at member
    · rename_i isDots
      rcases List.mem_append.mp member with directory | name
      · exact filled s directory
      · rintro rfl
        rw [← List.mem_singleton.mp name] at isDots
        cases isDots
    · exact filled s member

theorem Filled.beside (filled : r.Filled) (filled' : t.Filled) : (r.beside t).Filled :=
  List.forall_mem_append.mpr ⟨filled, filled'⟩

end Route

/-- No directory of the path has an empty name. -/
def FilledPath (path : List Char) : Prop :=
  ∃ r : Route, r.Valid ∧ r.Filled ∧ r.text = path

section FilledPath

variable {path base rest : List Char}

theorem filledPath_of_not_infix (plain : ¬ ['/', '/'] <:+: path) : FilledPath path := by
  obtain ⟨r, valid, apt, rfl⟩ := Route.exists_text path
  exact ⟨r, valid, Route.filled_of_not_infix apt plain, rfl⟩

theorem FilledPath.not_doubled (filled : FilledPath path) : ¬ ['/', '/'] <+: path := by
  obtain ⟨r, valid, filled, rfl⟩ := filled
  exact filled.not_doubled valid

theorem FilledPath.removeDotSegments (filled : FilledPath path) :
    FilledPath (removeDotSegments path) := by
  obtain ⟨r, valid, filled, rfl⟩ := filled
  exact ⟨r.settled, valid.settled, filled.settled,
    (Route.removeDotSegments_text valid filled.apt).symm⟩

/-- Its dot segments can be removed without making it absolute. -/
theorem FilledPath.keepsRelative (filled : FilledPath path) : KeepsRelative path := by
  obtain ⟨r, valid, filled, rfl⟩ := filled
  rw [KeepsRelative, Route.removeDotSegments_text valid filled.apt,
    Route.isAbsolute_text valid.settled filled.settled.apt, Route.isAbsolute_text valid filled.apt]
  exact id

theorem FilledPath.pathFrom (filled : FilledPath base) (filled' : FilledPath path) :
    FilledPath (pathFrom base path) := by
  rw [CanonicalXml.pathFrom]
  split
  · exact filled'
  · rename_i relative
    obtain ⟨r, valid, filled, rfl⟩ := filled
    obtain ⟨t, valid', filled', rfl⟩ := filled'
    rw [Route.isAbsolute_text valid' filled'.apt, Bool.not_eq_true] at relative
    exact ⟨r.beside t, valid.beside valid', filled.beside filled', by
      rw [Route.directory_text valid, Route.text_beside r relative]⟩

end FilledPath

/-! ## What resolution makes of them -/

section Resolve

open UriParts

variable {parts base reference : UriParts}

/-- The slash behind a base is put behind its path only if that does not end in one. -/
theorem path_opened_cases (parts : UriParts) :
    parts.opened.path = parts.path ∨
      (parts.opened.path = parts.path ++ ['/'] ∧ (∀ earlier, parts.path ≠ earlier ++ ['/']) ∧
        (parts.IsLocal → parts.path ≠ [])) := by
  rw [opened]
  split
  · rename_i ends
    cases fragment : parts.fragment with
    | some f => exact .inl (by rw [withSlash_of_fragment fragment])
    | none =>
      cases query : parts.query with
      | some q => exact .inl (by rw [withSlash_of_query fragment query])
      | none =>
        rw [withSlash_of_path fragment query]
        have whole : parts.text = component [] parts.scheme [':'] ++
            component ['/', '/'] parts.authority [] ++ parts.path := by
          rw [text, fragment, query]
          simp [component]
        rw [whole] at ends
        refine .inr ⟨rfl, ?_, ?_⟩
        · intro earlier same
          rw [same, ← List.append_assoc, endsInDots_append_slash] at ends
          cases ends
        · rintro ⟨noScheme, noAuthority⟩ empty
          rw [noScheme, noAuthority, empty] at ends
          cases ends
  · exact .inl rfl

theorem filledPath_opened (plain : ¬ ['/', '/'] <:+: parts.path) :
    FilledPath parts.opened.path := by
  refine filledPath_of_not_infix ?_
  rcases path_opened_cases parts with same | ⟨slash, plainEnd, -⟩
  · rw [same]
    exact plain
  · rw [slash, List.infix_concat_iff]
    rintro (⟨earlier, same⟩ | within)
    · have ends : earlier ++ ['/'] ++ ['/'] = parts.path ++ ['/'] := by
        rw [← same]
        simp
      exact plainEnd earlier (List.append_cancel_right ends).symm
    · exact plain within

theorem notMem_path_opened (noColon : ':' ∉ parts.path) : ':' ∉ parts.opened.path := by
  rcases path_opened_cases parts with same | ⟨slash, -⟩
  · rwa [same]
  · rw [slash, List.mem_append, not_or]
    exact ⟨noColon, by decide⟩

theorem UriParts.IsRelative.opened (relative : parts.IsRelative) :
    parts.opened.IsRelative := by
  obtain ⟨isLocal, relative⟩ := relative
  refine ⟨by rwa [IsLocal, scheme_opened, authority_opened], ?_⟩
  rcases path_opened_cases parts with same | ⟨slash, -, some⟩
  · rw [same]
    exact relative
  · obtain ⟨c, rest, path⟩ := List.exists_cons_of_ne_nil (some isLocal)
    rw [IsAbsolute, path] at relative
    rw [slash, path]
    exact relative

theorem FilledPath.folder (filled : FilledPath base.path) : FilledPath base.folder := by
  rw [UriParts.folder]
  split
  · exact filledPath_of_not_infix (by decide)
  · exact filled

theorem FilledPath.resolve (filled : FilledPath base.path)
    (filled' : FilledPath reference.path) : FilledPath (base.resolve reference).path := by
  rcases reference_cases reference with remote | ⟨isLocal, empty⟩ | ⟨isLocal, nonempty⟩
  · rw [resolve_of_remote remote]
    exact filled'.removeDotSegments
  · rw [resolve_of_empty isLocal empty]
    exact filled
  · rw [resolve_of_path isLocal nonempty]
    exact (filled.folder.pathFrom filled').removeDotSegments

/-- Relative to a relative path, a relative path stays relative. -/
theorem FilledPath.isRelative_resolve (filled : FilledPath base.path)
    (filled' : FilledPath reference.path) (above : base.IsRelative) (here : reference.IsRelative) :
    ¬ IsAbsolute (base.resolve reference).path := by
  have folder : base.folder = base.path := by
    rw [UriParts.folder, above.1.2]
    rfl
  rcases reference_cases reference with remote | ⟨isLocal, empty⟩ | ⟨isLocal, nonempty⟩
  · exact absurd here.1 remote
  · rw [resolve_of_empty isLocal empty]
    exact above.2
  · rw [resolve_of_path isLocal nonempty, target, folder]
    refine mt (filled.pathFrom filled').keepsRelative fun absolute => ?_
    exact (isAbsolute_pathFrom.mp absolute).elim here.2 above.2

/-- No colon gets into a path that is resolved. -/
theorem not_hasScheme_resolve (noColon : ':' ∉ base.path) (noColon' : ':' ∉ reference.path) :
    ¬ HasScheme (base.resolve reference).path := by
  have all : ∀ c ∈ (base.resolve reference).path, c ≠ ':' :=
    forall_mem_path_resolve (by decide) (by decide) (fun c member same => noColon (same ▸ member))
      fun c member same => noColon' (same ▸ member)
  rintro ⟨s, rest, -, same⟩
  exact all ':' (by rw [same]; simp) rfl

end Resolve

/-! ## Joined references -/

section Recovered

open UriParts

/-- The components that a joined reference is composed of. -/
def composed (base reference : String) : UriParts :=
  (split base.toList).opened.resolve (split reference.toList)

/-- What is read of a joined reference is what it was composed of: it has a scheme or an authority
only if one of the references has, and a relative path that is put behind a relative one stays
relative. -/
structure Recovered (base reference : String) : Prop where
  components : split (joinUri base reference).toList = composed base reference
  scheme : (split (joinUri base reference).toList).scheme ≠ none →
    (split base.toList).scheme ≠ none ∨ (split reference.toList).scheme ≠ none
  authority : (split (joinUri base reference).toList).authority ≠ none →
    (split base.toList).authority ≠ none ∨ (split reference.toList).authority ≠ none
  relative : (split reference.toList).IsRelative → (split base.toList).IsRelative →
    (split (joinUri base reference).toList).IsRelative

variable {base reference : String}

theorem toList_joinUri_eq_text (nonempty : base ≠ "") (nonempty' : reference ≠ "") :
    (joinUri base reference).toList = (composed base reference).text := by
  rw [toList_joinUri]
  exact resolveUri_eq_text (mt String.toList_eq_nil_iff.mp nonempty)
    (mt String.toList_eq_nil_iff.mp nonempty')

theorem delimited_composed (base reference : String) : (composed base reference).Delimited :=
  (separated_split base.toList).opened.toDelimited.resolve
    (separated_split reference.toList).toDelimited

/-- A joined reference is read as what it was composed of if its path is not taken for something
else, and a relative path stays one. -/
theorem Recovered.of_plain (nonempty : base ≠ "") (nonempty' : reference ≠ "")
    (plain : ¬ (composed base reference).Disguised)
    (relative : (split reference.toList).IsRelative → (split base.toList).IsRelative →
      ¬ IsAbsolute (composed base reference).path) : Recovered base reference := by
  have text := toList_joinUri_eq_text nonempty nonempty'
  have separated := (separated_iff_not_disguised (delimited_composed base reference)).mpr plain
  have components := separated.split_text
  refine ⟨?_, ?_, ?_, ?_⟩
  · rw [text, components]
  · rw [text, components, composed, scheme_resolve, scheme_opened]
    intro some
    by_contra neither
    rw [not_or, not_not, not_not] at neither
    rw [neither.1, neither.2] at some
    exact some rfl
  · rw [text, components, composed, ← authority_opened (split base.toList)]
    exact authority_resolve
  · intro here above
    rw [text, components]
    exact ⟨here.1.resolve above.opened.1, relative here above⟩

/-- A joined reference is read as what it was composed of unless its path is taken for something
else, or begins at the root though neither of the paths does that it was made of. -/
theorem recovered_iff (nonempty : base ≠ "") (nonempty' : reference ≠ "") :
    Recovered base reference ↔
      ¬ (composed base reference).Disguised ∧
        ((split reference.toList).IsRelative → (split base.toList).IsRelative →
          ¬ IsAbsolute (composed base reference).path) := by
  constructor
  · rintro ⟨components, -, -, relative⟩
    rw [toList_joinUri_eq_text nonempty nonempty'] at components relative
    have separated := split_text_iff.mp components
    refine ⟨(separated_iff_not_disguised separated.toDelimited).mp separated, ?_⟩
    intro here above
    have stays := relative here above
    rw [components] at stays
    exact stays.2
  · rintro ⟨plain, relative⟩
    exact .of_plain nonempty nonempty' plain relative

/-- A colon in a segment that is not the first one, and a dot segment that is taken back. -/
theorem recovered_iff_colon :
    "x/y:z/." ≠ "" ∧ "../u?v" ≠ "" ∧ Recovered "x/y:z/." "../u?v" ∧
      joinUri "x/y:z/." "../u?v" = "x/u?v" :=
  ⟨by decide, by decide, (recovered_iff (by decide) (by decide)).mpr ⟨by decide, by decide⟩,
    by decide⟩

/-- With their dot segments paths lose what kept a colon out of the first segment, two slashes away
from the beginning, and the root out of a relative path. -/
theorem not_recovered :
    (joinUri "x" "./u:v" = "u:v" ∧ ¬ Recovered "x" "./u:v") ∧
      (joinUri "s:/a" ".//h/b" = "s://h/b" ∧ ¬ Recovered "s:/a" ".//h/b") ∧
      (joinUri "x/y" "..//b" = "/b" ∧ ¬ Recovered "x/y" "..//b") := by
  refine ⟨⟨by decide, ?_⟩, ⟨by decide, ?_⟩, ⟨by decide, ?_⟩⟩
  · rintro ⟨-, scheme, -, -⟩
    exact absurd (scheme (by decide)) (by decide)
  · rintro ⟨-, -, authority, -⟩
    exact absurd (authority (by decide)) (by decide)
  · rintro ⟨-, -, -, relative⟩
    exact absurd (relative (by decide) (by decide)) (by decide)

/-- Nothing is taken for something else where neither path has two slashes next to each other, or a
colon. -/
theorem recovered_of_filled (nonempty : base ≠ "") (nonempty' : reference ≠ "")
    (plain : ¬ ['/', '/'] <:+: (split base.toList).path)
    (plain' : ¬ ['/', '/'] <:+: (split reference.toList).path)
    (noColon : ':' ∉ (split base.toList).path)
    (noColon' : ':' ∉ (split reference.toList).path) : Recovered base reference := by
  have filled := filledPath_opened plain
  have filled' := filledPath_of_not_infix plain'
  refine .of_plain nonempty nonempty' ?_ fun here above =>
    filled.isRelative_resolve filled' above.opened here
  rintro ⟨-, slashes | ⟨-, scheme⟩⟩
  · exact (filled.resolve filled').not_doubled slashes
  · exact not_hasScheme_resolve (notMem_path_opened noColon) noColon' scheme

end Recovered

end CanonicalXml
