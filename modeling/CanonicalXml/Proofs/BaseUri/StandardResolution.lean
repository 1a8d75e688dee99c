import CanonicalXml.Proofs.BaseUri.Components
import CanonicalXml.Proofs.BaseUri.PrefixRewriting

/-! # Resolution by the standard

RFC 3986, section 5.2, resolves references against an absolute base.  Joining does the same, except
that it looks for dot segments at the end of the whole base and not of its path: a slash is put
behind dots that end the query or the authority as well, and it shows where a reference takes these
over.

* `UriParts.merge`, `UriParts.transform`, `UriParts.recompose` — the rules of sections 5.2.3, 5.2.2
  and 5.3.
* `UriParts.resolve_eq_transform` — the components are resolved by these rules.
* `UriParts.opened_cases` — where the slash is put.
* `joinUri_eq_recompose_iff` — a join is that of the standard, unless such dots are taken over.
-/

namespace CanonicalXml

namespace UriParts

/-! ## The rules of the standard -/

/-- Section 5.2.3: a relative path behind all but the last segment of the path of the base. -/
def merge (base reference : UriParts) : List Char :=
  if base.authority.isSome ∧ base.path = [] then '/' :: reference.path
  else base.path.rdropWhile (· ≠ '/') ++ reference.path

/-- Section 5.2.2, strictly: a scheme counts even if it is that of the base. -/
def transform (base reference : UriParts) : UriParts :=
  if reference.scheme.isSome then
    { scheme := reference.scheme
      authority := reference.authority
      path := rewriteDots [] reference.path
      query := reference.query
      fragment := reference.fragment }
  else if reference.authority.isSome then
    { scheme := base.scheme
      authority := reference.authority
      path := rewriteDots [] reference.path
      query := reference.query
      fragment := reference.fragment }
  else if reference.path = [] then
    { scheme := base.scheme
      authority := base.authority
      path := base.path
      query := if reference.query.isSome then reference.query else base.query
      fragment := reference.fragment }
  else
    { scheme := base.scheme
      authority := base.authority
      path := rewriteDots []
        (if reference.path.head? = some '/' then reference.path else base.merge reference)
      query := reference.query
      fragment := reference.fragment }

/-- Section 5.3: the text of components, an absent one leaving nothing behind. -/
def recompose (parts : UriParts) : List Char :=
  parts.scheme.elim [] (· ++ [':']) ++ parts.authority.elim [] (['/', '/'] ++ ·) ++ parts.path ++
    parts.query.elim [] ('?' :: ·) ++ parts.fragment.elim [] ('#' :: ·)

theorem text_eq_recompose (parts : UriParts) : parts.text = parts.recompose := by
  have component_eq (before : List Char) (part : Option (List Char)) (after : List Char) :
      component before part after = part.elim [] (before ++ · ++ after) := by
    cases part <;> rfl
  simp [text, recompose, component_eq]

/-! ## Resolving the components -/

section Transform

variable {base other reference : UriParts}

theorem removeDotSegments_of_placed {path : List Char} (placed : path = [] ∨ IsAbsolute path) :
    removeDotSegments path = rewriteDots [] path := by
  rcases placed with rfl | absolute
  · rw [rewriteDots]
    rfl
  · exact removeDotSegments_of_absolute absolute

theorem mergePaths_eq_merge (base reference : UriParts) :
    mergePaths base reference = base.merge reference := by
  simp only [mergePaths, merge, Bool.and_eq_true, List.isEmpty_iff]
  rfl

/-- What is merged with the path of a base that has an authority begins at its root. -/
theorem isAbsolute_merge (authority : base.authority ≠ none) (placed : base.Placed)
    (relative : ¬ IsAbsolute reference.path) : IsAbsolute (base.merge reference) := by
  rw [← mergePaths_eq_merge, mergePaths_eq, isAbsolute_directory_append relative]
  exact IsRooted.folder placed (.inl authority)

/-- The components are resolved as the standard says if the base has an authority. -/
theorem resolve_eq_transform (authority : base.authority ≠ none) (placed : base.Placed)
    (placed' : reference.Placed) (relative : reference.scheme = none) :
    base.resolve reference = base.transform reference := by
  simp only [resolve, transform, relative, Option.isSome_none, Bool.false_eq_true, if_false]
  split
  · rename_i known
    rw [removeDotSegments_of_placed (placed' (Option.isSome_iff_ne_none.mp known))]
  · rename_i noAuthority
    have none : reference.authority = none := by simpa using noAuthority
    by_cases empty : reference.path = []
    · rw [if_pos (by simpa using empty), if_pos empty]
      cases reference.query <;> rfl
    · rw [if_neg (by simpa using empty), if_neg empty, mergePaths_eq_merge]
      congr 1
      refine removeDotSegments_of_absolute ?_
      split
      · assumption
      · exact isAbsolute_merge authority placed (by assumption)

/-- A reference with a path of its own, or an authority, takes nothing else of the path and nothing
of the query. -/
theorem transform_congr (scheme : base.scheme = other.scheme)
    (authority : base.authority = other.authority)
    (path : reference.authority = none → reference.path = [] → base.path = other.path)
    (query : reference.authority = none → reference.path = [] → reference.query = none →
      base.query = other.query)
    (merged : base.merge reference = other.merge reference) :
    base.transform reference = other.transform reference := by
  simp only [transform, scheme, authority, merged]
  split
  · rfl
  split
  · rfl
  rename_i noAuthority
  have none : reference.authority = none := by simpa using noAuthority
  split
  · rename_i empty
    rw [path none empty]
    cases own : reference.query with
    | some q => rfl
    | none =>
      rw [query none empty own]
  · rfl

end Transform

/-! ## Dots at the end of a base -/

/-- The text ends in a dot segment with a slash before it. -/
def EndsInDotSegment (cs : List Char) : Prop :=
  ∃ dots, isDots dots = true ∧ '/' :: dots <:+ cs

instance : DecidablePred EndsInDotSegment := fun cs =>
  decidable_of_iff (['/', '.'] <:+ cs ∨ ['/', '.', '.'] <:+ cs) (by
    simp [EndsInDotSegment, isDots, or_and_right, exists_or])

section Dots

variable {base other reference : UriParts} {before rest suffix dots : List Char} {mark : Char}

theorem isDots_eq_true : isDots dots = true ↔ dots = ['.'] ∨ dots = ['.', '.'] := by
  simp [isDots]

theorem notMem_dots (isDots : isDots dots = true) (notDot : mark ≠ '.') : mark ∉ dots := by
  rcases isDots_eq_true.mp isDots with rfl | rfl
  · simp [notDot]
  · simp [notDot]

theorem endsInDots_iff {cs : List Char} :
    endsInDots cs = true ↔ isDots cs = true ∨ EndsInDotSegment cs := by
  simp only [endsInDots, EndsInDotSegment, isDots, Bool.or_eq_true, decide_eq_true_eq,
    List.isSuffixOf_iff_suffix, or_and_right, exists_or, exists_eq_left, or_assoc]

/-- A suffix that lacks a mark stands behind it. -/
theorem suffix_append_cons (absent : mark ∉ suffix) :
    suffix <:+ before ++ mark :: rest ↔ suffix <:+ rest := by
  constructor
  · rintro ⟨earlier, same⟩
    rcases List.append_eq_append_iff.mp same with ⟨middle, -, whole⟩ | ⟨middle, -, whole⟩
    · exact absurd (by simp [whole]) absent
    · cases middle with
      | nil => exact absurd (by rw [← show mark :: rest = suffix from whole]; simp) absent
      | cons c middle => exact ⟨middle, (List.cons.inj whole).2.symm⟩
  · exact fun suffix => suffix.trans ⟨before ++ [mark], by simp⟩

/-- A text that ends in an absolute path ends in dots where the path does. -/
theorem endsInDotSegment_append_path {path : List Char} (absolute : IsAbsolute path)
    (ends : EndsInDotSegment (before ++ path)) : EndsInDotSegment path := by
  obtain ⟨dots, isDots, suffix⟩ := ends
  obtain ⟨rest, rfl⟩ := List.head?_eq_some_iff.mp absolute
  refine ⟨dots, isDots, ?_⟩
  obtain ⟨earlier, same⟩ := suffix
  have plain : '/' ∉ dots := notMem_dots isDots (by decide)
  rcases List.append_eq_append_iff.mp same with ⟨middle, -, whole⟩ | ⟨middle, -, whole⟩
  · cases middle with
    | nil => exact ⟨[], whole⟩
    | cons c middle =>
      refine absurd ?_ plain
      rw [(List.cons.inj whole).2]
      simp
  · exact ⟨middle, whole.symm⟩

/-- The dots at the end of the base are those of its query. -/
def QueryEndsInDots (base : UriParts) : Prop :=
  base.fragment = none ∧ ∃ q ∈ base.query, EndsInDotSegment q

/-- The dots at the end of the base are its authority, and it has no path. -/
def AuthorityIsDots (base : UriParts) : Prop :=
  base.fragment = none ∧ base.query = none ∧ base.path = [] ∧ ∃ a ∈ base.authority, isDots a = true

/-- The reference takes over the component of the base that the slash is put behind. -/
def TakesDots (base reference : UriParts) : Prop :=
  reference.authority = none ∧ reference.path = [] ∧
    (base.AuthorityIsDots ∨ base.QueryEndsInDots ∧ reference.query = none)

instance : DecidablePred QueryEndsInDots := fun base =>
  inferInstanceAs (Decidable (base.fragment = none ∧ ∃ q ∈ base.query, EndsInDotSegment q))

instance : DecidablePred AuthorityIsDots := fun base =>
  inferInstanceAs (Decidable (base.fragment = none ∧ base.query = none ∧ base.path = [] ∧
    ∃ a ∈ base.authority, isDots a = true))

instance (base reference : UriParts) : Decidable (TakesDots base reference) :=
  inferInstanceAs (Decidable (reference.authority = none ∧ reference.path = [] ∧
    (base.AuthorityIsDots ∨ base.QueryEndsInDots ∧ reference.query = none)))

theorem text_of_query {q : List Char} (noFragment : base.fragment = none)
    (query : base.query = some q) : ∃ before, base.text = before ++ '?' :: q :=
  ⟨component [] base.scheme [':'] ++ component ['/', '/'] base.authority [] ++ base.path, by
    simp [text, noFragment, query, component]⟩

theorem text_of_authority {a : List Char} (noFragment : base.fragment = none)
    (noQuery : base.query = none) (authority : base.authority = some a) :
    ∃ before, base.text = before ++ '/' :: a ++ base.path :=
  ⟨component [] base.scheme [':'] ++ ['/'], by
    simp [text, noFragment, noQuery, authority, component]⟩

theorem endsInDots_text (scheme : base.scheme ≠ none) :
    endsInDots base.text = true ↔ EndsInDotSegment base.text := by
  obtain ⟨s, some⟩ := Option.ne_none_iff_exists'.mp scheme
  obtain ⟨rest, begins⟩ := text_of_scheme some
  have colon : isDots base.text ≠ true := fun dots => by
    have absent : ':' ∉ base.text := notMem_dots dots (by decide)
    exact absent (by simp [begins])
  rw [endsInDots_iff, or_iff_right colon]

theorem QueryEndsInDots.text (dots : base.QueryEndsInDots) : EndsInDotSegment base.text := by
  obtain ⟨noFragment, q, query, dots, isDots, suffix⟩ := dots
  obtain ⟨before, whole⟩ := text_of_query noFragment query
  rw [whole]
  exact ⟨dots, isDots, suffix.trans ⟨before ++ ['?'], by simp⟩⟩

theorem AuthorityIsDots.text (dots : base.AuthorityIsDots) : EndsInDotSegment base.text := by
  obtain ⟨noFragment, noQuery, noPath, a, authority, isDots⟩ := dots
  obtain ⟨before, whole⟩ := text_of_authority noFragment noQuery authority
  rw [whole, noPath, List.append_nil]
  exact ⟨a, isDots, before, rfl⟩

/-- Dots at the end of a base are those of its fragment, of its query, or of its authority, if its
path does not end in dots. -/
theorem dots_of_text (separated : base.Separated) (authority : base.authority ≠ none)
    (path : ¬ EndsInDotSegment base.path) (noFragment : base.fragment = none)
    (ends : EndsInDotSegment base.text) : base.QueryEndsInDots ∨ base.AuthorityIsDots := by
  cases query : base.query with
  | some q =>
    obtain ⟨before, whole⟩ := text_of_query noFragment query
    obtain ⟨dots, isDots, suffix⟩ := ends
    have absent : '?' ∉ '/' :: dots :=
      List.not_mem_cons_of_ne_of_not_mem (by decide) (notMem_dots isDots (by decide))
    rw [whole, suffix_append_cons absent] at suffix
    exact .inl ⟨noFragment, q, query, dots, isDots, suffix⟩
  | none =>
    obtain ⟨a, found⟩ := Option.ne_none_iff_exists'.mp authority
    obtain ⟨before, whole⟩ := text_of_authority noFragment query found
    rw [whole] at ends
    rcases separated.placed authority with empty | absolute
    · obtain ⟨dots, isDots, suffix⟩ := ends
      rw [empty, List.append_nil, Route.suffix_iff (notMem_dots isDots (by decide))
        (separated.authority a found).1] at suffix
      exact .inr ⟨noFragment, query, empty, a, found, suffix ▸ isDots⟩
    · exact absurd (endsInDotSegment_append_path absolute ends) path

/-- Behind the dots of a query or of an authority there is a slash, and nothing else that a
reference takes over is changed. -/
theorem opened_cases (separated : base.Separated) (scheme : base.scheme ≠ none)
    (authority : base.authority ≠ none) (path : ¬ EndsInDotSegment base.path) :
    (base.opened.path = base.path ∧ base.opened.query = base.query ∧
      ¬ (base.QueryEndsInDots ∨ base.AuthorityIsDots)) ∨
    (∃ q, base.QueryEndsInDots ∧ base.query = some q ∧ base.opened.path = base.path ∧
      base.opened.query = some (q ++ ['/'])) ∨
    (base.AuthorityIsDots ∧ base.opened.path = ['/'] ∧ base.opened.query = base.query) := by
  have ofDots (dots : base.QueryEndsInDots ∨ base.AuthorityIsDots) : EndsInDotSegment base.text :=
    dots.elim QueryEndsInDots.text AuthorityIsDots.text
  rw [opened]
  split
  · rename_i ends
    rw [endsInDots_text scheme] at ends
    cases fragment : base.fragment with
    | some f =>
      rw [withSlash_of_fragment fragment]
      refine .inl ⟨rfl, rfl, ?_⟩
      rintro (⟨none, -⟩ | ⟨none, -⟩)
      · rw [fragment] at none
        cases none
      · rw [fragment] at none
        cases none
    | none =>
      rcases dots_of_text separated authority path fragment ends with dots | dots
      · obtain ⟨-, q, query, -⟩ := id dots
        rw [withSlash_of_query fragment query]
        exact .inr (.inl ⟨q, dots, query, rfl, rfl⟩)
      · rw [withSlash_of_path fragment dots.2.1, dots.2.2.1]
        exact .inr (.inr ⟨dots, rfl, rfl⟩)
  · rename_i plain
    exact .inl ⟨rfl, rfl, fun dots => plain ((endsInDots_text scheme).mpr (ofDots dots))⟩

theorem merge_congr (authority : base.authority = other.authority) (path : base.path = other.path)
    (reference : UriParts) : base.merge reference = other.merge reference := by
  rw [merge, merge, authority, path]

/-- The root of an authority is what its empty path stands for. -/
theorem merge_root (authority : base.authority ≠ none) (empty : base.path = [])
    (root : other.path = ['/']) (reference : UriParts) :
    other.merge reference = base.merge reference := by
  have some : base.authority.isSome := Option.isSome_iff_ne_none.mpr authority
  rw [merge, merge, root, empty, if_neg fun both => List.cons_ne_nil _ _ both.2,
    if_pos ⟨some, rfl⟩]
  rfl

/-- A reference with neither an authority nor a path takes over the path of the base, and its query
if it has none itself. -/
theorem transform_of_empty (relative : reference.scheme = none) (noAuthority : reference.authority = none)
    (empty : reference.path = []) (base : UriParts) :
    (base.transform reference).path = base.path ∧
      (reference.query = none → (base.transform reference).query = base.query) := by
  rw [transform, relative, noAuthority, if_neg (by simp), if_neg (by simp), if_pos empty]
  exact ⟨rfl, fun noQuery => by rw [noQuery]; rfl⟩

/-- The slash behind the base shows only where a reference takes it over. -/
theorem transform_opened_iff (separated : base.Separated) (scheme : base.scheme ≠ none)
    (authority : base.authority ≠ none) (path : ¬ EndsInDotSegment base.path)
    (relative : reference.scheme = none) :
    base.opened.transform reference = base.transform reference ↔ ¬ base.TakesDots reference := by
  rcases opened_cases separated scheme authority path with
    ⟨samePath, sameQuery, plain⟩ | ⟨q, dots, query, samePath, slash⟩ | ⟨dots, slash, sameQuery⟩
  · have same : base.opened.transform reference = base.transform reference :=
      transform_congr (scheme_opened base) (authority_opened base) (fun _ _ => samePath)
        (fun _ _ _ => sameQuery) (merge_congr (authority_opened base) samePath reference)
    refine iff_of_true same ?_
    rintro ⟨-, -, dots | ⟨dots, -⟩⟩
    · exact plain (.inr dots)
    · exact plain (.inl dots)
  · constructor
    · rintro same ⟨noAuthority, empty, dots' | ⟨-, noQuery⟩⟩
      · rw [dots'.2.1] at query
        cases query
      · have taken := congrArg UriParts.query same
        rw [(transform_of_empty relative noAuthority empty _).2 noQuery,
          (transform_of_empty relative noAuthority empty _).2 noQuery, slash, query] at taken
        simpa using Option.some.inj taken
    · intro plain
      refine transform_congr (scheme_opened base) (authority_opened base) (fun _ _ => samePath) ?_
        (merge_congr (authority_opened base) samePath reference)
      exact fun noAuthority empty noQuery =>
        absurd ⟨noAuthority, empty, .inr ⟨dots, noQuery⟩⟩ plain
  · obtain ⟨-, -, noPath, -⟩ := id dots
    constructor
    · rintro same ⟨noAuthority, empty, -⟩
      have taken := congrArg UriParts.path same
      rw [(transform_of_empty relative noAuthority empty _).1,
        (transform_of_empty relative noAuthority empty _).1, slash, noPath] at taken
      cases taken
    · intro plain
      refine transform_congr (scheme_opened base) (authority_opened base) ?_ (fun _ _ _ => sameQuery)
        (merge_root authority noPath slash reference)
      exact fun noAuthority empty => absurd ⟨noAuthority, empty, .inl dots⟩ plain

end Dots

end UriParts

/-! ## Joining -/

section Join

open UriParts

variable {base reference : String} {above parts : UriParts}

/-- With an authority nothing is taken for one. -/
theorem UriParts.Delimited.separated (delimited : above.Delimited)
    (authority : above.authority ≠ none) : above.Separated :=
  ⟨delimited, fun _ none => absurd none authority, fun none => absurd none authority⟩

/-- What is resolved against a base that has an authority has one. -/
theorem UriParts.authority_resolve_ne_none (authority : above.authority ≠ none)
    (relative : parts.scheme = none) : (above.resolve parts).authority ≠ none := by
  by_cases isLocal : parts.IsLocal
  · rw [authority_resolve_of_local isLocal]
    exact authority
  · rw [resolve_of_remote isLocal]
    exact fun none => isLocal ⟨relative, none⟩

/-- A join with a base that has a scheme, an authority, and a path which does not end in dots, is
that of the standard, unless the reference takes over a query or an authority that ends in dots. -/
theorem joinUri_eq_recompose_iff (reads : above.Reads base) (reads' : parts.Reads reference)
    (scheme : above.scheme ≠ none) (authority : above.authority ≠ none)
    (path : ¬ EndsInDotSegment above.path) (relative : parts.scheme = none)
    (nonempty : reference ≠ "") :
    joinUri base reference = String.ofList (above.transform parts).recompose ↔
      ¬ above.TakesDots parts := by
  obtain ⟨separated, spells⟩ := id reads
  have separated' := reads'.separated
  have split := reads_iff.mp reads
  have split' := reads_iff.mp reads'
  have some : base.toList ≠ [] := by
    refine ne_nil_of_scheme ?_
    rw [split]
    exact scheme
  have some' : reference.toList ≠ [] := fun empty => nonempty (String.toList_eq_nil_iff.mp empty)
  -- Both sides are read back from their texts, so it is enough to compare the components.
  have readBack {base : UriParts} (separated : base.Separated) (authority : base.authority ≠ none) :
      (base.transform parts).Separated := by
    rw [← resolve_eq_transform authority separated.placed separated'.placed relative]
    exact (separated.toDelimited.resolve separated'.toDelimited).separated
      (authority_resolve_ne_none authority relative)
  have authority' : above.opened.authority ≠ none := by
    rw [authority_opened]
    exact authority
  have opened := readBack separated.opened authority'
  rw [joinUri, resolveUri_eq_text some some', split, split',
    resolve_eq_transform authority' separated.opened.placed separated'.placed relative,
    ← transform_opened_iff separated scheme authority path relative, ← text_eq_recompose]
  constructor
  · intro same
    rw [← opened.split_text, String.ofList_injective same, (readBack separated authority).split_text]
  · intro same
    rw [same]

/-- More steps up than there are directories. -/
theorem joinUri_eq_recompose_iff_up :
    let above : UriParts :=
      ⟨some "http".toList, some "a".toList, "/b/c/d;p".toList, some "q".toList, none⟩
    let parts : UriParts := ⟨none, none, "../../../g".toList, none, none⟩
    above.Reads "http://a/b/c/d;p?q" ∧ parts.Reads "../../../g" ∧ above.scheme ≠ none ∧
      above.authority ≠ none ∧ ¬ EndsInDotSegment above.path ∧ parts.scheme = none ∧
      "../../../g" ≠ "" ∧ ¬ above.TakesDots parts ∧
      joinUri "http://a/b/c/d;p?q" "../../../g" = String.ofList (above.transform parts).recompose := by
  intro above parts
  have reads : above.Reads "http://a/b/c/d;p?q" := reads_iff.mpr (by decide)
  have reads' : parts.Reads "../../../g" := reads_iff.mpr (by decide)
  have plain : ¬ above.TakesDots parts := by decide
  exact ⟨reads, reads', by decide, by decide, by decide, rfl, by decide, plain,
    (joinUri_eq_recompose_iff reads reads' (by decide) (by decide) (by decide) rfl
      (by decide)).mpr plain⟩

/-- A slash is put behind a query that ends in dots, and a reference to a fragment takes it over. -/
theorem joinUri_query_dots :
    let above : UriParts :=
      ⟨some "http".toList, some "h".toList, "/p".toList, some "q=/..".toList, none⟩
    let parts : UriParts := ⟨none, none, [], none, some "s".toList⟩
    above.Reads "http://h/p?q=/.." ∧ parts.Reads "#s" ∧ ¬ EndsInDotSegment above.path ∧
      joinUri "http://h/p?q=/.." "#s" = "http://h/p?q=/../#s" ∧
      String.ofList (above.transform parts).recompose = "http://h/p?q=/..#s" :=
  ⟨reads_iff.mpr (by decide), reads_iff.mpr (by decide), by decide, by decide, by decide⟩

end Join

end CanonicalXml
