import CanonicalXml.Proofs.BaseCharacters
import CanonicalXml.Proofs.BaseUri.Joining

/-! # Components and their text

The components of a reference are put together to a text, and read off a text.  A text has exactly
one reading; but not all components are read back from their text.

* `UriParts.Separated` — components that can be told apart in their text.
* `UriParts.split_text_iff` — they are those that are read back.
* `UriParts.Reads` — the reading of a text, which `UriParts.reads_iff` says is what `split` finds.
* `UriParts.Delimited.resolve` — what resolution makes is separated but for what its path begins
  with.
-/

namespace CanonicalXml

namespace UriParts

/-- No component has a mark that would end it before, and what follows an authority is no part of
it. -/
structure Delimited (parts : UriParts) : Prop where
  scheme : ∀ s ∈ parts.scheme, isScheme s = true
  authority : ∀ a ∈ parts.authority, '/' ∉ a ∧ '?' ∉ a ∧ '#' ∉ a
  path : '?' ∉ parts.path ∧ '#' ∉ parts.path
  query : ∀ q ∈ parts.query, '#' ∉ q
  placed : parts.Placed

/-- Components that can be told apart in their text: the path is not taken for a scheme or for an
authority either. -/
structure Separated (parts : UriParts) : Prop extends Delimited parts where
  named : parts.scheme = none → parts.authority = none → ¬ HasScheme parts.path
  rooted : parts.authority = none → ¬ ['/', '/'] <+: parts.path

/-! ## From components to text and back -/

section Read

variable {cs : List Char} {parts : UriParts}

theorem cut_component {mark : Char} {before : List Char} (plain : mark ∉ before)
    (part : Option (List Char)) : cut mark (before ++ component [mark] part []) = (before, part) := by
  rw [cut_append plain]
  cases part with
  | none =>
    show (before ++ [], none) = _
    rw [List.append_nil]
  | some cs =>
    show (before ++ (cut mark (mark :: (cs ++ []))).1, (cut mark (mark :: (cs ++ []))).2) = _
    rw [cut_cons_self, List.append_nil, List.append_nil]

theorem cut_fst (mark : Char) (cs : List Char) : (cut mark cs).1 = cs.takeWhile (· ≠ mark) := by
  simp only [cut]
  split
  · rename_i nothing
    have whole := List.takeWhile_append_dropWhile (p := fun c => decide (c ≠ mark)) (l := cs)
    rw [nothing, List.append_nil] at whole
    exact whole.symm
  · rfl

theorem notMem_cut (mark : Char) (cs : List Char) : mark ∉ (cut mark cs).1 := by
  rw [cut_fst]
  intro member
  have different := List.all_eq_true.mp List.all_takeWhile mark member
  exact of_decide_eq_true different rfl

theorem not_hasScheme_slash (cs : List Char) : ¬ HasScheme ('/' :: cs) := by
  rintro ⟨s, rest, scheme, same⟩
  cases s with
  | nil => cases scheme
  | cons c s =>
    obtain ⟨rfl, -⟩ := List.cons.inj same
    cases scheme

theorem splitScheme_of_isScheme {s : List Char} (scheme : isScheme s = true) (cs : List Char) :
    splitScheme (s ++ ':' :: cs) = (some s, cs) := by
  rw [splitScheme, cut_append (notMem_of_isScheme scheme (by decide)), cut_cons_self]
  simp [scheme]

theorem splitScheme_of_not_hasScheme (plain : ¬ HasScheme cs) : splitScheme cs = (none, cs) := by
  simp only [splitScheme]
  split
  · rename_i before rest found
    refine if_neg fun scheme => plain ⟨before, rest, scheme, ?_⟩
    have whole := cut_eq ':' cs
    rw [found] at whole
    simpa [component] using whole.symm
  · rfl

/-- The authority ends where an absolute path begins, or where there is none. -/
theorem splitAuthority_of_authority {a path : List Char} (noSlash : '/' ∉ a)
    (placed : path = [] ∨ IsAbsolute path) :
    splitAuthority ('/' :: '/' :: (a ++ path)) = (some a, path) := by
  have inside : ∀ c ∈ a, decide (c ≠ '/') = true := by
    intro c member
    rw [decide_eq_true_iff]
    rintro rfl
    exact noSlash member
  rw [splitAuthority, List.takeWhile_append_of_pos inside, List.dropWhile_append_of_pos inside]
  rcases placed with rfl | absolute
  · simp
  · obtain ⟨rest, rfl⟩ := List.head?_eq_some_iff.mp absolute
    simp

theorem splitAuthority_of_not_doubled (plain : ¬ ['/', '/'] <+: cs) :
    splitAuthority cs = (none, cs) := by
  simp only [splitAuthority]
  split
  · rename_i rest
    exact absurd ⟨rest, rfl⟩ plain
  · rfl

/-- What follows the scheme in a text. -/
def hierarchy (parts : UriParts) : List Char :=
  component ['/', '/'] parts.authority [] ++ parts.path

theorem splitScheme_text (separated : parts.Separated) :
    splitScheme (component [] parts.scheme [':'] ++ parts.hierarchy) =
      (parts.scheme, parts.hierarchy) := by
  cases scheme : parts.scheme with
  | some s =>
    have begins : component [] (some s) [':'] ++ parts.hierarchy = s ++ ':' :: parts.hierarchy := by
      simp [component]
    rw [begins, splitScheme_of_isScheme (separated.scheme s scheme)]
  | none =>
    refine splitScheme_of_not_hasScheme ?_
    cases authority : parts.authority with
    | some a =>
      rw [hierarchy, authority]
      exact not_hasScheme_slash _
    | none =>
      rw [hierarchy, authority]
      exact separated.named scheme authority

theorem splitAuthority_hierarchy (separated : parts.Separated) :
    splitAuthority parts.hierarchy = (parts.authority, parts.path) := by
  cases authority : parts.authority with
  | some a =>
    have placed := separated.placed (by rw [authority]; exact Option.some_ne_none a)
    have begins : parts.hierarchy = '/' :: '/' :: (a ++ parts.path) := by
      simp [hierarchy, authority, component]
    rw [begins, splitAuthority_of_authority (separated.authority a authority).1 placed]
  | none =>
    rw [hierarchy, authority]
    exact splitAuthority_of_not_doubled (separated.rooted authority)

theorem notMem_hierarchy (delimited : parts.Delimited) :
    '?' ∉ component [] parts.scheme [':'] ++ parts.hierarchy ∧
      '#' ∉ component [] parts.scheme [':'] ++ parts.hierarchy := by
  have avoids {mark : Char}
      (other : (mark.isAlphanum || mark = '+' || mark = '-' || mark = '.') = false)
      (notColon : mark ≠ ':') (notSlash : mark ≠ '/')
      (authority : ∀ a ∈ parts.authority, mark ∉ a) (path : mark ∉ parts.path) :
      mark ∉ component [] parts.scheme [':'] ++ parts.hierarchy := by
    have inScheme : mark ∉ component [] parts.scheme [':'] := by
      cases scheme : parts.scheme with
      | none => exact List.not_mem_nil
      | some s =>
        have plain := notMem_of_isScheme (delimited.scheme s scheme) other
        simp [component, plain, notColon]
    have inAuthority : mark ∉ component ['/', '/'] parts.authority [] := by
      cases authority' : parts.authority with
      | none => exact List.not_mem_nil
      | some a =>
        have plain := authority a authority'
        simp [component, plain, notSlash]
    rw [hierarchy, List.mem_append, List.mem_append]
    exact not_or.mpr ⟨inScheme, not_or.mpr ⟨inAuthority, path⟩⟩
  exact ⟨avoids (by decide) (by decide) (by decide) (fun a some => (delimited.authority a some).2.1)
      delimited.path.1,
    avoids (by decide) (by decide) (by decide) (fun a some => (delimited.authority a some).2.2)
      delimited.path.2⟩

/-- Components that can be told apart are read back. -/
theorem Separated.split_text (separated : parts.Separated) : split parts.text = parts := by
  obtain ⟨noQuery, noFragment⟩ := notMem_hierarchy separated.toDelimited
  have whole : parts.text = component [] parts.scheme [':'] ++ parts.hierarchy ++
      component ['?'] parts.query [] ++ component ['#'] parts.fragment [] := by
    simp only [text, hierarchy, List.append_assoc]
  have before : '#' ∉ component [] parts.scheme [':'] ++ parts.hierarchy ++
      component ['?'] parts.query [] := by
    rw [List.mem_append]
    refine not_or.mpr ⟨noFragment, ?_⟩
    cases query : parts.query with
    | none => exact List.not_mem_nil
    | some q =>
      have plain := separated.query q query
      simp [component, plain]
  rw [whole, split, cut_component before]
  dsimp only
  rw [cut_component noQuery]
  dsimp only
  rw [splitScheme_text separated]
  dsimp only
  rw [splitAuthority_hierarchy separated]

/-- What stands in a text before its query and its fragment. -/
def beforeQuery (cs : List Char) : List Char :=
  (cut '?' (cut '#' cs).1).1

theorem notMem_beforeQuery (cs : List Char) : '?' ∉ beforeQuery cs ∧ '#' ∉ beforeQuery cs := by
  refine ⟨notMem_cut '?' _, fun member => notMem_cut '#' cs ?_⟩
  rw [beforeQuery, cut_fst] at member
  exact List.takeWhile_subset _ member

/-- Where the components are found: the query and the fragment have no influence on the others. -/
theorem split_eq (cs : List Char) : split cs =
    { scheme := (splitScheme (beforeQuery cs)).1
      authority := (splitAuthority (splitScheme (beforeQuery cs)).2).1
      path := (splitAuthority (splitScheme (beforeQuery cs)).2).2
      query := (cut '?' (cut '#' cs).1).2
      fragment := (cut '#' cs).2 } :=
  rfl

theorem beforeQuery_beforeQuery (cs : List Char) : beforeQuery (beforeQuery cs) = beforeQuery cs := by
  obtain ⟨noQuery, noFragment⟩ := notMem_beforeQuery cs
  have whole {mark : Char} (plain : mark ∉ beforeQuery cs) :
      cut mark (beforeQuery cs) = (beforeQuery cs, none) := by
    have uncut := cut_component plain none
    rwa [component, List.append_nil] at uncut
  conv => lhs; rw [beforeQuery, whole noFragment]
  dsimp only
  rw [whole noQuery]

theorem notMem_authority {a : List Char} (found : (splitAuthority cs).1 = some a) : '/' ∉ a := by
  simp only [splitAuthority] at found
  split at found
  · cases found
    intro member
    exact of_decide_eq_true (List.all_eq_true.mp List.all_takeWhile '/' member) rfl
  · cases found

theorem splitAuthority_of_none (none : (splitAuthority cs).1 = none) :
    (splitAuthority cs).2 = cs ∧ ¬ ['/', '/'] <+: cs := by
  simp only [splitAuthority] at none ⊢
  split at none
  · cases none
  · rename_i other
    refine ⟨rfl, ?_⟩
    rintro ⟨rest, rfl⟩
    exact other rest rfl

theorem splitScheme_of_none (none : (splitScheme cs).1 = none) : (splitScheme cs).2 = cs := by
  have whole := splitScheme_eq cs
  rwa [none] at whole

/-- What is read of a text can be told apart in it. -/
theorem separated_split (cs : List Char) : (split cs).Separated := by
  obtain ⟨noQuery, noFragment⟩ := notMem_beforeQuery cs
  -- The components before the query have neither of the marks.
  have avoids {mark : Char} (plain : mark ∉ beforeQuery cs) :
      (∀ a ∈ (split cs).authority, mark ∉ a) ∧ mark ∉ (split cs).path := by
    have all : All (· ≠ mark) (split (beforeQuery cs)) :=
      all_split fun c member same => plain (same ▸ member)
    rw [split_eq, beforeQuery_beforeQuery] at all
    exact ⟨fun a found member => all.authority a found mark member rfl,
      fun member => all.path mark member rfl⟩
  refine ⟨⟨fun s found => isScheme_of_split found, fun a found => ⟨notMem_authority found,
    (avoids noQuery).1 a found, (avoids noFragment).1 a found⟩,
    ⟨(avoids noQuery).2, (avoids noFragment).2⟩, ?_, placed_split cs⟩, ?_, ?_⟩
  · intro q found member
    have plain : ∀ c ∈ (cut '#' cs).1, c ≠ '#' := fun c inside same =>
      notMem_cut '#' cs (same ▸ inside)
    exact (forall_mem_cut '?' plain).2 q found '#' member rfl
  · intro scheme authority known
    rw [split_eq] at scheme authority known
    dsimp only at scheme authority known
    rw [(splitAuthority_of_none authority).1, splitScheme_of_none scheme] at known
    obtain ⟨s, rest, named, same⟩ := known
    rw [same, splitScheme_of_isScheme named] at scheme
    cases scheme
  · intro authority
    rw [split_eq] at authority ⊢
    dsimp only at authority ⊢
    obtain ⟨same, plain⟩ := splitAuthority_of_none authority
    rw [same]
    exact plain

/-- Components are read back from their text if, and only if, they can be told apart in it. -/
theorem split_text_iff : split parts.text = parts ↔ parts.Separated := by
  constructor
  · intro same
    rw [← same]
    exact separated_split _
  · exact Separated.split_text

/-- The components are those of a text. -/
structure Reads (parts : UriParts) (text : String) : Prop where
  separated : parts.Separated
  spells : parts.text = text.toList

/-- Every text has one reading. -/
theorem reads_iff {text : String} : parts.Reads text ↔ split text.toList = parts := by
  constructor
  · intro reads
    rw [← reads.spells]
    exact reads.separated.split_text
  · rintro rfl
    exact ⟨separated_split _, text_split _⟩

end Read

/-! ## A slash behind the text -/

section Slash

variable {parts : UriParts} {cs : List Char}

/-- The components with a slash behind the last one. -/
def withSlash (parts : UriParts) : UriParts :=
  match parts.fragment, parts.query with
  | some f, _ => { parts with fragment := some (f ++ ['/']) }
  | none, some q => { parts with query := some (q ++ ['/']) }
  | none, none => { parts with path := parts.path ++ ['/'] }

theorem withSlash_of_fragment {f : List Char} (fragment : parts.fragment = some f) :
    parts.withSlash = { parts with fragment := some (f ++ ['/']) } := by
  rw [withSlash, fragment]

theorem withSlash_of_query {q : List Char} (noFragment : parts.fragment = none)
    (query : parts.query = some q) :
    parts.withSlash = { parts with query := some (q ++ ['/']) } := by
  rw [withSlash, noFragment, query]

theorem withSlash_of_path (noFragment : parts.fragment = none) (noQuery : parts.query = none) :
    parts.withSlash = { parts with path := parts.path ++ ['/'] } := by
  rw [withSlash, noFragment, noQuery]

@[simp] theorem scheme_withSlash (parts : UriParts) : parts.withSlash.scheme = parts.scheme := by
  unfold withSlash
  split <;> rfl

@[simp] theorem authority_withSlash (parts : UriParts) :
    parts.withSlash.authority = parts.authority := by
  unfold withSlash
  split <;> rfl

theorem text_withSlash (parts : UriParts) : parts.withSlash.text = parts.text ++ ['/'] := by
  cases fragment : parts.fragment with
  | some f =>
    rw [withSlash_of_fragment fragment]
    simp [text, component, fragment]
  | none =>
    cases query : parts.query with
    | some q =>
      rw [withSlash_of_query fragment query]
      simp [text, component, fragment, query]
    | none =>
      rw [withSlash_of_path fragment query]
      simp [text, component, fragment, query]

theorem HasScheme.of_append_slash (known : HasScheme (cs ++ ['/'])) : HasScheme cs := by
  obtain ⟨s, rest, scheme, same⟩ := known
  rcases List.eq_nil_or_concat rest with rfl | ⟨earlier, last, rfl⟩
  · have ends := congrArg List.getLast? same
    simp at ends
  · rw [List.concat_eq_append, ← List.cons_append, ← List.append_assoc] at same
    exact ⟨s, earlier, scheme, (List.append_inj' same rfl).1⟩

theorem Placed.append_slash (placed : parts.Placed) :
    Placed { parts with path := parts.path ++ ['/'] } := by
  intro authority
  rcases placed authority with empty | absolute
  · exact .inr (by simp [IsAbsolute, empty])
  · obtain ⟨rest, same⟩ := List.head?_eq_some_iff.mp absolute
    exact .inr (by simp [IsAbsolute, same])

/-- The components stay apart, unless the slash makes a path begin with two. -/
theorem Separated.withSlash (separated : parts.Separated) (ends : endsInDots parts.text = true) :
    parts.withSlash.Separated := by
  obtain ⟨⟨scheme, authority, path, query, placed⟩, named, rooted⟩ := separated
  cases fragment : parts.fragment with
  | some f =>
    rw [withSlash_of_fragment fragment]
    exact ⟨⟨scheme, authority, path, query, placed⟩, named, rooted⟩
  | none =>
    cases query' : parts.query with
    | some q =>
      rw [withSlash_of_query fragment query']
      refine ⟨⟨scheme, authority, path, ?_, placed⟩, named, rooted⟩
      rintro _ ⟨⟩
      simpa using query q query'
    | none =>
      rw [withSlash_of_path fragment query']
      refine ⟨⟨scheme, authority, by simpa using path, query, placed.append_slash⟩,
        fun noScheme noAuthority known => named noScheme noAuthority known.of_append_slash, ?_⟩
      intro noAuthority begins
      rcases List.prefix_concat_iff.mp begins with same | before
      · -- The text ends in the slash that is the whole path.
        have split : ['/'] ++ ['/'] = parts.path ++ ['/'] := same
        have whole : parts.path = ['/'] := (List.append_cancel_right split).symm
        have spelled : parts.text = component [] parts.scheme [':'] ++ ['/'] := by
          have noAuthority : parts.authority = none := noAuthority
          rw [text, noAuthority, whole, query', fragment]
          simp [component]
        rw [spelled, endsInDots_append_slash] at ends
        cases ends
      · exact rooted noAuthority before

/-- The components of a base as it is resolved against: dots at the end name a directory. -/
def opened (base : UriParts) : UriParts :=
  if endsInDots base.text then base.withSlash else base

@[simp] theorem scheme_opened (base : UriParts) : base.opened.scheme = base.scheme := by
  rw [opened]
  split
  · exact scheme_withSlash base
  · rfl

@[simp] theorem authority_opened (base : UriParts) : base.opened.authority = base.authority := by
  rw [opened]
  split
  · exact authority_withSlash base
  · rfl

theorem Separated.opened (separated : parts.Separated) : parts.opened.Separated := by
  rw [UriParts.opened]
  split
  · rename_i ends
    exact separated.withSlash ends
  · exact separated

theorem split_opened (base : List Char) :
    split (if endsInDots base then base ++ ['/'] else base) = (split base).opened := by
  have text : (split base).opened.text = if endsInDots base then base ++ ['/'] else base := by
    rw [opened, text_split]
    split
    · rw [text_withSlash, text_split]
    · exact text_split base
  rw [← text, (separated_split base).opened.split_text]

/-- What is joined is put together from the components that are resolved. -/
theorem resolveUri_eq_text {base reference : List Char} (some : base ≠ [])
    (some' : reference ≠ []) :
    resolveUri base reference = ((split base).opened.resolve (split reference)).text := by
  rw [resolveUri, if_neg (by simpa using some), if_neg (by simpa using some')]
  dsimp only
  rw [split_opened]

end Slash

/-! ## What resolution makes -/

section Resolution

variable {base reference : UriParts}

/-- Resolution takes components over, and its path has no other marks than slashes and dots. -/
theorem Delimited.resolve (above : base.Delimited) (delimited : reference.Delimited) :
    (base.resolve reference).Delimited := by
  have avoids {mark : Char} (notSlash : '/' ≠ mark) (notDot : '.' ≠ mark)
      (plain : mark ∉ base.path) (plain' : mark ∉ reference.path) :
      mark ∉ (base.resolve reference).path := by
    have all : ∀ c ∈ (base.resolve reference).path, c ≠ mark :=
      forall_mem_path_resolve notSlash notDot (fun c member same => plain (same ▸ member))
        fun c member same => plain' (same ▸ member)
    exact fun member => all mark member rfl
  have path := And.intro (avoids (by decide) (by decide) above.path.1 delimited.path.1)
    (avoids (by decide) (by decide) above.path.2 delimited.path.2)
  rcases reference_cases reference with remote | ⟨isLocal, empty⟩ | ⟨isLocal, nonempty⟩
  · rw [resolve_of_remote remote] at path ⊢
    refine ⟨?_, delimited.authority, path, delimited.query, ?_⟩
    · intro s found
      rcases Option.or_eq_some_iff.mp found with own | ⟨-, inherited⟩
      · exact delimited.scheme s own
      · exact above.scheme s inherited
    · intro authority
      rcases delimited.placed authority with nothing | absolute
      · exact .inl (by simp only [nothing]; rfl)
      · exact .inr absolute.removeDotSegments
  · rw [resolve_of_empty isLocal empty] at path ⊢
    refine ⟨above.scheme, above.authority, path, ?_, above.placed⟩
    intro q found
    rcases Option.or_eq_some_iff.mp found with own | ⟨-, inherited⟩
    · exact delimited.query q own
    · exact above.query q inherited
  · rw [resolve_of_path isLocal nonempty] at path ⊢
    refine ⟨above.scheme, above.authority, path, delimited.query, fun authority => .inr ?_⟩
    have folder : IsAbsolute base.folder := IsRooted.folder above.placed (.inl authority)
    exact (isAbsolute_pathFrom.mpr (.inr folder)).removeDotSegments

end Resolution

end UriParts

end CanonicalXml
