import CanonicalXml.BaseUri

/-! # The characters of joined base URIs

Resolving a reference brings no characters into it but those of the base, of the reference, and
the marks between components.

* `UriParts.All` — all characters of the components have a property.
* `forall_mem_joinUri` — so have those of a joined URI, if the marks have it.
-/

namespace CanonicalXml

variable {ok : Char → Prop} {cs : List Char}

/-- All characters of the components have a property. -/
structure UriParts.All (ok : Char → Prop) (parts : UriParts) : Prop where
  scheme : ∀ part ∈ parts.scheme, ∀ c ∈ part, ok c
  authority : ∀ part ∈ parts.authority, ∀ c ∈ part, ok c
  path : ∀ c ∈ parts.path, ok c
  query : ∀ part ∈ parts.query, ∀ c ∈ part, ok c
  fragment : ∀ part ∈ parts.fragment, ∀ c ∈ part, ok c

namespace UriParts

theorem forall_mem_cut (mark : Char) (all : ∀ c ∈ cs, ok c) :
    (∀ c ∈ (cut mark cs).1, ok c) ∧ ∀ rest ∈ (cut mark cs).2, ∀ c ∈ rest, ok c := by
  simp only [cut]
  split
  · refine ⟨all, ?_⟩
    rintro _ ⟨⟩
  · rename_i first rest found
    refine ⟨fun c member => all c (List.takeWhile_subset _ member), ?_⟩
    rintro _ ⟨⟩ c member
    have inside : c ∈ cs.dropWhile (· ≠ mark) := by
      rw [found]
      exact List.mem_cons_of_mem first member
    exact all c ((List.dropWhile_sublist _).subset inside)

theorem all_split (all : ∀ c ∈ cs, ok c) : All ok (split cs) := by
  obtain ⟨beforeFragment, fragment⟩ := forall_mem_cut '#' all
  obtain ⟨beforeQuery, query⟩ := forall_mem_cut '?' beforeFragment
  unfold split
  dsimp only
  generalize (cut '?' (cut '#' cs).1).1 = rest at beforeQuery ⊢
  have scheme : (∀ part ∈ (splitScheme rest).1, ∀ c ∈ part, ok c) ∧
      ∀ c ∈ (splitScheme rest).2, ok c := by
    obtain ⟨before, after⟩ := forall_mem_cut ':' beforeQuery
    simp only [splitScheme]
    split
    · rename_i equal
      rw [equal] at before after
      split
      · refine ⟨?_, after _ rfl⟩
        rintro _ ⟨⟩
        exact before
      · exact ⟨nofun, beforeQuery⟩
    · exact ⟨nofun, beforeQuery⟩
  generalize (splitScheme rest).2 = later at scheme ⊢
  have authority : (∀ part ∈ (splitAuthority later).1, ∀ c ∈ part, ok c) ∧
      ∀ c ∈ (splitAuthority later).2, ok c := by
    simp only [splitAuthority]
    split
    · rename_i tail
      have inside : ∀ c ∈ tail, ok c := fun c member =>
        scheme.2 c (List.mem_cons_of_mem _ (List.mem_cons_of_mem _ member))
      refine ⟨?_, fun c member => inside c ((List.dropWhile_sublist _).subset member)⟩
      rintro _ ⟨⟩ c member
      exact inside c (List.takeWhile_subset _ member)
    · exact ⟨nofun, scheme.2⟩
  exact ⟨scheme.1, authority.1, authority.2, query, fragment⟩

theorem forall_mem_component {before after : List Char} {part : Option (List Char)}
    (first : ∀ c ∈ before, ok c) (all : ∀ cs ∈ part, ∀ c ∈ cs, ok c)
    (last : ∀ c ∈ after, ok c) : ∀ c ∈ component before part after, ok c := by
  cases part with
  | none => exact nofun
  | some cs =>
    simp only [component]
    rw [List.forall_mem_append, List.forall_mem_append]
    exact ⟨⟨first, all cs rfl⟩, last⟩

/-- The marks that stand between components and between segments. -/
def marks : List Char := [':', '/', '?', '#', '.']

theorem All.text {parts : UriParts} (all : parts.All ok) (between : ∀ c ∈ marks, ok c) :
    ∀ c ∈ parts.text, ok c := by
  have mark (c : Char) (member : c ∈ marks) : ∀ d ∈ [c], ok d := by
    intro d same
    rw [List.mem_singleton.mp same]
    exact between c member
  have slashes : ∀ c ∈ ['/', '/'], ok c := by
    intro c member
    refine between c ?_
    rcases List.mem_cons.mp member with rfl | member
    · decide
    · rw [List.mem_singleton.mp member]
      decide
  simp only [UriParts.text]
  simp only [List.forall_mem_append]
  exact ⟨⟨⟨⟨forall_mem_component nofun all.scheme (mark ':' (by decide)),
    forall_mem_component slashes all.authority nofun⟩, all.path⟩,
    forall_mem_component (mark '?' (by decide)) all.query nofun⟩,
    forall_mem_component (mark '#' (by decide)) all.fragment nofun⟩

end UriParts

/-! ## Paths -/

theorem forall_mem_segments (separates : Char → Bool) (all : ∀ c ∈ cs, ok c) :
    ∀ segment ∈ Text.segments separates cs, ∀ c ∈ segment, ok c := by
  induction cs with
  | nil =>
    intro segment member
    rw [List.mem_singleton.mp member]
    exact nofun
  | cons c cs ih =>
    obtain ⟨first, later⟩ := List.forall_mem_cons.mp all
    have rest := ih later
    simp only [Text.segments]
    split
    · exact List.forall_mem_cons.mpr ⟨nofun, rest⟩
    · split
      · intro segment member
        rw [List.mem_singleton.mp member]
        exact List.forall_mem_cons.mpr ⟨first, nofun⟩
      · rename_i segment segments found
        rw [found] at rest
        obtain ⟨here, there⟩ := List.forall_mem_cons.mp rest
        exact List.forall_mem_cons.mpr ⟨List.forall_mem_cons.mpr ⟨first, here⟩, there⟩

theorem forall_mem_foldSegments {absolute : Bool} {segments : List (List Char)} (dot : ok '.')
    (all : ∀ segment ∈ segments, ∀ c ∈ segment, ok c) : ∀ {kept : List (List Char)},
    (∀ segment ∈ kept, ∀ c ∈ segment, ok c) →
    ∀ segment ∈ foldSegments absolute kept segments, ∀ c ∈ segment, ok c := by
  induction segments with
  | nil => exact fun stays => stays
  | cons segment rest ih =>
    intro kept stays
    obtain ⟨here, later⟩ := List.forall_mem_cons.mp all
    have withEmpty : ∀ {kept : List (List Char)}, (∀ segment ∈ kept, ∀ c ∈ segment, ok c) →
        ∀ segment ∈ (if rest.isEmpty then [] :: kept else kept), ∀ c ∈ segment, ok c := by
      intro kept stays
      split
      · exact List.forall_mem_cons.mpr ⟨nofun, stays⟩
      · exact stays
    have dots : ∀ c ∈ ['.', '.'], ok c :=
      List.forall_mem_cons.mpr ⟨dot, List.forall_mem_cons.mpr ⟨dot, nofun⟩⟩
    simp only [foldSegments]
    split
    · exact ih later (withEmpty stays)
    · split
      · refine ih later (withEmpty ?_)
        split
        · split
          · exact nofun
          · exact List.forall_mem_cons.mpr ⟨dots, nofun⟩
        · obtain ⟨top, below⟩ := List.forall_mem_cons.mp stays
          split
          · exact below
          · split
            · exact stays
            · exact List.forall_mem_cons.mpr ⟨dots, stays⟩
      · exact ih later (List.forall_mem_cons.mpr ⟨here, stays⟩)

theorem forall_mem_intercalate {mark : List Char} {segments : List (List Char)}
    (between : ∀ c ∈ mark, ok c) (all : ∀ segment ∈ segments, ∀ c ∈ segment, ok c) :
    ∀ c ∈ mark.intercalate segments, ok c := by
  induction segments with
  | nil => exact nofun
  | cons segment rest ih =>
    obtain ⟨here, later⟩ := List.forall_mem_cons.mp all
    cases rest with
    | nil =>
      rw [List.intercalate_singleton]
      exact here
    | cons next rest =>
      rw [List.intercalate_cons_cons, List.forall_mem_append, List.forall_mem_append]
      exact ⟨⟨here, between⟩, ih later⟩

theorem forall_mem_reverse {segments : List (List Char)}
    (all : ∀ segment ∈ segments, ∀ c ∈ segment, ok c) :
    ∀ segment ∈ segments.reverse, ∀ c ∈ segment, ok c :=
  fun segment member => all segment (List.mem_reverse.mp member)

theorem forall_mem_removeDotSegments (slash : ok '/') (dot : ok '.')
    (all : ∀ c ∈ cs, ok c) : ∀ c ∈ removeDotSegments cs, ok c := by
  have slash : ∀ c ∈ ['/'], ok c :=
    List.forall_mem_cons.mpr ⟨slash, nofun⟩
  have folded (absolute : Bool) {path : List Char} (all : ∀ c ∈ path, ok c) :
      ∀ c ∈ ['/'].intercalate
        (foldSegments absolute [] (Text.segments (· = '/') path)).reverse, ok c :=
    forall_mem_intercalate slash (forall_mem_reverse (forall_mem_foldSegments
      dot (forall_mem_segments _ all) nofun))
  simp only [removeDotSegments]
  split
  · obtain ⟨first, later⟩ := List.forall_mem_cons.mp all
    exact List.forall_mem_cons.mpr ⟨first, folded true later⟩
  · exact folded false all

theorem forall_mem_directory (all : ∀ c ∈ cs, ok c) : ∀ c ∈ directory cs, ok c := by
  intro c member
  have inside := (List.dropWhile_sublist _).subset (List.mem_reverse.mp member)
  exact all c (List.mem_reverse.mp inside)

namespace UriParts

variable {base reference : UriParts}

theorem forall_mem_mergePaths (slash : ok '/') (above : ∀ c ∈ base.path, ok c)
    (all : ∀ c ∈ reference.path, ok c) : ∀ c ∈ mergePaths base reference, ok c := by
  simp only [mergePaths]
  split
  · exact List.forall_mem_cons.mpr ⟨slash, all⟩
  · rw [List.forall_mem_append]
    exact ⟨forall_mem_directory above, all⟩

/-- The path that is resolved has the characters of both paths, dots and slashes. -/
theorem forall_mem_path_resolve (slash : ok '/') (dot : ok '.') (above : ∀ c ∈ base.path, ok c)
    (all : ∀ c ∈ reference.path, ok c) : ∀ c ∈ (base.resolve reference).path, ok c := by
  simp only [UriParts.resolve]
  split
  · exact forall_mem_removeDotSegments slash dot all
  split
  · exact forall_mem_removeDotSegments slash dot all
  split
  · exact above
  · refine forall_mem_removeDotSegments slash dot ?_
    split
    · exact all
    · exact forall_mem_mergePaths slash above all

theorem All.resolve (between : ∀ c ∈ marks, ok c) (above : base.All ok)
    (all : reference.All ok) : (base.resolve reference).All ok := by
  have path := forall_mem_path_resolve (between '/' (by decide)) (between '.' (by decide))
    above.path all.path
  revert path
  simp only [UriParts.resolve]
  split
  · exact fun path => ⟨all.scheme, all.authority, path, all.query, all.fragment⟩
  split
  · exact fun path => ⟨above.scheme, all.authority, path, all.query, all.fragment⟩
  split
  · refine fun path => ⟨above.scheme, above.authority, path, ?_, all.fragment⟩
    intro part member
    rcases Option.or_eq_some_iff.mp member with own | ⟨-, inherited⟩
    · exact all.query part own
    · exact above.query part inherited
  · exact fun path => ⟨above.scheme, above.authority, path, all.query, all.fragment⟩

end UriParts

/-! ## Joining -/

theorem forall_mem_joinUri (between : ∀ c ∈ UriParts.marks, ok c) {base reference : String}
    (above : ∀ c ∈ base.toList, ok c) (all : ∀ c ∈ reference.toList, ok c) :
    ∀ c ∈ (joinUri base reference).toList, ok c := by
  simp only [joinUri, resolveUri]
  rw [String.toList_ofList]
  split
  · exact all
  split
  · exact above
  · have directory : ∀ c ∈ (if endsInDots base.toList then base.toList ++ ['/']
        else base.toList), ok c := by
      split
      · rw [List.forall_mem_append]
        exact ⟨above, List.forall_mem_cons.mpr ⟨between '/' (by decide), nofun⟩⟩
      · exact above
    exact (UriParts.All.resolve between (UriParts.all_split directory)
      (UriParts.all_split all)).text between

end CanonicalXml
