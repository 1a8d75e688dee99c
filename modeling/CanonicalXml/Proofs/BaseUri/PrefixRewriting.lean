import CanonicalXml.Proofs.BaseUri.DotSegments
import Mathlib.Data.List.DropRight

/-! # Dot segments as a rewriting of prefixes

RFC 3986, section 5.2.4, removes dot segments from the front of an input buffer, and moves what it
does not remove to the end of an output buffer.  On an absolute path this is the same as keeping a
stack of segments: the stack is what stands in the output buffer.

* `rewriteDots` — the rules of the section, in their order.
* `rewriteDots_slashed` — a run of the rules beside a run of the stack.
* `removeDotSegments_of_absolute` — both do the same to an absolute path.
-/

namespace CanonicalXml

/-- An output buffer without its last segment and the slash before it, if there is any. -/
def dropSegment (output : List Char) : List Char :=
  (output.rdropWhile (· ≠ '/')).dropLast

/-- The output buffer when the input buffer is empty.  The first rule that applies is taken. -/
def rewriteDots (output : List Char) : List Char → List Char
  | [] => output
  -- A dot segment in front of everything is removed.
  | '.' :: '.' :: '/' :: input => rewriteDots output input
  | '.' :: '/' :: input => rewriteDots output input
  -- One behind a slash is removed with it, and with the last segment written if it leads up.
  | '/' :: '.' :: '/' :: input => rewriteDots output ('/' :: input)
  | ['/', '.'] => rewriteDots output ['/']
  | '/' :: '.' :: '.' :: '/' :: input => rewriteDots (dropSegment output) ('/' :: input)
  | ['/', '.', '.'] => rewriteDots (dropSegment output) ['/']
  | ['.'] => output
  | ['.', '.'] => output
  -- Any other segment is moved, with the slash before it if there is one.
  | c :: input =>
    rewriteDots (output ++ c :: input.takeWhile (· ≠ '/')) (input.dropWhile (· ≠ '/'))
termination_by input => input.length
decreasing_by
  all_goals simp only [List.length_cons, List.length_nil]
  all_goals first
    | omega
    | exact Nat.lt_succ_of_le (List.dropWhile_sublist _).length_le

/-- Segments with a slash before each of them. -/
def slashed (segments : List (List Char)) : List Char :=
  segments.flatMap ('/' :: ·)

section Slashed

variable {kept segments : List (List Char)} {segment output rest : List Char}

theorem slashed_nil : slashed [] = [] :=
  rfl

theorem slashed_cons (segment : List Char) (segments : List (List Char)) :
    slashed (segment :: segments) = '/' :: (segment ++ slashed segments) :=
  rfl

theorem slashed_reverse_cons (segment : List Char) (kept : List (List Char)) :
    slashed (segment :: kept).reverse = slashed kept.reverse ++ '/' :: segment := by
  simp [slashed]

theorem slashed_append_singleton (directories : List (List Char)) (name : List Char) :
    slashed (directories ++ [name]) = '/' :: ['/'].intercalate (directories ++ [name]) := by
  rw [Route.intercalate_eq]
  induction directories with
  | nil => simp [slashed]
  | cons directory directories ih =>
    rw [List.cons_append, slashed_cons, ih]
    simp

theorem dropSegment_append {s : List Char} (plain : '/' ∉ s) (output : List Char) :
    dropSegment (output ++ '/' :: s) = output := by
  have skips : ∀ c ∈ s.reverse, decide (c ≠ '/') = true := by
    intro c member
    rw [decide_eq_true_iff]
    rintro rfl
    exact plain (List.mem_reverse.mp member)
  rw [dropSegment, List.rdropWhile, List.reverse_append, List.reverse_cons, List.append_assoc,
    List.dropWhile_append_of_pos skips, List.singleton_append, List.dropWhile_cons_of_neg (by simp)]
  simp

/-- The last rule: a segment that is none of dots. -/
theorem rewriteDots_segment (plain : isDots segment = false) (noSlash : '/' ∉ segment)
    (boundary : rest = [] ∨ ∃ later, rest = '/' :: later) (output : List Char) :
    rewriteDots output ('/' :: (segment ++ rest)) = rewriteDots (output ++ '/' :: segment) rest := by
  have inside : ∀ c ∈ segment, decide (c ≠ '/') = true := by
    intro c member
    rw [decide_eq_true_iff]
    rintro rfl
    exact noSlash member
  have taken : (segment ++ rest).takeWhile (· ≠ '/') = segment := by
    rw [List.takeWhile_append_of_pos inside]
    rcases boundary with rfl | ⟨later, rfl⟩
    · simp
    · simp
  have dropped : (segment ++ rest).dropWhile (· ≠ '/') = rest := by
    rw [List.dropWhile_append_of_pos inside]
    rcases boundary with rfl | ⟨later, rfl⟩
    · rfl
    · simp
  -- No earlier rule applies, since the segment is what stands before the next slash.
  have first {text : List Char} (same : segment ++ rest = text) :
      segment = text.takeWhile (· ≠ '/') := by
    rw [← same, taken]
  obtain ⟨notDot, notDots⟩ := isDots_eq_false.mp plain
  rw [rewriteDots, taken, dropped]
  · exact fun _ slash => absurd slash (by decide)
  · exact fun _ slash => absurd slash (by decide)
  · exact fun _ _ same => notDot (first same)
  · exact fun _ same => notDot (first same)
  · exact fun _ _ same => notDots (first same)
  · exact fun _ same => notDots (first same)
  · exact fun slash => absurd slash (by decide)
  · exact fun slash => absurd slash (by decide)

/-- A slash at the end is the last segment. -/
theorem rewriteDots_slash (output : List Char) : rewriteDots output ['/'] = output ++ ['/'] := by
  have moved : rewriteDots output ('/' :: ([] ++ [])) = rewriteDots (output ++ ['/']) [] :=
    rewriteDots_segment rfl List.not_mem_nil (.inl rfl) output
  rw [List.append_nil] at moved
  rw [moved, rewriteDots]

/-- Nothing that is kept of an absolute path is made of dots. -/
theorem dropSegment_slashed (plain : ∀ s ∈ kept, '/' ∉ s ∧ isDots s = false) :
    dropSegment (slashed kept.reverse) = slashed (stepUp true kept).reverse := by
  cases kept with
  | nil => rfl
  | cons top below =>
    obtain ⟨noSlash, notDots⟩ := plain top List.mem_cons_self
    rw [slashed_reverse_cons, dropSegment_append noSlash, stepUp_cons_of_plain notDots]

/-- What is kept with one more segment is still plain. -/
theorem plain_settleSegment (noSlash : '/' ∉ segment)
    (plain : ∀ s ∈ kept, '/' ∉ s ∧ isDots s = false) :
    ∀ s ∈ settleSegment true kept segment, '/' ∉ s ∧ isDots s = false := by
  rcases segment_cases segment with rfl | rfl | new
  · rw [settleSegment_dot]
    exact plain
  · rw [settleSegment_dots]
    cases kept with
    | nil => exact nofun
    | cons top below =>
      obtain ⟨here, rest⟩ := List.forall_mem_cons.mp plain
      rw [stepUp_cons_of_plain here.2]
      exact rest
  · rw [settleSegment_of_plain new]
    exact List.forall_mem_cons.mpr ⟨⟨noSlash, new⟩, plain⟩

/-- One segment in front of another one, on the buffers and on the stack. -/
theorem rewriteDots_step (noSlash : '/' ∉ segment)
    (plain : ∀ s ∈ kept, '/' ∉ s ∧ isDots s = false) (later : List Char) :
    rewriteDots (slashed kept.reverse) ('/' :: (segment ++ '/' :: later)) =
      rewriteDots (slashed (settleSegment true kept segment).reverse) ('/' :: later) := by
  rcases segment_cases segment with rfl | rfl | new
  · rw [settleSegment_dot, List.singleton_append, rewriteDots]
  · rw [settleSegment_dots, ← dropSegment_slashed plain]
    show rewriteDots _ ('/' :: '.' :: '.' :: '/' :: later) = _
    rw [rewriteDots]
  · rw [settleSegment_of_plain new, slashed_reverse_cons]
    exact rewriteDots_segment new noSlash (.inr ⟨later, rfl⟩) _

/-- The last segment.  If it is dots a slash is left of it. -/
theorem rewriteDots_last (noSlash : '/' ∉ segment)
    (plain : ∀ s ∈ kept, '/' ∉ s ∧ isDots s = false) :
    rewriteDots (slashed kept.reverse) ('/' :: segment) =
      slashed (foldSegments true kept [segment]).reverse := by
  rw [foldSegments_singleton]
  rcases segment_cases segment with rfl | rfl | new
  · rw [if_pos (by rfl), settleSegment_dot, slashed_reverse_cons, rewriteDots, rewriteDots_slash]
  · rw [if_pos (by rfl), settleSegment_dots, slashed_reverse_cons, ← dropSegment_slashed plain,
      rewriteDots, rewriteDots_slash]
  · have moved := rewriteDots_segment new noSlash (.inl rfl) (slashed kept.reverse)
    rw [List.append_nil] at moved
    rw [moved, rewriteDots, new, if_neg Bool.false_ne_true, slashed_reverse_cons]

/-- The buffers hold the segments that are left and those that are kept. -/
theorem rewriteDots_slashed (noSlash : ∀ s ∈ segments, '/' ∉ s) : ∀ {kept : List (List Char)},
    (∀ s ∈ kept, '/' ∉ s ∧ isDots s = false) →
    rewriteDots (slashed kept.reverse) (slashed segments) =
      slashed (foldSegments true kept segments).reverse := by
  induction segments with
  | nil =>
    intro kept _
    rw [slashed_nil, rewriteDots]
    rfl
  | cons segment segments ih =>
    intro kept plain
    obtain ⟨here, rest⟩ := List.forall_mem_cons.mp noSlash
    cases segments with
    | nil =>
      rw [slashed_cons, slashed_nil, List.append_nil]
      exact rewriteDots_last here plain
    | cons next segments =>
      rw [foldSegments_cons (List.cons_ne_nil _ _), ← ih rest (plain_settleSegment here plain),
        slashed_cons segment, slashed_cons next]
      exact rewriteDots_step here plain _

end Slashed

/-- The rules of the section and the stack of segments do the same to an absolute path. -/
theorem removeDotSegments_of_absolute {path : List Char} (absolute : IsAbsolute path) :
    removeDotSegments path = rewriteDots [] path := by
  obtain ⟨rest, rfl⟩ := List.head?_eq_some_iff.mp absolute
  obtain ⟨directories, name, plain, plainName, rfl⟩ := Route.exists_segments rest
  have noSlash : ∀ s ∈ directories ++ [name], '/' ∉ s :=
    List.forall_mem_append.mpr ⟨plain, List.forall_mem_singleton.mpr plainName⟩
  have run := rewriteDots_slashed noSlash
    (List.forall_mem_nil fun s => '/' ∉ s ∧ isDots s = false)
  -- Something is kept of every path, be it an empty name.
  obtain ⟨top, below, kept⟩ : ∃ top below,
      foldSegments true [] (directories ++ [name]) = top :: below := by
    rw [foldSegments_eq]
    split
    · exact ⟨_, _, rfl⟩
    · exact ⟨_, _, rfl⟩
  rw [kept, List.reverse_cons, slashed_append_singleton, slashed_append_singleton,
    Route.intercalate_eq directories] at run
  rw [removeDotSegments, Route.segments_text plain plainName, kept, List.reverse_cons]
  exact run.symm

end CanonicalXml
