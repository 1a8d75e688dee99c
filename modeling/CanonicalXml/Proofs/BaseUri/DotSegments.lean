import CanonicalXml.BaseUri
import Mathlib.Data.List.Induction

/-! # Dot segments

A path is a list of directories with a name behind them.  Removing its dot segments climbs through
the directories.

* `Route` — a path taken apart; every path is one, and `removeDotSegments_text` says what becomes
  of it.
* `climb` — the directories that are left; `foldl_climb` and `climb_climb` say that it does not
  matter whether some of them have been climbed through before.
* `removeDotSegments_directory`, `removeDotSegments_append` — the same of paths.
-/

namespace CanonicalXml

/-- A segment that does not name anything itself. -/
def isDots (segment : List Char) : Bool :=
  segment = ['.'] || segment = ['.', '.']

/-- What is kept after one step up, last segment first.  A relative path can lead up from where it
begins. -/
def stepUp (absolute : Bool) : List (List Char) → List (List Char)
  | [] => if absolute then [] else [['.', '.']]
  | top :: below =>
    if top ≠ ['.', '.'] then below
    else if absolute then top :: below
    else ['.', '.'] :: top :: below

/-- What is kept with one more segment. -/
def settleSegment (absolute : Bool) (kept : List (List Char)) (segment : List Char) :
    List (List Char) :=
  if segment = ['.'] then kept
  else if segment = ['.', '.'] then stepUp absolute kept
  else segment :: kept

/-- The directories that are left after climbing through these. -/
def climb (absolute : Bool) (directories : List (List Char)) : List (List Char) :=
  (directories.foldl (settleSegment absolute) []).reverse

/-! ## Climbing -/

section Climb

variable {absolute : Bool} {kept directories later : List (List Char)} {segment name : List Char}

theorem isDots_eq_false : isDots segment = false ↔ segment ≠ ['.'] ∧ segment ≠ ['.', '.'] := by
  simp [isDots]

theorem settleSegment_dot (absolute : Bool) (kept : List (List Char)) :
    settleSegment absolute kept ['.'] = kept :=
  if_pos rfl

theorem settleSegment_dots (absolute : Bool) (kept : List (List Char)) :
    settleSegment absolute kept ['.', '.'] = stepUp absolute kept := by
  rw [settleSegment, if_neg (by decide), if_pos rfl]

theorem settleSegment_of_plain (plain : isDots segment = false) (absolute : Bool)
    (kept : List (List Char)) : settleSegment absolute kept segment = segment :: kept := by
  obtain ⟨notDot, notDots⟩ := isDots_eq_false.mp plain
  rw [settleSegment, if_neg notDot, if_neg notDots]

theorem stepUp_cons_of_plain (plain : isDots segment = false) (absolute : Bool)
    (kept : List (List Char)) : stepUp absolute (segment :: kept) = kept :=
  if_pos (isDots_eq_false.mp plain).2

theorem stepUp_replicate (count : Nat) :
    stepUp false (List.replicate count ['.', '.']) = List.replicate (count + 1) ['.', '.'] := by
  cases count with
  | zero => rfl
  | succ count => rfl

/-- A segment is a dot, two dots, or a name. -/
theorem segment_cases (segment : List Char) :
    segment = ['.'] ∨ segment = ['.', '.'] ∨ isDots segment = false := by
  by_cases dot : segment = ['.']
  · exact .inl dot
  · by_cases dots : segment = ['.', '.']
    · exact .inr (.inl dots)
    · exact .inr (.inr (isDots_eq_false.mpr ⟨dot, dots⟩))

/-- One segment is settled at a time.  A dot segment at the end leaves an empty segment. -/
theorem foldSegments_step (segment : List Char) (rest : List (List Char)) :
    foldSegments absolute kept (segment :: rest) =
      foldSegments absolute
        (if isDots segment && rest.isEmpty then [] :: settleSegment absolute kept segment
          else settleSegment absolute kept segment) rest := by
  simp only [foldSegments]
  rcases segment_cases segment with rfl | rfl | plain
  · rw [settleSegment_dot]
    rfl
  · rw [settleSegment_dots]
    cases kept with
    | nil => rfl
    | cons top below => rfl
  · obtain ⟨notDot, notDots⟩ := isDots_eq_false.mp plain
    rw [if_neg notDot, if_neg notDots, settleSegment_of_plain plain, plain]
    rfl

theorem foldSegments_cons {rest : List (List Char)} (more : rest ≠ []) (segment : List Char) :
    foldSegments absolute kept (segment :: rest) =
      foldSegments absolute (settleSegment absolute kept segment) rest := by
  have notEmpty : rest.isEmpty = false := by simpa using more
  rw [foldSegments_step, notEmpty, Bool.and_false]
  rfl

theorem foldSegments_singleton (segment : List Char) : foldSegments absolute kept [segment] =
    if isDots segment then [] :: settleSegment absolute kept segment else segment :: kept := by
  rw [foldSegments_step]
  cases dots : isDots segment with
  | true => rfl
  | false => exact settleSegment_of_plain dots _ _

/-- Going through segments is climbing through all of them but the last one, which is the name. -/
theorem foldSegments_eq (directories : List (List Char)) (name : List Char) :
    ∀ kept, foldSegments absolute kept (directories ++ [name]) =
      if isDots name then [] :: (directories ++ [name]).foldl (settleSegment absolute) kept
      else name :: directories.foldl (settleSegment absolute) kept := by
  induction directories with
  | nil =>
    intro kept
    exact foldSegments_singleton name
  | cons segment directories ih =>
    intro kept
    rw [List.cons_append, foldSegments_cons (by simp), ih]
    rfl

/-- What is kept is a name, or it leads up from where a relative path begins. -/
theorem kept_shape (absolute : Bool) (directories : List (List Char)) :
    ∃ names count, directories.foldl (settleSegment absolute) [] =
        names ++ List.replicate count ['.', '.'] ∧
      (∀ s ∈ names, isDots s = false) ∧ (absolute = true → count = 0) := by
  induction directories using List.reverseRecOn with
  | nil => exact ⟨[], 0, rfl, nofun, fun _ => rfl⟩
  | append_singleton directories segment ih =>
    obtain ⟨names, count, kept, plain, none⟩ := ih
    rw [List.foldl_append, List.foldl_cons, List.foldl_nil, kept]
    rcases segment_cases segment with rfl | rfl | new
    · exact ⟨names, count, settleSegment_dot _ _, plain, none⟩
    · rw [settleSegment_dots]
      cases names with
      | cons top names =>
        obtain ⟨plainTop, plainNames⟩ := List.forall_mem_cons.mp plain
        exact ⟨names, count, stepUp_cons_of_plain plainTop _ _, plainNames, none⟩
      | nil =>
        cases absolute with
        | true =>
          rw [none rfl]
          exact ⟨[], 0, rfl, plain, fun _ => rfl⟩
        | false =>
          exact ⟨[], count + 1, stepUp_replicate count, plain, nofun⟩
    · exact ⟨segment :: names, count, settleSegment_of_plain new _ _,
        List.forall_mem_cons.mpr ⟨new, plain⟩, none⟩

/-- Directories that have been climbed through lead to the same place, wherever one starts. -/
theorem foldl_climb (absolute : Bool) (kept directories : List (List Char)) :
    (climb false directories).foldl (settleSegment absolute) kept =
      directories.foldl (settleSegment absolute) kept := by
  induction directories using List.reverseRecOn with
  | nil => rfl
  | append_singleton directories segment ih =>
    simp only [climb] at ih ⊢
    rw [List.foldl_append, List.foldl_append, List.foldl_cons, List.foldl_cons, List.foldl_nil,
      List.foldl_nil, ← ih]
    obtain ⟨names, count, shape, plain, -⟩ := kept_shape false directories
    rw [shape]
    -- Only a step up looks at what is kept.
    rcases segment_cases segment with rfl | rfl | new
    · rw [settleSegment_dot, settleSegment_dot]
    · rw [settleSegment_dots, settleSegment_dots]
      cases names with
      | cons top names =>
        have plainTop := (List.forall_mem_cons.mp plain).1
        rw [List.cons_append, stepUp_cons_of_plain plainTop, List.reverse_cons, List.foldl_append,
          List.foldl_cons, List.foldl_nil, settleSegment_of_plain plainTop,
          stepUp_cons_of_plain plainTop]
      | nil =>
        rw [List.nil_append, stepUp_replicate, List.replicate_succ, List.reverse_cons,
          List.foldl_append, List.foldl_cons, List.foldl_nil, settleSegment_dots]
    · rw [settleSegment_of_plain new, settleSegment_of_plain new, List.reverse_cons,
        List.foldl_append, List.foldl_cons, List.foldl_nil, settleSegment_of_plain new]

theorem mem_stepUp {s : List Char} (member : s ∈ stepUp absolute kept) :
    s = ['.', '.'] ∨ s ∈ kept := by
  cases kept with
  | nil =>
    cases absolute with
    | true => cases member
    | false => exact .inl (List.mem_singleton.mp member)
  | cons top below =>
    simp only [stepUp] at member
    split at member
    · exact .inr (List.mem_cons_of_mem _ member)
    · split at member
      · exact .inr member
      · exact List.mem_cons.mp member

theorem foldl_of_plain (plain : ∀ s ∈ directories, isDots s = false) (absolute : Bool) :
    ∀ kept, directories.foldl (settleSegment absolute) kept = directories.reverse ++ kept := by
  induction directories with
  | nil =>
    intro kept
    rfl
  | cons segment directories ih =>
    obtain ⟨here, rest⟩ := List.forall_mem_cons.mp plain
    intro kept
    rw [List.foldl_cons, settleSegment_of_plain here, ih rest]
    simp

/-- Climbing on from where one has come to. -/
theorem climb_climb (absolute : Bool) (directories later : List (List Char)) :
    climb absolute (climb absolute directories ++ later) =
      climb absolute (directories ++ later) := by
  have again : (climb absolute directories).foldl (settleSegment absolute) [] =
      directories.foldl (settleSegment absolute) [] := by
    cases absolute with
    | false => exact foldl_climb false [] directories
    | true =>
      obtain ⟨names, count, shape, plain, none⟩ := kept_shape true directories
      rw [none rfl, List.replicate_zero, List.append_nil] at shape
      rw [climb, shape, foldl_of_plain (by simpa using plain)]
      simp
  simp only [climb] at again ⊢
  rw [List.foldl_append, List.foldl_append, again]

theorem climb_idem (absolute : Bool) (directories : List (List Char)) :
    climb absolute (climb absolute directories) = climb absolute directories := by
  have same := climb_climb absolute directories []
  rwa [List.append_nil, List.append_nil] at same

/-- Climbing from some directories on may begin with what has been climbed through. -/
theorem climb_append_climb (absolute : Bool) (directories later : List (List Char)) :
    climb absolute (directories ++ climb false later) = climb absolute (directories ++ later) := by
  simp only [climb]
  rw [List.foldl_append, List.foldl_append]
  exact congrArg List.reverse (foldl_climb absolute _ later)

end Climb

/-! ## Paths taken apart -/

/-- A path taken apart: its directories, and the name behind the last slash. -/
structure Route where
  absolute : Bool
  directories : List (List Char)
  name : List Char

namespace Route

/-- What an absolute path begins with. -/
def root : Bool → List Char
  | true => ['/']
  | false => []

def text (r : Route) : List Char :=
  root r.absolute ++ r.directories.flatMap (· ++ ['/']) ++ r.name

/-- There are no slashes but those between the parts. -/
structure Valid (r : Route) : Prop where
  directories : ∀ s ∈ r.directories, '/' ∉ s
  name : '/' ∉ r.name

/-- The text of a relative path does not begin with a slash. -/
def Apt (r : Route) : Prop :=
  r.absolute = true ∨ r.directories.head? ≠ some []

/-- All that is climbed through: dots at the end are no name. -/
def climbed (r : Route) : List (List Char) :=
  if isDots r.name then r.directories ++ [r.name] else r.directories

/-- The path that is left without dot segments. -/
def settled (r : Route) : Route :=
  ⟨r.absolute, climb r.absolute r.climbed, if isDots r.name then [] else r.name⟩

variable {r : Route} {cs : List Char}

theorem segments_append {s : List Char} (plain : '/' ∉ s) (cs : List Char) :
    Text.segments (· = '/') (s ++ '/' :: cs) = s :: Text.segments (· = '/') cs := by
  induction s with
  | nil => rfl
  | cons c s ih =>
    rw [List.mem_cons, not_or] at plain
    rw [List.cons_append, Text.segments, ih plain.2, if_neg (by simpa using Ne.symm plain.1)]

theorem segments_of_plain {s : List Char} (plain : '/' ∉ s) :
    Text.segments (· = '/') s = [s] := by
  induction s with
  | nil => rfl
  | cons c s ih =>
    rw [List.mem_cons, not_or] at plain
    rw [Text.segments, ih plain.2, if_neg (by simpa using Ne.symm plain.1)]

theorem segments_text {directories : List (List Char)} {name : List Char}
    (plain : ∀ s ∈ directories, '/' ∉ s) (plainName : '/' ∉ name) :
    Text.segments (· = '/') (directories.flatMap (· ++ ['/']) ++ name) = directories ++ [name] := by
  induction directories with
  | nil => exact segments_of_plain plainName
  | cons s directories ih =>
    obtain ⟨here, rest⟩ := List.forall_mem_cons.mp plain
    rw [List.flatMap_cons, List.append_assoc, List.append_assoc, List.singleton_append,
      segments_append here, ih rest, List.cons_append]

theorem intercalate_eq (directories : List (List Char)) (name : List Char) :
    ['/'].intercalate (directories ++ [name]) = directories.flatMap (· ++ ['/']) ++ name := by
  induction directories with
  | nil => simp
  | cons s directories ih =>
    obtain ⟨first, rest, more⟩ := List.exists_cons_of_ne_nil
      (List.append_ne_nil_of_right_ne_nil directories (List.cons_ne_nil name []))
    rw [List.cons_append, more, List.intercalate_cons_cons, ← more, ih]
    simp

theorem head?_text (valid : r.Valid) :
    r.text.head? = some '/' ↔ r.absolute = true ∨ r.directories.head? = some [] := by
  obtain ⟨absolute, directories, name⟩ := r
  cases absolute with
  | true => simp [text, root]
  | false =>
    cases directories with
    | nil =>
      have plain : name.head? ≠ some '/' := fun head => valid.name (List.mem_of_mem_head? head)
      simp [text, root, plain]
    | cons s directories =>
      have plain : s.head? ≠ some '/' := fun head =>
        valid.directories s List.mem_cons_self (List.mem_of_mem_head? head)
      cases s with
      | nil => simp [text, root]
      | cons c s => simpa [text, root] using plain

theorem apt_iff (valid : r.Valid) :
    r.Apt ↔ r.absolute = true ∨ r.text.head? ≠ some '/' := by
  rw [Ne, head?_text valid, Apt]
  cases r.absolute <;> simp

/-- Every text can be taken apart at its slashes. -/
theorem exists_segments (cs : List Char) : ∃ (directories : List (List Char)) (name : List Char),
    (∀ s ∈ directories, '/' ∉ s) ∧ '/' ∉ name ∧ directories.flatMap (· ++ ['/']) ++ name = cs := by
  induction cs with
  | nil => exact ⟨[], [], nofun, nofun, rfl⟩
  | cons c cs ih =>
    obtain ⟨directories, name, plain, plainName, rfl⟩ := ih
    by_cases slash : c = '/'
    · subst slash
      exact ⟨[] :: directories, name, List.forall_mem_cons.mpr ⟨nofun, plain⟩, plainName, rfl⟩
    · have notMem {s : List Char} (plain : '/' ∉ s) : '/' ∉ c :: s :=
        List.not_mem_cons_of_ne_of_not_mem (Ne.symm slash) plain
      cases directories with
      | nil => exact ⟨[], c :: name, nofun, notMem plainName, rfl⟩
      | cons s directories =>
        obtain ⟨here, rest⟩ := List.forall_mem_cons.mp plain
        exact ⟨(c :: s) :: directories, name, List.forall_mem_cons.mpr ⟨notMem here, rest⟩,
          plainName, rfl⟩

/-- Every path can be taken apart. -/
theorem exists_text (path : List Char) : ∃ r : Route, r.Valid ∧ r.Apt ∧ r.text = path := by
  by_cases absolute : path.head? = some '/'
  · obtain ⟨rest, rfl⟩ := List.head?_eq_some_iff.mp absolute
    obtain ⟨directories, name, plain, plainName, rfl⟩ := exists_segments rest
    exact ⟨⟨true, directories, name⟩, ⟨plain, plainName⟩, .inl rfl, by simp [text, root]⟩
  · obtain ⟨directories, name, plain, plainName, rfl⟩ := exists_segments path
    have valid : Valid ⟨false, directories, name⟩ := ⟨plain, plainName⟩
    exact ⟨_, valid, (apt_iff valid).mpr (.inr absolute), rfl⟩

theorem removeDotSegments_relative {cs : List Char} (relative : cs.head? ≠ some '/') :
    removeDotSegments cs =
      ['/'].intercalate (foldSegments false [] (Text.segments (· = '/') cs)).reverse := by
  cases cs with
  | nil => rfl
  | cons c cs =>
    have notSlash : c ≠ '/' := fun slash => relative (congrArg some slash)
    rw [removeDotSegments]
    intro path same
    exact notSlash (List.cons.inj same).1

/-- The segments of a path that is taken apart. -/
theorem intercalate_foldSegments (absolute : Bool) {directories : List (List Char)}
    {name : List Char} (plain : ∀ s ∈ directories, '/' ∉ s) (plainName : '/' ∉ name) :
    ['/'].intercalate (foldSegments absolute []
      (Text.segments (· = '/') (directories.flatMap (· ++ ['/']) ++ name))).reverse =
        (settled ⟨absolute, directories, name⟩).directories.flatMap (· ++ ['/']) ++
          (settled ⟨absolute, directories, name⟩).name := by
  rw [segments_text plain plainName, foldSegments_eq, settled, climbed]
  dsimp only
  split
  · rw [List.reverse_cons, intercalate_eq]
    rfl
  · rw [List.reverse_cons, intercalate_eq]
    rfl

@[simp] theorem absolute_settled (r : Route) : r.settled.absolute = r.absolute :=
  rfl

theorem removeDotSegments_text (valid : r.Valid) (apt : r.Apt) :
    removeDotSegments r.text = r.settled.text := by
  have relative := (apt_iff valid).mp apt
  have segments := intercalate_foldSegments r.absolute valid.directories valid.name
  have whole : r.settled.text = root r.absolute ++
      ['/'].intercalate (foldSegments r.absolute []
        (Text.segments (· = '/') (r.directories.flatMap (· ++ ['/']) ++ r.name))).reverse := by
    rw [segments, text, List.append_assoc]
    rfl
  rw [whole]
  cases absolute : r.absolute with
  | true =>
    rw [text, absolute, List.append_assoc]
    rfl
  | false =>
    rw [absolute] at relative
    rw [removeDotSegments_relative (relative.resolve_left Bool.false_ne_true), text, absolute]
    rfl

/-! ## What is left of a route -/

theorem mem_climb {absolute : Bool} {directories : List (List Char)} {s : List Char}
    (member : s ∈ climb absolute directories) : s = ['.', '.'] ∨ s ∈ directories := by
  rw [climb, List.mem_reverse] at member
  induction directories using List.reverseRecOn with
  | nil => cases member
  | append_singleton directories segment ih =>
    rw [List.foldl_append, List.foldl_cons, List.foldl_nil] at member
    have earlier (kept : s ∈ directories.foldl (settleSegment absolute) []) :
        s = ['.', '.'] ∨ s ∈ directories ++ [segment] :=
      (ih kept).imp_right (List.mem_append_left _)
    rcases segment_cases segment with rfl | rfl | new
    · rw [settleSegment_dot] at member
      exact earlier member
    · rw [settleSegment_dots] at member
      rcases mem_stepUp member with up | kept
      · exact .inl up
      · exact earlier kept
    · rw [settleSegment_of_plain new] at member
      rcases List.mem_cons.mp member with rfl | kept
      · exact .inr (List.mem_append_right _ List.mem_cons_self)
      · exact earlier kept

theorem Valid.settled (valid : r.Valid) : r.settled.Valid := by
  have plain {directories : List (List Char)} (all : ∀ s ∈ directories, '/' ∉ s) :
      ∀ s ∈ climb r.absolute directories, '/' ∉ s := by
    intro s member
    rcases mem_climb member with rfl | member
    · decide
    · exact all s member
  simp only [Route.settled, climbed]
  split
  · refine ⟨plain (List.forall_mem_append.mpr ⟨valid.directories, ?_⟩), nofun⟩
    exact List.forall_mem_singleton.mpr valid.name
  · exact ⟨plain valid.directories, valid.name⟩

theorem isDots_settled (r : Route) : isDots r.settled.name = false := by
  simp only [settled]
  split
  · rfl
  · rename_i plain
    exact eq_false_of_ne_true plain

theorem climbed_of_plain (plain : isDots r.name = false) : r.climbed = r.directories := by
  rw [climbed, plain, if_neg Bool.false_ne_true]

theorem settled_settled (r : Route) : r.settled.settled = r.settled := by
  have plain := isDots_settled r
  rw [settled, climbed_of_plain plain, plain, if_neg Bool.false_ne_true]
  simp only [settled]
  rw [climb_idem]

/-! ## Routes behind each other -/

/-- The directories that a name is in. -/
def folder (r : Route) : Route :=
  { r with name := [] }

/-- A relative route from the directories of another one on. -/
def beside (r t : Route) : Route :=
  ⟨r.absolute, r.directories ++ t.directories, t.name⟩

variable {t : Route}

theorem text_beside (r : Route) (relative : t.absolute = false) :
    r.folder.text ++ t.text = (beside r t).text := by
  rw [folder, beside, text, text, text, relative]
  simp only [root, List.flatMap_append, List.append_assoc, List.append_nil, List.nil_append]

theorem Valid.beside (first : r.Valid) (second : t.Valid) : (beside r t).Valid :=
  ⟨List.forall_mem_append.mpr ⟨first.directories, second.directories⟩, second.name⟩

theorem Apt.beside (first : r.Apt) (second : t.Apt) (relative : t.absolute = false) :
    (beside r t).Apt := by
  refine first.imp_right fun apt => ?_
  rw [Route.beside]
  cases none : r.directories with
  | nil => exact second.resolve_left (by rw [relative]; exact Bool.false_ne_true)
  | cons s rest =>
    rw [none] at apt
    exact apt

theorem climbed_beside (r t : Route) : (beside r t).climbed = r.directories ++ t.climbed := by
  rw [climbed, climbed, beside]
  cases isDots t.name with
  | true => exact List.append_assoc _ _ _
  | false => rfl

theorem settled_beside (r t : Route) : (beside r t).settled =
    ⟨r.absolute, climb r.absolute (r.directories ++ t.climbed), t.settled.name⟩ := by
  rw [settled, climbed_beside]
  rfl

/-- Climbing from where one has come to. -/
theorem settled_beside_settled (plain : isDots r.name = false) (t : Route) :
    (beside r.settled t).settled = (beside r t).settled := by
  have same : r.settled.directories = climb r.absolute r.directories := by
    rw [settled, climbed_of_plain plain]
  rw [settled_beside, settled_beside, same, absolute_settled, climb_climb]

/-- Climbing through what has been climbed through before. -/
theorem beside_settled_settled (r : Route) (relative : t.absolute = false) :
    (beside r t.settled).settled = (beside r t).settled := by
  have same : t.settled.directories = climb false t.climbed := by
    rw [settled, relative]
  rw [settled_beside, settled_beside, settled_settled, climbed_of_plain (isDots_settled t), same,
    climb_append_climb]

/-- In front of the name there is nothing, or a slash. -/
theorem text_folder_cases (r : Route) :
    r.folder.text = [] ∨ ∃ before, r.folder.text = before ++ ['/'] := by
  simp only [text, folder]
  rw [List.append_nil]
  rcases List.eq_nil_or_concat r.directories with none | ⟨earlier, s, some⟩
  · rw [none]
    cases r.absolute with
    | true => exact .inr ⟨[], rfl⟩
    | false => exact .inl rfl
  · rw [some]
    refine .inr ⟨root r.absolute ++ (earlier.flatMap (· ++ ['/']) ++ s), ?_⟩
    simp only [List.concat_eq_append, List.flatMap_append, List.flatMap_cons, List.flatMap_nil,
      List.append_assoc, List.append_nil]

theorem text_eq_folder (r : Route) : r.text = r.folder.text ++ r.name := by
  simp only [text, folder]
  rw [List.append_nil]

/-- The path up to the last slash. -/
theorem directory_text (valid : r.Valid) : directory r.text = r.folder.text := by
  have skips : ∀ c ∈ r.name.reverse, decide (c ≠ '/') = true := by
    intro c member
    rw [decide_eq_true_iff]
    rintro rfl
    exact valid.name (List.mem_reverse.mp member)
  rw [directory, text_eq_folder, List.reverse_append, List.dropWhile_append_of_pos skips]
  rcases text_folder_cases r with none | ⟨before, some⟩
  · rw [none]
    rfl
  · rw [some, List.reverse_append, List.reverse_singleton, List.singleton_append,
      List.dropWhile_cons_of_neg (by simp)]
    simp

theorem suffix_iff {before mark name : List Char} (plainMark : '/' ∉ mark) (plain : '/' ∉ name) :
    '/' :: mark <:+ before ++ '/' :: name ↔ name = mark := by
  constructor
  · rintro ⟨earlier, same⟩
    rcases List.append_eq_append_iff.mp same with ⟨middle, -, rest⟩ | ⟨middle, -, rest⟩
    · cases middle with
      | nil => exact (List.cons.inj rest).2.symm
      | cons c middle =>
        refine absurd ?_ plainMark
        rw [(List.cons.inj rest).2]
        simp
    · cases middle with
      | nil => exact (List.cons.inj rest).2
      | cons c middle =>
        refine absurd ?_ plain
        rw [(List.cons.inj rest).2]
        simp
  · rintro rfl
    exact ⟨before, rfl⟩

/-- A path ends in dots if its name is dots. -/
theorem endsInDots_text (valid : r.Valid) : endsInDots r.text = isDots r.name := by
  rw [Bool.eq_iff_iff, text_eq_folder]
  simp only [endsInDots, isDots, Bool.or_eq_true, decide_eq_true_eq, List.isSuffixOf_iff_suffix]
  have plain := valid.name
  rcases text_folder_cases r with none | ⟨before, some⟩
  · rw [none, List.nil_append]
    have noSuffix {mark : List Char} : ¬ '/' :: mark <:+ r.name :=
      fun suffix => plain (suffix.subset List.mem_cons_self)
    simp [noSuffix]
  · rw [some, List.append_assoc, List.singleton_append, suffix_iff (by decide) plain,
      suffix_iff (by decide) plain]
    have slash {mark : List Char} (plainMark : '/' ∉ mark) : before ++ '/' :: r.name ≠ mark := by
      rintro rfl
      exact plainMark (by simp)
    simp [slash]

end Route

/-! ## Paths -/

section Paths

open Route

variable {path base rest : List Char}

/-- Whether a path begins at the root. -/
def IsAbsolute (path : List Char) : Prop :=
  path.head? = some '/'

instance : DecidablePred IsAbsolute := fun path =>
  inferInstanceAs (Decidable (path.head? = some '/'))

theorem Route.isAbsolute_text {r : Route} (valid : r.Valid) (apt : r.Apt) :
    IsAbsolute r.text ↔ r.absolute = true := by
  rw [IsAbsolute, head?_text valid]
  rw [Apt] at apt
  cases absolute : r.absolute with
  | true => simp
  | false => simp [apt.resolve_left (by simp [absolute])]

/-- Every path can be taken apart. -/
theorem exists_route (path : List Char) : ∃ r : Route, r.Valid ∧ r.Apt ∧ r.text = path ∧
    (r.absolute = true ↔ IsAbsolute path) := by
  obtain ⟨r, valid, apt, rfl⟩ := exists_text path
  exact ⟨r, valid, apt, rfl, (isAbsolute_text valid apt).symm⟩

theorem exists_relative (relative : ¬ IsAbsolute path) :
    ∃ r : Route, r.Valid ∧ r.Apt ∧ r.text = path ∧ r.absolute = false := by
  obtain ⟨r, valid, apt, text, absolute⟩ := exists_route path
  exact ⟨r, valid, apt, text, eq_false_of_ne_true fun h => relative (absolute.mp h)⟩

theorem endsInDots_removeDotSegments (path : List Char) :
    endsInDots (removeDotSegments path) = false := by
  obtain ⟨r, valid, apt, rfl⟩ := exists_text path
  rw [removeDotSegments_text valid apt, endsInDots_text valid.settled]
  exact isDots_settled r

theorem endsInDots_append_slash (path : List Char) : endsInDots (path ++ ['/']) = false := by
  obtain ⟨directories, name, plain, plainName, rfl⟩ := exists_segments path
  have valid : Valid ⟨false, directories ++ [name], []⟩ :=
    ⟨List.forall_mem_append.mpr ⟨plain, List.forall_mem_singleton.mpr plainName⟩, nofun⟩
  have ends := endsInDots_text valid
  have text : Route.text ⟨false, directories ++ [name], []⟩ =
      directories.flatMap (· ++ ['/']) ++ name ++ ['/'] := by
    simp [Route.text, root]
  rw [text] at ends
  exact ends

/-- Behind directories a path ends as it does alone. -/
theorem endsInDots_directory_append (base : List Char) (relative : ¬ IsAbsolute rest) :
    endsInDots (directory base ++ rest) = endsInDots rest := by
  obtain ⟨r, valid, apt, rfl⟩ := exists_text base
  obtain ⟨t, valid', apt', rfl, notAbsolute⟩ := exists_relative relative
  rw [directory_text valid, text_beside _ notAbsolute, endsInDots_text (valid.beside valid'),
    endsInDots_text valid']
  rfl

theorem IsAbsolute.removeDotSegments (absolute : IsAbsolute path) :
    IsAbsolute (removeDotSegments path) := by
  obtain ⟨rest, rfl⟩ := List.head?_eq_some_iff.mp absolute
  rfl

/-- A relative path does not become absolute without its dot segments. -/
def KeepsRelative (path : List Char) : Prop :=
  IsAbsolute (removeDotSegments path) → IsAbsolute path

theorem Route.apt_settled {r : Route} (valid : r.Valid) (apt : r.Apt)
    (kept : KeepsRelative r.text) : r.settled.Apt := by
  rw [KeepsRelative, removeDotSegments_text valid apt, isAbsolute_text valid apt] at kept
  rw [apt_iff valid.settled]
  by_cases absolute : r.absolute = true
  · exact .inl absolute
  · exact .inr fun head => absolute (kept head)

/-- Dots at the end name a directory, with a slash behind them or without. -/
theorem removeDotSegments_append_slash (ends : endsInDots path = true) :
    removeDotSegments (path ++ ['/']) = removeDotSegments path := by
  obtain ⟨r, valid, apt, rfl⟩ := exists_text path
  rw [endsInDots_text valid] at ends
  let opened : Route := ⟨r.absolute, r.directories ++ [r.name], []⟩
  have validOpened : opened.Valid :=
    ⟨List.forall_mem_append.mpr ⟨valid.directories, List.forall_mem_singleton.mpr valid.name⟩,
      nofun⟩
  have aptOpened : opened.Apt := by
    refine apt.imp_right fun apt => ?_
    cases none : r.directories with
    | nil =>
      intro head
      have name : r.name = [] := by simpa [opened, none] using head
      rw [name] at ends
      cases ends
    | cons s rest =>
      rw [none] at apt
      simpa [opened, none] using apt
  have text : r.text ++ ['/'] = opened.text := by
    simp [opened, Route.text]
  have same : opened.settled = r.settled := by
    rw [settled, settled, climbed, climbed, ends]
    rfl
  rw [text, removeDotSegments_text validOpened aptOpened, removeDotSegments_text valid apt, same]

/-- Directories can be climbed through before a relative path is put behind them. -/
theorem removeDotSegments_directory (plain : endsInDots base = false) (kept : KeepsRelative base)
    (relative : ¬ IsAbsolute rest) :
    removeDotSegments (directory (removeDotSegments base) ++ rest) =
      removeDotSegments (directory base ++ rest) := by
  obtain ⟨r, valid, apt, rfl⟩ := exists_text base
  obtain ⟨t, valid', apt', rfl, notAbsolute⟩ := exists_relative relative
  rw [endsInDots_text valid] at plain
  rw [removeDotSegments_text valid apt, directory_text valid.settled, directory_text valid,
    text_beside _ notAbsolute, text_beside _ notAbsolute,
    removeDotSegments_text (valid.settled.beside valid')
      ((apt_settled valid apt kept).beside apt' notAbsolute),
    removeDotSegments_text (valid.beside valid') (apt.beside apt' notAbsolute),
    settled_beside_settled plain]

/-- A relative path can be climbed through before it is put behind directories. -/
theorem removeDotSegments_append (base : List Char) (relative : ¬ IsAbsolute rest)
    (kept : KeepsRelative rest) :
    removeDotSegments (directory base ++ removeDotSegments rest) =
      removeDotSegments (directory base ++ rest) := by
  obtain ⟨r, valid, apt, rfl⟩ := exists_text base
  obtain ⟨t, valid', apt', rfl, notAbsolute⟩ := exists_relative relative
  rw [removeDotSegments_text valid' apt', directory_text valid, text_beside _ notAbsolute,
    text_beside r (t := t.settled) notAbsolute,
    removeDotSegments_text (valid.beside valid'.settled)
      (apt.beside (apt_settled valid' apt' kept) notAbsolute),
    removeDotSegments_text (valid.beside valid') (apt.beside apt' notAbsolute),
    beside_settled_settled r notAbsolute]

theorem directory_append (base : List Char) (relative : ¬ IsAbsolute rest) :
    directory (directory base ++ rest) = directory base ++ directory rest := by
  obtain ⟨r, valid, apt, rfl⟩ := exists_text base
  obtain ⟨t, valid', apt', rfl, notAbsolute⟩ := exists_relative relative
  rw [directory_text valid, directory_text valid', text_beside _ notAbsolute,
    text_beside r (t := t.folder) notAbsolute, directory_text (valid.beside valid')]
  rfl

/-- A path begins where the directories begin that it is put behind. -/
theorem isAbsolute_directory_append (relative : ¬ IsAbsolute rest) :
    IsAbsolute (directory base ++ rest) ↔ IsAbsolute base := by
  obtain ⟨r, valid, apt, rfl⟩ := exists_text base
  obtain ⟨t, valid', apt', rfl, notAbsolute⟩ := exists_relative relative
  rw [directory_text valid, text_beside _ notAbsolute, isAbsolute_text valid apt,
    isAbsolute_text (valid.beside valid') (apt.beside apt' notAbsolute)]
  rfl

end Paths

end CanonicalXml
