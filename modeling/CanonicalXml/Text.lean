import CanonicalXml.Chars
/-! # Taking texts apart

* `strip?`, `stripEnd?` — a text without a fixed beginning or end.
* `until?` — a text up to a mark, and after it.
* `segments` — the parts of a text between separators.
* `skipSpace`, `trimEnd` — a text without the white space around it.

The lemmas say how long the parts are.
-/

namespace CanonicalXml.Text

/-- The text after the mark that it begins with. -/
def strip? : List Char → List Char → Option (List Char)
  | [], cs => some cs
  | _ :: _, [] => none
  | m :: mark, c :: cs => if m = c then strip? mark cs else none

/-- The text before the first mark, and the text after it. -/
def until? (mark : List Char) : List Char → Option (List Char × List Char)
  | [] => (strip? mark []).map ([], ·)
  | c :: cs =>
    match strip? mark (c :: cs) with
    | some rest => some ([], rest)
    | none => (until? mark cs).map fun (before, rest) => (c :: before, rest)

def occurs (mark cs : List Char) : Bool :=
  (until? mark cs).isSome

/-- The parts of a text between the characters that separate. There is one more of them
than there are separators. -/
def segments (separates : Char → Bool) : List Char → List (List Char)
  | [] => [[]]
  | c :: cs =>
    if separates c then [] :: segments separates cs
    else match segments separates cs with
      | [] => [[c]]
      | s :: rest => (c :: s) :: rest

def skipSpace (cs : List Char) : List Char :=
  cs.dropWhile Chars.isSpace

/-- The text before the mark that it ends with. -/
def stripEnd? (mark cs : List Char) : Option (List Char) :=
  (strip? mark.reverse cs.reverse).map List.reverse

def trimEnd (cs : List Char) : List Char :=
  (skipSpace cs.reverse).reverse

/-! ## Lengths -/

theorem length_of_strip? {mark cs rest : List Char} (h : strip? mark cs = some rest) :
    rest.length + mark.length = cs.length := by
  induction mark generalizing cs with
  | nil => simp_all [strip?]
  | cons m mark ih =>
    cases cs with
    | nil => simp [strip?] at h
    | cons c cs =>
      unfold strip? at h
      split at h
      · have := ih h
        simp only [List.length_cons]
        omega
      · contradiction

theorem length_of_until? {mark cs before rest : List Char}
    (h : until? mark cs = some (before, rest)) :
    before.length + mark.length + rest.length = cs.length := by
  induction cs generalizing before with
  | nil =>
    obtain ⟨r, hr, he⟩ := Option.map_eq_some_iff.mp h
    simp only [Prod.mk.injEq] at he
    have := length_of_strip? hr
    simp only [← he.1, ← he.2, List.length_nil] at this ⊢
    omega
  | cons c cs ih =>
    unfold until? at h
    split at h
    · rename_i r hr
      simp only [Option.some.injEq, Prod.mk.injEq] at h
      have := length_of_strip? hr
      simp only [← h.1, ← h.2, List.length_nil]
      omega
    · obtain ⟨⟨b, r⟩, hr, he⟩ := Option.map_eq_some_iff.mp h
      simp only [Prod.mk.injEq] at he
      obtain ⟨rfl, rfl⟩ := he
      have := ih hr
      simp only [List.length_cons]
      omega

theorem length_dropWhile_le (p : Char → Bool) (cs : List Char) :
    (cs.dropWhile p).length ≤ cs.length :=
  (List.dropWhile_sublist _).length_le

theorem length_skipSpace_le (cs : List Char) : (skipSpace cs).length ≤ cs.length :=
  length_dropWhile_le _ cs

end CanonicalXml.Text
