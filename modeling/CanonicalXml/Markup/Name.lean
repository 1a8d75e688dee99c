import CanonicalXml.Text
import CanonicalXml.QName
/-! # Pieces of markup

The small readers that all markup is made of. A reader takes the text still to
be read and gives what it found together with the rest; nothing means that the
text does not begin with such a piece.

* `space?` — white space that has to be there.
* `name?`, `qname?` — names.
* `quoted?` — a literal in quotes.

Each reader comes with a lemma that says how far it got, so that the loops
above it end.
-/

namespace CanonicalXml.Markup

open Text

/-- The text after white space, of which there has to be some. -/
def space? : List Char → Option (List Char)
  | [] => none
  | c :: cs => if Chars.isSpace c then some (skipSpace cs) else none

/-- A name, colons allowed. -/
def name? : List Char → Option (List Char × List Char)
  | [] => none
  | c :: cs =>
    if Chars.isNameStart c then some (c :: cs.takeWhile Chars.isName, cs.dropWhile Chars.isName)
    else none

def beginsName : List Char → Bool
  | [] => false
  | c :: _ => Chars.isNameStart c

/-- A name with at most one colon. The part before the colon may be empty, which is
the same as no prefix; the part after it may not. -/
def qname? (cs : List Char) : Option (QName × List Char) :=
  let (before, after) := QName.splitChars (cs.takeWhile Chars.isName)
  let nsPrefix := before.getD []
  if (nsPrefix.isEmpty || beginsName nsPrefix) && beginsName after && !after.contains ':' then
    some (⟨String.ofList nsPrefix, String.ofList after⟩, cs.dropWhile Chars.isName)
  else none

def quoted? : List Char → Option (List Char × List Char)
  | [] => none
  | c :: cs => if c = '"' ∨ c = '\'' then until? [c] cs else none

/-! ## How far the readers get -/

theorem length_of_space? {cs rest : List Char} (h : space? cs = some rest) :
    rest.length < cs.length := by
  unfold space? at h
  split at h
  · contradiction
  · split at h
    · rename_i c cs _
      simp only [Option.some.injEq] at h
      have := length_skipSpace_le cs
      simp only [← h, List.length_cons]
      omega
    · contradiction

theorem length_of_name? {cs name rest : List Char} (h : name? cs = some (name, rest)) :
    rest.length < cs.length := by
  unfold name? at h
  split at h
  · contradiction
  · split at h
    · rename_i c cs _
      simp only [Option.some.injEq, Prod.mk.injEq] at h
      have := length_dropWhile_le Chars.isName cs
      simp only [← h.2, List.length_cons]
      omega
    · contradiction

theorem length_of_qname? {cs rest : List Char} {name : QName}
    (h : qname? cs = some (name, rest)) : rest.length ≤ cs.length := by
  unfold qname? at h
  dsimp only at h
  split at h
  · simp only [Option.some.injEq, Prod.mk.injEq] at h
    exact h.2 ▸ length_dropWhile_le _ cs
  · contradiction

theorem length_of_quoted? {cs value rest : List Char} (h : quoted? cs = some (value, rest)) :
    rest.length < cs.length := by
  unfold quoted? at h
  split at h
  · contradiction
  · split at h
    · have := length_of_until? h
      simp only [List.length_cons, List.length_nil] at this ⊢
      omega
    · contradiction

end CanonicalXml.Markup
