import CanonicalXml.Markup.Name
import CanonicalXml.Markup.Lexeme
/-! # Tags

Start tags and end tags. `stop` is throughout the offset of the end of the text
being read, so that the offset of what is left is `stop` less its length.

* `startTag?`, `endTag?` — the tag that follows an angle bracket.
-/

namespace CanonicalXml.Markup

open Text

/-- The rest of an attribute after its name: an equals sign, which white space may
surround, and a quoted value without `<`. -/
def attributeValue? (cs : List Char) : Option (List Char × List Char) :=
  (strip? ['='] (skipSpace cs)).bind fun cs =>
    (quoted? (skipSpace cs)).bind fun (value, rest) =>
      if value.contains '<' || !value.all Chars.isXml then none else some (value, rest)

/-- An attribute: its name, its raw value, and the rest. -/
def attribute? (cs : List Char) : Option ((QName × List Char) × List Char) :=
  (qname? cs).bind fun (name, rest) =>
    (attributeValue? rest).map fun (value, rest) => ((name, value), rest)

theorem length_of_attributeValue? {cs value rest : List Char}
    (h : attributeValue? cs = some (value, rest)) : rest.length < cs.length := by
  obtain ⟨r₁, h₁, h⟩ := Option.bind_eq_some_iff.mp h
  obtain ⟨⟨v, r₂⟩, h₂, h⟩ := Option.bind_eq_some_iff.mp h
  dsimp only at h
  split at h
  · contradiction
  · simp only [Option.some.injEq, Prod.mk.injEq] at h
    have l₁ := length_of_strip? h₁
    have l₂ := length_of_quoted? h₂
    have l₃ := length_skipSpace_le cs
    have l₄ := length_skipSpace_le r₁
    rw [← h.2]
    omega

theorem length_of_attribute? {cs rest : List Char} {a : QName × List Char}
    (h : attribute? cs = some (a, rest)) : rest.length < cs.length := by
  obtain ⟨⟨name, r₁⟩, h₁, h⟩ := Option.bind_eq_some_iff.mp h
  obtain ⟨⟨value, r₂⟩, h₂, he⟩ := Option.map_eq_some_iff.mp h
  simp only [Prod.mk.injEq] at he
  have l₁ := length_of_qname? h₁
  have l₂ := length_of_attributeValue? h₂
  rw [← he.2]
  omega

/-- What follows the name of a start tag: the attributes, each after white space, and
the ending. -/
def tagRest? (stop : Nat) (cs : List Char) :
    Option (List TagAttribute × TagEnding × List Char) :=
  if cs.isEmpty then some ([], .unfinished, [])
  else match skipSpace cs with
    | '>' :: rest => some ([], .opens, rest)
    | '/' :: rest => (strip? ['>'] rest).map ([], .empties, ·)
    | _ =>
      match _h : (space? cs).bind attribute? with
      | none => none
      | some ((name, value), rest) =>
        (tagRest? stop rest).map fun (attributes, ending, tail) =>
          (⟨name, value, stop - (skipSpace cs).length⟩ :: attributes, ending, tail)
termination_by cs.length
decreasing_by
  obtain ⟨r, h₁, h₂⟩ := Option.bind_eq_some_iff.mp _h
  have l₁ := length_of_space? h₁
  have l₂ := length_of_attribute? h₂
  omega

theorem length_of_tagRest? {stop : Nat} {cs rest : List Char}
    {attributes : List TagAttribute} {ending : TagEnding}
    (h : tagRest? stop cs = some (attributes, ending, rest)) : rest.length ≤ cs.length := by
  fun_induction tagRest? stop cs generalizing attributes ending rest with
  | case1 => simp_all
  | case2 cs _ r hr =>
    have l := length_skipSpace_le cs
    simp only [Option.some.injEq, Prod.mk.injEq] at h
    rw [hr, List.length_cons] at l
    rw [← h.2.2]
    omega
  | case3 cs _ r hr =>
    have l := length_skipSpace_le cs
    obtain ⟨r', hr', he⟩ := Option.map_eq_some_iff.mp h
    have l' := length_of_strip? hr'
    simp only [Prod.mk.injEq] at he
    simp only [hr, List.length_cons, List.length_nil] at l l'
    rw [← he.2.2]
    omega
  | case4 => contradiction
  | case5 cs _ name value r hr _ _ ih =>
    obtain ⟨⟨as, e, t⟩, ht, he⟩ := Option.map_eq_some_iff.mp h
    obtain ⟨r₁, h₁, h₂⟩ := Option.bind_eq_some_iff.mp hr
    have l₁ := length_of_space? h₁
    have l₂ := length_of_attribute? h₂
    have l₃ := ih ht
    simp only [Prod.mk.injEq] at he
    rw [← he.2.2]
    omega

def startTag? (stop : Nat) (cs : List Char) : Option (Lexeme × List Char) :=
  (qname? cs).bind fun (name, rest) =>
    (tagRest? stop rest).map fun (attributes, ending, tail) =>
      (.startTag ⟨name, '<' :: cs, stop - (cs.length + 1), attributes, ending,
        stop - tail.length⟩, tail)

def endTag? (stop : Nat) (cs : List Char) : Option (Lexeme × List Char) :=
  (qname? cs).bind fun (name, rest) =>
    (strip? ['>'] (skipSpace rest)).map fun tail => (.endTag name (stop - tail.length), tail)

theorem length_of_startTag? {stop : Nat} {cs rest : List Char} {l : Lexeme}
    (h : startTag? stop cs = some (l, rest)) : rest.length ≤ cs.length := by
  obtain ⟨⟨name, r₁⟩, h₁, h⟩ := Option.bind_eq_some_iff.mp h
  obtain ⟨⟨as, e, t⟩, h₂, he⟩ := Option.map_eq_some_iff.mp h
  simp only [Prod.mk.injEq] at he
  have l₁ := length_of_qname? h₁
  have l₂ := length_of_tagRest? h₂
  rw [← he.2]
  omega

theorem length_of_endTag? {stop : Nat} {cs rest : List Char} {l : Lexeme}
    (h : endTag? stop cs = some (l, rest)) : rest.length ≤ cs.length := by
  obtain ⟨⟨name, r₁⟩, h₁, h⟩ := Option.bind_eq_some_iff.mp h
  obtain ⟨t, h₂, he⟩ := Option.map_eq_some_iff.mp h
  simp only [Prod.mk.injEq] at he
  have l₁ := length_of_qname? h₁
  have l₂ := length_of_strip? h₂
  have l₃ := length_skipSpace_le r₁
  rw [← he.2]
  omega

end CanonicalXml.Markup
