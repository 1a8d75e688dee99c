import CanonicalXml.Markup.Name
/-! # References

Character data and attribute values as spelled: characters, and references to
characters and entities.

* `TextPart.list` takes a raw text apart. A malformed reference ends the list,
  so that what stands before it is still seen in order.
* `charOfCode` — the character that a numeric reference stands for.
-/

namespace CanonicalXml.Markup

open Text

inductive TextPart where
  /-- A character that stands for itself. -/
  | literal (c : Char)
  /-- A reference to a character, numeric or one of the five named ones. -/
  | character (c : Char)
  /-- A reference to a declared entity. -/
  | entity (name : String)
  /-- An ampersand that begins no reference. Nothing is read after it. -/
  | malformed
deriving DecidableEq

/-- The character that a numeric reference stands for. Codes that are no Unicode
scalar value stand for U+FFFD; there is none for codes of more than 32 bits. -/
def charOfCode (code : Nat) : Option Char :=
  if code < UInt32.size then some (if code.isValidChar then Char.ofNat code else '\uFFFD') else none

/-- The value of a digit, letters counting from ten. -/
def digitValue (c : Char) : Nat :=
  if c.isDigit then c.toNat - '0'.toNat
  else if c.isUpper then c.toNat - 'A'.toNat + 10
  else c.toNat - 'a'.toNat + 10

def isHexDigit (c : Char) : Bool :=
  c.isDigit || ('a' ≤ c && c ≤ 'f') || ('A' ≤ c && c ≤ 'F')

/-- The number that a row of digits spells; an empty row spells none. -/
def number? (base : Nat) (digits : List Char) : Option Nat :=
  if digits.isEmpty then none
  else some (digits.foldl (fun n c => n * base + digitValue c) 0)

/-- The digits of a numeric reference: its character, which XML has to admit, and the rest. -/
def numeric? (base : Nat) (isDigit : Char → Bool) (cs : List Char) :
    Option (TextPart × List Char) :=
  ((number? base (cs.takeWhile isDigit)).bind charOfCode).bind fun c =>
    if Chars.isXml c then some (.character c, cs.dropWhile isDigit) else none

def TextPart.named (name : List Char) : TextPart :=
  match String.ofList name with
  | "quot" => .character '"'
  | "amp" => .character '&'
  | "apos" => .character '\''
  | "lt" => .character '<'
  | "gt" => .character '>'
  | other => .entity other

/-- What stands between the ampersand and the semicolon. -/
def referenceBody? : List Char → Option (TextPart × List Char)
  | '#' :: 'x' :: cs => numeric? 16 isHexDigit cs
  | '#' :: cs => numeric? 10 Char.isDigit cs
  | cs => (name? cs).map fun (name, rest) => (.named name, rest)

/-- The reference that begins before this text with an ampersand. -/
def reference? (cs : List Char) : Option (TextPart × List Char) :=
  (referenceBody? cs).bind fun (part, rest) => (strip? [';'] rest).map (part, ·)

theorem length_of_numeric? {base : Nat} {isDigit : Char → Bool} {cs rest : List Char}
    {part : TextPart} (h : numeric? base isDigit cs = some (part, rest)) :
    rest.length ≤ cs.length := by
  obtain ⟨c, _, h⟩ := Option.bind_eq_some_iff.mp h
  split at h
  · simp only [Option.some.injEq, Prod.mk.injEq] at h
    exact h.2 ▸ length_dropWhile_le _ cs
  · contradiction

theorem length_of_referenceBody? {cs rest : List Char} {part : TextPart}
    (h : referenceBody? cs = some (part, rest)) : rest.length ≤ cs.length := by
  unfold referenceBody? at h
  split at h
  · have := length_of_numeric? h
    simp only [List.length_cons]
    omega
  · have := length_of_numeric? h
    simp only [List.length_cons]
    omega
  · obtain ⟨⟨name, r⟩, hname, he⟩ := Option.map_eq_some_iff.mp h
    simp only [Prod.mk.injEq] at he
    have := length_of_name? hname
    rw [← he.2]
    omega

theorem length_of_reference? {cs rest : List Char} {part : TextPart}
    (h : reference? cs = some (part, rest)) : rest.length < cs.length := by
  obtain ⟨⟨p, r⟩, hbody, h⟩ := Option.bind_eq_some_iff.mp h
  obtain ⟨r', hstrip, he⟩ := Option.map_eq_some_iff.mp h
  simp only [Prod.mk.injEq] at he
  have h₁ := length_of_referenceBody? hbody
  have h₂ := length_of_strip? hstrip
  simp only [List.length_cons, List.length_nil] at h₂
  rw [← he.2]
  omega

def TextPart.list : List Char → List TextPart
  | [] => []
  | '&' :: cs =>
    match _h : reference? cs with
    | none => [.malformed]
    | some (part, rest) => part :: TextPart.list rest
  | c :: cs => .literal c :: TextPart.list cs
termination_by cs => cs.length
decreasing_by
  · have := length_of_reference? _h
    simp only [List.length_cons]
    omega
  · simp

end CanonicalXml.Markup
