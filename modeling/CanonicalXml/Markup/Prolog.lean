import CanonicalXml.Markup.Content
/-! # Documents

The lexemes of a whole document: the XML declaration, which leaves no lexeme,
the document type declaration with the declarations in it, the document
element, and the comments and instructions around all of these.

* `declaration?`, `externalId?`, `entityDeclaration?` — the parts of the prolog.
* `ofDocument` — the lexemes of a document.
-/

namespace CanonicalXml.Markup

open Text

/-- The text after an item of the XML declaration: white space is skipped, and required
unless the declaration ends here. -/
def declarationSpace? : List Char → Option (List Char)
  | [] => some []
  | '?' :: '>' :: cs => some ('?' :: '>' :: cs)
  | cs => space? cs

/-- An attribute of the XML declaration, if the text begins with its keyword, and the
white space after it. -/
def declarationItem? (keyword : List Char) (cs : List Char) : Option (List Char) :=
  if (strip? keyword cs).isSome then (attribute? cs).bind (declarationSpace? ·.2) else some cs

/-- The text after the XML declaration, given what follows its name. The version is
required; the encoding and the standalone declaration are not, and what they say does
not matter. -/
def declaration? (cs : List Char) : Option (List Char) :=
  (strip? "version".toList cs).bind fun _ =>
    (declarationItem? "version".toList cs).bind fun cs =>
      (declarationItem? "encoding".toList cs).bind fun cs =>
        (if (strip? "standalone".toList cs).isSome then (attribute? cs).map (·.2)
          else some cs).bind fun cs =>
            strip? ['?', '>'] (skipSpace cs)

/-- The text after an external identifier, if it begins with one; the inner `none` says
that it does not. -/
def externalId? (cs : List Char) : Option (Option (List Char)) :=
  match strip? "SYSTEM".toList cs, strip? "PUBLIC".toList cs with
  | some rest, _ => ((space? rest).bind quoted?).map (some ·.2)
  | none, some rest =>
    ((space? rest).bind quoted?).bind fun (_, rest) =>
      ((space? rest).bind quoted?).map (some ·.2)
  | none, none => some none

/-- What an entity declaration says after the name: a value, together with the text
after its closing quote, or only where the external text is to be found. -/
def entityDefinition? (general : Bool) (cs : List Char) :
    Option (Option (List Char × List Char) × List Char) :=
  match quoted? cs with
  | some (value, rest) => some (some (value, rest), rest)
  | none =>
    ((externalId? cs).bind id).bind fun rest =>
      if !general then some (none, rest)
      else match strip? "NDATA".toList (skipSpace rest) with
        | none => some (none, rest)
        | some rest => ((space? rest).bind name?).map fun (_, rest) => (none, rest)

/-- The entity declaration that began before this text with `<!ENTITY`. Parameter
entities are declared like general ones. Only an internal entity leaves a lexeme. -/
def entityDeclaration? (stop : Nat) (cs : List Char) : Option (List Lexeme × List Char) :=
  (space? cs).bind fun cs =>
    (match cs with
      | '%' :: rest => (space? rest).map (false, ·)
      | _ => some (true, cs)).bind fun (general, cs) =>
        (name? cs).bind fun (name, rest) =>
          (space? rest).bind fun rest =>
            (entityDefinition? general rest).bind fun (value?, rest) =>
              (strip? ['>'] (skipSpace rest)).map fun rest =>
                match value? with
                | none => ([], rest)
                | some (value, after) => ([.entity name value (stop - (after.length + 1))], rest)

/-- One piece of the internal subset of a document type declaration, white space before
it skipped: its lexemes, and the rest. Declarations of elements, attribute lists and
notations leave no lexeme. -/
def subsetItem? (stop : Nat) (cs : List Char) : Option (List Lexeme × List Char) :=
  match cs with
  | '<' :: '?' :: rest => (instruction? rest).map fun (l, rest) => ([l], rest)
  | '<' :: '!' :: '-' :: '-' :: rest => (comment? rest).map fun (l, rest) => ([l], rest)
  | '<' :: '!' :: rest =>
    match strip? "ENTITY".toList rest with
    | some rest => entityDeclaration? stop rest
    | none =>
      if ["ELEMENT", "ATTLIST", "NOTATION"].any fun keyword =>
          (strip? keyword.toList rest).isSome then
        (until? ['>'] rest).map fun (_, rest) => ([], rest)
      else none
  | _ => none

/-! ## How far the readers get -/

theorem length_of_externalId? {cs rest : List Char} (h : externalId? cs = some (some rest)) :
    rest.length < cs.length := by
  unfold externalId? at h
  split at h
  · rename_i r₁ h₁
    obtain ⟨⟨v, r₂⟩, h₂, he⟩ := Option.map_eq_some_iff.mp h
    obtain ⟨r₃, h₃, h₄⟩ := Option.bind_eq_some_iff.mp h₂
    simp only [Option.some.injEq] at he
    have l₁ := length_of_strip? h₁
    have l₂ := length_of_space? h₃
    have l₃ := length_of_quoted? h₄
    rw [← he]
    omega
  · rename_i r₁ _ h₁
    obtain ⟨⟨v, r₂⟩, h₂, h⟩ := Option.bind_eq_some_iff.mp h
    obtain ⟨r₃, h₃, h₄⟩ := Option.bind_eq_some_iff.mp h₂
    obtain ⟨⟨w, r₄⟩, h₅, he⟩ := Option.map_eq_some_iff.mp h
    obtain ⟨r₅, h₆, h₇⟩ := Option.bind_eq_some_iff.mp h₅
    simp only [Option.some.injEq] at he
    have l₁ := length_of_strip? h₁
    have l₂ := length_of_space? h₃
    have l₃ := length_of_quoted? h₄
    have l₄ := length_of_space? h₆
    have l₅ := length_of_quoted? h₇
    rw [← he]
    omega
  · simp at h

theorem length_of_entityDefinition? {general : Bool} {cs rest : List Char}
    {value? : Option (List Char × List Char)}
    (h : entityDefinition? general cs = some (value?, rest)) : rest.length < cs.length := by
  unfold entityDefinition? at h
  split at h
  · rename_i h₁
    simp only [Option.some.injEq, Prod.mk.injEq] at h
    have := length_of_quoted? h₁
    rw [← h.2]
    omega
  · obtain ⟨r₁, h₁, h⟩ := Option.bind_eq_some_iff.mp h
    obtain ⟨r₂, h₂, h₃⟩ := Option.bind_eq_some_iff.mp h₁
    have l₁ := length_of_externalId? (h₂.trans (congrArg some h₃))
    split at h
    · simp only [Option.some.injEq, Prod.mk.injEq] at h
      rw [← h.2]
      omega
    · split at h
      · simp only [Option.some.injEq, Prod.mk.injEq] at h
        rw [← h.2]
        omega
      · rename_i r₃ h₄
        obtain ⟨⟨n, r₄⟩, h₅, he⟩ := Option.map_eq_some_iff.mp h
        obtain ⟨r₅, h₆, h₇⟩ := Option.bind_eq_some_iff.mp h₅
        simp only [Prod.mk.injEq] at he
        have l₂ := length_of_strip? h₄
        have l₃ := length_of_space? h₆
        have l₄ := length_of_name? h₇
        have l₅ := length_skipSpace_le r₁
        rw [← he.2]
        omega

theorem length_of_entityDeclaration? {stop : Nat} {cs rest : List Char} {ls : List Lexeme}
    (h : entityDeclaration? stop cs = some (ls, rest)) : rest.length < cs.length := by
  obtain ⟨r₁, h₁, h⟩ := Option.bind_eq_some_iff.mp h
  obtain ⟨⟨g, r₂⟩, h₂, h⟩ := Option.bind_eq_some_iff.mp h
  obtain ⟨⟨n, r₃⟩, h₃, h⟩ := Option.bind_eq_some_iff.mp h
  obtain ⟨r₄, h₄, h⟩ := Option.bind_eq_some_iff.mp h
  obtain ⟨⟨v, r₅⟩, h₅, h⟩ := Option.bind_eq_some_iff.mp h
  obtain ⟨r₆, h₆, he⟩ := Option.map_eq_some_iff.mp h
  have l₁ := length_of_space? h₁
  have l₂ : r₂.length ≤ r₁.length := by
    split at h₂
    · obtain ⟨r, hr, he⟩ := Option.map_eq_some_iff.mp h₂
      simp only [Prod.mk.injEq] at he
      have := length_of_space? hr
      rw [← he.2, List.length_cons]
      omega
    · simp only [Option.some.injEq, Prod.mk.injEq] at h₂
      exact Nat.le_of_eq (congrArg List.length h₂.2.symm)
  have l₃ := length_of_name? h₃
  have l₄ := length_of_space? h₄
  have l₅ := length_of_entityDefinition? h₅
  have l₆ := length_of_strip? h₆
  have l₇ := length_skipSpace_le r₅
  have l₈ : rest.length = r₆.length := by
    split at he <;> simp_all
  omega

theorem length_of_subsetItem? {stop : Nat} {cs rest : List Char} {ls : List Lexeme}
    (h : subsetItem? stop cs = some (ls, rest)) : rest.length < cs.length := by
  unfold subsetItem? at h
  split at h
  · obtain ⟨⟨l, r⟩, h₁, he⟩ := Option.map_eq_some_iff.mp h
    simp only [Prod.mk.injEq] at he
    have := length_of_instruction? h₁
    simp only [List.length_cons, ← he.2]
    omega
  · obtain ⟨⟨l, r⟩, h₁, he⟩ := Option.map_eq_some_iff.mp h
    simp only [Prod.mk.injEq] at he
    have := length_of_comment? h₁
    simp only [List.length_cons, ← he.2]
    omega
  · split at h
    · rename_i h₁
      have l₁ := length_of_strip? h₁
      have l₂ := length_of_entityDeclaration? h
      simp only [List.length_cons]
      omega
    · split at h
      · obtain ⟨⟨l, r⟩, h₁, he⟩ := Option.map_eq_some_iff.mp h
        simp only [Prod.mk.injEq] at he
        have := length_of_until? h₁
        simp only [List.length_cons, ← he.2]
        omega
      · contradiction
  · contradiction

/-! ## The document -/

/-- The comments and instructions outside of the document element, with the white space
around them, followed by what `after` makes of the rest. -/
def misc (after : List Char → List Lexeme) (cs : List Char) : List Lexeme :=
  match _h : skipSpace cs with
  | '<' :: '?' :: rest =>
    match _h' : instruction? rest with
    | none => [.malformed]
    | some (l, rest) => l :: misc after rest
  | '<' :: '!' :: '-' :: '-' :: rest =>
    match _h' : comment? rest with
    | none => [.malformed]
    | some (l, rest) => l :: misc after rest
  | rest => after rest
termination_by cs.length
decreasing_by
  · have l₁ := length_of_instruction? _h'
    have l₂ := length_skipSpace_le cs
    simp only [_h, List.length_cons] at l₂
    omega
  · have l₁ := length_of_comment? _h'
    have l₂ := length_skipSpace_le cs
    simp only [_h, List.length_cons] at l₂
    omega

/-- The end of the text, where nothing may follow. -/
def finish : List Char → List Lexeme
  | [] => []
  | _ :: _ => [.malformed]

def root (stop : Nat) : List Char → List Lexeme
  | '<' :: cs =>
    match startTag? stop cs with
    | none => [.malformed]
    | some (l, rest) =>
      -- An empty element is complete.
      if l.levelAfter 0 = 0 then l :: misc finish rest
      else l :: content stop (misc finish) 1 rest
  | cs => finish cs

/-- The internal subset up to its closing bracket, and the rest of the document. -/
def subset (stop : Nat) (cs : List Char) : List Lexeme :=
  match _h : skipSpace cs with
  | ']' :: rest =>
    match skipSpace rest with
    | '>' :: rest => misc (root stop) rest
    | _ => [.malformed]
  | _ =>
    match _h' : subsetItem? stop (skipSpace cs) with
    | none => [.malformed]
    | some (ls, rest) => ls ++ subset stop rest
termination_by cs.length
decreasing_by
  have l₁ := length_of_subsetItem? _h'
  have l₂ := length_skipSpace_le cs
  omega

/-- The name and the external identifier of a document type declaration, and what
follows it: an internal subset or the end of the declaration. -/
def doctypeBody (stop : Nat) (cs : List Char) : List Lexeme :=
  match (space? cs).bind name? with
  | none => [.malformed]
  | some (_, rest) =>
    match externalId? (skipSpace rest) with
    | none => [.malformed]
    | some after? =>
      match skipSpace (after?.getD (skipSpace rest)) with
      | '[' :: rest => subset stop rest
      | '>' :: rest => misc (root stop) rest
      | _ => [.malformed]

/-- The document type declaration, if there is one, and the rest of the document. -/
def doctype (stop : Nat) (cs : List Char) : List Lexeme :=
  match strip? "<!DOCTYPE".toList cs with
  | none => root stop cs
  | some rest => .doctype :: doctypeBody stop rest

/-- The lexemes of a document. A byte order mark before it is skipped. -/
def ofDocument (text : List Char) : List Lexeme :=
  let body := (strip? ['\uFEFF'] text).getD text
  match strip? "<?xml ".toList body with
  | none => misc (doctype text.length) body
  | some rest =>
    match declaration? (skipSpace rest) with
    | none => [.malformed]
    | some rest => misc (doctype text.length) rest

end CanonicalXml.Markup
