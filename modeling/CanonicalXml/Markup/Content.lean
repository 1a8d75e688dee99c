import CanonicalXml.Markup.Tag
/-! # Content

The lexemes between the start tag of an element and its end tag.

* `comment?`, `cdata?`, `instruction?`, `text?` — what may stand there besides
  tags.
* `content` reads on until the elements that it has seen opened are closed
  again, or the text ends.
-/

namespace CanonicalXml.Markup

open Text

/-- The comment that began before this text. Its own text has no two hyphens in a row
and does not end in one. -/
def comment? (cs : List Char) : Option (Lexeme × List Char) :=
  (until? ['-', '-', '>'] cs).bind fun (text, rest) =>
    if text.all Chars.isXml && !occurs ['-', '-'] text && text.getLast? ≠ some '-' then
      some (.comment text, rest)
    else none

def cdata? (cs : List Char) : Option (Lexeme × List Char) :=
  (until? [']', ']', '>'] cs).bind fun (raw, rest) =>
    if raw.all Chars.isXml then some (.cdata raw, rest) else none

/-- The processing instruction that began before this text with `<?`. A declaration of
the XML version is none. -/
def instruction? (cs : List Char) : Option (Lexeme × List Char) :=
  if (strip? ['x', 'm', 'l', ' '] cs).isSome then none
  else (name? cs).bind fun (target, rest) =>
    (until? ['?', '>'] (skipSpace rest)).bind fun (data, rest) =>
      if data.all Chars.isXml then some (.instruction target data, rest) else none

/-- The markup that began before this text with `<`. -/
def markup? (stop : Nat) (cs : List Char) : Option (Lexeme × List Char) :=
  match cs with
  | '!' :: '-' :: '-' :: rest => comment? rest
  | '!' :: rest => (strip? ['[', 'C', 'D', 'A', 'T', 'A', '['] rest).bind cdata?
  | '?' :: rest => instruction? rest
  | '/' :: rest => endTag? stop rest
  | _ => startTag? stop cs

/-- The character data at the beginning of this text, up to the next `<`. The end mark
of CDATA sections may not occur in it. -/
def text? (cs : List Char) : Option (Lexeme × List Char) :=
  let raw := cs.takeWhile (· ≠ '<')
  if raw.all Chars.isXml && !occurs [']', ']', '>'] raw then
    some (.text raw, cs.dropWhile (· ≠ '<'))
  else none

/-! ## How far the readers get -/

/-- Reading up to an end mark leaves no more than there was. -/
theorem length_of_delimited (ok : List Char → Bool) (lexeme : List Char → Lexeme)
    {mark cs rest : List Char} {l : Lexeme}
    (h : ((until? mark cs).bind fun (data, rest) =>
      if ok data then some (lexeme data, rest) else none) = some (l, rest)) :
    rest.length ≤ cs.length := by
  obtain ⟨⟨data, r⟩, h₁, h⟩ := Option.bind_eq_some_iff.mp h
  have l₁ := length_of_until? h₁
  dsimp only at h
  split at h
  · simp only [Option.some.injEq, Prod.mk.injEq] at h
    rw [← h.2]
    omega
  · contradiction

theorem length_of_comment? {cs rest : List Char} {l : Lexeme}
    (h : comment? cs = some (l, rest)) : rest.length ≤ cs.length :=
  length_of_delimited
    (fun text => text.all Chars.isXml && !occurs ['-', '-'] text && text.getLast? ≠ some '-')
    .comment h

theorem length_of_cdata? {cs rest : List Char} {l : Lexeme}
    (h : cdata? cs = some (l, rest)) : rest.length ≤ cs.length :=
  length_of_delimited (·.all Chars.isXml) .cdata h

theorem length_of_instruction? {cs rest : List Char} {l : Lexeme}
    (h : instruction? cs = some (l, rest)) : rest.length ≤ cs.length := by
  unfold instruction? at h
  split at h
  · contradiction
  · obtain ⟨⟨target, r₁⟩, h₁, h⟩ := Option.bind_eq_some_iff.mp h
    have l₁ := length_of_name? h₁
    have l₂ := length_skipSpace_le r₁
    have l₃ := length_of_delimited (·.all Chars.isXml) (.instruction target) h
    omega

theorem length_of_markup? {stop : Nat} {cs rest : List Char} {l : Lexeme}
    (h : markup? stop cs = some (l, rest)) : rest.length ≤ cs.length := by
  unfold markup? at h
  split at h
  · have := length_of_comment? h
    simp only [List.length_cons]
    omega
  · obtain ⟨r, h₁, h₂⟩ := Option.bind_eq_some_iff.mp h
    have l₁ := length_of_strip? h₁
    have l₂ := length_of_cdata? h₂
    simp only [List.length_cons]
    omega
  · have := length_of_instruction? h
    simp only [List.length_cons]
    omega
  · have := length_of_endTag? h
    simp only [List.length_cons]
    omega
  · exact length_of_startTag? h

theorem length_of_text? {c : Char} {cs rest : List Char} {l : Lexeme} (hc : c ≠ '<')
    (h : text? (c :: cs) = some (l, rest)) : rest.length ≤ cs.length := by
  unfold text? at h
  dsimp only at h
  split at h
  · simp only [Option.some.injEq, Prod.mk.injEq] at h
    rw [← h.2, List.dropWhile_cons_of_pos (by simpa using hc)]
    exact length_dropWhile_le _ cs
  · contradiction

/-! ## Content -/

/-- The lexemes of content in which `level` elements are open, followed by what `after`
makes of the rest. Reading stops when no element is open any more, and when the text
ends. -/
def content (stop : Nat) (after : List Char → List Lexeme) (level : Nat) :
    List Char → List Lexeme
  | [] => after []
  | c :: cs =>
    if _hc : c = '<' then
      match _h : markup? stop cs with
      | none => [.malformed]
      | some (l, rest) =>
        if l.levelAfter level = 0 then l :: after rest
        else l :: content stop after (l.levelAfter level) rest
    else
      match _h : text? (c :: cs) with
      | none => [.malformed]
      | some (l, rest) => l :: content stop after level rest
termination_by cs => cs.length
decreasing_by
  · have := length_of_markup? _h
    simp only [List.length_cons]
    omega
  · have := length_of_text? _hc _h
    simp only [List.length_cons]
    omega

/-- The lexemes of an entity's text, which stands in for content. Nothing is read after an
end tag that closes an element opened outside of it. -/
def replacement (stop : Nat) (cs : List Char) : List Lexeme :=
  content stop (fun _ => []) 1 cs

end CanonicalXml.Markup
