import CanonicalXml.Canonical.Walk

/-! # Transcripts side by side

Two operations are compared by what a reader gets from them: the text that they write, however
it is cut into pieces, and the way they end.

* `Transcript.Alike` — the same text and the same outcome.
* `Transcript.Matches F R` — the same text, and outcomes of the same kind: faults related by `F`,
  or results related by `R`.
* `Transcript.Matches.bind` — operations that match, followed by operations that match.
* `Transcript.Silent` — nothing is written, so the operation does not show.
-/

namespace CanonicalXml.Transcript

variable {α β γ δ : Type} {F : Fault → Fault → Prop}

/-- Both write the same text, and end with the same result or the same fault. -/
def Alike (t u : Transcript String α) : Prop :=
  t.text = u.text ∧ t.outcome = u.outcome

/-- The text of all pieces. -/
def written (t : Transcript Piece α) : String :=
  (t.render Piece.text).text

/-- Two ways to end: both with a result, or both with a fault. -/
inductive Ends (F : Fault → Fault → Prop) (R : α → β → Prop) :
    Except Fault α → Except Fault β → Prop where
  | ok {a : α} {b : β} (related : R a b) : Ends F R (.ok a) (.ok b)
  | error {f g : Fault} (related : F f g) : Ends F R (.error f) (.error g)

/-- Both write the same text, and end in related ways. -/
def Matches (F : Fault → Fault → Prop) (R : α → β → Prop) (t : Transcript Piece α)
    (u : Transcript Piece β) : Prop :=
  t.written = u.written ∧ Ends F R t.outcome u.outcome

/-! ## Ends -/

theorem Ends.mono {R S : α → β → Prop} {x : Except Fault α} {y : Except Fault β}
    (ends : Ends F R x y) (weaker : ∀ a b, x = .ok a → y = .ok b → R a b → S a b) :
    Ends F S x y := by
  cases ends with
  | ok related => exact .ok (weaker _ _ rfl rfl related)
  | error related => exact .error related

theorem Ends.refl (reflexive : ∀ f, F f f) (x : Except Fault α) : Ends F Eq x x := by
  cases x with
  | ok a => exact .ok rfl
  | error f => exact .error (reflexive f)

theorem Ends.eq {x y : Except Fault α} (ends : Ends Eq Eq x y) : x = y := by
  cases ends with
  | ok related => rw [related]
  | error related => rw [related]

theorem Ends.isOk {R : α → β → Prop} {x : Except Fault α} {y : Except Fault β}
    (ends : Ends F R x y) : x.isOk = y.isOk := by
  cases ends with
  | ok _ => rfl
  | error _ => rfl

/-! ## Written text -/

@[simp] theorem written_pure (a : α) : written (pure a) = "" := rfl

@[simp] theorem written_ofExcept (x : Except Fault α) : written (ofExcept x) = "" := by
  cases x with
  | ok a => rfl
  | error fault => rfl

@[simp] theorem written_write (piece : Piece) : written (write piece) = piece.text := by
  show String.join [piece.text] = piece.text
  simp [String.join]

/-- What the second operation writes follows, as text. -/
theorem text_render_bind {π : Type} (textOf : π → String) (t : Transcript π α)
    (f : α → Transcript π β) :
    ((t >>= f).render textOf).text = (t.render textOf).text ++ match t.outcome with
      | .ok a => ((f a).render textOf).text
      | .error _ => "" := by
  simp only [text, pieces_render, pieces_bind, List.map_append]
  cases t.outcome with
  | ok a => exact String.join_append
  | error fault => simp [String.join]

theorem written_bind (t : Transcript Piece α) (f : α → Transcript Piece β) :
    (t >>= f).written = t.written ++ match t.outcome with
      | .ok a => (f a).written
      | .error _ => "" :=
  text_render_bind Piece.text t f

/-! ## Matching operations -/

variable {R : α → β → Prop} {S : γ → δ → Prop}

theorem Matches.refl (reflexive : ∀ f, F f f) (t : Transcript Piece α) : Matches F Eq t t :=
  ⟨rfl, .refl reflexive _⟩

theorem Matches.pure {a : α} {b : β} (related : R a b) :
    Matches F R (Pure.pure a) (Pure.pure b) :=
  ⟨rfl, .ok related⟩

theorem Matches.ofExcept {x : Except Fault α} {y : Except Fault β} (ends : Ends F R x y) :
    Matches F R (ofExcept x) (ofExcept y) := by
  refine ⟨by rw [written_ofExcept, written_ofExcept], ?_⟩
  cases ends with
  | ok related => exact .ok related
  | error related => exact .error related

theorem Matches.write {p q : Piece} (same : p.text = q.text) :
    Matches F (fun _ _ => True) (write p) (write q) := by
  refine ⟨?_, .ok trivial⟩
  rw [written_write, written_write, same]

theorem Matches.mono {R S : α → β → Prop} {t : Transcript Piece α} {u : Transcript Piece β}
    (first : Matches F R t u)
    (weaker : ∀ a b, t.outcome = .ok a → u.outcome = .ok b → R a b → S a b) :
    Matches F S t u :=
  ⟨first.1, first.2.mono weaker⟩

/-- Operations that match, one after the other. -/
theorem Matches.bind {t : Transcript Piece α} {u : Transcript Piece β}
    {f : α → Transcript Piece γ} {g : β → Transcript Piece δ} (first : Matches F R t u)
    (second : ∀ a b, R a b → Matches F S (f a) (g b)) :
    Matches F S (t >>= f) (u >>= g) := by
  obtain ⟨same, ends⟩ := first
  unfold Matches
  rw [written_bind, written_bind, outcome_bind, outcome_bind, same]
  revert ends
  generalize t.outcome = x
  generalize u.outcome = y
  intro ends
  cases ends with
  | ok related =>
    obtain ⟨same, ends⟩ := second _ _ related
    exact ⟨congrArg (_ ++ ·) same, ends⟩
  | error related => exact ⟨rfl, .error related⟩

/-! ## Silent operations -/

/-- Nothing is written, and the operation succeeds with this result. -/
def Silent (t : Transcript Piece α) (a : α) : Prop :=
  t.written = "" ∧ t.outcome = .ok a

/-- What comes after a silent operation is all that shows. -/
theorem Silent.bind_matches {t : Transcript Piece α} {f : α → Transcript Piece β}
    {u : Transcript Piece γ} {a : α} {S : β → γ → Prop} (first : Silent t a)
    (second : Matches F S (f a) u) : Matches F S (t >>= f) u := by
  unfold Matches
  rw [written_bind, outcome_bind, first.1, first.2]
  exact ⟨(String.empty_append).trans second.1, second.2⟩

/-- What is done with a result does not show, if nothing is written for it. -/
theorem Matches.of_bind_pure {t : Transcript Piece α} {u : Transcript Piece β} {c : γ}
    {S : α → γ → Prop} (same : Matches F S t (u >>= fun _ => Pure.pure c)) :
    Matches F (fun _ _ => True) t u := by
  obtain ⟨written, ends⟩ := same
  rw [written_bind] at written
  rw [outcome_bind] at ends
  unfold Matches
  revert written ends
  generalize t.outcome = x
  generalize u.outcome = y
  intro written ends
  cases y with
  | error fault =>
    cases ends with
    | error related => exact ⟨written.trans String.append_empty, .error related⟩
  | ok b =>
    cases ends with
    | ok _ => exact ⟨written.trans String.append_empty, .ok trivial⟩

end CanonicalXml.Transcript
