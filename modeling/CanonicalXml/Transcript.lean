import CanonicalXml.Fault
/-! # Transcripts

What an operation writes, piece by piece, and how it ends. The pieces are
there to be delivered one after the other: what was written before a fault has
been written. A piece is a text, or what a text is yet to be made of.

* `Transcript` — a monad; `Transcript.write` writes a piece.
* `Transcript.pieces`, `Transcript.outcome` — all that is written, and the end.
* `Transcript.render` — the same with every piece turned into text, and
  `Transcript.text` all of that text.
* `pieces_bind`, `outcome_bind` — what the two are for one operation after another.
-/

namespace CanonicalXml

/-- Pieces in order, followed by a result or a fault. -/
inductive Transcript (π α : Type) where
  | done (a : α)
  | failed (fault : Fault)
  | wrote (piece : π) (rest : Transcript π α)

namespace Transcript

variable {π α β γ : Type}

def bind (t : Transcript π α) (f : α → Transcript π β) : Transcript π β :=
  match t with
  | done a => f a
  | failed fault => failed fault
  | wrote piece rest => wrote piece (rest.bind f)

instance : Monad (Transcript π) where
  pure := done
  bind := bind

def write (piece : π) : Transcript π Unit :=
  wrote piece (done ())

/-- A result that was computed without writing. -/
def ofExcept : Except Fault α → Transcript π α
  | .ok a => done a
  | .error fault => failed fault

def pieces : Transcript π α → List π
  | done _ => []
  | failed _ => []
  | wrote piece rest => piece :: rest.pieces

def outcome : Transcript π α → Except Fault α
  | done a => .ok a
  | failed fault => .error fault
  | wrote _ rest => rest.outcome

/-- The operation with its pieces turned into text. -/
def render (textOf : π → String) : Transcript π α → Transcript String α
  | done a => done a
  | failed fault => failed fault
  | wrote piece rest => wrote (textOf piece) (rest.render textOf)

def text (t : Transcript String α) : String :=
  String.join t.pieces

def result (t : Transcript String α) : Except Fault String :=
  t.outcome.map fun _ => t.text

/-! ## One operation after another -/

/-- Nothing happens between two operations, so how they are grouped does not matter. -/
theorem bind_assoc (t : Transcript π α) (f : α → Transcript π β)
    (g : β → Transcript π γ) : (t.bind f).bind g = t.bind fun a => (f a).bind g := by
  induction t with
  | done a => rfl
  | failed fault => rfl
  | wrote piece rest ih => exact congrArg (wrote piece) ih

theorem bind_done (t : Transcript π α) : t.bind done = t := by
  induction t with
  | done a => rfl
  | failed fault => rfl
  | wrote piece rest ih => exact congrArg (wrote piece) ih

instance : LawfulMonad (Transcript π) :=
  LawfulMonad.mk' (Transcript π) bind_done (fun _ _ => rfl) bind_assoc

/-- What the second operation writes follows, if the first one succeeds. -/
theorem pieces_bind (t : Transcript π α) (f : α → Transcript π β) :
    (t >>= f).pieces = t.pieces ++ match t.outcome with
      | .ok a => (f a).pieces
      | .error _ => [] := by
  induction t with
  | done a => rfl
  | failed fault => rfl
  | wrote piece rest ih => exact congrArg (piece :: ·) ih

theorem outcome_bind (t : Transcript π α) (f : α → Transcript π β) :
    (t >>= f).outcome = t.outcome >>= fun a => (f a).outcome := by
  induction t with
  | done a => rfl
  | failed fault => rfl
  | wrote piece rest ih => exact ih

/-- One operation after another succeeds where both of them do. -/
theorem outcome_bind_eq_ok {t : Transcript π α} {f : α → Transcript π β} {b : β} :
    (t >>= f).outcome = .ok b ↔ ∃ a, t.outcome = .ok a ∧ (f a).outcome = .ok b := by
  rw [outcome_bind]
  cases t.outcome with
  | error fault =>
    constructor
    · exact nofun
    · rintro ⟨_, ⟨⟩, _⟩
  | ok a =>
    constructor
    · intro ends
      exact ⟨a, rfl, ends⟩
    · rintro ⟨_, ⟨⟩, ends⟩
      exact ends

/-! ## Rendering -/

@[simp] theorem outcome_render (textOf : π → String) (t : Transcript π α) :
    (t.render textOf).outcome = t.outcome := by
  induction t with
  | done a => rfl
  | failed fault => rfl
  | wrote piece rest ih => exact ih

@[simp] theorem pieces_render (textOf : π → String) (t : Transcript π α) :
    (t.render textOf).pieces = t.pieces.map textOf := by
  induction t with
  | done a => rfl
  | failed fault => rfl
  | wrote piece rest ih => exact congrArg (textOf piece :: ·) ih

end Transcript

end CanonicalXml
