import CanonicalXml.Transcript

/-! # Following a transcript

Statements about everything an operation writes, made piece by piece.

`Along next ok Q s t` follows the pieces of `t` from a state `s`, which `next` moves on with
every piece.  Each piece is `ok` in the state in which it is met, and a result satisfies `Q`
in the last one.  A fault ends the transcript, and asks for nothing more.

The state is what an observer of the pieces remembers; where it remembers nothing it is
`Unit`, and `Along` says that all pieces are `ok`.
-/

namespace CanonicalXml.Transcript

variable {π σ α β : Type} {next : σ → π → σ} {ok : σ → π → Prop}

/-- Every piece is `ok` in the state it is met in, and the result satisfies `Q`. -/
def Along (next : σ → π → σ) (ok : σ → π → Prop) (Q : σ → α → Prop) :
    σ → Transcript π α → Prop
  | s, done a => Q s a
  | _, failed _ => True
  | s, wrote piece rest => ok s piece ∧ Along next ok Q (next s piece) rest

@[simp] theorem along_done (Q : σ → α → Prop) (s : σ) (a : α) :
    Along next ok Q s (done a) ↔ Q s a := Iff.rfl

@[simp] theorem along_pure (Q : σ → α → Prop) (s : σ) (a : α) :
    Along next ok Q s (pure a) ↔ Q s a := Iff.rfl

@[simp] theorem along_write (Q : σ → Unit → Prop) (s : σ) (piece : π) :
    Along next ok Q s (write piece) ↔ ok s piece ∧ Q (next s piece) () := Iff.rfl

@[simp] theorem along_ofExcept (Q : σ → α → Prop) (s : σ) (e : Except Fault α) :
    Along next ok Q s (ofExcept e) ↔ ∀ a, e = .ok a → Q s a := by
  cases e with
  | error fault => exact ⟨fun _ _ h => (nomatch h), fun _ => trivial⟩
  | ok a => exact ⟨fun h b hb => by cases hb; exact h, fun h => h a rfl⟩

/-- One operation after another: the second goes on in the state the first one leaves. -/
@[simp] theorem along_bind (Q : σ → β → Prop) (s : σ) (t : Transcript π α)
    (f : α → Transcript π β) :
    Along next ok Q s (t >>= f) ↔ Along next ok (fun s a => Along next ok Q s (f a)) s t := by
  induction t generalizing s with
  | done a => exact Iff.rfl
  | failed fault => exact Iff.rfl
  | wrote piece rest ih => exact and_congr_right fun _ => ih (next s piece)

@[simp] theorem along_map (Q : σ → β → Prop) (s : σ) (f : α → β) (t : Transcript π α) :
    Along next ok Q s (f <$> t) ↔ Along next ok (fun s a => Q s (f a)) s t := by
  rw [map_eq_pure_bind]
  exact along_bind Q s t _

/-- A weaker `Q` asks no more. -/
theorem Along.mono {Q R : σ → α → Prop} (h : ∀ s a, Q s a → R s a) {s : σ}
    {t : Transcript π α} (along : Along next ok Q s t) : Along next ok R s t := by
  induction t generalizing s with
  | done a => exact h s a along
  | failed fault => trivial
  | wrote piece rest ih => exact ⟨along.1, ih along.2⟩

/-- What an observer remembers in the end. -/
theorem Along.of_outcome {Q : σ → α → Prop} {s : σ} {t : Transcript π α}
    (along : Along next ok Q s t) {a : α} (ends : t.outcome = .ok a) :
    Q (t.pieces.foldl next s) a := by
  induction t generalizing s with
  | done b =>
    cases ends
    exact along
  | failed fault => cases ends
  | wrote piece rest ih => exact ih along.2 ends

/-- What the pieces keep true of the memory holds in the end, even if that is a fault. -/
theorem Along.foldl_of_ok {P : σ → Prop} {Q : σ → α → Prop} {s : σ} {t : Transcript π α}
    (along : Along next ok Q s t) (start : P s)
    (keeps : ∀ s piece, ok s piece → P (next s piece)) : P (t.pieces.foldl next s) := by
  induction t generalizing s with
  | done a => exact start
  | failed fault => exact start
  | wrote piece rest ih => exact ih along.2 (keeps s piece along.1)

/-- What is true of every piece that is `ok`, in whatever state. -/
theorem Along.forall_of_ok {p : π → Prop} {Q : σ → α → Prop} {s : σ} {t : Transcript π α}
    (along : Along next ok Q s t) (fine : ∀ s piece, ok s piece → p piece) :
    ∀ piece ∈ t.pieces, p piece := by
  induction t generalizing s with
  | done a => exact nofun
  | failed fault => exact nofun
  | wrote piece rest ih =>
    intro other member
    rcases List.mem_cons.mp member with rfl | member
    · exact fine s other along.1
    · exact ih along.2 other member

/-- What an observer without a memory sees of all pieces. -/
theorem Along.forall_pieces {ok : π → Prop} {Q : Unit → α → Prop} {t : Transcript π α}
    (along : Along (fun _ _ => ()) (fun _ => ok) Q () t) : ∀ piece ∈ t.pieces, ok piece :=
  along.forall_of_ok fun _ _ => id

end CanonicalXml.Transcript
