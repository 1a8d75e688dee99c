import CanonicalXml.Limits
import CanonicalXml.Transcript

/-! # Operations under a limit

An operation that checks a limit does what it does without one, or stops before it oversteps.

* `Transcript.Restricts excessive t u` — `t` is `u`, but cut short if something is excessive.
* `Transcript.Restricts.bind` — one restricted operation after the other.
* `Transcript.Restricts.check` — a check is what restricts an operation.
-/

namespace CanonicalXml

@[simp] theorem checkAttributes_none (qname : String) (count : Nat) :
    checkAttributes none qname count = .ok () := rfl

@[simp] theorem checkDepth_none (depth : Nat) : checkDepth none depth = .ok () := rfl

namespace Transcript

variable {π α β : Type}

/-- Both do the same, unless something is excessive: then the first one writes no more than a
part of what the second one writes, and fails for that reason. -/
structure Restricts (excessive : Prop) (t u : Transcript π α) : Prop where
  same : ¬ excessive → t = u
  fails : excessive → ∃ violation, t.outcome = .error (.excess violation)
  cut : excessive → t.pieces <+: u.pieces

namespace Restricts

theorem refl {excessive : Prop} (never : ¬ excessive) (t : Transcript π α) :
    Restricts excessive t t where
  same := fun _ => rfl
  fails := fun h => absurd h never
  cut := fun h => absurd h never

theorem congr {p q : Prop} {t u : Transcript π α} (restricts : Restricts p t u) (iff : p ↔ q) :
    Restricts q t u where
  same := fun h => restricts.same (mt iff.mp h)
  fails := fun h => restricts.fails (iff.mpr h)
  cut := fun h => restricts.cut (iff.mpr h)

/-- An operation that fails at once, because of the limit. -/
theorem failed (violation : Excess) (u : Transcript π α) :
    Restricts True (.failed (.excess violation)) u where
  same := fun h => absurd trivial h
  fails := fun _ => ⟨violation, rfl⟩
  cut := fun _ => List.nil_prefix

/-- What a check of a limit lets pass is not excessive. -/
theorem check {t u : Transcript π α} {limit count : Nat} {excess : Nat → Excess}
    {excessive : Prop} (passed : ¬ limit < count → Restricts excessive t u) :
    Restricts (limit < count ∨ excessive)
      (ofExcept (checkLimit (some limit) count excess) >>= fun _ => t) u := by
  simp only [checkLimit]
  by_cases exceeds : limit < count
  · rw [if_pos exceeds]
    exact (failed (excess limit) u).congr (iff_of_true trivial (.inl exceeds))
  · rw [if_neg exceeds]
    exact (passed exceeds).congr (or_iff_right exceeds).symm

theorem wrote {excessive : Prop} {t u : Transcript π α} (restricts : Restricts excessive t u)
    (piece : π) : Restricts excessive (.wrote piece t) (.wrote piece u) where
  same := fun h => congrArg (Transcript.wrote piece) (restricts.same h)
  fails := restricts.fails
  cut := fun h => List.cons_prefix_cons.mpr ⟨rfl, restricts.cut h⟩

/-- One operation, followed by a restricted one. -/
theorem bind_left {q : α → Prop} {f g : α → Transcript π β} (t : Transcript π α)
    (second : ∀ a, t.outcome = .ok a → Restricts (q a) (f a) (g a)) :
    Restricts (∃ a, t.outcome = .ok a ∧ q a) (t >>= f) (t >>= g) := by
  induction t with
  | done a =>
    refine (second a rfl).congr ⟨fun h => ⟨a, rfl, h⟩, ?_⟩
    rintro ⟨_, ⟨⟩, h⟩
    exact h
  | failed fault =>
    refine .refl ?_ _
    rintro ⟨_, ⟨⟩, _⟩
  | wrote piece rest ih => exact (ih second).wrote piece

/-- Something is excessive in the one operation, or in the other once the first is through. -/
theorem bind {p : Prop} {q : α → Prop} {t u : Transcript π α} {f g : α → Transcript π β}
    (first : Restricts p t u)
    (second : ¬ p → ∀ a, u.outcome = .ok a → Restricts (q a) (f a) (g a)) :
    Restricts (p ∨ ∃ a, u.outcome = .ok a ∧ q a) (t >>= f) (u >>= g) := by
  by_cases happens : p
  · obtain ⟨violation, ends⟩ := first.fails happens
    refine ⟨fun h => absurd (.inl happens) h, fun _ => ⟨violation, ?_⟩, fun _ => ?_⟩
    · rw [outcome_bind, ends]
      rfl
    · rw [pieces_bind, pieces_bind, ends, List.append_nil]
      exact (first.cut happens).trans (List.prefix_append _ _)
  · rw [first.same happens]
    exact (bind_left u (second happens)).congr (or_iff_right happens).symm

theorem bind_ok {p q : Prop} {t u : Transcript π α} {f g : α → Transcript π β} {a : α}
    (first : Restricts p t u) (ends : u.outcome = .ok a)
    (second : ¬ p → Restricts q (f a) (g a)) : Restricts (p ∨ q) (t >>= f) (u >>= g) := by
  have both := first.bind (q := fun _ => q) (f := f) (g := g) fun fine b same => by
    cases ends.symm.trans same
    exact second fine
  refine both.congr (or_congr_right ⟨?_, fun h => ⟨a, ends, h⟩⟩)
  rintro ⟨_, _, h⟩
  exact h

theorem bind_error {p : Prop} {t u : Transcript π α} {f g : α → Transcript π β} {fault : Fault}
    (first : Restricts p t u) (ends : u.outcome = .error fault) :
    Restricts p (t >>= f) (u >>= g) := by
  have both := first.bind (q := fun _ => False) (f := f) (g := g) fun _ b same =>
    nomatch ends.symm.trans same
  refine both.congr (or_iff_left ?_)
  rintro ⟨_, _, impossible⟩
  exact impossible

/-- Whatever becomes of the result. -/
theorem map {p : Prop} {t u : Transcript π α} (restricts : Restricts p t u) (next : α → β) :
    Restricts p (t >>= fun a => pure (next a)) (u >>= fun a => pure (next a)) := by
  refine (restricts.bind (q := fun _ => False) fun _ a _ => .refl id _).congr (or_iff_left ?_)
  rintro ⟨_, _, impossible⟩
  exact impossible

theorem render {p : Prop} {t u : Transcript π α} (restricts : Restricts p t u)
    (textOf : π → String) : Restricts p (t.render textOf) (u.render textOf) where
  same := fun h => congrArg (Transcript.render textOf) (restricts.same h)
  fails := fun h => by
    rw [outcome_render]
    exact restricts.fails h
  cut := fun h => by
    rw [pieces_render, pieces_render]
    exact (restricts.cut h).map textOf

end Restricts

end Transcript

end CanonicalXml
