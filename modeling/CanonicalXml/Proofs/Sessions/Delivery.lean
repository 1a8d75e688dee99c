import CanonicalXml.Sink

/-! # Delivery to an output

However a text is cut into pieces, an output that takes a number of bytes in all takes the
beginning of the text.

* `Sink.deliver_limited` — what such an output has received, and how the delivery ends.
* `Sink.deliver_unlimited` — an output without a limit receives everything.
-/

namespace CanonicalXml

namespace Utf8

@[simp] theorem encode_empty : encode "" = [] := by
  simp [encode]

theorem encode_append (s t : String) : encode (s ++ t) = encode s ++ encode t := by
  simp only [encode]
  rw [String.toList_append, List.flatMap_append]

end Utf8

namespace Transcript

variable {α : Type}

@[simp] theorem text_done (a : α) : (done a : Transcript String α).text = "" := rfl

@[simp] theorem text_failed (fault : Fault) :
    (failed fault : Transcript String α).text = "" := rfl

theorem text_wrote (piece : String) (rest : Transcript String α) :
    (wrote piece rest).text = piece ++ rest.text := by
  simp [text, pieces]

end Transcript

namespace Sink

variable {α : Type}

/-- An output that takes a number of bytes keeps as many of a transcript. Those that do not fit
are what makes the delivery fail, whatever the transcript ends with. -/
theorem deliver_limited (t : Transcript String α) : ∀ {sink : Sink} {capacity : Nat},
    sink.capacity = some capacity →
    sink.deliver t =
      ({ sink with
          capacity := some (capacity - (Utf8.encode t.text).length)
          received := sink.received ++ (Utf8.encode t.text).take capacity },
        if (Utf8.encode t.text).length ≤ capacity then t.outcome else .error (.io .closed)) := by
  induction t with
  | done a =>
    rintro ⟨_, failsFlush, received, flushes⟩ capacity ⟨⟩
    simp [deliver, Transcript.outcome]
  | failed fault =>
    rintro ⟨_, failsFlush, received, flushes⟩ capacity ⟨⟩
    simp [deliver, Transcript.outcome]
  | wrote piece rest ih =>
    rintro ⟨_, failsFlush, received, flushes⟩ capacity ⟨⟩
    simp only [deliver, accept]
    rw [Transcript.text_wrote, Utf8.encode_append]
    generalize Utf8.encode piece = here
    by_cases fits : here.length ≤ capacity
    · -- The piece is taken whole, and the rest finds that much less room.
      rw [if_pos fits, List.take_of_length_le fits]
      dsimp only
      rw [ih rfl]
      have room : here.length + (Utf8.encode rest.text).length ≤ capacity ↔
          (Utf8.encode rest.text).length ≤ capacity - here.length := by omega
      simp only [List.length_append, List.append_assoc, List.take_append, room,
        List.take_of_length_le fits, Nat.sub_sub, Transcript.outcome]
    · -- The rest is not written any more.
      have full : ¬ here.length + (Utf8.encode rest.text).length ≤ capacity := by omega
      have nothing : capacity - here.length = 0 := by omega
      have taken : min capacity here.length = capacity := by omega
      have none_left : capacity - (here.length + (Utf8.encode rest.text).length) = 0 := by omega
      rw [if_neg fits]
      dsimp only
      rw [List.length_append, if_neg full, List.take_append, nothing, List.length_take, taken,
        none_left, Nat.sub_self]
      simp

theorem deliver_unlimited (t : Transcript String α) : ∀ {sink : Sink}, sink.capacity = none →
    sink.deliver t =
      ({ sink with received := sink.received ++ Utf8.encode t.text }, t.outcome) := by
  induction t with
  | done a =>
    intro sink unlimited
    simp [deliver, Transcript.outcome]
  | failed fault =>
    intro sink unlimited
    simp [deliver, Transcript.outcome]
  | wrote piece rest ih =>
    rintro ⟨_, failsFlush, received, flushes⟩ ⟨⟩
    simp only [deliver, accept]
    rw [ih rfl, Transcript.text_wrote, Utf8.encode_append, List.append_assoc]
    rfl

end Sink

end CanonicalXml
