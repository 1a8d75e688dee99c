import CanonicalXml.Utf8
import Mathlib.Data.String.Basic
import Mathlib.Tactic.SplitIfs

/-! # The order of code points is that of bytes

Texts can be compared by their characters or by their bytes in UTF-8.  Both orders are the same,
though characters have encodings of different lengths: the first byte grows with the length, and
in encodings of one length the bits of the character stand in their order.

* `Utf8.utf8EncodeChar_lt` — one character before another, whatever follows them.
* `Utf8.encode_lt_iff` — two texts.
-/

namespace CanonicalXml.Utf8

section Bytes

variable {m n : Nat} (hm : m < 256) (hn : n < 256)
include hm hn

theorem ofNat_lt_ofNat : UInt8.ofNat m < UInt8.ofNat n ↔ m < n := by
  rw [UInt8.lt_iff_toNat_lt, UInt8.toNat_ofNat', UInt8.toNat_ofNat', Nat.mod_eq_of_lt hm,
    Nat.mod_eq_of_lt hn]

theorem ofNat_eq_ofNat : UInt8.ofNat m = UInt8.ofNat n ↔ m = n := by
  rw [← UInt8.toNat_inj, UInt8.toNat_ofNat', UInt8.toNat_ofNat', Nat.mod_eq_of_lt hm,
    Nat.mod_eq_of_lt hn]

end Bytes

theorem utf8EncodeChar_ne_nil (c : Char) : String.utf8EncodeChar c ≠ [] := by
  intro none
  have size := String.length_utf8EncodeChar c
  rw [none] at size
  exact Nat.ne_of_lt (Char.utf8Size_pos c) size

/-- The encodings of two characters differ, and neither is the beginning of the other. -/
theorem utf8EncodeChar_lt {c d : Char} (less : c < d) (xs ys : List UInt8) :
    String.utf8EncodeChar c ++ xs < String.utf8EncodeChar d ++ ys := by
  have values : c.val.toNat < d.val.toNat := less
  have bound : d.val.toNat < 0x110000 := by
    have valid := d.valid
    unfold UInt32.isValidChar Nat.isValidChar at valid
    omega
  simp only [String.utf8EncodeChar]
  generalize c.val.toNat = v at values ⊢
  generalize d.val.toNat = w at values bound ⊢
  -- The bytes are digits to the base 64, each of them what is left of the one before it.
  have digits : ∀ v, v / 4096 = v / 64 / 64 ∧ v / 262144 = v / 64 / 64 / 64 := by omega
  simp only [digits]
  split_ifs
  all_goals
    simp (disch := omega) only [List.cons_append, List.nil_append, List.cons_lt_cons_iff,
      ofNat_lt_ofNat, ofNat_eq_ofNat]
    omega

theorem flatMap_utf8EncodeChar_lt {cs ds : List Char} (less : cs < ds) :
    cs.flatMap String.utf8EncodeChar < ds.flatMap String.utf8EncodeChar := by
  induction less with
  | nil =>
    rw [List.flatMap_cons]
    obtain ⟨b, bs, bytes⟩ := List.exists_cons_of_ne_nil (utf8EncodeChar_ne_nil _)
    rw [bytes]
    exact .nil
  | rel first =>
    rw [List.flatMap_cons, List.flatMap_cons]
    exact utf8EncodeChar_lt first _ _
  | cons _ ih =>
    rw [List.flatMap_cons, List.flatMap_cons]
    exact List.append_left_lt ih

/-- Texts are in the order of their bytes exactly if they are in that of their code points. -/
theorem encode_lt_iff {a b : String} : encode a < encode b ↔ a < b := by
  rw [String.lt_iff_toList_lt]
  refine ⟨fun less => ?_, flatMap_utf8EncodeChar_lt⟩
  rcases lt_trichotomy a.toList b.toList with before | same | after
  · exact before
  · rw [encode, encode, same] at less
    exact absurd less (List.lt_irrefl _)
  · exact absurd less (List.lt_asymm (flatMap_utf8EncodeChar_lt after))

end CanonicalXml.Utf8
