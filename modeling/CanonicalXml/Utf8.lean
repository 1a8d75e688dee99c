import CanonicalXml.Fault
/-! # UTF-8

* `Utf8.encode` — the bytes of a text.
* `Utf8.decode` — the text of bytes, or where and how they fail to be one.

Only shortest forms of scalar values are characters. A fault is placed at the
first byte of the character that cannot be completed, and its length is that of
the part that could still have begun one.
-/

namespace CanonicalXml.Utf8

def encode (text : String) : List UInt8 :=
  text.toList.flatMap String.utf8EncodeChar

/-- What the first byte of a character says: how many bytes follow, and the bounds of the
first of these. Nothing if it begins none. -/
def lead? (b : UInt8) : Option (Nat × UInt8 × UInt8) :=
  if b < 0x80 then some (0, 0, 0)
  else if 0xC2 ≤ b && b < 0xE0 then some (1, 0x80, 0xBF)
  else if b = 0xE0 then some (2, 0xA0, 0xBF)
  else if b = 0xED then some (2, 0x80, 0x9F)
  else if 0xE1 ≤ b && b < 0xF0 then some (2, 0x80, 0xBF)
  else if b = 0xF0 then some (3, 0x90, 0xBF)
  else if 0xF1 ≤ b && b < 0xF4 then some (3, 0x80, 0xBF)
  else if b = 0xF4 then some (3, 0x80, 0x8F)
  else none

/-- The bits that the first byte of a character contributes when `more` bytes follow. -/
def leadBits (more : Nat) (b : UInt8) : Nat :=
  if more = 0 then b.toNat else b.toNat % (1 <<< (6 - more))

/-- How a character that was begun goes on. -/
inductive Tail where
  | complete (bits : Nat) (rest : List UInt8)
  /-- The byte after the first `valid` ones does not fit. -/
  | broken (valid : Nat)
  /-- The input ends before the character does. -/
  | short

/-- Reads `more` bytes, of which the first lies between the bounds, after `valid` bytes
that contributed the bits so far. -/
def tail (bits valid : Nat) (low high : UInt8) : Nat → List UInt8 → Tail
  | 0, rest => .complete bits rest
  | _ + 1, [] => .short
  | more + 1, b :: rest =>
    if low ≤ b && b ≤ high then
      tail (bits * 64 + b.toNat % 64) (valid + 1) 0x80 0xBF more rest
    else .broken valid

theorem length_of_tail {bits valid : Nat} {low high : UInt8} {more : Nat} {bs : List UInt8}
    {out : Nat} {rest : List UInt8} (h : tail bits valid low high more bs = .complete out rest) :
    rest.length ≤ bs.length := by
  fun_induction tail bits valid low high more bs with
  | case1 => simp_all
  | case2 => simp at h
  | case3 _ _ _ _ _ _ _ _ ih =>
    have := ih h
    simp only [List.length_cons]
    omega
  | case4 => simp at h

/-- The characters of the bytes, which begin at the offset `index` of the input. -/
def decodeFrom (index : Nat) : List UInt8 → Except Utf8Fault (List Char)
  | [] => .ok []
  | b :: bs =>
    match lead? b with
    | none => .error (.invalid 1 index)
    | some (more, low, high) =>
      match _h : tail (leadBits more b) 1 low high more bs with
      | .short => .error (.incomplete index)
      | .broken valid => .error (.invalid valid index)
      | .complete bits rest => (decodeFrom (index + more + 1) rest).map (Char.ofNat bits :: ·)
termination_by bs => bs.length
decreasing_by
  have := length_of_tail _h
  simp only [List.length_cons]
  omega

def decode (bytes : List UInt8) : Except Utf8Fault String :=
  (decodeFrom 0 bytes).map String.ofList

end CanonicalXml.Utf8
