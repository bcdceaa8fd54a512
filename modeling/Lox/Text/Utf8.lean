/-!
# Reading UTF-8

Bytes are read one after another. A fault is at the first byte of the sequence
that cannot be completed; it is a sequence cut short by the end of the bytes,
or one whose first bytes are in order and whose next byte is not.
-/

set_option autoImplicit false

namespace Lox.Text

/-- The index of the first byte of a faulty sequence, and the number of its
bytes that belong together unless the end of the bytes cut it short. -/
structure Utf8Fault where
  index : Nat
  length : Option Nat
deriving DecidableEq, Repr

def Utf8Fault.message (f : Utf8Fault) : String :=
  match f.length with
  | some n =>
    "invalid utf-8 sequence of " ++ Nat.repr n ++ " bytes from index " ++ Nat.repr f.index
  | none => "incomplete utf-8 byte sequence from index " ++ Nat.repr f.index

/-- A sequence of which some bytes are still to come. -/
structure Utf8Sequence where
  start : Nat
  seen : Nat
  /-- The range of each byte to come. -/
  ranges : List (Nat × Nat)
  code : Nat

/-- The bits of a first byte that belong to the code point, and the range of
each byte to follow. Overlong forms, surrogates and code points that are too
large are excluded by the range of the second byte. -/
def leadByte (b : Nat) : Option (Nat × List (Nat × Nat)) :=
  let any := (0x80, 0xbf)
  if b < 0x80 then some (b, [])
  else if 0xc2 ≤ b ∧ b ≤ 0xdf then some (b - 0xc0, [any])
  else if b = 0xe0 then some (0, [(0xa0, 0xbf), any])
  else if b = 0xed then some (0xd, [(0x80, 0x9f), any])
  else if 0xe1 ≤ b ∧ b ≤ 0xef then some (b - 0xe0, [any, any])
  else if b = 0xf0 then some (0, [(0x90, 0xbf), any, any])
  else if b = 0xf4 then some (4, [(0x80, 0x8f), any, any])
  else if 0xf1 ≤ b ∧ b ≤ 0xf3 then some (b - 0xf0, [any, any, any])
  else none

mutual

/-- The characters of the bytes from `index` on, at the start of a sequence. -/
def decodeFrom (index : Nat) : List UInt8 → Except Utf8Fault (List Char)
  | [] => .ok []
  | b :: bs =>
    match leadByte b.toNat with
    | none => .error ⟨index, some 1⟩
    | some (code, []) => (decodeFrom (index + 1) bs).map (Char.ofNat code :: ·)
    | some (code, ranges) => decodeRest (index + 1) ⟨index, 1, ranges, code⟩ bs

/-- The characters of the bytes from `index` on, inside a sequence. -/
def decodeRest (index : Nat) (s : Utf8Sequence) : List UInt8 → Except Utf8Fault (List Char)
  | [] => .error ⟨s.start, none⟩
  | b :: bs =>
    match s.ranges with
    | [] => .error ⟨s.start, some s.seen⟩
    | (low, high) :: ranges =>
      if low ≤ b.toNat ∧ b.toNat ≤ high then
        let code := s.code * 64 + (b.toNat - 0x80)
        if ranges.isEmpty then (decodeFrom (index + 1) bs).map (Char.ofNat code :: ·)
        else decodeRest (index + 1) ⟨s.start, s.seen + 1, ranges, code⟩ bs
      else .error ⟨s.start, some s.seen⟩

end

def ofUtf8 (bs : List UInt8) : Except Utf8Fault String :=
  (decodeFrom 0 bs).map String.ofList

end Lox.Text
