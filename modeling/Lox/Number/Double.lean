/-!
# Doubles as whole numbers of a smallest unit

Up to its sign every finite double is a whole number of units of `2^-1074`.
Magnitudes are therefore compared, rounded and written in natural numbers,
and the spacing below a power of two needs no case of its own.
-/

set_option autoImplicit false

namespace Lox.Number

/-- The bits of the first magnitude that is no longer finite. -/
def infinityBits : Nat := 2047 * Nat.pow 2 52

/-- The number of units in one. -/
def unitsPerOne : Nat := Nat.pow 2 1074

/-- The units in the double whose bits, without the sign, are `b`. At
`infinityBits` this is the power of two that the largest double rounds to. -/
def units (b : Nat) : Nat :=
  if b < Nat.pow 2 52 then b
  else (Nat.pow 2 52 + b % Nat.pow 2 52) * Nat.pow 2 (b / Nat.pow 2 52 - 1)

def negative (x : Float) : Bool := Nat.pow 2 63 ≤ x.toBits.toNat

def magnitudeBits (x : Float) : Nat := x.toBits.toNat % Nat.pow 2 63

def finite (x : Float) : Bool := magnitudeBits x < infinityBits

def undefined (x : Float) : Bool := infinityBits < magnitudeBits x

def ofBits (neg : Bool) (b : Nat) : Float :=
  Float.ofBits (UInt64.ofNat (if neg then b + Nat.pow 2 63 else b))

/-- The magnitude of a finite double without a fraction. -/
def whole? (x : Float) : Option Nat :=
  let u := units (magnitudeBits x)
  if finite x && u % unitsPerOne == 0 then some (u / unitsPerOne) else none

/-- The double cut towards zero to a 64-bit word. A value outside the range of
the word goes to its nearer end, and an undefined one to zero. -/
def toWord (x : Float) : Int64 :=
  if undefined x then 0
  else
    let n := if finite x then units (magnitudeBits x) / unitsPerOne else Nat.pow 2 63
    if negative x then Int64.ofInt (-(min n (Nat.pow 2 63) : Nat))
    else Int64.ofInt (min n (Nat.pow 2 63 - 1) : Nat)

end Lox.Number
