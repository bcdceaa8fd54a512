import Lox.Number.Shortest

/-!
# Number notations

Four decimal notations without an exponent and one, for JSON, with it. They
differ in how whole numbers are written: with their exact digits, with the
shortest digits padded by zeros, and with or without a fraction `.0`.
-/

set_option autoImplicit false

namespace Lox.Number

def signText (x : Float) : String := if negative x then "-" else ""

def zeros (n : Nat) : String := String.ofList (List.replicate n '0')

/-- Positional notation: no exponent, and no fraction for a whole number. -/
def Decimal.positional (d : Decimal) : String :=
  match d.exponent with
  | .ofNat k => Nat.repr d.coefficient ++ zeros k
  | .negSucc k =>
    let parts := Nat.pow 10 (k + 1)
    let places := Nat.repr (d.coefficient % parts)
    Nat.repr (d.coefficient / parts) ++ "." ++ zeros (k + 1 - places.length) ++ places

/-- The shortest digits in positional notation; equal distances go up. -/
def shortText (x : Float) : String :=
  if undefined x then "NaN"
  else if finite x then signText x ++ (shortest .up (magnitudeBits x)).positional
  else signText x ++ "inf"

/-- A value as `print` shows it: a whole number with all its exact digits. -/
def shownText (x : Float) : String :=
  match whole? x with
  | some n => signText x ++ Nat.repr n
  | none => shortText x

/-- A whole number with its exact digits and `.0`, any other shortest. -/
def pointText (x : Float) : String :=
  match whole? x with
  | some n => signText x ++ Nat.repr n ++ ".0"
  | none => shortText x

/-- The literal of a number token. A whole number below `2^63` passes through
a 64-bit word, which knows no negative zero. -/
def literalText (x : Float) : String :=
  match whole? x with
  | some n => if n < Nat.pow 2 63 then (toWord x).toInt.repr ++ ".0" else pointText x
  | none => shortText x

/-- Scientific notation with the sign of the exponent always written. -/
def Decimal.scientific (d : Decimal) : String :=
  let digits := (Nat.repr d.coefficient).toList
  let exponent := d.exponent + (digits.length - 1 : Nat)
  let fraction := if digits.length ≤ 1 then "" else "." ++ String.ofList (digits.drop 1)
  String.ofList (digits.take 1) ++ fraction ++ "e" ++ (if exponent < 0 then "-" else "+") ++
    Nat.repr exponent.natAbs

/-- JSON notation: positional from `1e-5` up to but excluding `1e16`, always
with a fraction; scientific outside. What is not finite has none. -/
def jsonText (x : Float) : String :=
  if !finite x then "null"
  else
    let d := shortest .even (magnitudeBits x)
    let exponent := d.exponent + ((Nat.repr d.coefficient).length - 1 : Nat)
    if d.coefficient = 0 then signText x ++ "0.0"
    else if exponent < -5 ∨ 16 ≤ exponent then signText x ++ d.scientific
    else signText x ++ d.positional ++ (if d.exponent < 0 then "" else ".0")

end Lox.Number
