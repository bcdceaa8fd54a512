import Lox.Number.Double

/-!
# Reading numerals

A numeral is read as an exact fraction and rounded once to the nearest double,
a tie going to the even neighbour. A magnitude halfway beyond the largest
double or more reads as infinity.
-/

set_option autoImplicit false

namespace Lox.Number

/-- The nearest natural number to `n / d`, a tie going to the even one. -/
def roundHalfEven (n d : Nat) : Nat :=
  let q := n / d
  let r := n % d
  if d < 2 * r || (d == 2 * r && q % 2 == 1) then q + 1 else q

/-- The bits of the double nearest to `n / d`. A carry out of the significand
lands on the next exponent without further care. -/
def nearestBits (n d : Nat) : Nat :=
  let scaled := n * unitsPerOne
  let shift := (scaled / d).log2 - 52
  min (shift * Nat.pow 2 52 + roundHalfEven scaled (d * Nat.pow 2 shift)) infinityBits

def digitValue (c : Char) : Nat := c.toNat - '0'.toNat

def digitsValue (cs : List Char) : Nat :=
  cs.foldl (fun n c => 10 * n + digitValue c) 0

/-- The value of `digits` or `digits.digits`. -/
def ofNumeral (cs : List Char) : Float :=
  let whole := cs.takeWhile (· != '.')
  let places := (cs.dropWhile (· != '.')).drop 1
  ofBits false (nearestBits (digitsValue (whole ++ places)) (Nat.pow 10 places.length))

/-- The double nearest to `c · 10^e` with the sign given. Exponents far outside
the range are cut to one that reads the same. -/
def ofDecimal (neg : Bool) (c : Nat) (e : Int) : Float :=
  match e with
  | .ofNat k => ofBits neg (nearestBits (c * Nat.pow 10 (min k 400)) 1)
  | .negSucc k => ofBits neg (nearestBits c (Nat.pow 10 (min (k + 1) (c.log2 + 400))))

def ofSign (s : List Char) : Bool × List Char :=
  match s with
  | '-' :: r => (true, r)
  | '+' :: r => (false, r)
  | r => (false, r)

def isExponentMark (c : Char) : Bool := c == 'e' || c == 'E'

/-- A numeral that may also have a sign and, behind a mark, an exponent. -/
def ofSigned (cs : List Char) : Float :=
  let (neg, cs) := ofSign cs
  let significand := cs.takeWhile (!isExponentMark ·)
  let (negExponent, digits) := ofSign ((cs.dropWhile (!isExponentMark ·)).drop 1)
  let whole := significand.takeWhile (· != '.')
  let places := (significand.dropWhile (· != '.')).drop 1
  let exponent : Int := digitsValue digits
  ofDecimal neg (digitsValue (whole ++ places))
    ((if negExponent then -exponent else exponent) - places.length)

end Lox.Number
