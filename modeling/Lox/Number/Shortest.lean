import Lox.Number.Double

/-!
# Shortest decimals

The shortest decimal of a double is taken from the coarsest decimal grid that
has a point reading back as the double. Of two such points on that grid the
nearer one is chosen, and `Tie` settles equal distances.
-/

set_option autoImplicit false

namespace Lox.Number

/-- The value `coefficient · 10^exponent`. -/
structure Decimal where
  coefficient : Nat
  exponent : Int
deriving DecidableEq, Repr

inductive Tie where
  | up
  | even
deriving DecidableEq, Repr

/-- Grid `g` has spacing `10^(g - finestGrid)`: grid `0` has 17 digits for the
smallest double. -/
def finestGrid : Nat := 340

/-- The spacing of grid `g`, in units divided by `10^finestGrid`. -/
def spacing (g : Nat) : Nat := Nat.pow 10 g * unitsPerOne

/-- Whether `c` steps of grid `g` lie among the reals that round to the double
with bits `b`: between the middles to both neighbours, the middles included
when `b` is even. -/
def readsBack (b g c : Nat) : Bool :=
  let point := 2 * (c * spacing g)
  let low := (units (b - 1) + units b) * Nat.pow 10 finestGrid
  let high := (units b + units (b + 1)) * Nat.pow 10 finestGrid
  if b % 2 == 0 then low ≤ point && point ≤ high else low < point && point < high

/-- The point of grid `g` for the double with bits `b`, if one reads back. Only
the two neighbours of the value need a test. -/
def onGrid (tie : Tie) (b g : Nat) : Option Nat :=
  let value := units b * Nat.pow 10 finestGrid
  let c := value / spacing g
  match readsBack b g c, readsBack b g (c + 1) with
  | true, false => some c
  | false, true => some (c + 1)
  | false, false => none
  | true, true =>
    match compare (2 * value) ((2 * c + 1) * spacing g) with
    | .lt => some c
    | .gt => some (c + 1)
    | .eq => some (if tie == .even && c % 2 == 0 then c else c + 1)

/-- The first grid with a point that reads back, from grid `g` down. -/
def coarsest (tie : Tie) (b : Nat) : Nat → Decimal
  | 0 => ⟨(onGrid tie b 0).getD 0, -(finestGrid : Int)⟩
  | g + 1 =>
    match onGrid tie b (g + 1) with
    | some c => ⟨c, (g + 1 : Int) - finestGrid⟩
    | none => coarsest tie b g

/-- A grid coarser than any with a point that reads back: `log10 2 < 0.30103`. -/
def coarseGrid (b : Nat) : Nat :=
  (units b * Nat.pow 10 finestGrid / unitsPerOne).log2 * 30103 / 100000 + 1

/-- The shortest decimal of the finite magnitude with bits `b`. -/
def shortest (tie : Tie) (b : Nat) : Decimal :=
  if b = 0 then ⟨0, 0⟩ else coarsest tie b (coarseGrid b)

end Lox.Number
