import Lox.Proofs.Number.RoundTrip

/-!
# Numerals beyond the largest double

A numeral may be as long as one likes, and the doubles come to an end. Main statement: a numeral
reads as infinity from the middle on between the largest double and the power of two behind it,
which the tie rule gives to the power of two.
-/

set_option autoImplicit false

namespace Lox.Number

/-- The exact value of a numeral, as a fraction. -/
def exactly (cs : List Char) : Nat × Nat :=
  let whole := cs.takeWhile (· != '.')
  let places := (cs.dropWhile (· != '.')).drop 1
  (digitsValue (whole ++ places), 10 ^ places.length)

theorem ofNumeral_eq (cs : List Char) :
    ofNumeral cs = ofBits false (nearestBits (exactly cs).1 (exactly cs).2) := rfl

theorem exactly_pos (cs : List Char) : 0 < (exactly cs).2 := Nat.pow_pos (by decide)

/-- What rounds to less than an even double is below the middle in front of it, which the even
one owns. -/
theorem Rounds.lt_even_iff {n d b t : Nat} (hd : 0 < d) (ht : t % 2 = 0) (hpos : 0 < t)
    (h : Rounds n d b) : b < t ↔ 2 * n < (units (t - 1) + units t) * d := by
  have hmono {a a' : Nat} (ha : a ≤ a') : units a ≤ units a' := units_strictMono.monotone ha
  constructor
  · intro hb
    rcases Nat.lt_or_ge (b + 1) t with hlt | hge
    · have hbelow : units b < units (t - 1) := units_strictMono (by omega)
      have hmiddle : (units b + units (b + 1)) * d < (units (t - 1) + units t) * d :=
        Nat.mul_lt_mul_of_pos_right (Nat.add_lt_add_of_lt_of_le hbelow (hmono (by omega))) hd
      unfold Rounds at h
      split at h <;> omega
    · obtain rfl : b = t - 1 := by omega
      have hodd : (t - 1) % 2 ≠ 0 := by omega
      rw [Rounds, if_neg hodd, Nat.sub_add_cancel hpos] at h
      exact h.2
  · intro hlt
    by_contra hb
    have hmiddle : (units (t - 1) + units t) * d ≤ (units (b - 1) + units b) * d :=
      Nat.mul_le_mul_right d (Nat.add_le_add (hmono (by omega)) (hmono (by omega)))
    unfold Rounds at h
    split at h <;> omega

/-- The least number that is read as infinity: the middle between the largest double and the power
of two behind it. -/
def overflow : Nat := (2 ^ 54 - 1) * 2 ^ 970

theorem unitsPerOne_pos : 0 < unitsPerOne := by decide +kernel

theorem units_overflow :
    units (infinityBits - 1) + units infinityBits = 2 * (overflow * unitsPerOne) := by
  decide +kernel

theorem nearestBits_lt_iff (n : Nat) {d : Nat} (hd : 0 < d) :
    nearestBits n d < infinityBits ↔ n < overflow * d := by
  have hpos := unitsPerOne_pos
  unfold nearestBits
  generalize hu : n * unitsPerOne = u
  have hround := rounds_nearest u hd
  dsimp only
  rw [min_lt_iff, or_iff_left (Nat.lt_irrefl _), hround.lt_even_iff hd (by decide) (by decide),
    units_overflow, ← hu]
  generalize unitsPerOne = k at hpos
  have hassoc : 2 * (overflow * k) * d = 2 * (overflow * d * k) := by ring
  rw [hassoc, Nat.mul_lt_mul_left (by decide), Nat.mul_lt_mul_right hpos]

/-- A numeral is read as a finite number if and only if it is below that bound. -/
theorem finite_ofNumeral_iff (cs : List Char) :
    finite (ofNumeral cs) = true ↔ (exactly cs).1 < overflow * (exactly cs).2 := by
  rw [ofNumeral_eq, finite, magnitudeBits_ofBits _ (nearestBits_le _ _), decide_eq_true_eq]
  exact nearestBits_lt_iff _ (exactly_pos cs)

/-- Any other numeral is read as infinity, which no numeral is written as. -/
theorem shortText_overflow {cs : List Char} (h : overflow * (exactly cs).2 ≤ (exactly cs).1) :
    shortText (ofNumeral cs) = "inf" := by
  have hb := nearestBits_le (exactly cs).1 (exactly cs).2
  have hbits : nearestBits (exactly cs).1 (exactly cs).2 = infinityBits := by
    have hnot := mt (nearestBits_lt_iff (exactly cs).1 (exactly_pos cs)).1 (Nat.not_lt.2 h)
    exact Nat.le_antisymm hb (Nat.not_lt.1 hnot)
  have hm := magnitudeBits_ofBits _ (Nat.le_refl infinityBits)
  have hn := not_negative_ofBits _ (Nat.le_refl infinityBits)
  simp [shortText, ofNumeral_eq, hbits, undefined, finite, signText, hm, hn]

end Lox.Number
