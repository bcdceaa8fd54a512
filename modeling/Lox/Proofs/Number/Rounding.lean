import Mathlib
import Lox.Number.Numeral

/-!
# The double nearest to a fraction

The reals that round to a double lie between the middles to its two neighbours,
and the middles belong to the even one. Reading rounds a fraction to the double
of that kind, and there is only one.
-/

set_option autoImplicit false

namespace Lox.Number

/-- Magnitudes up to `2^53` are their own bits. -/
theorem units_small {q : Nat} (h : q ≤ 2 ^ 53) : units q = q := by
  have h52 : Nat.pow 2 52 = 2 ^ 52 := rfl
  unfold units
  rw [h52]
  split
  · rfl
  · rcases Nat.lt_or_ge q (2 ^ 53) with hq | hq
    · have hd : q / 2 ^ 52 = 1 := by omega
      simp only [hd]
      show (2 ^ 52 + q % 2 ^ 52) * 1 = q
      omega
    · obtain rfl : q = 2 ^ 53 := by omega
      rfl

/-- The exponent field is added to the significand with its leading one. -/
theorem units_scaled (s : Nat) {q : Nat} (h : 2 ^ 52 ≤ q) (h' : q ≤ 2 ^ 53) :
    units (s * 2 ^ 52 + q) = q * 2 ^ s := by
  have h52 : Nat.pow 2 52 = 2 ^ 52 := rfl
  unfold units
  rw [h52, if_neg (by omega)]
  show (2 ^ 52 + (s * 2 ^ 52 + q) % 2 ^ 52) * 2 ^ ((s * 2 ^ 52 + q) / 2 ^ 52 - 1) = q * 2 ^ s
  rcases Nat.lt_or_ge q (2 ^ 53) with hq | hq
  · have hd : (s * 2 ^ 52 + q) / 2 ^ 52 - 1 = s := by omega
    have hm : 2 ^ 52 + (s * 2 ^ 52 + q) % 2 ^ 52 = q := by omega
    rw [hd, hm]
  · have hd : (s * 2 ^ 52 + q) / 2 ^ 52 - 1 = s + 1 := by omega
    have hm : 2 ^ 52 + (s * 2 ^ 52 + q) % 2 ^ 52 = 2 ^ 52 := by omega
    have hq : q = 2 ^ 53 := by omega
    rw [hd, hm, hq, Nat.pow_succ]
    omega

/-- Bits with a scale and a significand: either the least scale, or a
significand with its leading one. -/
structure Splits (b s q : Nat) : Prop where
  bits : b = s * 2 ^ 52 + q
  small : q ≤ 2 ^ 53
  leading : s = 0 ∨ 2 ^ 52 ≤ q

namespace Splits

variable {b s q : Nat}

theorem units_eq (h : Splits b s q) : units b = q * 2 ^ s := by
  rw [h.bits]
  rcases h.leading with rfl | hq
  · simpa using units_small h.small
  · exact units_scaled s hq h.small

theorem exists_lt (b : Nat) : ∃ s q, Splits b s q ∧ q < 2 ^ 53 := by
  by_cases hb : b < 2 ^ 53
  · exact ⟨0, b, ⟨by omega, by omega, .inl rfl⟩, hb⟩
  · refine ⟨b / 2 ^ 52 - 1, 2 ^ 52 + b % 2 ^ 52, ⟨?_, ?_, .inr ?_⟩, ?_⟩ <;> omega

theorem succ (h : Splits b s q) (hq : q < 2 ^ 53) : Splits (b + 1) s (q + 1) := by
  refine ⟨?_, by omega, ?_⟩
  · rw [h.bits]
    omega
  · have := h.leading
    omega

end Splits

theorem units_lt_succ (b : Nat) : units b < units (b + 1) := by
  obtain ⟨s, q, h, hq⟩ := Splits.exists_lt b
  rw [h.units_eq, (h.succ hq).units_eq]
  exact Nat.mul_lt_mul_of_pos_right (Nat.lt_succ_self q) (Nat.two_pow_pos s)

theorem units_strictMono : StrictMono units := strictMono_nat_of_lt_succ units_lt_succ

/-- Whether `n / d` units round to the double with bits `b`: the ends belong to
it when `b` is even. -/
def Rounds (n d b : Nat) : Prop :=
  if b % 2 = 0 then
    (units (b - 1) + units b) * d ≤ 2 * n ∧
      2 * n ≤ (units b + units (b + 1)) * d
  else
    (units (b - 1) + units b) * d < 2 * n ∧
      2 * n < (units b + units (b + 1)) * d

/-- No fraction rounds to two doubles. -/
theorem Rounds.le {n d b b' : Nat} (hd : 0 < d) (h : Rounds n d b) (h' : Rounds n d b') : b' ≤ b := by
  by_contra hlt
  have hu : units b ≤ units (b' - 1) := units_strictMono.monotone (by omega)
  have hu' : units (b + 1) ≤ units b' := units_strictMono.monotone (by omega)
  have hm : (units b + units (b + 1)) * d ≤ (units (b' - 1) + units b') * d :=
    Nat.mul_le_mul_right d (Nat.add_le_add hu hu')
  unfold Rounds at h h'
  by_cases he : b % 2 = 0 ∧ b' % 2 = 0
  · -- Both own their ends, so a gap must lie between them.
    rw [if_pos he.1] at h
    rw [if_pos he.2] at h'
    have hs : units b < units (b' - 1) := units_strictMono (by omega)
    have hlt : (units b + units (b + 1)) * d < (units (b' - 1) + units b') * d :=
      Nat.mul_lt_mul_of_pos_right (Nat.add_lt_add_of_lt_of_le hs hu') hd
    omega
  · split at h <;> split at h' <;> omega

theorem Rounds.unique {n d b b' : Nat} (hd : 0 < d) (h : Rounds n d b) (h' : Rounds n d b') : b = b' :=
  Nat.le_antisymm (h'.le hd h) (h.le hd h')

/-- Only the ratio matters. -/
theorem Rounds.scale {n d b : Nat} (k : Nat) (hk : 0 < k) : Rounds (n * k) (d * k) b ↔ Rounds n d b := by
  have hn : 2 * (n * k) = 2 * n * k := by ring
  have hd : ∀ m, m * (d * k) = m * d * k := fun m => (Nat.mul_assoc m d k).symm
  unfold Rounds
  simp only [hn, hd, Nat.mul_le_mul_right_iff hk, Nat.mul_lt_mul_right hk]

/-- On a grid not too coarse, the point below a value rounds to it. -/
theorem rounds_floor {b s d : Nat} (hb : b ≠ 0) (hs : 0 < s) (hd : 2 * s ≤ d) :
    Rounds (units b * d / s * s) d b := by
  have hlow : units (b - 1) < units b := units_strictMono (by omega)
  have hhigh : units b < units (b + 1) := units_strictMono (by omega)
  have hdiv := Nat.div_add_mod (units b * d) s
  have hmod := Nat.mod_lt (units b * d) hs
  have hl : (units (b - 1) + 1) * d ≤ units b * d := Nat.mul_le_mul_right d hlow
  have hh : (units b + 1) * d ≤ units (b + 1) * d := Nat.mul_le_mul_right d hhigh
  unfold Rounds
  rw [Nat.mul_comm _ s]
  simp only [Nat.add_mul] at *
  split <;> omega

/-- Rounding to the nearest natural number errs by at most one half, and by one
half only to an even number. -/
theorem roundHalfEven_bounds (n : Nat) {d : Nat} (hd : 0 < d) :
    2 * roundHalfEven n d * d ≤ 2 * n + d ∧ 2 * n ≤ 2 * roundHalfEven n d * d + d ∧
      (roundHalfEven n d % 2 = 1 →
        2 * roundHalfEven n d * d < 2 * n + d ∧ 2 * n < 2 * roundHalfEven n d * d + d) := by
  have hn : d * (n / d) + n % d = n := Nat.div_add_mod n d
  have hr : n % d < d := Nat.mod_lt n hd
  have hq : 2 * (n / d) * d = 2 * (d * (n / d)) := by ring
  have hq' : 2 * (n / d + 1) * d = 2 * (d * (n / d)) + 2 * d := by ring
  simp only [roundHalfEven, Bool.or_eq_true, Bool.and_eq_true, decide_eq_true_eq, beq_iff_eq]
  split
  · rw [hq']
    omega
  · rw [hq]
    omega

theorem le_roundHalfEven (n d : Nat) : n / d ≤ roundHalfEven n d := by
  simp only [roundHalfEven]
  split <;> omega

theorem roundHalfEven_le (n d : Nat) : roundHalfEven n d ≤ n / d + 1 := by
  simp only [roundHalfEven]
  split <;> omega

/-- The step to the next double is at least one in the last place. -/
theorem Splits.units_succ {b s q : Nat} (h : Splits b s q) : units b + 2 ^ s ≤ units (b + 1) := by
  rcases Nat.lt_or_ge q (2 ^ 53) with hq | hq
  · rw [h.units_eq, (h.succ hq).units_eq, Nat.succ_mul]
  · have hb := h.bits
    have hsmall := h.small
    have hs : Splits (b + 1) (s + 1) (2 ^ 52 + 1) := by
      constructor <;> omega
    have hp : 2 ^ (s + 1) = 2 * 2 ^ s := Nat.pow_succ'
    obtain rfl : q = 2 ^ 53 := by omega
    rw [h.units_eq, hs.units_eq, hp]
    omega

/-- The step from the double before is one in the last place, except at the
least significand of its scale. -/
theorem Splits.units_pred {b s q : Nat} (h : Splits b s (q + 1)) (hq : s = 0 ∨ 2 ^ 52 ≤ q) :
    units (b - 1) + 2 ^ s = units b := by
  have hp : Splits (b - 1) s q := by
    have hb := h.bits
    have hsmall := h.small
    exact ⟨by omega, by omega, hq⟩
  rw [h.units_eq, hp.units_eq, Nat.succ_mul]

/-- A significand rounded at its scale rounds the fraction, a carry included. -/
theorem Splits.rounds {n d b s q : Nat} (h : Splits b s q) (hd : 0 < d)
    (hq : q = roundHalfEven n (d * 2 ^ s))
    (hl : s = 0 ∨ 2 ^ 52 * (d * 2 ^ s) ≤ n) : Rounds n d b := by
  obtain ⟨hlow, hhigh, hodd⟩ := roundHalfEven_bounds n (Nat.mul_pos hd (Nat.two_pow_pos s))
  rw [← hq] at hlow hhigh hodd
  have hpar : b % 2 = q % 2 := by
    rw [h.bits]
    omega
  have hmid : units b * d = q * (d * 2 ^ s) := by
    rw [h.units_eq]
    ring
  have hup : 2 * q * (d * 2 ^ s) + d * 2 ^ s ≤ (units b + units (b + 1)) * d := by
    calc 2 * q * (d * 2 ^ s) + d * 2 ^ s = (units b + (units b + 2 ^ s)) * d := by
          rw [h.units_eq]
          ring
      _ ≤ (units b + units (b + 1)) * d :=
          Nat.mul_le_mul_right d (Nat.add_le_add_left h.units_succ _)
  by_cases hq : q = 0 ∨ ¬(s = 0 ∨ 2 ^ 52 < q)
  · -- Below this significand the grid is finer, so its own value is a bound.
    have heven : b % 2 = 0 := by
      have := h.leading
      omega
    have hdown : (units (b - 1) + units b) * d ≤ 2 * n := by
      rcases hq with rfl | hq
      · obtain rfl : b = 0 := by
          have hb := h.bits
          have hl := h.leading
          omega
        simp [units_small]
      · obtain rfl : q = 2 ^ 52 := by
          have hl := h.leading
          omega
        have hp : units (b - 1) * d ≤ units b * d :=
          Nat.mul_le_mul_right d (units_strictMono.monotone (Nat.sub_le b 1))
        rw [Nat.add_mul]
        omega
    rw [Rounds, if_pos heven]
    omega
  · obtain ⟨p, rfl⟩ : ∃ p, q = p + 1 := ⟨q - 1, by omega⟩
    have hdown : (units (b - 1) + units b) * d + d * 2 ^ s = 2 * (p + 1) * (d * 2 ^ s) := by
      calc (units (b - 1) + units b) * d + d * 2 ^ s = (units (b - 1) + 2 ^ s + units b) * d := by ring
        _ = 2 * (p + 1) * (d * 2 ^ s) := by
          rw [h.units_pred (by omega), h.units_eq]
          ring
    unfold Rounds
    split <;> omega

/-- Rounded at the scale of its own leading bit, a fraction is rounded. -/
theorem rounds_nearest (n : Nat) {d : Nat} (hd : 0 < d) :
    Rounds n d (((n / d).log2 - 52) * Nat.pow 2 52 +
      roundHalfEven n (d * Nat.pow 2 ((n / d).log2 - 52))) := by
  generalize hs : (n / d).log2 - 52 = s
  have hq : n / (d * 2 ^ s) = n / d / 2 ^ s := by
    rw [Nat.div_div_eq_div_mul]
  have hle := le_roundHalfEven n (d * 2 ^ s)
  have hle' := roundHalfEven_le n (d * 2 ^ s)
  have hlt : n / d / 2 ^ s < 2 ^ 53 := by
    rw [Nat.div_lt_iff_lt_mul (Nat.two_pow_pos s), ← Nat.pow_add]
    calc n / d < 2 ^ ((n / d).log2 + 1) := Nat.lt_log2_self
      _ ≤ 2 ^ (53 + s) := Nat.pow_le_pow_right (by decide) (by omega)
  have hl : s = 0 ∨ 2 ^ 52 ≤ n / d / 2 ^ s := by
    by_cases h0 : s = 0
    · exact .inl h0
    · right
      rw [Nat.le_div_iff_mul_le (Nat.two_pow_pos s), ← Nat.pow_add]
      have hlog : 52 + s = (n / d).log2 := by omega
      rw [hlog]
      apply Nat.log2_self_le
      intro hz
      rw [hz, Nat.log2_zero] at hlog
      omega
  rw [← hq] at hlt hl
  have hsplit : Splits (s * Nat.pow 2 52 + roundHalfEven n (d * Nat.pow 2 s)) s
      (roundHalfEven n (d * 2 ^ s)) := ⟨rfl, by omega, by omega⟩
  apply hsplit.rounds hd rfl
  exact hl.imp_right (Nat.le_div_iff_mul_le (Nat.mul_pos hd (Nat.two_pow_pos s))).1

/-- A fraction that rounds to a finite double is read as that double. -/
theorem nearestBits_of_rounds {n d b : Nat} (hd : 0 < d) (hb : b < infinityBits)
    (h : Rounds (n * unitsPerOne) d b) : nearestBits n d = b := by
  unfold nearestBits
  generalize n * unitsPerOne = u at h
  have hn := (rounds_nearest u hd).unique hd h
  dsimp only
  rw [hn, Nat.min_eq_left (Nat.le_of_lt hb)]

end Lox.Number
