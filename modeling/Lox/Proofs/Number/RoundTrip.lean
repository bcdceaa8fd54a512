import Mathlib
import Lox.Number.Text
import Lox.Proofs.Source.Munch
import Lox.Proofs.Number.Bits
import Lox.Proofs.Number.Rounding

/-!
# Decimals that read back

The shortest decimal of a finite double rounds to the double, on whichever grid
it is found, and its positional notation is a numeral of that decimal. So a
double written and read is the same double.
-/

set_option autoImplicit false

namespace Lox.Number

theorem readsBack_iff (b g c : Nat) :
    readsBack b g c = true ↔ Rounds (c * spacing g) (Nat.pow 10 finestGrid) b := by
  unfold readsBack Rounds
  by_cases h : b % 2 = 0 <;> simp [h]

theorem readsBack_of_onGrid {tie : Tie} {b g c : Nat} (h : onGrid tie b g = some c) :
    readsBack b g c = true := by
  delta onGrid at h
  extract_lets v k at h
  clear_value k v
  revert h
  generalize readsBack b g = test
  generalize compare (2 * v) _ = o
  intro h
  cases hk : test k <;> cases hk' : test (k + 1) <;> rw [hk, hk'] at h
  case false.false => cases h
  case false.true => exact Option.some.inj h ▸ hk'
  case true.false => exact Option.some.inj h ▸ hk
  case true.true =>
    have hc : c = k ∨ c = k + 1 := by
      cases o with
      | lt => exact .inl (Option.some.inj h).symm
      | gt => exact .inr (Option.some.inj h).symm
      | eq =>
        have hc := Option.some.inj h
        split at hc
        · exact .inl hc.symm
        · exact .inr hc.symm
    rcases hc with rfl | rfl <;> assumption

/-- The point below the value is found on every grid where it reads back. -/
theorem onGrid_isSome (tie : Tie) {b g : Nat}
    (h : readsBack b g (units b * Nat.pow 10 finestGrid / spacing g) = true) :
    (onGrid tie b g).isSome = true := by
  delta onGrid
  extract_lets v k
  change readsBack b g k = true at h
  clear_value k v
  revert h
  generalize readsBack b g = test
  generalize compare (2 * v) _ = o
  intro h
  rw [h]
  cases test (k + 1) <;> cases o <;> rfl

theorem spacing_pos (g : Nat) : 0 < spacing g :=
  Nat.mul_pos (Nat.pow_pos (by decide)) (by decide +kernel)

/-- The finest grid is fine enough for every double but zero. -/
theorem onGrid_finest (tie : Tie) {b : Nat} (hb : b ≠ 0) : (onGrid tie b 0).isSome = true := by
  have hfine : 2 * spacing 0 ≤ Nat.pow 10 finestGrid := by decide +kernel
  apply onGrid_isSome
  rw [readsBack_iff]
  exact rounds_floor hb (spacing_pos 0) hfine

theorem coarsest_readsBack (tie : Tie) {b : Nat} (hb : b ≠ 0) (g : Nat) :
    ∃ g' c : Nat, coarsest tie b g = ⟨c, (g' : Int) - finestGrid⟩ ∧ readsBack b g' c = true := by
  induction g with
  | zero =>
    obtain ⟨c, hc⟩ := Option.isSome_iff_exists.1 (onGrid_finest tie hb)
    refine ⟨0, c, ?_, readsBack_of_onGrid hc⟩
    rw [coarsest, hc]
    simp
  | succ g ih =>
    rw [coarsest]
    cases hc : onGrid tie b (g + 1) with
    | some c => exact ⟨g + 1, c, rfl, readsBack_of_onGrid hc⟩
    | none => exact ih

/-- Whether a decimal, an exponent or not, rounds to the double with bits `b`. -/
def Decimal.Rounds (d : Decimal) (b : Nat) : Prop :=
  match d.exponent with
  | .ofNat k => Number.Rounds (d.coefficient * Nat.pow 10 k * unitsPerOne) 1 b
  | .negSucc k => Number.Rounds (d.coefficient * unitsPerOne) (Nat.pow 10 (k + 1)) b

theorem Decimal.rounds_of_readsBack {b g c : Nat} (h : readsBack b g c = true) :
    Decimal.Rounds ⟨c, (g : Int) - finestGrid⟩ b := by
  rw [readsBack_iff] at h
  unfold spacing at h
  unfold Decimal.Rounds
  generalize finestGrid = f at *
  generalize unitsPerOne = u at *
  have hpos : ∀ k, 0 < 10 ^ k := fun k => Nat.pow_pos (by decide)
  rcases Nat.lt_or_ge g f with hg | hg
  · obtain ⟨k, rfl⟩ : ∃ k, f = g + (k + 1) := ⟨f - g - 1, by omega⟩
    have he : (g : Int) - (g + (k + 1) : Nat) = .negSucc k := by omega
    have hn : c * (Nat.pow 10 g * u) = c * u * 10 ^ g := by
      show c * (10 ^ g * u) = c * u * 10 ^ g
      ring
    have hd : Nat.pow 10 (g + (k + 1)) = 10 ^ (k + 1) * 10 ^ g := by
      show 10 ^ (g + (k + 1)) = 10 ^ (k + 1) * 10 ^ g
      ring
    rw [hn, hd, Rounds.scale _ (hpos g)] at h
    simp only [he]
    exact h
  · obtain ⟨k, rfl⟩ : ∃ k, g = f + k := ⟨g - f, by omega⟩
    have he : ((f + k : Nat) : Int) - f = .ofNat k := by
      simp
    have hn : c * (Nat.pow 10 (f + k) * u) = c * 10 ^ k * u * 10 ^ f := by
      show c * (10 ^ (f + k) * u) = c * 10 ^ k * u * 10 ^ f
      ring
    rw [hn, ← Nat.one_mul (Nat.pow 10 f)] at h
    replace h := (Rounds.scale _ (hpos f)).1 h
    simp only [he]
    exact h

/-- The shortest decimal of a double rounds to it. -/
theorem shortest_rounds (tie : Tie) (b : Nat) : (shortest tie b).Rounds b := by
  unfold shortest
  split
  next hb =>
    subst hb
    simp [Decimal.Rounds, Number.Rounds, units_small]
  next hb =>
    obtain ⟨g, c, he, hr⟩ := coarsest_readsBack tie hb (coarseGrid b)
    rw [he]
    exact Decimal.rounds_of_readsBack hr

/-- A list of digits with this value. -/
structure Digits (cs : List Char) (n : Nat) : Prop where
  digits : ∀ c ∈ cs, Piece.isDigit c = true
  value : digitsValue cs = n

theorem digitsValue_eq (cs : List Char) : digitsValue cs = Nat.ofDigitChars 10 cs 0 := rfl

theorem digitsValue_append (cs ds : List Char) :
    digitsValue (cs ++ ds) = 10 ^ ds.length * digitsValue cs + digitsValue ds := by
  simp only [digitsValue_eq, Nat.ofDigitChars_append]
  exact Nat.ofDigitChars_eq_ofDigitChars_zero

theorem isDigit_eq (c : Char) : Piece.isDigit c = c.isDigit := by
  simp [Piece.isDigit, Char.isDigit, Char.le_def, ge_iff_le]

namespace Digits

theorem append {cs ds : List Char} {n m : Nat} (h : Digits cs n) (h' : Digits ds m) :
    Digits (cs ++ ds) (10 ^ ds.length * n + m) := by
  constructor
  · intro c hc
    exact (List.mem_append.1 hc).elim (h.digits c) (h'.digits c)
  · rw [digitsValue_append, h.value, h'.value]

theorem repr (n : Nat) : Digits (Nat.toDigits 10 n) n := by
  constructor
  · intro c hc
    rw [isDigit_eq]
    exact Nat.isDigit_of_mem_toDigits (by decide) (by decide) hc
  · rw [digitsValue_eq, Nat.ofDigitChars_ten_toDigits]

theorem zeros (k : Nat) : Digits (List.replicate k '0') 0 := by
  constructor
  · intro c hc
    rw [List.eq_of_mem_replicate hc]
    rfl
  · rw [digitsValue_eq, Nat.ofDigitChars_replicate_zero, Nat.mul_zero]

theorem ne_point {cs : List Char} {n : Nat} (h : Digits cs n) : ∀ c ∈ cs, (c != '.') = true := by
  intro c hc
  simpa using Piece.ne_of_isDigit (h.digits c hc) (by decide)

end Digits

theorem ofNumeral_whole {cs : List Char} {n : Nat} (h : Digits cs n) :
    ofNumeral cs = ofBits false (nearestBits n (Nat.pow 10 0)) := by
  have ht : cs.takeWhile (· != '.') = cs := List.takeWhile_eq_self_iff.2 h.ne_point
  have hd : cs.dropWhile (· != '.') = [] := List.dropWhile_eq_nil_iff.2 h.ne_point
  simp only [ofNumeral, ht, hd, List.drop_nil, List.append_nil, h.value, List.length_nil]

theorem ofNumeral_point {cs ds : List Char} {n m : Nat} (h : Digits cs n) (h' : Digits (cs ++ ds) m) :
    ofNumeral (cs ++ '.' :: ds) = ofBits false (nearestBits m (Nat.pow 10 ds.length)) := by
  have hp : Piece.Avoids (· != '.') ('.' :: ds) := by simp [Piece.Avoids]
  obtain ⟨ht, hd⟩ := Piece.takeWhile_append h.ne_point hp
  simp only [ofNumeral, ht, hd, List.drop_succ_cons, List.drop_zero, h'.value]

theorem positional_whole (c k : Nat) :
    (Decimal.positional ⟨c, .ofNat k⟩).toList = Nat.toDigits 10 c ++ List.replicate k '0' := by
  simp [Decimal.positional, zeros]

theorem positional_point (c k : Nat) :
    ∃ places, (Decimal.positional ⟨c, .negSucc k⟩).toList =
        Nat.toDigits 10 (c / 10 ^ (k + 1)) ++ '.' :: places ∧
      places.length = k + 1 ∧ Digits places (c % 10 ^ (k + 1)) := by
  have hlt : c % 10 ^ (k + 1) < 10 ^ (k + 1) := Nat.mod_lt c (Nat.pow_pos (by decide))
  have hlen := (Nat.length_toDigits_le_iff (by decide) (Nat.succ_pos k)).2 hlt
  refine ⟨List.replicate (k + 1 - (Nat.toDigits 10 (c % 10 ^ (k + 1))).length) '0' ++
    Nat.toDigits 10 (c % 10 ^ (k + 1)), ?_, ?_, ?_⟩
  · simp [Decimal.positional, zeros, Nat.repr_eq_ofList_toDigits]
  · simp only [List.length_append, List.length_replicate]
    omega
  · simpa using (Digits.zeros _).append (Digits.repr (c % 10 ^ (k + 1)))

/-- A decimal that rounds to a double, in positional notation, is a numeral
that reads as the double. -/
theorem Decimal.Rounds.lexeme {d : Decimal} {b : Nat} (h : d.Rounds b) (hb : b < infinityBits) :
    Piece.Lexeme (.number (ofBits false b)) d.positional.toList := by
  obtain ⟨c, e⟩ := d
  cases e with
  | ofNat k =>
    have hd : Digits (Nat.toDigits 10 c ++ List.replicate k '0') (c * Nat.pow 10 k) := by
      have := (Digits.repr c).append (Digits.zeros k)
      rwa [List.length_replicate, Nat.add_zero, Nat.mul_comm] at this
    have hx : ofBits false b = ofNumeral (Nat.toDigits 10 c ++ List.replicate k '0') := by
      rw [ofNumeral_whole hd, nearestBits_of_rounds (by decide) hb h]
    rw [positional_whole, hx]
    have hdigits := hd.digits
    obtain ⟨f, cs, he⟩ := List.exists_cons_of_ne_nil
      (List.append_ne_nil_of_left_ne_nil (@Nat.toDigits_ne_nil c 10) (List.replicate k '0'))
    rw [he] at hdigits ⊢
    rw [List.forall_mem_cons] at hdigits
    exact .whole hdigits.1 hdigits.2
  | negSucc k =>
    obtain ⟨places, he, hlen, hplaces⟩ := positional_point c k
    have hwhole := Digits.repr (c / 10 ^ (k + 1))
    have hd : Digits (Nat.toDigits 10 (c / 10 ^ (k + 1)) ++ places) c := by
      have := hwhole.append hplaces
      rwa [hlen, Nat.div_add_mod] at this
    have hx : ofBits false b = ofNumeral (Nat.toDigits 10 (c / 10 ^ (k + 1)) ++ '.' :: places) := by
      have hr : nearestBits c (Nat.pow 10 (k + 1)) = b :=
        nearestBits_of_rounds (Nat.pow_pos (by decide)) hb h
      rw [ofNumeral_point hwhole hd, hlen, hr]
    rw [he, hx]
    have hdigits := hwhole.digits
    have hdigits' := hplaces.digits
    obtain ⟨f, cs, hf⟩ := List.exists_cons_of_ne_nil (@Nat.toDigits_ne_nil (c / 10 ^ (k + 1)) 10)
    obtain ⟨p, ps, rfl⟩ := List.exists_cons_of_length_eq_add_one hlen
    rw [hf] at hdigits ⊢
    rw [List.forall_mem_cons] at hdigits hdigits'
    exact .fraction hdigits.1 hdigits.2 hdigits'.1 hdigits'.2

/-- The short text of a finite double that is not negative is a numeral, and
that numeral reads as the double. -/
theorem shortText_lexeme {b : Nat} (hb : b < infinityBits) :
    Piece.Lexeme (.number (ofBits false b)) (shortText (ofBits false b)).toList := by
  have hm := magnitudeBits_ofBits b (Nat.le_of_lt hb)
  have hn := not_negative_ofBits b (Nat.le_of_lt hb)
  have hu : undefined (ofBits false b) = false := by
    rw [undefined, hm]
    exact decide_eq_false (by omega)
  have hf : finite (ofBits false b) = true := by
    rw [finite, hm]
    exact decide_eq_true hb
  have hs : signText (ofBits false b) = "" := by simp [signText, hn]
  simp only [shortText, hu, hf, hs, hm, Bool.false_eq_true, if_false, if_true, String.empty_append]
  exact (shortest_rounds .up b).lexeme hb

theorem nearestBits_le (n d : Nat) : nearestBits n d ≤ infinityBits := by
  unfold nearestBits
  exact Nat.min_le_right _ _

/-- The short text of a finite number that was read is a numeral of that number. -/
theorem shortText_ofNumeral {cs : List Char} (h : finite (ofNumeral cs) = true) :
    Piece.Lexeme (.number (ofNumeral cs)) (shortText (ofNumeral cs)).toList := by
  unfold ofNumeral at h ⊢
  have hb := nearestBits_le (digitsValue (cs.takeWhile (· != '.') ++ (cs.dropWhile (· != '.')).drop 1))
    (Nat.pow 10 ((cs.dropWhile (· != '.')).drop 1).length)
  rw [finite, magnitudeBits_ofBits _ hb, decide_eq_true_eq] at h
  exact shortText_lexeme h

end Lox.Number
