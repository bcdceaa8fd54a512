import Mathlib
import Lox.Proofs.Number.Overflow
import Lox.Proofs.Source.Numeral

/-!
# Whole numbers as literals

A token writes a whole number by way of a 64-bit word as long as it is below a limit, the double
nearest to the largest word, and from there on with its exact digits, as the tree always does. The
largest word has no double of its own, so the limit is the power of two behind it. Main statement:
of a whole number that is scanned the token and the tree write the same, its digits and `.0`, and
no number that passes through a word is cut off.
-/

set_option autoImplicit false

namespace Lox

namespace Number

/-- The double nearest to the largest 64-bit word. -/
def wordLimit : Float := ofBits false (nearestBits (2 ^ 63 - 1) 1)

theorem units_wordLimit : units (magnitudeBits wordLimit) = 2 ^ 63 * unitsPerOne := by
  rw [wordLimit, magnitudeBits_ofBits _ (nearestBits_le _ _)]
  decide +kernel

variable {x : Float} {n : Nat}

/-- The exact value of a finite double is the natural number `n`. -/
structure Whole (x : Float) (n : Nat) : Prop where
  finite : finite x = true
  units_eq : units (magnitudeBits x) = n * unitsPerOne

namespace Whole

theorem whole?_eq (h : Whole x n) : whole? x = some n := by
  have hmod : units (magnitudeBits x) % unitsPerOne = 0 := by
    rw [h.units_eq, Nat.mul_mod_left]
  have hdiv : units (magnitudeBits x) / unitsPerOne = n := by
    rw [h.units_eq, Nat.mul_div_cancel _ unitsPerOne_pos]
  simp [whole?, h.finite, hmod, hdiv]

/-- To be below the limit is to be below the power of two. -/
theorem lt_wordLimit_iff (h : Whole x n) :
    magnitudeBits x < magnitudeBits wordLimit ↔ n < 2 ^ 63 := by
  rw [← units_strictMono.lt_iff_lt, h.units_eq, units_wordLimit,
    Nat.mul_lt_mul_right unitsPerOne_pos]

theorem not_undefined (h : Whole x n) : undefined x = false := by
  have hlt : magnitudeBits x < infinityBits := of_decide_eq_true h.finite
  exact decide_eq_false (Nat.not_lt.2 (Nat.le_of_lt hlt))

/-- Below the power of two nothing is cut off, on either side of zero. -/
theorem toInt_toWord (h : Whole x n) (hn : n < 2 ^ 63) :
    (toWord x).toInt = if negative x then -(n : Int) else n := by
  have hdiv : units (magnitudeBits x) / unitsPerOne = n := by
    rw [h.units_eq, Nat.mul_div_cancel _ unitsPerOne_pos]
  have hlow : min n (Nat.pow 2 63) = n := Nat.min_eq_left (Nat.le_of_lt hn)
  have hhigh : min n (Nat.pow 2 63 - 1) = n := Nat.min_eq_left (Nat.le_sub_one_of_lt hn)
  simp only [toWord, h.not_undefined, h.finite, hdiv, hlow, hhigh, Bool.false_eq_true, if_false,
    if_true]
  split
  · exact Int64.toInt_ofInt_of_le (by omega) (by omega)
  · exact Int64.toInt_ofInt_of_le (by omega) (by omega)

theorem pointText_eq (h : Whole x n) (hpos : negative x = false) :
    pointText x = Nat.repr n ++ ".0" := by
  simp [pointText, h.whole?_eq, signText, hpos]

/-- On either side of the limit the literal has the digits of the number. -/
theorem literalText_eq (h : Whole x n) (hpos : negative x = false) :
    literalText x = Nat.repr n ++ ".0" := by
  simp only [literalText, h.whole?_eq]
  split
  · rename_i hlt
    rw [h.toInt_toWord hlt, hpos]
    rfl
  · exact h.pointText_eq hpos

end Whole

theorem not_negative_ofNumeral (cs : List Char) : negative (ofNumeral cs) = false := by
  rw [ofNumeral_eq]
  exact not_negative_ofBits _ (nearestBits_le _ _)

end Number

open Piece Number

/-- The tokens of a text, but for its end, are lexemes. -/
theorem lexeme_of_mem_scan {source : String} {t : Token} (ht : t ∈ Scanned.tokens (scan source))
    (hk : t.kind ≠ .finish) : Lexeme t.kind t.lexeme.toList := by
  obtain ⟨last, htokens⟩ := tokens_stream 1 (cut source.toList)
  rw [scan, htokens] at ht
  rcases List.mem_append.1 ht with ht | ht
  · exact lexeme_of_mem_cut (mem_lexemes ht)
  · rw [List.mem_singleton.1 ht] at hk
    exact absurd rfl hk

/-- A whole number that is scanned is written as its digits and `.0`, in the text of its token as
well as in the tree. The token goes by way of a word for the numbers below the limit only, and there
the word is the number. -/
theorem literal_of_scanned {source : String} {t : Token} {x : Float} {n : Nat}
    (ht : t ∈ Scanned.tokens (scan source)) (hk : t.kind = .number x) (hx : Whole x n) :
    t.text = "NUMBER " ++ t.lexeme ++ " " ++ (Expr.literal (.number x)).listed ∧
    (Expr.literal (.number x)).listed = Nat.repr n ++ ".0" ∧
    (magnitudeBits x < magnitudeBits wordLimit →
      n < 2 ^ 63 ∧ (toWord x).toInt = n ∧ literalText x = (toWord x).toInt.repr ++ ".0") ∧
    (magnitudeBits wordLimit ≤ magnitudeBits x → 2 ^ 63 ≤ n ∧ literalText x = pointText x) := by
  have hlexeme := lexeme_of_mem_scan ht (by rw [hk]; nofun)
  rw [hk] at hlexeme
  have hpos : negative x = false := hlexeme.number_value ▸ not_negative_ofNumeral _
  have hlisted : (Expr.literal (.number x)).listed = Nat.repr n ++ ".0" := by
    simp [Expr.listed, Literal.listed, hx.pointText_eq hpos]
  have hliteral := hx.literalText_eq hpos
  refine ⟨?_, hlisted, fun hlt => ?_, fun hle => ?_⟩
  · rw [hlisted, ← hliteral, Token.text, hk]
    rfl
  · have hn := hx.lt_wordLimit_iff.1 hlt
    have hword : (toWord x).toInt = n := by simp [hx.toInt_toWord hn, hpos]
    refine ⟨hn, hword, ?_⟩
    rw [hliteral, hword]
    rfl
  · refine ⟨Nat.not_lt.1 (mt hx.lt_wordLimit_iff.2 (Nat.not_lt.2 hle)), ?_⟩
    rw [hliteral, hx.pointText_eq hpos]

/-- The largest 64-bit word. -/
def largestWord : String := "9223372036854775807"

/-- It is read as the power of two behind it, which is no longer below the limit. -/
theorem literal_of_scanned_largestWord : Whole (ofNumeral largestWord.toList) (2 ^ 63) ∧
    (Expr.literal (.number (ofNumeral largestWord.toList))).listed = "9223372036854775808.0" ∧
      literalText (ofNumeral largestWord.toList) = pointText (ofNumeral largestWord.toList) := by
  have hbits : magnitudeBits (ofNumeral largestWord.toList) = magnitudeBits wordLimit := by
    rw [ofNumeral_eq, magnitudeBits_ofBits _ (nearestBits_le _ _), wordLimit,
      magnitudeBits_ofBits _ (nearestBits_le _ _)]
    decide +kernel
  have hwhole : Whole (ofNumeral largestWord.toList) (2 ^ 63) := by
    refine ⟨(finite_ofNumeral_iff _).2 (by decide +kernel), ?_⟩
    rw [hbits, units_wordLimit]
  have hwritten : Written (.number (ofNumeral largestWord.toList)) largestWord.toList :=
    .digits (by simp [largestWord]) (by simp [largestWord, isDigit])
  have hmem : (⟨.number (ofNumeral largestWord.toList), largestWord, 1⟩ : Token) ∈
      Scanned.tokens (scan largestWord) := by
    rw [scan_number hwritten.lexeme]
    exact List.mem_cons_self
  obtain ⟨-, hlisted, -, hexact⟩ := literal_of_scanned hmem rfl hwhole
  exact ⟨hwhole, hlisted, (hexact (Nat.le_of_eq hbits.symm)).2⟩

end Lox
