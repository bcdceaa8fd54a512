import Mathlib
import Lox.Number.Double

/-!
# Bits of a double

A double made from bits has these bits, as long as they stand for no more than
infinity: what lies above stands for undefined doubles, which all have the bits
of one of them.
-/

set_option autoImplicit false

open Float.Model (Format UnpackedFloat)
open Float.Model.UnpackedFloat (Sign packComponents packedInfinity packedZero unpackSign)

namespace Lox.Number

/-- The bits of a positive double with the exponent and the fraction given. -/
abbrev positive (e : BitVec 11) (m : BitVec 52) : BitVec 64 :=
  packComponents Format.binary64 .positive e m

theorem positive_toNat (e : BitVec 11) (m : BitVec 52) :
    (positive e m).toNat = e.toNat * 2 ^ 52 + m.toNat := by
  simp only [positive, packComponents, Sign.toBitVec, BitVec.toNat_append]
  rw [← Nat.shiftLeft_add_eq_or_of_lt m.isLt, ← Nat.shiftLeft_add_eq_or_of_lt e.isLt]
  simp [Nat.shiftLeft_eq]

theorem unpackSign_positive (e : BitVec 11) (m : BitVec 52) :
    Sign.ofBitVec (@unpackSign Format.binary64 (positive e m)) = .positive := by
  have hs : @unpackSign Format.binary64 (positive e m) = 0#1 := by
    have hlt : (positive e m).toNat < 2 ^ 63 := by
      rw [positive_toNat]
      omega
    apply BitVec.eq_of_toNat_eq
    simp [unpackSign, Nat.shiftRight_eq_div_pow]
    omega
  simp [Sign.ofBitVec, hs]

theorem pack_subnormal (m : BitVec 52) (h : 0 < m.toNat) :
    UnpackedFloat.pack Format.binary64 (.finite .positive m.toNat (-1074) h) = positive 0 m := by
  have hlog : m.toNat.log2 < 52 := (Nat.log2_lt (by omega)).mpr m.isLt
  simp [UnpackedFloat.pack, Format.exponentBias, Format.mantissaBits]
  omega

theorem pack_normal (e : BitVec 11) (m : BitVec 52) (he : e.toNat < 2047)
    (h : 0 < (1#1 ++ m).toNat) :
    UnpackedFloat.pack Format.binary64 (.finite .positive (1#1 ++ m).toNat (e.toNat - 1075) h) =
      positive e m := by
  have hm : (1#1 ++ m).toNat = 2 ^ 52 + m.toNat := by
    rw [BitVec.toNat_append, ← Nat.shiftLeft_add_eq_or_of_lt m.isLt]
    simp [Nat.shiftLeft_eq]
  have hlog : (1#1 ++ m).toNat.log2 = 52 := by
    rw [hm, Nat.log2_eq_iff (by omega)]
    omega
  have hb : ((e.toNat - 1075 : Int) + 1023 + 52).toNat = e.toNat := by omega
  have hw : BitVec.setWidth 52 (1#1 ++ m) = m := by
    apply BitVec.eq_of_toNat_eq
    rw [BitVec.toNat_setWidth, hm]
    omega
  simp [UnpackedFloat.pack, Format.exponentBias, Format.mantissaBits, hlog, hb, hw]
  omega

/-- Packing undoes unpacking, up to the choice of one pattern for every
undefined double. -/
theorem pack_unpack (e : BitVec 11) (m : BitVec 52) (h : e.toNat < 2047 ∨ m = 0) :
    UnpackedFloat.pack Format.binary64 (UnpackedFloat.unpack Format.binary64 (positive e m)) =
      positive e m := by
  simp only [UnpackedFloat.unpack, unpackSign_positive, UnpackedFloat.unpackExponent_packComponents,
    UnpackedFloat.unpackMantissa_packComponents]
  by_cases hinf : e = -1#11
  · have hm : m = 0 := h.resolve_left (by simp [hinf])
    simp [hm, hinf, UnpackedFloat.pack, packedInfinity]
  · have he : e.toNat < 2047 := by
      have hne : e.toNat ≠ (-1#11).toNat := fun hb => hinf (BitVec.eq_of_toNat_eq hb)
      have hval : (-1#11).toNat = 2047 := rfl
      omega
    rw [if_neg hinf]
    by_cases hsub : e = 0#11
    · by_cases hm : m = 0#52
      · simp [hm, hsub, UnpackedFloat.pack, packedZero]
      · rw [if_pos hsub, dif_neg hm, hsub]
        exact pack_subnormal m _
    · rw [if_neg hsub]
      exact pack_normal e m he _

/-- Below infinity, and there, the bits of a magnitude are those of the double. -/
theorem toBits_ofBits (b : Nat) (h : b ≤ infinityBits) : (ofBits false b).toBits.toNat = b := by
  have hinf : infinityBits = 2047 * 2 ^ 52 := rfl
  have hb : (UInt64.ofNat b).toBitVec = positive (BitVec.ofNat 11 (b / 2 ^ 52)) (BitVec.ofNat 52 b) := by
    apply BitVec.eq_of_toNat_eq
    rw [positive_toNat]
    simp
    omega
  have hp := pack_unpack (BitVec.ofNat 11 (b / 2 ^ 52)) (BitVec.ofNat 52 b) (by
    by_cases hlt : b < infinityBits
    · left
      simp
      omega
    · right
      have : b = 2047 * 2 ^ 52 := by omega
      subst this
      rfl)
  show (UnpackedFloat.pack Format.binary64
    (UnpackedFloat.unpack Format.binary64 (UInt64.ofNat b).toBitVec)).toNat = b
  rw [hb, hp, ← hb]
  simp
  omega

theorem magnitudeBits_ofBits (b : Nat) (h : b ≤ infinityBits) :
    magnitudeBits (ofBits false b) = b := by
  have hinf : infinityBits = 2047 * 2 ^ 52 := rfl
  rw [magnitudeBits, toBits_ofBits b h]
  exact Nat.mod_eq_of_lt (by show b < 2 ^ 63; omega)

theorem not_negative_ofBits (b : Nat) (h : b ≤ infinityBits) :
    negative (ofBits false b) = false := by
  have hinf : infinityBits = 2047 * 2 ^ 52 := rfl
  rw [negative, toBits_ofBits b h]
  exact decide_eq_false (by show ¬2 ^ 63 ≤ b; omega)

end Lox.Number
