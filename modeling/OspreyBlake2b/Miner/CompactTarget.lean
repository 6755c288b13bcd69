import OspreyBlake2b.Miner.ShareTarget
import OspreyBlake2b.Miner.TargetLaws
import Mathlib.Algebra.Order.Floor.Semifield

/-! The target behind `nBits`, as a fraction of the mantissa: small exponents cut it
off, large ones shift it. -/

namespace OspreyBlake2b.Miner

open OspreyBlake2b.Lib

def compactFloor (mantissa exponent : Nat) : Nat :=
  ⌊(mantissa : ℚ) * 256 ^ ((exponent : ℤ) - 3)⌋₊

theorem compactFloor_small (mantissa : Nat) {exponent : Nat} (h : exponent ≤ 3) :
    compactFloor mantissa exponent = mantissa / 2 ^ (8 * (3 - exponent)) := by
  have hexp : (exponent : ℤ) - 3 = -((3 - exponent : Nat) : ℤ) := by omega
  have hpow : (256 : ℚ) ^ (3 - exponent) = (2 ^ (8 * (3 - exponent)) : Nat) := by
    rw [Nat.pow_mul]
    norm_num
  rw [compactFloor, hexp, zpow_neg, zpow_natCast, hpow, ← div_eq_mul_inv, Nat.floor_div_natCast,
    Nat.floor_natCast]

theorem compactFloor_large (mantissa : Nat) {exponent : Nat} (h : 3 ≤ exponent) :
    compactFloor mantissa exponent = mantissa * 2 ^ (8 * (exponent - 3)) := by
  have hexp : (exponent : ℤ) - 3 = ((exponent - 3 : Nat) : ℤ) := by omega
  have hpow : (256 : ℚ) ^ (exponent - 3) = (2 ^ (8 * (exponent - 3)) : Nat) := by
    rw [Nat.pow_mul]
    norm_num
  rw [compactFloor, hexp, zpow_natCast, hpow, ← Nat.cast_mul, Nat.floor_natCast]

theorem compactValue_eq_floor (nBits : U32) :
    compactValue nBits = compactFloor (nBits.toNat % 2 ^ 23) (nBits.toNat / 2 ^ 24) := by
  rw [compactValue, compactMant, compactExp]
  obtain h | h := Nat.le_total (nBits.toNat / 2 ^ 24) 3
  · rw [compactFloor_small _ h, Nat.sub_eq_zero_of_le h, Nat.mul_zero, Nat.pow_zero, Nat.mul_one]
  · rw [compactFloor_large _ h, Nat.sub_eq_zero_of_le h, Nat.mul_zero, Nat.pow_zero, Nat.div_one]

theorem keptValue_shifted {nBits shift : U32} (h : shift.toNat < 2 ^ 31) :
    keptValue nBits shift =
      compactFloor (nBits.toNat % 2 ^ 23) (nBits.toNat / 2 ^ 24) * 2 ^ shift.toNat % 2 ^ 256 := by
  rw [keptValue, if_pos h, compactValue_eq_floor]

/-- Bit 23 of `nBits` is the sign, the 23 below it are the mantissa, the byte above it is
the exponent. -/
theorem compact_target_exact (nBits : U32) {shift : Nat} (hshift : shift < 2 ^ 31) :
    (nBits.getLsbD 23 = false → beVal (compactToTargetShifted nBits shift) =
      compactFloor (nBits.toNat % 2 ^ 23) (nBits.toNat / 2 ^ 24) * 2 ^ shift % 2 ^ 256) ∧
    (nBits.getLsbD 23 = true → beVal (compactToTargetShifted nBits shift) = 0) ∧
    (targetTop64FromBits nBits shift).toNat =
      beVal (compactToTargetShifted nBits shift) / 2 ^ 192 := by
  have hword : (BitVec.ofNat 32 shift).toNat = shift := by
    rw [BitVec.toNat_ofNat]
    omega
  have hval := beVal_compactToTargetShifted nBits (BitVec.ofNat 32 shift)
  rw [keptValue_shifted (hword.trans_lt hshift), hword] at hval
  refine ⟨fun h => ?_, fun h => ?_, top64_eq_div (compactToTargetShifted_length nBits shift)⟩
  · have hclear : ¬ compactNegative nBits := by
      rw [compactNegative, h]
      exact Bool.false_ne_true
    rw [hval, if_neg hclear]
  · have hset : compactNegative nBits := h
    rw [hval, if_pos hset]

theorem compact_target_exact_main :
    beVal (compactToTargetShifted 0x1d00ffff 22) =
      compactFloor 0xffff 0x1d * 2 ^ 22 % 2 ^ 256 := by
  have hmant : (0x1d00ffff : U32).toNat % 2 ^ 23 = 0xffff := by decide
  have hexp : (0x1d00ffff : U32).toNat / 2 ^ 24 = 0x1d := by decide
  have h := (@compact_target_exact 0x1d00ffff 22 (by decide)).1 (by decide)
  rwa [hmant, hexp] at h

end OspreyBlake2b.Miner
