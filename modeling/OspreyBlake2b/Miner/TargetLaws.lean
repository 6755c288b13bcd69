import OspreyBlake2b.Miner.WorkItem
import Mathlib.Data.List.GetD

namespace OspreyBlake2b.Miner

open OspreyBlake2b.Lib

def compactExp (nBits : U32) : Nat := nBits.toNat / 2 ^ 24

def compactMant (nBits : U32) : Nat := nBits.toNat % 2 ^ 23 / 2 ^ (8 * (3 - compactExp nBits))

def compactValue (nBits : U32) : Nat := compactMant nBits * 2 ^ (8 * (compactExp nBits - 3))

def compactNegative (nBits : U32) : Prop := nBits.getLsbD 23 = true

instance (nBits : U32) : Decidable (compactNegative nBits) := by
  unfold compactNegative
  infer_instance

/-- What 256 bits hold of a magnitude under a left shift that passes through a `long`:
from `2 ^ 31` on it is a right shift. -/
def keptValue (nBits shift : U32) : Nat :=
  (if shift.toNat < 2 ^ 31 then compactValue nBits * 2 ^ shift.toNat
    else compactValue nBits / 2 ^ (2 ^ 32 - shift.toNat)) % 2 ^ 256

theorem compactMant_lt (nBits : U32) : compactMant nBits < 2 ^ 23 :=
  lt_of_le_of_lt (Nat.div_le_self _ _) (Nat.mod_lt _ (by positivity))

theorem getD_setBit256 {out : List Byte} (hlen : out.length = 32) {pos j : Nat} (hj : j < 32)
    (hpos : pos < 256) :
    (setBit256 out pos).reverse.getD j 0 =
      if j = pos / 8 then out.reverse.getD j 0 ||| 1#8 <<< (pos % 8) else out.reverse.getD j 0 := by
  have hj' : j < (setBit256 out pos).reverse.length := by simpa [setBit256, hlen]
  have hj'' : j < out.reverse.length := by simpa [hlen]
  rw [List.getD_eq_getElem _ _ hj', List.getD_eq_getElem _ _ hj'', List.getElem_reverse,
    List.getElem_reverse]
  simp only [setBit256, List.getElem_modify, List.length_modify, hlen]
  by_cases h : j = pos / 8
  · rw [if_pos h, if_pos (by omega)]
  · rw [if_neg h, if_neg (by omega)]

theorem testBit_setBit256 {out : List Byte} (hlen : out.length = 32) {pos i : Nat} (hi : i < 256)
    (hpos : pos < 256) :
    (beVal (setBit256 out pos)).testBit i = ((beVal out).testBit i || decide (i = pos)) := by
  rw [beVal, beVal, testBit_leVal, testBit_leVal, getD_setBit256 hlen (by omega) hpos]
  by_cases hbyte : i / 8 = pos / 8
  · have hbit : (1#8 <<< (pos % 8)).getLsbD (i % 8) = decide (i = pos) := by
      rw [BitVec.getLsbD_shiftLeft, BitVec.getLsbD_one, Bool.eq_iff_iff]
      simp
      omega
    rw [if_pos hbyte, BitVec.getLsbD_or, hbit]
  · have hne : i ≠ pos := fun h => hbyte (h ▸ rfl)
    rw [if_neg hbyte, decide_eq_false hne, Bool.or_false]

@[simp] theorem setBit256_length (out : List Byte) (pos : Nat) :
    (setBit256 out pos).length = out.length := by
  simp [setBit256]

theorem testBit_place (mant : U32) (bitpos : Int) {i : Nat} (hi : i < 256) (bs : List Nat)
    {out : List Byte} (hlen : out.length = 32) :
    (beVal (bs.foldl (fun out (b : Nat) =>
      if (mant >>> b) &&& 1 = 0 then out
      else if bitpos + b < 0 ∨ bitpos + b ≥ 256 then out
      else setBit256 out (bitpos + b).toNat) out)).testBit i = true ↔
      (beVal out).testBit i = true ∨ ∃ b ∈ bs, mant.getLsbD b = true ∧ bitpos + b = i := by
  have hlow (b : Nat) : (mant >>> b) &&& 1 = 0 ↔ mant.getLsbD b = false := by
    change (mant >>> b) &&& 1#32 = 0#32 ↔ _
    rw [BitVec.and_one_eq_setWidth_ofBool_getLsbD]
    cases h : mant.getLsbD b <;> simp [h]
  induction bs generalizing out with
  | nil => simp
  | cons b bs ih =>
    simp only [List.foldl_cons, List.mem_cons, exists_eq_or_imp]
    by_cases hb : (mant >>> b) &&& 1 = 0
    · have hno : mant.getLsbD b ≠ true := by simp [(hlow b).mp hb]
      rw [if_pos hb]
      refine (ih hlen).trans ?_
      tauto
    · have hyes : mant.getLsbD b = true := by simpa using mt (hlow b).mpr hb
      rw [if_neg hb]
      by_cases hout : bitpos + b < 0 ∨ bitpos + b ≥ 256
      · have hne : bitpos + b ≠ i := by omega
        rw [if_pos hout]
        refine (ih hlen).trans ?_
        tauto
      · have heq : i = (bitpos + b).toNat ↔ bitpos + b = i := by omega
        rw [if_neg hout]
        refine (ih ((setBit256_length _ _).trans hlen)).trans ?_
        rw [testBit_setBit256 hlen hi (by omega), Bool.or_eq_true, decide_eq_true_iff, heq]
        tauto

theorem testBit_keptValue (nBits shift : U32) {i : Nat} (hi : i < 256) :
    (keptValue nBits shift).testBit i = true ↔
      ∃ b < 24, (compactMant nBits).testBit b = true ∧
        8 * (compactExp nBits - 3 : Nat) + shift.toInt + b = i := by
  have hsmall (b : Nat) (hb : (compactMant nBits).testBit b = true) : b < 24 := by
    by_contra h
    have hlt : compactMant nBits < 2 ^ b :=
      lt_of_lt_of_le (compactMant_lt nBits) (Nat.pow_le_pow_right (by omega) (by omega))
    rw [Nat.testBit_lt_two_pow hlt] at hb
    cases hb
  rw [keptValue, Nat.testBit_mod_two_pow, decide_eq_true hi, Bool.true_and, compactValue]
  rw [BitVec.toInt_eq_toNat_cond]
  by_cases hs : shift.toNat < 2 ^ 31
  · rw [if_pos hs, if_pos (by omega), Nat.mul_assoc, ← Nat.pow_add, Nat.testBit_mul_two_pow]
    constructor
    · intro h
      simp only [Bool.and_eq_true, decide_eq_true_eq] at h
      exact ⟨_, hsmall _ h.2, h.2, by omega⟩
    · rintro ⟨b, -, hb, heq⟩
      have : i - (8 * (compactExp nBits - 3) + shift.toNat) = b := by omega
      rw [this, hb, Bool.and_true, decide_eq_true_eq]
      omega
  · rw [if_neg hs, if_neg (by omega), Nat.testBit_div_two_pow, Nat.testBit_mul_two_pow]
    constructor
    · intro h
      simp only [Bool.and_eq_true, decide_eq_true_eq] at h
      exact ⟨_, hsmall _ h.2, h.2, by omega⟩
    · rintro ⟨b, -, hb, heq⟩
      have : i + (2 ^ 32 - shift.toNat) - 8 * (compactExp nBits - 3) = b := by omega
      rw [this, hb, Bool.and_true, decide_eq_true_eq]
      omega

theorem place_length (mant : U32) (bitpos : Int) (bs : List Nat) (out : List Byte) :
    (bs.foldl (fun out (b : Nat) =>
      if (mant >>> b) &&& 1 = 0 then out
      else if bitpos + b < 0 ∨ bitpos + b ≥ 256 then out
      else setBit256 out (bitpos + b).toNat) out).length = out.length := by
  induction bs generalizing out with
  | nil => rfl
  | cons b bs ih =>
    rw [List.foldl_cons, ih]
    split
    · rfl
    · split
      · rfl
      · exact setBit256_length _ _

theorem compactExp_eq (nBits : U32) :
    ((nBits >>> 24) &&& 0xff#32).toNat = compactExp nBits := by
  have hlt := nBits.isLt
  rw [BitVec.toNat_and, BitVec.toNat_ushiftRight, Nat.shiftRight_eq_div_pow]
  change nBits.toNat / 2 ^ 24 &&& (2 ^ 8 - 1) = _
  rw [Nat.and_two_pow_sub_one_eq_mod, compactExp]
  omega

theorem compactMant_eq (nBits : U32) :
    (if compactExp nBits ≤ 3 then (nBits &&& 0x007fffff#32) >>> (8 * (3 - compactExp nBits))
      else nBits &&& 0x007fffff#32).toNat = compactMant nBits := by
  have hmant : (nBits &&& 0x007fffff#32).toNat = nBits.toNat % 2 ^ 23 := by
    rw [BitVec.toNat_and]
    exact Nat.and_two_pow_sub_one_eq_mod _ 23
  rw [compactMant]
  split
  · rw [BitVec.toNat_ushiftRight, hmant, Nat.shiftRight_eq_div_pow]
  · rw [hmant, Nat.sub_eq_zero_of_le (by omega), Nat.mul_zero, Nat.pow_zero, Nat.div_one]

theorem compactNegative_iff (nBits : U32) :
    nBits &&& 0x00800000#32 ≠ 0 ↔ compactNegative nBits := by
  have hmask : (0x00800000#32) = BitVec.twoPow 32 23 := by decide
  rw [hmask, BitVec.and_twoPow, compactNegative]
  cases h : nBits.getLsbD 23
  · simp
  · simp [← BitVec.toNat_inj]

theorem compactToTargetShifted_length (nBits : U32) (shift : Nat) :
    (compactToTargetShifted nBits shift).length = 32 := by
  rw [compactToTargetShifted]
  split
  · exact List.length_replicate
  · exact (place_length _ _ _ _).trans List.length_replicate

theorem beVal_zeros (n : Nat) : beVal (List.replicate n 0) = 0 := by
  have h := leWord_toNat (8 * n) (List.replicate n 0) (by simp)
  rw [leWord_zeros] at h
  rw [beVal, List.reverse_replicate, ← h]
  rfl

theorem keptValue_lt (nBits shift : U32) : keptValue nBits shift < 256 ^ 32 :=
  (Nat.mod_lt _ (by positivity)).trans_eq (by rfl)

theorem testBit_wide {v i : Nat} (hv : v < 256 ^ 32) (hi : ¬ i < 256) : v.testBit i = false := by
  apply Nat.testBit_lt_two_pow
  calc v < 256 ^ 32 := hv
    _ = 2 ^ 256 := by rfl
    _ ≤ 2 ^ i := Nat.pow_le_pow_right (by omega) (Nat.not_lt.mp hi)

theorem beVal_compactToTargetShifted (nBits shift : U32) :
    beVal (compactToTargetShifted nBits shift.toNat) =
      if compactNegative nBits then 0 else keptValue nBits shift := by
  by_cases hneg : compactNegative nBits
  · rw [if_pos hneg, compactToTargetShifted, if_pos ((compactNegative_iff nBits).mpr hneg),
      beVal_zeros]
  · rw [if_neg hneg]
    apply Nat.eq_of_testBit_eq
    intro i
    by_cases hi : i < 256
    · rw [Bool.eq_iff_iff, testBit_keptValue nBits shift hi, compactToTargetShifted,
        if_neg (mt (compactNegative_iff nBits).mp hneg)]
      refine (testBit_place _ _ hi _ List.length_replicate).trans ?_
      have hpos : (if compactExp nBits ≤ 3 then shift.toInt
          else 8 * ((compactExp nBits : Int) - 3) + shift.toInt) =
          8 * (compactExp nBits - 3 : Nat) + shift.toInt := by
        split <;> omega
      simp only [compactExp_eq, BitVec.ofNat_toNat, BitVec.setWidth_eq, hpos, beVal_zeros,
        Nat.zero_testBit, List.mem_range, ← BitVec.testBit_toNat, compactMant_eq]
      simp
    · have hlt := beVal_lt (compactToTargetShifted nBits shift.toNat)
      rw [compactToTargetShifted_length] at hlt
      rw [testBit_wide hlt hi, testBit_wide (keptValue_lt nBits shift) hi]

end OspreyBlake2b.Miner
