import OspreyBlake2b.Lib.Double
import Mathlib.Tactic.Linarith
import Mathlib.Tactic.NormNum
import Mathlib.Tactic.Positivity

namespace OspreyBlake2b.Lib.Double

variable {n : Nat}

theorem floor_natCast (m : Nat) : (m : Rat).floor = m := Rat.floor_intCast m

theorem roundHalfEven_natCast (m : Nat) : roundHalfEven m = m := by
  simp [roundHalfEven, floor_natCast]

theorem le_roundHalfEven {m : Nat} {q : Rat} (h : (m : Rat) ≤ q) : (m : Int) ≤ roundHalfEven q := by
  have hfloor : (m : Int) ≤ q.floor := Rat.le_floor_iff.mpr (by exact_mod_cast h)
  rw [roundHalfEven]
  split_ifs <;> omega

theorem log2_natCast (hn : n ≠ 0) : log2 n = n.log2 := by
  have hle : ((2 : Rat) ^ n.log2) ≤ n := by exact_mod_cast Nat.log2_self_le hn
  have hone : Nat.log2 1 = 0 := by decide
  simp only [log2, Rat.num_natCast, Rat.den_natCast, Int.natAbs_natCast, hone]
  simp [hle]

theorem round_natCast (hn : n < 2 ^ 53) : round n = fin n := by
  obtain rfl | hne := eq_or_ne n 0
  · rfl
  · have hzero : ¬ (n : Rat) = 0 := by exact_mod_cast hne
    have hneg : ¬ (n : Rat) < 0 := by simp
    have hlog : n.log2 < 53 := (Nat.log2_lt hne).mpr hn
    obtain ⟨k, hk⟩ : ∃ k : Nat, max ((n.log2 : Int) - 52) (-1074) = -(k : Int) :=
      ⟨52 - n.log2, by omega⟩
    have hup : scale n (k : Int) = ((n * 2 ^ k : Nat) : Rat) := by
      rw [scale, if_pos (by omega)]
      push_cast
      simp
    have hdown : scale ((n * 2 ^ k : Nat) : Rat) (-(k : Int)) = n := by
      rw [scale]
      split_ifs with hsign
      · obtain rfl : k = 0 := by omega
        simp
      · simp
    have hfits : ¬ (n : Rat) ≥ 2 ^ 1024 := by
      have hbig (k : Nat) (hk : 53 ≤ k) : (n : Rat) < 2 ^ k := by
        exact_mod_cast hn.trans_le (Nat.pow_le_pow_right (by decide) hk)
      exact not_le.mpr (hbig 1024 (by decide))
    have hint : ((((n * 2 ^ k : Nat) : Int)) : Rat) = ((n * 2 ^ k : Nat) : Rat) := by norm_cast
    rw [round, if_neg hzero]
    simp only [if_neg hneg, log2_natCast hne, hk, neg_neg, hup, roundHalfEven_natCast, hint, hdown,
      if_neg hfits]

theorem le_scale {m e : Nat} {q : Rat} (h : (m : Rat) ≤ q) : ((m * 2 ^ e : Nat) : Rat) ≤ scale q e := by
  rw [scale, if_pos (by omega)]
  push_cast
  exact mul_le_mul_of_nonneg_right h (by positivity)

theorem le_of_le_round (hn : 2 ^ 53 ≤ n) :
    round n = inf false ∨ ∃ q : Rat, round n = fin q ∧ 2 ^ 53 ≤ q := by
  have hne : n ≠ 0 := by omega
  have hzero : ¬ (n : Rat) = 0 := by exact_mod_cast hne
  have hneg : ¬ (n : Rat) < 0 := by simp
  have hlog : 53 ≤ n.log2 := (Nat.le_log2 hne).mpr hn
  obtain ⟨k, hk⟩ : ∃ k : Nat, n.log2 = 52 + k := ⟨n.log2 - 52, by omega⟩
  have hulp : max ((n.log2 : Int) - 52) (-1074) = (k : Int) := by omega
  have hdown : ((2 ^ 52 : Nat) : Rat) ≤ scale n (-(k : Int)) := by
    have hself : (2 ^ 52 * 2 ^ k : Nat) ≤ n := by
      rw [← Nat.pow_add, ← hk]
      exact Nat.log2_self_le hne
    have hself' : ((2 : Rat) ^ 52 * 2 ^ k) ≤ n := by exact_mod_cast hself
    rw [scale]
    split_ifs with hsign
    · omega
    · rw [neg_neg, Int.toNat_natCast, le_div_iff₀ (by positivity)]
      push_cast
      exact hself'
  have hround := le_roundHalfEven hdown
  have hmant : ((2 ^ 52 : Nat) : Rat) ≤ ((roundHalfEven (scale n (-(k : Int))) : Int) : Rat) := by
    exact_mod_cast hround
  have hup := le_scale (e := k) hmant
  have hbig : (2 : Rat) ^ 53 ≤ ((2 ^ 52 * 2 ^ k : Nat) : Rat) := by
    have hpow : 2 ^ 53 ≤ 2 ^ 52 * 2 ^ k := by
      rw [← Nat.pow_add]
      exact Nat.pow_le_pow_right (by decide) (by omega)
    exact_mod_cast hpow
  rw [round, if_neg hzero]
  simp only [if_neg hneg, log2_natCast hne, hulp]
  split_ifs
  · exact .inl (by simp)
  · exact .inr ⟨_, rfl, hbig.trans hup⟩

theorem toU64_fin_natCast {m : Nat} (hm : m < 2 ^ 64) : (fin m).toU64 = BitVec.ofNat 64 m := by
  have hneg : ¬ (m : Rat) < 0 := by simp
  rw [toU64, trunc, if_neg hneg, floor_natCast]
  have hclamp : max 0 (min (2 ^ 64 - 1) (m : Int)) = (m : Int) := by omega
  rw [hclamp]
  exact BitVec.ofInt_natCast 64 m

theorem toU64_round (n : U64) (hn : n.toNat < 2 ^ 53) : (round n.toNat).toU64 = n := by
  rw [round_natCast hn, toU64_fin_natCast n.isLt, BitVec.ofNat_toNat, BitVec.setWidth_eq]

theorem le_toU64_round (hn : 2 ^ 53 ≤ n) : 2 ^ 53 ≤ (round n).toU64.toNat := by
  obtain h | ⟨q, h, hq⟩ := le_of_le_round hn
  · rw [h]
    decide
  · have hfloor : (2 ^ 53 : Int) ≤ q.floor := Rat.le_floor_iff.mpr (by exact_mod_cast hq)
    have hneg : ¬ q < 0 := by linarith
    obtain ⟨m, hm, hlo, hhi⟩ : ∃ m : Nat, max 0 (min (2 ^ 64 - 1) q.floor) = (m : Int) ∧
        2 ^ 53 ≤ m ∧ m < 2 ^ 64 :=
      ⟨(max 0 (min (2 ^ 64 - 1) q.floor)).toNat, by omega, by omega, by omega⟩
    rw [h, toU64, trunc, if_neg hneg, hm, BitVec.ofInt_natCast, BitVec.toNat_ofNat,
      Nat.mod_eq_of_lt hhi]
    exact hlo

end OspreyBlake2b.Lib.Double
