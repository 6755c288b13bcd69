import Mathlib.Data.Nat.Init
import Mathlib.Tactic.Ring

/-! Restoring division, one bit at a time, with a remainder in a register of `w + 1` bits. -/

namespace OspreyBlake2b.Lib

/-- The remainder and the quotient after the top `i` of the `n` bits of `a`. -/
def longDiv (w d a n : Nat) : Nat → Nat × Nat
  | 0 => (0, 0)
  | i + 1 =>
    let (rem, quot) := longDiv w d a n i
    let rem := (2 * rem + a / 2 ^ (n - 1 - i) % 2) % 2 ^ (w + 1)
    if d ≤ rem then (rem - d, 2 * quot + 1) else (rem, 2 * quot)

def topBits (a n i : Nat) : Nat := a / 2 ^ (n - i)

def Fits (w d a n i : Nat) : Prop := topBits a n i % d < 2 ^ w

section

variable {w d a n i : Nat}

theorem topBits_succ (hi : i < n) :
    topBits a n (i + 1) = 2 * topBits a n i + a / 2 ^ (n - 1 - i) % 2 := by
  have hdiv : topBits a n i = topBits a n (i + 1) / 2 := by
    rw [topBits, topBits, Nat.div_div_eq_div_mul, ← Nat.pow_succ]
    congr 2
    omega
  have hlow : a / 2 ^ (n - 1 - i) = topBits a n (i + 1) := by
    rw [topBits]
    congr 2
    omega
  rw [hlow, hdiv]
  omega

theorem div_two_mul_add (hd : 0 < d) (v b : Nat) (hb : b < 2) :
    (2 * v + b) / d = 2 * (v / d) + (if d ≤ 2 * (v % d) + b then 1 else 0) ∧
      (2 * v + b) % d = 2 * (v % d) + b - (if d ≤ 2 * (v % d) + b then d else 0) := by
  have hsplit : 2 * v + b = d * (2 * (v / d)) + (2 * (v % d) + b) := by
    have hv := Nat.div_add_mod v d
    calc 2 * v + b = 2 * (d * (v / d) + v % d) + b := by rw [hv]
      _ = d * (2 * (v / d)) + (2 * (v % d) + b) := by ring
  have hlt := Nat.mod_lt v hd
  rw [hsplit, Nat.mul_add_div hd, Nat.mul_add_mod]
  split
  · rename_i hge
    have hone : (2 * (v % d) + b) / d = 1 := by
      rw [Nat.div_eq_iff hd]
      omega
    rw [hone, Nat.mod_eq_sub_mod hge, Nat.mod_eq_of_lt (by omega)]
    exact ⟨rfl, rfl⟩
  · rename_i hlt'
    have hzero : (2 * (v % d) + b) / d = 0 := Nat.div_eq_of_lt (by omega)
    have hself : (2 * (v % d) + b) % d = 2 * (v % d) + b := Nat.mod_eq_of_lt (by omega)
    rw [hzero, hself]
    exact ⟨rfl, rfl⟩

theorem longDiv_succ (i : Nat) :
    longDiv w d a n (i + 1) =
      let rem := (2 * (longDiv w d a n i).1 + a / 2 ^ (n - 1 - i) % 2) % 2 ^ (w + 1)
      if d ≤ rem then (rem - d, 2 * (longDiv w d a n i).2 + 1)
      else (rem, 2 * (longDiv w d a n i).2) := rfl

/-- As long as the remainder can be doubled the division is exact; once it could not, the
quotient is too small and stays so. -/
theorem longDiv_cases (hd : 0 < d) (hw : d < 2 ^ (w + 1)) (ha : a < 2 ^ n) (hi : i ≤ n) :
    longDiv w d a n i = (topBits a n i % d, topBits a n i / d) ∧ (∀ j < i, Fits w d a n j) ∨
      (longDiv w d a n i).2 < topBits a n i / d ∧ ∃ j < i, ¬ Fits w d a n j := by
  induction i with
  | zero =>
    have hzero : topBits a n 0 = 0 := by
      rw [topBits, Nat.sub_zero, Nat.div_eq_of_lt ha]
    rw [hzero, Nat.zero_mod, Nat.zero_div]
    exact .inl ⟨rfl, fun j hj => absurd hj (Nat.not_lt_zero j)⟩
  | succ i ih =>
    have hbit : a / 2 ^ (n - 1 - i) % 2 < 2 := Nat.mod_lt _ (by decide)
    have hrem := Nat.mod_lt (topBits a n i) hd
    have hpow : 2 ^ (w + 1) = 2 * 2 ^ w := Nat.pow_succ'
    obtain ⟨hquot, hmod⟩ := div_two_mul_add hd (topBits a n i) (a / 2 ^ (n - 1 - i) % 2) hbit
    rw [longDiv_succ, topBits_succ (by omega : i < n)]
    obtain ⟨heq, hfits⟩ | ⟨hlt, j, hj, hbad⟩ := ih (by omega)
    · rw [heq]
      dsimp only
      by_cases hfit : Fits w d a n i
      · have hsmall : topBits a n i % d < 2 ^ w := hfit
        have hall : ∀ j < i + 1, Fits w d a n j := by
          intro j hj
          obtain hlt | rfl := Nat.lt_succ_iff_lt_or_eq.mp hj
          · exact hfits j hlt
          · exact hfit
        refine .inl ⟨?_, hall⟩
        rw [Nat.mod_eq_of_lt (by omega), hquot, hmod]
        split <;> rfl
      · -- the bit that is shifted out would have made the divisor go once more
        have hlarge : 2 ^ w ≤ topBits a n i % d := Nat.not_lt.mp hfit
        refine .inr ⟨?_, i, Nat.lt_succ_self i, hfit⟩
        rw [Nat.mod_eq_sub_mod (by omega), Nat.mod_eq_of_lt (by omega), if_neg (by omega), hquot,
          if_pos (by omega)]
        exact Nat.lt_succ_self _
    · refine .inr ⟨?_, j, by omega, hbad⟩
      have hlast (rem : Nat) : (if d ≤ rem then (rem - d, 2 * (longDiv w d a n i).2 + 1)
          else (rem, 2 * (longDiv w d a n i).2)).2 ≤ 2 * (longDiv w d a n i).2 + 1 := by
        split
        · exact Nat.le_refl _
        · exact Nat.le_succ _
      refine Nat.lt_of_le_of_lt (hlast _) ?_
      rw [hquot]
      omega

theorem topBits_all : topBits a n n = a := by
  rw [topBits, Nat.sub_self, Nat.pow_zero, Nat.div_one]

theorem longDiv_eq_iff (hd : 0 < d) (hw : d < 2 ^ (w + 1)) (ha : a < 2 ^ n) :
    (longDiv w d a n n).2 = a / d ↔ ∀ j < n, Fits w d a n j := by
  have hcases := longDiv_cases hd hw ha (Nat.le_refl n)
  rw [topBits_all] at hcases
  obtain ⟨heq, hfits⟩ | ⟨hlt, j, hj, hbad⟩ := hcases
  · rw [heq]
    exact iff_of_true rfl hfits
  · exact iff_of_false (Nat.ne_of_lt hlt) fun h => hbad (h j hj)

theorem longDiv_le (hd : 0 < d) (hw : d < 2 ^ (w + 1)) (ha : a < 2 ^ n) :
    (longDiv w d a n n).2 ≤ a / d := by
  have hcases := longDiv_cases hd hw ha (Nat.le_refl n)
  rw [topBits_all] at hcases
  obtain ⟨heq, -⟩ | ⟨hlt, -⟩ := hcases
  · rw [heq]
  · exact Nat.le_of_lt hlt

end

end OspreyBlake2b.Lib
