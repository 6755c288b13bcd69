import OspreyBlake2b.Lib.Bytes

/-! Integers as little-endian bytes with the sign in the top bit of the last one. -/

namespace OspreyBlake2b.Lib

def scriptNum (bs : List Byte) : Int :=
  let half := 2 ^ (8 * bs.length - 1)
  if leVal bs < half then leVal bs else -((leVal bs - half : Nat) : Int)

/-- The shortest bytes of a number, and the only ones that short. -/
def Encodes (n : Int) (bs : List Byte) : Prop :=
  scriptNum bs = n ∧ ∀ bs', scriptNum bs' = n → bs' = bs ∨ bs.length < bs'.length

theorem scriptNum_pos {bs : List Byte} {n : Nat} (hn : 0 < n) :
    scriptNum bs = n ↔ leVal bs = n ∧ n < 2 ^ (8 * bs.length - 1) := by
  simp only [scriptNum]
  split
  · rename_i h
    constructor
    · intro heq
      have hval : leVal bs = n := Int.ofNat.inj heq
      exact ⟨hval, hval ▸ h⟩
    · rintro ⟨hval, -⟩
      rw [hval]
  · rename_i h
    constructor
    · intro heq
      omega
    · rintro ⟨hval, hlt⟩
      omega

theorem encodes_of_bounds {bs : List Byte} (hpos : 0 < leVal bs)
    (hsign : leVal bs < 2 ^ (8 * bs.length - 1))
    (hshort : bs.length ≤ 1 ∨ 2 ^ (8 * (bs.length - 1) - 1) ≤ leVal bs) :
    Encodes (leVal bs) bs := by
  refine ⟨(scriptNum_pos hpos).mpr ⟨rfl, hsign⟩, fun bs' h => ?_⟩
  obtain ⟨hval, hlt⟩ := (scriptNum_pos hpos).mp h
  rcases Nat.lt_trichotomy bs'.length bs.length with hless | hsame | hmore
  · exfalso
    have hone : 1 ≤ bs'.length := by
      by_contra hzero
      rw [List.length_eq_zero_iff.mp (Nat.lt_one_iff.mp (not_le.mp hzero)), leVal_nil] at hval
      omega
    have hmono : 2 ^ (8 * bs'.length - 1) ≤ 2 ^ (8 * (bs.length - 1) - 1) :=
      Nat.pow_le_pow_right (by decide) (by omega)
    omega
  · exact .inl (leVal_inj hsame hval)
  · exact .inr hmore

theorem sign_bit_iff {bs : List Byte} (h : 0 < bs.length) :
    bs.getLastD 0 &&& 0x80#8 ≠ 0 ↔ 2 ^ (8 * bs.length - 1) ≤ leVal bs := by
  have hbyte (b : Byte) : b &&& 0x80#8 ≠ 0 ↔ 128 ≤ b.toNat := by
    revert b
    decide
  obtain rfl | ⟨bs, b, rfl⟩ := bs.eq_nil_or_concat'
  · exact absurd h (Nat.lt_irrefl 0)
  have hlast : (bs ++ [b]).getLastD 0 = b := by simp
  rw [hlast]
  have hhalf : 2 ^ (8 * (bs ++ [b]).length - 1) = 256 ^ bs.length * 128 := by
    rw [List.length_append, List.length_singleton,
      show 8 * (bs.length + 1) - 1 = 8 * bs.length + 7 by omega, Nat.pow_add, Nat.pow_mul]
  have hlow := leVal_lt bs
  rw [hbyte, hhalf, leVal_append, leVal_cons, leVal_nil, Nat.mul_zero, Nat.add_zero]
  generalize 256 ^ bs.length = p at hlow ⊢
  constructor
  · intro h
    exact Nat.le_add_left_of_le (Nat.mul_le_mul_left p h)
  · intro h
    by_contra hb
    have hmul : p * (b.toNat + 1) ≤ p * 128 := Nat.mul_le_mul_left p (by omega)
    rw [Nat.mul_succ] at hmul
    omega

theorem encodes_signed {bs : List Byte} (hlen : 0 < bs.length)
    (hlow : 256 ^ (bs.length - 1) ≤ leVal bs) :
    Encodes (leVal bs) (if bs.getLastD 0 &&& 0x80#8 ≠ 0 then bs ++ [0] else bs) := by
  have hpos : 0 < leVal bs := Nat.lt_of_lt_of_le (Nat.pow_pos (by decide)) hlow
  have hroom := leVal_lt bs
  have hpow (k : Nat) : 256 ^ k = 2 ^ (8 * k) := by rw [Nat.pow_mul]
  rw [hpow] at hlow hroom
  split
  · rename_i htop
    have hsame : leVal (bs ++ [0]) = leVal bs := by simp [leVal_append]
    rw [← hsame]
    refine encodes_of_bounds (hsame ▸ hpos) ?_ (.inr ?_)
    · rw [hsame, List.length_append, List.length_singleton]
      exact Nat.lt_of_lt_of_le hroom (Nat.pow_le_pow_right (by decide) (by omega))
    · rw [hsame, List.length_append, List.length_singleton, Nat.add_sub_cancel]
      exact (sign_bit_iff hlen).mp htop
  · rename_i htop
    refine encodes_of_bounds hpos (not_le.mp (mt (sign_bit_iff hlen).mpr htop)) ?_
    rcases Nat.lt_or_ge bs.length 2 with hone | htwo
    · exact .inl (Nat.lt_succ_iff.mp hone)
    · exact .inr (Nat.le_trans (Nat.pow_le_pow_right (by decide) (by omega)) hlow)

end OspreyBlake2b.Lib
