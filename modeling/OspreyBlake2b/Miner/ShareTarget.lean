import OspreyBlake2b.Lib.LongDivision
import OspreyBlake2b.Miner.PrefilterLaws
import OspreyBlake2b.Miner.Stratum
import OspreyBlake2b.Miner.TargetLaws

/-! The share target of a difficulty: the loop of `bn_div_u64` is a restoring division
whose remainder has 64 bits. -/

namespace OspreyBlake2b.Miner

open OspreyBlake2b.Lib

def bnDivStep (input : List Byte) (divisor : U64) (st : U64 × List Byte) (i : Nat) :
    U64 × List Byte :=
  let byte := i / 8
  let bit := 7 - i % 8
  let rem := (st.1 <<< 1) ||| ((input.getD byte 0 >>> bit) &&& 1).setWidth 64
  if rem ≥ divisor then (rem - divisor, st.2.modify byte (· ||| 1#8 <<< bit)) else (rem, st.2)

theorem bnDivU64_eq {input : List Byte} {divisor : U64} (h : divisor ≠ 0) :
    bnDivU64 input divisor =
      ((List.range 256).foldl (bnDivStep input divisor) (0, List.replicate 32 0)).2 := by
  rw [bnDivU64, if_neg h]
  rfl

section Loop

variable {input : List Byte} {divisor : U64} {i : Nat}

theorem getD_bit (hlen : input.length = 32) (hi : i < 256) :
    ((input.getD (i / 8) 0 >>> (7 - i % 8)) &&& 1).toNat = beVal input / 2 ^ (255 - i) % 2 := by
  have hbit : (beVal input).testBit (255 - i) = (input.getD (i / 8) 0).getLsbD (7 - i % 8) := by
    have hidx : (255 - i) / 8 < input.reverse.length := by
      rw [List.length_reverse, hlen]
      omega
    rw [beVal, testBit_leVal, List.getD_eq_getElem _ _ hidx, List.getElem_reverse,
      List.getD_eq_getElem _ _ (by omega : i / 8 < input.length)]
    congr 2
    · rw [hlen]
      omega
    · omega
  rw [Nat.testBit_eq_decide_div_mod_eq] at hbit
  change ((input.getD (i / 8) 0 >>> (7 - i % 8)) &&& 1#8).toNat = _
  rw [BitVec.and_one_eq_setWidth_ofBool_getLsbD, BitVec.getLsbD_ushiftRight, Nat.add_zero, ← hbit]
  have hmod := Nat.mod_two_eq_zero_or_one (beVal input / 2 ^ (255 - i))
  obtain h | h := hmod <;> simp [h]

theorem shifted_rem (rem b : U64) (hb : b.toNat < 2) :
    ((rem <<< 1) ||| b).toNat = (2 * rem.toNat + b.toNat) % 2 ^ 64 := by
  have heven : (rem <<< 1).toNat = 2 ^ 1 * (rem.toNat % 2 ^ 63) := by
    rw [BitVec.toNat_shiftLeft, Nat.shiftLeft_eq]
    omega
  rw [BitVec.toNat_or, heven, ← Nat.two_pow_add_eq_or_of_lt hb]
  omega

theorem beVal_setBit {out : List Byte} (hlen : out.length = 32) (hi : i < 256) {quot : Nat}
    (hout : beVal out = quot * 2 ^ (256 - i)) :
    beVal (out.modify (i / 8) (· ||| 1#8 <<< (7 - i % 8))) = (2 * quot + 1) * 2 ^ (255 - i) := by
  have hset : out.modify (i / 8) (· ||| 1#8 <<< (7 - i % 8)) = setBit256 out (255 - i) := by
    rw [setBit256]
    congr 2
    · omega
    · funext x
      congr 2
      omega
  have hor : beVal (setBit256 out (255 - i)) = beVal out ||| 2 ^ (255 - i) := by
    apply Nat.eq_of_testBit_eq
    intro j
    rw [Nat.testBit_or, Nat.testBit_two_pow]
    by_cases hj : j < 256
    · rw [testBit_setBit256 hlen hj (by omega)]
      congr 1
      rw [decide_eq_decide]
      omega
    · have hwide (out' : List Byte) (hlen' : out'.length = 32) : (beVal out').testBit j = false :=
        testBit_wide (hlen' ▸ beVal_lt out') hj
      rw [hwide _ ((setBit256_length _ _).trans hlen), hwide _ hlen, decide_eq_false (by omega)]
      rfl
  have hpow : 2 ^ (256 - i) = 2 * 2 ^ (255 - i) := by
    rw [← Nat.pow_succ']
    congr 1
    omega
  have hlt : 2 ^ (255 - i) < 2 ^ (256 - i) := by
    have := Nat.two_pow_pos (255 - i)
    omega
  rw [hset, hor, hout, Nat.mul_comm, ← Nat.two_pow_add_eq_or_of_lt hlt, hpow]
  ring

theorem bnDiv_loop (hlen : input.length = 32) (hi : i ≤ 256) :
    let st := (List.range i).foldl (bnDivStep input divisor) (0, List.replicate 32 0)
    let spec := longDiv 63 divisor.toNat (beVal input) 256 i
    st.1.toNat = spec.1 ∧ st.2.length = 32 ∧ beVal st.2 = spec.2 * 2 ^ (256 - i) := by
  induction i with
  | zero =>
    refine ⟨rfl, List.length_replicate, ?_⟩
    change beVal (List.replicate 32 0) = 0 * 2 ^ 256
    rw [beVal_zeros, Nat.zero_mul]
  | succ i ih =>
    obtain ⟨hrem, hout, hquot⟩ := ih (by omega)
    dsimp only at hrem hout hquot ⊢
    rw [List.range_succ, List.foldl_append, List.foldl_cons, List.foldl_nil]
    generalize (List.range i).foldl (bnDivStep input divisor) (0, List.replicate 32 0) = st at *
    have hbit := getD_bit hlen (by omega : i < 256)
    have hlow : (((input.getD (i / 8) 0 >>> (7 - i % 8)) &&& 1).setWidth 64 : U64).toNat =
        beVal input / 2 ^ (255 - i) % 2 := by
      rw [BitVec.toNat_setWidth, hbit]
      omega
    have hsmall : beVal input / 2 ^ (255 - i) % 2 < 2 := Nat.mod_lt _ (by decide)
    have hshift := shifted_rem st.1 _ (hlow.trans_lt hsmall)
    rw [hlow, hrem] at hshift
    have hsum : 2 ^ (256 - i) = 2 * 2 ^ (255 - i) := by
      rw [← Nat.pow_succ']
      congr 1
      omega
    rw [longDiv_succ, bnDivStep]
    dsimp only
    have hidx : 256 - 1 - i = 255 - i := by omega
    rw [hidx]
    generalize st.1 <<< 1 ||| BitVec.setWidth 64 _ = rem at *
    have hge : rem ≥ divisor ↔ divisor.toNat ≤
        (2 * (longDiv 63 divisor.toNat (beVal input) 256 i).1 + beVal input / 2 ^ (255 - i) % 2) %
          2 ^ (63 + 1) := by
      rw [ge_iff_le, BitVec.le_def, hshift]
    by_cases h : rem ≥ divisor
    · rw [if_pos h, if_pos (hge.mp h)]
      refine ⟨?_, by simpa using hout, ?_⟩
      · rw [BitVec.toNat_sub_of_le h, hshift]
      · rw [beVal_setBit hout (by omega) hquot, show 256 - (i + 1) = 255 - i by omega]
    · rw [if_neg h, if_neg (mt hge.mpr h)]
      refine ⟨hshift, hout, ?_⟩
      rw [hquot, hsum, show 256 - (i + 1) = 255 - i by omega]
      ring

end Loop

/-- The remainder never loses its top bit: of no leading part of `a` is the remainder
`2 ^ 63` or more. -/
def PartialsFit (a d : Nat) : Prop := ∀ i < 256, a / 2 ^ (256 - i) % d < 2 ^ 63

theorem partialsFit_of_le {d : Nat} (h0 : 0 < d) (h : d ≤ 2 ^ 63) (a : Nat) : PartialsFit a d :=
  fun _ _ => (Nat.mod_lt _ h0).trans_le h

section Quotient

variable {a : List Byte} {d : U64}

theorem toNat_pos (hd : d ≠ 0) : 0 < d.toNat := by
  rw [Nat.pos_iff_ne_zero]
  exact fun h => hd (BitVec.eq_of_toNat_eq h)

theorem beVal_bnDivU64 (hlen : a.length = 32) (hd : d ≠ 0) :
    (bnDivU64 a d).length = 32 ∧
      beVal (bnDivU64 a d) = (longDiv 63 d.toNat (beVal a) 256 256).2 := by
  obtain ⟨-, hout, hquot⟩ := @bnDiv_loop a d 256 hlen (Nat.le_refl 256)
  rw [bnDivU64_eq hd]
  refine ⟨hout, hquot.trans ?_⟩
  rw [Nat.sub_self, Nat.pow_zero, Nat.mul_one]

theorem beVal_lt_256 (hlen : a.length = 32) : beVal a < 2 ^ 256 := by
  have hlt := beVal_lt a
  rw [hlen] at hlt
  exact hlt.trans_eq (by rfl)

theorem bnDivU64_eq_iff (hlen : a.length = 32) (hd : d ≠ 0) :
    beVal (bnDivU64 a d) = beVal a / d.toNat ↔ PartialsFit (beVal a) d.toNat := by
  rw [(beVal_bnDivU64 hlen hd).2]
  exact longDiv_eq_iff (toNat_pos hd) d.isLt (beVal_lt_256 hlen)

theorem bnDivU64_le (hlen : a.length = 32) (hd : d ≠ 0) :
    beVal (bnDivU64 a d) ≤ beVal a / d.toNat := by
  rw [(beVal_bnDivU64 hlen hd).2]
  exact longDiv_le (toNat_pos hd) d.isLt (beVal_lt_256 hlen)

end Quotient

theorem beVal_diff1Target : beVal diff1Target = 0xffff * 2 ^ 208 := by decide +kernel

def targetOf (d : U64) : Nat := beVal (bnShl32 (bnDivU64 diff1Target d))

theorem beVal_bnShl32 {a : List Byte} (hlen : a.length = 32) (h : beVal a < 2 ^ 224) :
    beVal (bnShl32 a) = beVal a * 2 ^ 32 := by
  have hsplit : beVal a = beVal (a.take 4) * 256 ^ 28 + beVal (a.drop 4) := by
    conv_lhs => rw [← List.take_append_drop 4 a, beVal_append]
    rw [List.length_drop, hlen]
  have htop : beVal (a.take 4) = 0 := by
    by_contra hne
    have hpow : (256 : Nat) ^ 28 = 2 ^ 224 := by rfl
    have hle : 256 ^ 28 ≤ beVal (a.take 4) * 256 ^ 28 :=
      Nat.le_mul_of_pos_left _ (Nat.pos_of_ne_zero hne)
    omega
  rw [bnShl32, beVal_append, beVal_zeros, hsplit, htop, Nat.zero_mul, Nat.zero_add,
    List.length_replicate, Nat.add_zero]
  rfl

theorem quotient_lt {d : U64} (hd : d ≠ 0) : beVal (bnDivU64 diff1Target d) < 2 ^ 224 := by
  have hle := bnDivU64_le (a := diff1Target) rfl hd
  rw [beVal_diff1Target] at hle
  have hself := Nat.div_le_self (0xffff * 2 ^ 208) d.toNat
  omega

theorem targetOf_eq {d : U64} (hd : d ≠ 0) :
    targetOf d = beVal (bnDivU64 diff1Target d) * 2 ^ 32 :=
  beVal_bnShl32 (beVal_bnDivU64 (a := diff1Target) rfl hd).1 (quotient_lt hd)

theorem bracket_iff {d q : Nat} (hd : 0 < d) :
    q * 2 ^ 32 * d ≤ 0xffff * 2 ^ 240 ∧ 0xffff * 2 ^ 240 < (q * 2 ^ 32 + 2 ^ 32) * d ↔
      q = 0xffff * 2 ^ 208 / d := by
  have hlow : q * 2 ^ 32 * d = q * d * 2 ^ 32 := by ring
  have hhigh : (q * 2 ^ 32 + 2 ^ 32) * d = (q + 1) * d * 2 ^ 32 := by ring
  have hone : 0xffff * 2 ^ 240 = 0xffff * 2 ^ 208 * 2 ^ 32 := by rfl
  rw [hlow, hhigh, hone, Nat.mul_le_mul_right_iff (by decide), Nat.mul_lt_mul_right (by decide),
    eq_comm, Nat.div_eq_iff hd]
  have hsucc : (q + 1) * d = q * d + d := Nat.succ_mul q d
  omega

theorem targetOf_bracket_iff {d : U64} (hd : d ≠ 0) :
    targetOf d * d.toNat ≤ 0xffff * 2 ^ 240 ∧ 0xffff * 2 ^ 240 < (targetOf d + 2 ^ 32) * d.toNat ↔
      PartialsFit (0xffff * 2 ^ 208) d.toNat := by
  have hiff := bnDivU64_eq_iff (a := diff1Target) rfl hd
  rw [beVal_diff1Target] at hiff
  rw [targetOf_eq hd, bracket_iff (toNat_pos hd), hiff]

theorem targetOf_antitone {d d' : U64} (hd : d ≠ 0) (hle : d ≤ d')
    (hfits : PartialsFit (0xffff * 2 ^ 208) d.toNat) : targetOf d' ≤ targetOf d := by
  have hd' : d' ≠ 0 := by
    rintro rfl
    exact hd (BitVec.le_zero_iff.mp hle)
  have hexact := (bnDivU64_eq_iff (a := diff1Target) rfl hd).mpr (beVal_diff1Target ▸ hfits)
  have hbelow := bnDivU64_le (a := diff1Target) rfl hd'
  rw [targetOf_eq hd, targetOf_eq hd', hexact]
  exact Nat.mul_le_mul_right _ (hbelow.trans (Nat.div_le_div_left hle (toNat_pos hd)))

theorem dscaled_ne_zero (difficulty : Double) : dscaled difficulty ≠ 0 := by
  have hclamped (v : U64) : (if v = 0 then 1 else v) ≠ 0 := by
    split
    · decide
    · assumption
  exact hclamped _

theorem length_target {d : U64} (hd : d ≠ 0) : (bnShl32 (bnDivU64 diff1Target d)).length = 32 := by
  have hlen := (beVal_bnDivU64 (a := diff1Target) rfl hd).1
  rw [bnShl32, List.length_append, List.length_drop, hlen, List.length_replicate]

theorem top64_eq_div {t : List Byte} (h : t.length = 32) : (top64 t).toNat = beVal t / 2 ^ 192 := by
  have hlow := beVal_lt (t.drop 8)
  rw [List.length_drop, h] at hlow
  have hpow : (256 : Nat) ^ 24 = 2 ^ 192 := by rfl
  have hsplit : beVal t = beVal (t.take 8) * 2 ^ 192 + beVal (t.drop 8) := by
    conv_lhs => rw [← List.take_append_drop 8 t, beVal_append]
    rw [List.length_drop, h, ← hpow]
  rw [top64_toNat, hsplit]
  omega

/-- For every 256-bit number and divisor, and for every scaled difficulty: the quotient is
exact, and the target bracketed, exactly if the 64-bit remainder never loses a bit. -/
theorem share_target_exact_iff (a : List Byte) (d : U64) (s : Stratum) (ha : a.length = 32)
    (hd : d ≠ 0) :
    (beVal (bnDivU64 a d) = beVal a / d.toNat ↔ PartialsFit (beVal a) d.toNat) ∧
      targetOf d = beVal (bnDivU64 diff1Target d) * 2 ^ 32 ∧
      (targetOf d * d.toNat ≤ 0xffff * 2 ^ 240 ∧
          0xffff * 2 ^ 240 < (targetOf d + 2 ^ 32) * d.toNat ↔
        PartialsFit (0xffff * 2 ^ 208) d.toNat) ∧
      (PartialsFit (0xffff * 2 ^ 208) d.toNat → ∀ d' : U64, d ≤ d' → targetOf d' ≤ targetOf d) ∧
      dscaled s.difficulty ≠ 0 ∧ beVal (stratumTargetFull s) = targetOf (dscaled s.difficulty) ∧
      (stratumTargetTop64 s).toNat = targetOf (dscaled s.difficulty) / 2 ^ 192 := by
  have hs := dscaled_ne_zero s.difficulty
  exact ⟨bnDivU64_eq_iff ha hd, targetOf_eq hd, targetOf_bracket_iff hd,
    fun hfits d' hle => targetOf_antitone hd hle hfits, hs, rfl, top64_eq_div (length_target hs)⟩

theorem share_target_exact_iff_4096 :
    let d : U64 := 4096 <<< 32
    beVal (bnDivU64 diff1Target d) = beVal diff1Target / d.toNat ∧
      (targetOf d * d.toNat ≤ 0xffff * 2 ^ 240 ∧
        0xffff * 2 ^ 240 < (targetOf d + 2 ^ 32) * d.toNat) ∧
      targetOf (4097 <<< 32) ≤ targetOf d := by
  intro d
  have hle : d ≤ 4097 <<< 32 := by decide
  have hfits (a : Nat) : PartialsFit a d.toNat := partialsFit_of_le (by decide) (by decide) a
  obtain ⟨hquot, -, hbracket, hless, -⟩ :=
    share_target_exact_iff diff1Target d (stratumInit [] 0 [] []) rfl (by decide)
  exact ⟨hquot.mpr (hfits _), hbracket.mpr (hfits _), hless (hfits _) _ hle⟩

theorem share_target_wrong :
    let d := dscaled (.ofNat 3000000000)
    d = 12884901888000000000 ∧ beVal (bnDivU64 diff1Target d) ≠ beVal diff1Target / d.toNat ∧
      ¬ (targetOf d * d.toNat ≤ 0xffff * 2 ^ 240 ∧
        0xffff * 2 ^ 240 < (targetOf d + 2 ^ 32) * d.toNat) := by
  intro d
  have hd : d = 12884901888000000000 := by decide +kernel
  have hne : d ≠ 0 := by
    rw [hd]
    decide
  have hfails : ¬ PartialsFit (0xffff * 2 ^ 208) d.toNat := by
    rw [hd]
    intro hfits
    exact absurd (hfits 97 (by decide)) (by decide +kernel)
  refine ⟨hd, ?_, mt (targetOf_bracket_iff hne).mp hfails⟩
  have hiff := bnDivU64_eq_iff (a := diff1Target) rfl hne
  rw [beVal_diff1Target] at hiff ⊢
  exact mt hiff.mp hfails

end OspreyBlake2b.Miner
