import OspreyBlake2b.Hash.Blake2bLaws
import OspreyBlake2b.Miner.TargetLaws
import OspreyBlake2b.Zynq.Blake2bReference

/-! The host's hash is the reference's, and its target is, up to what does not fit 32 bytes. -/

namespace OspreyBlake2b.Zynq

open OspreyBlake2b.Lib OspreyBlake2b.Hash OspreyBlake2b.Miner

def KnotsBlockHeaderV2.ofKnots (h : KnotsHeader) : KnotsBlockHeaderV2 where
  nVersion := h.nVersion.toNat
  hashPrevBlock := h.hashPrevBlock.toList
  hashMerkleRoot := h.hashMerkleRoot.toList
  nTime := h.nTime.toNat
  nBits := h.nBits.toNat
  nNonce := h.nNonce.toNat
  mNonce2 := h.mNonce2.toNat
  mNonce3 := h.mNonce3.toNat
  mExtranonce := h.mExtranonce.toList
  mTimeOffset := h.mTimeOffset.toNat
  mTxcount := h.mTxcount.toNat
  mFlags := h.mFlags.toNat
  mXorKeyMaskClearBits := h.mXorKeyMaskClearBits.toNat
  mXorKey := h.mXorKey.toList
  mHeight := h.mHeight.toInt
  mMmRhs := h.mMmRhs.toList

theorem packU_toNat {n : Nat} (v : BitVec (8 * n)) : packU n v.toNat = some (leBytes n v) := by
  have hlt := v.isLt
  rw [packU, if_pos ⟨by positivity, by exact_mod_cast hlt⟩, BitVec.ofInt_natCast,
    BitVec.ofNat_toNat, BitVec.setWidth_eq]

theorem packI_toInt {n : Nat} (v : BitVec (8 * n)) :
    packI n v.toInt = some (leBytes n v) := by
  have hle := BitVec.le_toInt v
  have hlt := BitVec.toInt_lt (x := v)
  rw [packI, if_pos ⟨hle, hlt⟩, BitVec.ofInt_toInt]

theorem land_toNat (a b : BitVec w) : Int.land a.toNat b.toNat = (a &&& b).toNat := by
  rw [BitVec.toNat_and]
  rfl

theorem completeVersion_toNat (h : KnotsHeader) :
    (KnotsBlockHeaderV2.ofKnots h).getCompleteVersion = (knotsCompleteVersion h).toNat := by
  have hldiff : Nat.ldiff h.nVersion.toNat headerV2Flag.toNat =
      (h.nVersion &&& ~~~headerV2Flag).toNat := by
    apply Nat.eq_of_testBit_eq
    intro i
    rw [Nat.testBit_ldiff, BitVec.testBit_toNat, BitVec.testBit_toNat, BitVec.testBit_toNat,
      BitVec.getLsbD_and, BitVec.getLsbD_not]
    by_cases hi : i < 32
    · simp [hi]
    · simp [BitVec.getLsbD_of_ge _ i (Nat.not_lt.mp hi)]
  rw [knotsCompleteVersion, BitVec.toNat_or, ← hldiff]
  rfl

theorem land_mask (v : Int) : Int.land v 0xffffffff = (BitVec.ofInt 32 v).toNat := by
  have hbits (k : Nat) : (2 ^ 32 - 1).testBit k = decide (k < 32) := Nat.testBit_two_pow_sub_one 32 k
  cases v with
  | ofNat m =>
    have hmod : m &&& (2 ^ 32 - 1) = m % 2 ^ 32 := Nat.and_two_pow_sub_one_eq_mod m 32
    rw [Int.ofNat_eq_natCast, BitVec.ofInt_natCast, BitVec.toNat_ofNat, ← hmod]
    rfl
  | negSucc m =>
    have hnot : Nat.ldiff (2 ^ 32 - 1) m = (~~~BitVec.ofNat 32 m).toNat := by
      apply Nat.eq_of_testBit_eq
      intro i
      rw [Nat.testBit_ldiff, BitVec.testBit_toNat, BitVec.getLsbD_not, BitVec.getLsbD_ofNat, hbits]
      by_cases hi : i < 32 <;> simp [hi]
    rw [BitVec.ofInt_negSucc_eq_not_ofNat, ← hnot]
    rfl

theorem timeOnWire_toNat (h : KnotsHeader) :
    (KnotsBlockHeaderV2.ofKnots h).getTimeOnWire = (knotsTimeOnWire h).toNat := by
  have hflag : Int.land h.mFlags.toNat 4 = 0 ↔ h.mFlags &&& useTimeOffset = 0 := by
    rw [show (4 : Int) = useTimeOffset.toNat by rfl, land_toNat, ← BitVec.toNat_inj]
    exact_mod_cast Iff.rfl
  have hsub : BitVec.ofInt 32 ((h.nTime.toNat : Int) - h.mTimeOffset.toNat) =
      h.nTime - h.mTimeOffset := by
    apply BitVec.eq_of_toNat_eq
    rw [BitVec.toNat_ofInt, BitVec.toNat_sub]
    omega
  simp only [KnotsBlockHeaderV2.getTimeOnWire, KnotsBlockHeaderV2.ofKnots, knotsTimeOnWire, hflag,
    land_mask, hsub]
  split <;> rfl

theorem guard_some {p : Prop} [Decidable p] (h : p) : (guard p : Option Unit) = some () :=
  if_pos h

theorem assert_some {bs : List Byte} {n : Nat} (h : bs.length = n) :
    (do guard (bs.length = n); return bs : Option (List Byte)) = some bs := by
  rw [guard_some h]
  rfl

theorem leBytes_one (b : Byte) : leBytes 1 b = [b] := by
  simp [leBytes]

theorem xorMask_length (h : KnotsHeader) : (xorMask h).length = 32 := by
  have hclear : h.mXorKeyMaskClearBits.toNat / 8 ≤ 32 := by omega
  rw [xorMask]
  split
  · exact List.length_replicate
  · dsimp only
    split <;> simp <;> omega

theorem getPowHash_length {h : KnotsHeader} {pow : List Byte} (hpow : Miner.getPowHash h = some pow) :
    pow.length = 32 := by
  obtain ⟨s, -, rfl⟩ := Option.map_eq_some_iff.mp hpow
  simp [xorMask_length]

theorem compactToTarget_toNat (nBits : U32) :
    compactToTarget nBits.toNat =
      if compactNegative nBits then -(compactValue nBits : Int) else compactValue nBits := by
  have hexp : Int.land ((nBits.toNat : Int) >>> (24 : Nat)) 0xff = compactExp nBits := by
    rw [← compactExp_eq, BitVec.toNat_and, BitVec.toNat_ushiftRight]
    rfl
  have hneg : Int.land nBits.toNat 0x00800000 ≠ 0 ↔ compactNegative nBits := by
    rw [← compactNegative_iff, show (0x00800000 : Int) = (0x00800000#32).toNat by rfl, land_toNat,
      ne_eq, ne_eq, ← BitVec.toNat_inj]
    exact not_congr (by exact_mod_cast Iff.rfl)
  have hmant : Int.land nBits.toNat 0x007fffff = (nBits.toNat % 2 ^ 23 : Nat) := by
    rw [← Nat.and_two_pow_sub_one_eq_mod]
    rfl
  have hvalue : (if (compactExp nBits : Int) ≤ 3 then
      ((nBits.toNat % 2 ^ 23 : Nat) : Int) >>> (8 * (3 - (compactExp nBits : Int))).toNat
      else ((nBits.toNat % 2 ^ 23 : Nat) : Int) <<< (8 * ((compactExp nBits : Int) - 3)).toNat) =
      (compactValue nBits : Int) := by
    rw [compactValue, compactMant]
    split
    · have hk : (8 * (3 - (compactExp nBits : Int))).toNat = 8 * (3 - compactExp nBits) := by omega
      rw [hk, Nat.sub_eq_zero_of_le (show compactExp nBits ≤ 3 by omega), Int.shiftRight_eq_div_pow]
      simp
    · have hk : (8 * ((compactExp nBits : Int) - 3)).toNat = 8 * (compactExp nBits - 3) := by omega
      rw [hk, Nat.sub_eq_zero_of_le (show 3 ≤ compactExp nBits by omega), Int.shiftLeft_eq]
      simp
  simp only [compactToTarget, hexp, hneg, hmant, hvalue]

theorem meetsTarget_iff (pow : List Byte) (nBits : U32) (shift : Nat) :
    meetsTarget pow nBits.toNat shift = true ↔
      (beVal pow : Int) ≤ (if compactNegative nBits then -(compactValue nBits : Int)
        else compactValue nBits) * 2 ^ shift := by
  rw [meetsTarget, decide_eq_true_iff, applyBlake2bTargetShift, compactToTarget_toNat,
    Int.shiftLeft_eq, fromBytesBig]

theorem hashMeetsTarget_iff {pow : List Byte} (hpow : pow.length = 32) (nBits shift : U32) :
    hashMeetsTarget pow (compactToTargetShifted nBits shift.toNat) = true ↔
      beVal pow ≤ if compactNegative nBits then 0 else keptValue nBits shift := by
  rw [hashMeetsTarget, decide_eq_true_iff,
    memcmp_nonpos_iff (hpow.trans (compactToTargetShifted_length _ _).symm),
    beVal_compactToTargetShifted]

theorem keptValue_fits {nBits shift : U32} (h : compactValue nBits * 2 ^ shift.toNat < 2 ^ 256) :
    keptValue nBits shift = compactValue nBits * 2 ^ shift.toNat := by
  by_cases hs : shift.toNat < 2 ^ 31
  · rw [keptValue, if_pos hs, Nat.mod_eq_of_lt h]
  · have hzero : compactValue nBits = 0 := by
      by_contra hpos
      have hle : 2 ^ shift.toNat ≤ compactValue nBits * 2 ^ shift.toNat :=
        Nat.le_mul_of_pos_left _ (Nat.pos_of_ne_zero hpos)
      have hexp := (Nat.pow_lt_pow_iff_right (by omega)).mp (lt_of_le_of_lt hle h)
      omega
    rw [keptValue, if_neg hs, hzero, Nat.zero_div, Nat.zero_mul, Nat.zero_mod]

/-- Where a target in 256 bits without a sign decides what one of any size does. -/
def DecidesAlike (pow : List Byte) (nBits shift : U32) : Prop :=
  if compactNegative nBits then compactValue nBits = 0 ∨ beVal pow ≠ 0
  else compactValue nBits * 2 ^ shift.toNat < 2 ^ 256 ∨ beVal pow ≤ keptValue nBits shift

theorem decides_iff {pow : List Byte} (hpow : pow.length = 32) (nBits shift : U32) :
    (hashMeetsTarget pow (compactToTargetShifted nBits shift.toNat) = true ↔
      meetsTarget pow nBits.toNat shift.toNat = true) ↔ DecidesAlike pow nBits shift := by
  have hlt := beVal_lt pow
  rw [hpow, show 256 ^ 32 = 2 ^ 256 by rfl] at hlt
  rw [hashMeetsTarget_iff hpow, meetsTarget_iff, DecidesAlike]
  have hscale : 0 < 2 ^ shift.toNat := Nat.two_pow_pos _
  split
  case isTrue hneg =>
    have hpy : (beVal pow : Int) ≤ -(compactValue nBits : Int) * 2 ^ shift.toNat ↔
        compactValue nBits = 0 ∧ beVal pow = 0 := by
      have hzero : compactValue nBits * 2 ^ shift.toNat = 0 ↔ compactValue nBits = 0 := by
        rw [Nat.mul_eq_zero, or_iff_left hscale.ne']
      have hmul : (compactValue nBits : Int) * 2 ^ shift.toNat =
          (compactValue nBits * 2 ^ shift.toNat : Nat) := by
        push_cast
        rfl
      rw [Int.neg_mul, hmul, ← hzero]
      omega
    rw [hpy]
    omega
  case isFalse hpos =>
    have hpy : (beVal pow : Int) ≤ (compactValue nBits : Int) * 2 ^ shift.toNat ↔
        beVal pow ≤ compactValue nBits * 2 ^ shift.toNat := by exact_mod_cast Iff.rfl
    rw [hpy]
    by_cases hfit : compactValue nBits * 2 ^ shift.toNat < 2 ^ 256
    · rw [keptValue_fits hfit]
      exact iff_of_true Iff.rfl (.inl hfit)
    · have hle : beVal pow ≤ compactValue nBits * 2 ^ shift.toNat := by omega
      simp only [hfit, hle, iff_true, false_or]

variable {lib : Hashlib} (hlib : lib.Agrees)
include hlib

theorem taggedHash_eq (tag : String) (payload : List Byte) :
    taggedHash lib tag payload = Sha256.taggedHash tag payload := by
  rw [taggedHash, taggedHashPrefix, hlib.sha256, hlib.sha256, Sha256.taggedHash, Sha256.sha256,
    Sha256.sha256Update, List.foldl_append, List.foldl_append]
  rfl

theorem h1Payload_eq (h : KnotsHeader) :
    h1Payload lib (.ofKnots h) = some (Miner.h1Payload h) := by
  have hlen : (Miner.h1Payload h).length = 119 := by simp [Miner.h1Payload]
  have htx : packU 4 h.mTxcount.toNat = some (leBytes 4 (h.mTxcount.setWidth 32)) := by
    rw [← packU_toNat (n := 4), BitVec.toNat_setWidth_of_le (by decide)]
  rw [h1Payload, completeVersion_toNat, timeOnWire_toNat, taggedHash_eq hlib]
  change ((packU 4 _).bind fun version => (packI 4 h.mHeight.toInt).bind fun height =>
    (packU 4 _).bind fun time => (packU 4 h.nBits.toNat).bind fun nBits =>
    (packU 4 h.mTxcount.toNat).bind fun txcount => (packU 1 h.mFlags.toNat).bind fun flags =>
    (packU 1 h.mXorKeyMaskClearBits.toNat).bind fun clearBits => _) = _
  rw [packU_toNat (n := 4), packI_toInt (n := 4), packU_toNat (n := 4), packU_toNat (n := 4), htx,
    packU_toNat (n := 1), packU_toNat (n := 1)]
  simp only [Option.bind_some, leBytes_one, KnotsBlockHeaderV2.ofKnots]
  rw [Miner.h1Payload] at hlen ⊢
  exact assert_some hlen

theorem stage4_eq {h : KnotsHeader} (hmode : h.mFlags &&& 3 = 0) (h2Hash hashA : List Byte) :
    stage4 lib (.ofKnots h) h2Hash hashA = some (List.replicate 6 0 ++
      (Sha256.taggedHash "Bitcoin prevblock header, hashed" h.hashPrevBlock.toList.reverse).drop 6 ++
      (leBytes 4 h.nNonce ++ leBytes 4 h.mNonce2 ++ leBytes 4 h.mTimeOffset ++
        leBytes 4 h.mNonce3 ++ hashA)) := by
  have hland : Int.land h.mFlags.toNat 3 = 0 := by
    rw [show (3 : Int) = (3#8).toNat by rfl, land_toNat]
    exact congrArg (fun b : Byte => (b.toNat : Int)) hmode
  rw [stage4, taggedHash_eq hlib]
  change ((packU 4 h.nNonce.toNat).bind fun nNonce => (packU 4 h.mNonce2.toNat).bind fun nonce2 =>
    (packU 4 h.mNonce3.toNat).bind fun nonce3 =>
    (packU 4 h.mTimeOffset.toNat).bind fun timeOffset =>
      if Int.land h.mFlags.toNat 3 = 0 then _ else _) = _
  rw [packU_toNat (n := 4), packU_toNat (n := 4), packU_toNat (n := 4), packU_toNat (n := 4)]
  simp only [Option.bind_some, if_pos hland]
  rw [guard_some (by simp)]
  rfl

/-- The clear count is a byte, so neither side ever reaches past the mask. -/
theorem xorKeyMask_eq (h : KnotsHeader) :
    xorKeyMask lib (.ofKnots h) = some (xorMask h) := by
  have hzero : h.mXorKey.toList = List.replicate 16 0 ↔
      h.mXorKey.toList.all (· = 0) = true := by
    rw [List.eq_replicate_iff, List.all_eq_true]
    simp
  have hclear : h.mXorKeyMaskClearBits.toNat / 8 < 32 := by omega
  have hdiv : ((h.mXorKeyMaskClearBits.toNat : Int) / 8).toNat =
      h.mXorKeyMaskClearBits.toNat / 8 := by omega
  have hmod : ((h.mXorKeyMaskClearBits.toNat : Int) % 8).toNat =
      h.mXorKeyMaskClearBits.toNat % 8 := by omega
  rw [xorKeyMask, xorMask]
  by_cases hkey : h.mXorKey.toList = List.replicate 16 0
  · rw [if_pos (hzero.mp hkey)]
    exact if_pos hkey
  · rw [if_neg (mt hzero.mpr hkey)]
    refine (if_neg hkey).trans ?_
    simp only [KnotsBlockHeaderV2.ofKnots, hdiv, hmod, taggedHash_eq hlib, Nat.min_eq_left hclear.le]
    rw [guard_some (by simp [hclear.le])]
    by_cases hrem : h.mXorKeyMaskClearBits.toNat % 8 = 0
    · simp only [hrem, ne_eq, not_true, false_and, if_false]
      rfl
    · simp only [hrem, ne_eq, not_false_eq_true, hclear, true_and, if_true]
      rw [guard_some (by simp; omega)]
      rfl

theorem blake2bNokey_eq (data : List Byte) {outlen : Nat} (h1 : 1 ≤ outlen) (h64 : outlen ≤ 64) :
    blake2bNokey lib data outlen = Blake2b.blake2bNokey data outlen :=
  hlib.blake2b data outlen h1 h64

theorem getPowHash_eq {h : KnotsHeader} (hmode : h.mFlags &&& 3 = 0) :
    getPowHash lib (.ofKnots h) = Miner.getPowHash h := by
  rw [getPowHash, h1Payload_eq hlib, xorKeyMask_eq hlib, Miner.getPowHash, stageInputs,
    if_neg (not_not_intro hmode)]
  have hzero : packU 4 0 = some (leBytes 4 (0 : U32)) := packU_toNat (n := 4) 0
  have hrhs : (KnotsBlockHeaderV2.ofKnots h).mMmRhs = h.mMmRhs.toList := rfl
  have hext : (KnotsBlockHeaderV2.ofKnots h).mExtranonce = h.mExtranonce.toList := rfl
  simp only [taggedHash_eq hlib, stage4_eq hlib hmode, hzero, hrhs, hext, Option.bind_eq_bind,
    Option.bind_some, blake2bNokey_eq hlib _ (by decide : 1 ≤ 32) (by decide : 32 ≤ 64),
    Option.map_some]
  rw [guard_some (by simp), Option.bind_some, guard_some (by simp), Option.bind_some,
    guard_some ⟨(Blake2b.blake2bNokey_length _ _).ge, (xorMask_length h).ge⟩, Option.bind_some,
    List.take_of_length_le (Blake2b.blake2bNokey_length _ _).le,
    List.take_of_length_le (xorMask_length h).le]
  simp only [List.append_assoc]
  rfl

/-- The hashes are always the same; the verdicts are wherever 256 unsigned bits do. -/
theorem verdicts_agree_iff {h : KnotsHeader} (hmode : h.mFlags &&& 3 = 0) (nBits shift : U32) :
    ∃ pow, Miner.getPowHash h = some pow ∧ getPowHash lib (.ofKnots h) = some pow ∧
      ((hashMeetsTarget pow (compactToTargetShifted nBits shift.toNat) = true ↔
        meetsTarget pow nBits.toNat shift.toNat = true) ↔ DecidesAlike pow nBits shift) := by
  obtain ⟨pow, hpow⟩ : ∃ pow, Miner.getPowHash h = some pow := by
    rw [Miner.getPowHash, stageInputs, if_neg (not_not_intro hmode)]
    exact ⟨_, rfl⟩
  exact ⟨pow, hpow, (getPowHash_eq hlib hmode).trans hpow,
    decides_iff (getPowHash_length hpow) nBits shift⟩

omit hlib

theorem verdicts_agree_iff_init :
    Hashlib.miner.Agrees ∧ knotsHeaderInit.mFlags &&& 3 = 0 ∧ ∃ pow,
      Miner.getPowHash knotsHeaderInit = some pow ∧
      (hashMeetsTarget pow (compactToTargetShifted 0x1d00ffff 22) = true ↔
        meetsTarget pow 0x1d00ffff 22 = true) := by
  obtain ⟨pow, hpow, -, hagree⟩ :=
    verdicts_agree_iff Hashlib.miner_agrees (h := knotsHeaderInit) rfl 0x1d00ffff 22
  exact ⟨Hashlib.miner_agrees, rfl, pow, hpow, hagree.mpr (.inl (by decide +kernel))⟩

/-- The shift of the main network takes the easiest target past 256 bits: the reference
takes every hash, the host those up to `c000…0`. -/
theorem easiest_target_overflows :
    let h := { knotsHeaderInit with nBits := 0x207fffff, nNonce := 1 }
    h.mFlags &&& 3 = 0 ∧ ∃ pow, Miner.getPowHash h = some pow ∧
      getPowHash Hashlib.miner (.ofKnots h) = some pow ∧
      hashMeetsTarget pow (compactToTargetShifted h.nBits 22) = false ∧
      meetsTarget pow h.nBits.toNat 22 = true := by
  intro h
  have hrun : (Miner.getPowHash h).any (fun pow =>
      !hashMeetsTarget pow (compactToTargetShifted h.nBits 22) &&
        meetsTarget pow h.nBits.toNat 22) = true := by decide +kernel
  obtain ⟨pow, hpow, hboth⟩ := (Option.any_eq_true _ _).mp hrun
  simp only [Bool.and_eq_true, Bool.not_eq_true'] at hboth
  have hmode : h.mFlags &&& 3 = 0 := by decide
  exact ⟨hmode, pow, hpow, (getPowHash_eq Hashlib.miner_agrees hmode).trans hpow, hboth⟩

end OspreyBlake2b.Zynq
