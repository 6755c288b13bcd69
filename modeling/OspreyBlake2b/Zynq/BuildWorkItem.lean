import OspreyBlake2b.Miner.ShareTarget
import OspreyBlake2b.Miner.TargetLaws
import OspreyBlake2b.Miner.WorkItemLaws
import OspreyBlake2b.Zynq.Blake2bReferenceLaws

/-! `zynq/build_work_item.py`: the script that packs a header for the FPGA, against the host
that does. -/

namespace OspreyBlake2b.Zynq

open OspreyBlake2b.Lib OspreyBlake2b.Hash OspreyBlake2b.Miner

section Script

variable (lib : Hashlib)

/-- Any mode of stage 4 but the first is a `NotImplementedError`. -/
def stageInputs (hdr : KnotsBlockHeaderV2) : Option (List Byte × List Byte × List Byte) := do
  let h1Payload ← h1Payload lib hdr
  let h1Hash := taggedHash lib "Bitcoin block header 1" h1Payload
  let h2Payload := h1Hash ++ List.replicate 32 0 ++ hdr.mMmRhs
  let h2Hash := taggedHash lib "Merge-mining hook" h2Payload
  let zero ← packU 4 0
  let ss3 := zero ++ h2Hash ++ hdr.mExtranonce
  guard (ss3.length = stage3Len)
  let hashA := blake2bNokey lib ss3 32
  guard (Int.land hdr.mFlags 3 = 0)
  let hidden := taggedHash lib "Bitcoin prevblock header, hashed" hdr.hashPrevBlock.reverse
  guard (6 ≤ hidden.length)
  let nNonce ← packU 4 hdr.nNonce
  let nonce2 ← packU 4 hdr.mNonce2
  let timeOffset ← packU 4 hdr.mTimeOffset
  let nonce3 ← packU 4 hdr.mNonce3
  let ss4 := List.replicate 6 0 ++ hidden.drop 6 ++
    (nNonce ++ nonce2 ++ timeOffset ++ nonce3 ++ hashA)
  guard (ss4.length = Miner.stage4Len)
  return (ss3, ss4, hashA)

def packSlots (msg : List Byte) : Option (List Byte) :=
  if msg.length > slots * 8 then none
  else some (msg ++ List.replicate (slots * 8 - msg.length) 0)

def targetTop64 (nBits : Int) (shift : Nat) : Int :=
  Int.land (applyBlake2bTargetShift nBits shift >>> (192 : Nat)) 0xFFFFFFFFFFFFFFFF

def buildWorkItem (hdr : KnotsBlockHeaderV2) (shift : Nat) : Option (List Byte) := do
  let (ss3, ss4, _) ← stageInputs lib hdr
  let stage3 ← packSlots ss3
  let stage4 ← packSlots ss4
  let tgt ← packU 8 (targetTop64 hdr.nBits shift)
  let item := stage3 ++ stage4 ++ tgt
  guard (item.length = workItemLen)
  return item

structure Result where
  success : Bool
  nonce : Int
  hashTop64 : Int

def parseResult (buf : List Byte) : Option Result :=
  if buf.length ≠ resultLen then none
  else
    some
      { success := buf.headD 0 = 0x01#8
        nonce := leVal ((buf.drop 1).take 8)
        hashTop64 := leVal ((buf.drop 9).take 8) }

/-- The stages put together again; a failed assertion is `none`. -/
def testMatchesReference (hdr : KnotsBlockHeaderV2) : Option Unit := do
  let (ss3, ss4, hashA) ← stageInputs lib hdr
  guard (hashA = blake2bNokey lib ss3 32)
  let hashB := blake2bNokey lib ss4 32
  let mask ← xorKeyMask lib hdr
  guard (32 ≤ hashB.length ∧ 32 ≤ mask.length)
  let final := ((hashB.take 32).zipWith (· ^^^ ·) (mask.take 32)).reverse
  let expected ← getPowHash lib hdr
  guard (final = expected)

end Script

theorem land_top (v : Nat) : Int.land (v : Int) 0xFFFFFFFFFFFFFFFF = (v % 2 ^ 64 : Nat) := by
  rw [← Nat.and_two_pow_sub_one_eq_mod]
  rfl

/-- Without the sign bit the target word does not depend on where the target is cut off. -/
theorem targetTop64_eq {nBits : U32} {shift : Nat} (hshift : shift < 2 ^ 31)
    (hclear : nBits.getLsbD 23 = false) :
    targetTop64 nBits.toNat shift = (targetTop64FromBits nBits shift).toNat := by
  have hword : (BitVec.ofNat 32 shift).toNat = shift := by
    rw [BitVec.toNat_ofNat]
    omega
  have hlen := compactToTargetShifted_length nBits shift
  have hval := beVal_compactToTargetShifted nBits (BitVec.ofNat 32 shift)
  have hneg : ¬ compactNegative nBits := by
    rw [compactNegative, hclear]
    exact Bool.false_ne_true
  have hscale : (compactValue nBits : Int) <<< shift >>> (192 : Nat) =
      (compactValue nBits * 2 ^ shift / 2 ^ 192 : Nat) := by
    rw [Int.shiftLeft_eq, Int.shiftRight_eq_div_pow]
    push_cast
    rfl
  rw [if_neg hneg, keptValue, hword, if_pos hshift] at hval
  rw [targetTop64, applyBlake2bTargetShift, compactToTarget_toNat, if_neg hneg, hscale, land_top,
    targetTop64FromBits, top64_eq_div hlen, hval]
  norm_cast
  omega

theorem land_flags (h : KnotsHeader) :
    Int.land (KnotsBlockHeaderV2.ofKnots h).mFlags 3 = 0 ↔ h.mFlags &&& 3 = 0 := by
  rw [show (3 : Int) = (3#8).toNat by rfl]
  refine (Eq.congr_left (land_toNat h.mFlags 3#8)).trans ?_
  rw [← BitVec.toNat_inj]
  norm_cast

section Agree

variable {lib : Hashlib} (hlib : lib.Agrees)
include hlib

theorem stageInputs_eq (h : KnotsHeader) :
    stageInputs lib (.ofKnots h) = (Miner.stageInputs h).map fun s => (s.ss3, s.ss4, s.hashA) := by
  have hzero : packU 4 0 = some (leBytes 4 (0 : U32)) := packU_toNat (n := 4) 0
  have hrhs : (KnotsBlockHeaderV2.ofKnots h).mMmRhs = h.mMmRhs.toList := rfl
  have hext : (KnotsBlockHeaderV2.ofKnots h).mExtranonce = h.mExtranonce.toList := rfl
  have hland := land_flags h
  rw [stageInputs, h1Payload_eq hlib, Miner.stageInputs]
  simp only [taggedHash_eq hlib, hzero, hrhs, hext, Option.bind_eq_bind, Option.bind_some,
    blake2bNokey_eq hlib _ (by decide : 1 ≤ 32) (by decide : 32 ≤ 64)]
  rw [guard_some (by simp [stage3Len]), Option.bind_some]
  by_cases hmode : h.mFlags &&& 3 = 0
  · have hnonce : packU 4 (KnotsBlockHeaderV2.ofKnots h).nNonce = some (leBytes 4 h.nNonce) :=
      packU_toNat (n := 4) _
    have hnonce2 : packU 4 (KnotsBlockHeaderV2.ofKnots h).mNonce2 = some (leBytes 4 h.mNonce2) :=
      packU_toNat (n := 4) _
    have hoffset : packU 4 (KnotsBlockHeaderV2.ofKnots h).mTimeOffset =
        some (leBytes 4 h.mTimeOffset) := packU_toNat (n := 4) _
    have hnonce3 : packU 4 (KnotsBlockHeaderV2.ofKnots h).mNonce3 = some (leBytes 4 h.mNonce3) :=
      packU_toNat (n := 4) _
    rw [guard_some (hland.mpr hmode), if_neg (not_not_intro hmode), Option.bind_some,
      guard_some (by simp), Option.bind_some, hnonce, hnonce2, hoffset, hnonce3]
    simp only [Option.bind_some]
    rw [guard_some (by simp [Miner.stage4Len]), Option.bind_some]
    simp only [List.append_assoc, Option.map_some]
    rfl
  · rw [if_pos hmode]
    have hfail : (guard (Int.land (KnotsBlockHeaderV2.ofKnots h).mFlags 3 = 0) : Option Unit) = none :=
      if_neg (mt hland.mp hmode)
    rw [hfail]
    rfl

omit hlib in
theorem packSlots_some {msg : List Byte} (h : msg.length ≤ slots * 8) :
    packSlots msg = some (msg ++ List.replicate (slots * 8 - msg.length) 0) := if_neg (by omega)

theorem buildWorkItem_eq (h : KnotsHeader) {shift : Nat} (hshift : shift < 2 ^ 31)
    (hclear : h.nBits.getLsbD 23 = false) :
    buildWorkItem lib (.ofKnots h) shift =
      Miner.buildWorkItem h (targetTop64FromBits h.nBits shift) := by
  rw [buildWorkItem, stageInputs_eq hlib, Miner.buildWorkItem]
  cases hs : Miner.stageInputs h with
  | none => rfl
  | some s =>
    have h3 := ss3_length hs
    have h4 := ss4_length hs
    have htarget : targetTop64 (KnotsBlockHeaderV2.ofKnots h).nBits shift =
        (targetTop64FromBits h.nBits shift).toNat := targetTop64_eq hshift hclear
    simp only [Option.map_some, Option.bind_eq_bind, Option.bind_some]
    rw [packSlots_some (by rw [h3]; decide), packSlots_some (by rw [h4]; decide), htarget,
      packU_toNat (n := 8)]
    simp only [Option.bind_some]
    rw [guard_some (by simp [h3, h4, stage3Len, Miner.stage4Len, slots, workItemLen]), h3, h4]
    have hnone : List.replicate (slots * 8 - Miner.stage4Len) (0 : Byte) = [] := rfl
    rw [hnone, List.append_nil]
    rfl

omit hlib in
theorem packU_length {n : Nat} {v : Int} {bs : List Byte} (h : packU n v = some bs) :
    bs.length = n := by
  rw [packU] at h
  split at h
  · rw [← Option.some.inj h, leBytes_length]
  · cases h

theorem getPowHash_split {hdr : KnotsBlockHeaderV2} {pow : List Byte}
    (hmode : Int.land hdr.mFlags 3 = 0) (hpow : getPowHash lib hdr = some pow) :
    ∃ ss3 ss4 mask, stageInputs lib hdr = some (ss3, ss4, blake2bNokey lib ss3 32) ∧
      xorKeyMask lib hdr = some mask ∧
      (32 ≤ (blake2bNokey lib ss4 32).length ∧ 32 ≤ mask.length) ∧
      pow = (((blake2bNokey lib ss4 32).take 32).zipWith (· ^^^ ·) (mask.take 32)).reverse := by
  simp only [getPowHash, stage4, Option.bind_eq_bind, Option.bind_eq_some_iff, if_pos hmode,
    Option.guard_eq_some', exists_const] at hpow
  obtain ⟨h1, hh1, -, zero, hzero, h52, ss4, ⟨nNonce, hn, nonce2, hn2, nonce3, hn3, offset, hoff, h6, hss4⟩,
    mask, hmask, hlens, hfinal⟩ := hpow
  obtain rfl := Option.some.inj hss4
  have hdigest (data : List Byte) : (blake2bNokey lib data 32).length = 32 := by
    rw [blake2bNokey_eq hlib _ (by decide) (by decide), Blake2b.blake2bNokey_length]
  set h2Hash := taggedHash lib "Merge-mining hook"
    (taggedHash lib "Bitcoin block header 1" h1 ++ List.replicate 32 0 ++ hdr.mMmRhs) with hh2
  have hss3 : (zero ++ h2Hash ++ hdr.mExtranonce).length = stage3Len := h52
  refine ⟨zero ++ h2Hash ++ hdr.mExtranonce, _, mask, ?_, hmask, hlens,
    (Option.some.inj hfinal).symm⟩
  have h80 : (List.replicate 6 0 ++ (taggedHash lib "Bitcoin prevblock header, hashed"
      hdr.hashPrevBlock.reverse).drop 6 ++ (nNonce ++ nonce2 ++ offset ++ nonce3 ++
        blake2bNokey lib (zero ++ h2Hash ++ hdr.mExtranonce) 32)).length = Miner.stage4Len := by
    simp [taggedHash_eq hlib, hdigest, packU_length hn, packU_length hn2, packU_length hn3,
      packU_length hoff, Miner.stage4Len]
  simp only [stageInputs, hh1, hzero, hn, hn2, hn3, hoff, Option.bind_eq_bind, Option.bind_some,
    ← hh2]
  rw [guard_some hss3, Option.bind_some, guard_some hmode, Option.bind_some, guard_some h6,
    Option.bind_some, guard_some h80]
  rfl

theorem self_check_iff (hdr : KnotsBlockHeaderV2) :
    testMatchesReference lib hdr = some () ↔
      Int.land hdr.mFlags 3 = 0 ∧ (getPowHash lib hdr).isSome = true := by
  constructor
  · intro h
    simp only [testMatchesReference, Option.bind_eq_bind, Option.bind_eq_some_iff] at h
    obtain ⟨⟨ss3, ss4, hashA⟩, hs, -, -, mask, -, -, -, pow, hpow, -⟩ := h
    refine ⟨?_, by rw [hpow]; rfl⟩
    simp only [stageInputs, Option.bind_eq_bind, Option.bind_eq_some_iff, Option.guard_eq_some',
      exists_const] at hs
    obtain ⟨-, -, -, -, -, hmode, -⟩ := hs
    exact hmode
  · rintro ⟨hmode, hsome⟩
    obtain ⟨pow, hpow⟩ := Option.isSome_iff_exists.mp hsome
    obtain ⟨ss3, ss4, mask, hs, hmask, hlens, hfinal⟩ := getPowHash_split hlib hmode hpow
    simp only [testMatchesReference, hs, hmask, hpow, Option.bind_eq_bind, Option.bind_some]
    rw [guard_some trivial, Option.bind_some, guard_some hlens, Option.bind_some,
      guard_some hfinal.symm]

omit hlib in
theorem parseResult_eq {buf : List Byte} {r : Result} (h : parseResult buf = some r) :
    Miner.parseResult buf =
      if r.success then some ⟨true, BitVec.ofInt 64 r.nonce, BitVec.ofInt 64 r.hashTop64⟩
      else none := by
  rw [parseResult] at h
  split at h
  · cases h
  · obtain rfl := Option.some.inj h
    have hword (bs : List Byte) :
        BitVec.ofInt 64 (leVal (bs.take 8) : Int) = leWord 64 (bs.take 8) := by
      have hlen : 8 * (bs.take 8).length ≤ 64 := by
        rw [List.length_take]
        omega
      rw [BitVec.ofInt_natCast, ← leWord_toNat 64 _ hlen, BitVec.ofNat_toNat, BitVec.setWidth_eq]
    simp only [Miner.parseResult, hword]
    split
    case isTrue hflag => rw [hflag]
    case isFalse => rfl

/-- Script and host put the same bytes on the line and read the same out of a reply; in the
modes the pipeline does not have both give up. -/
theorem script_agrees (h : KnotsHeader) {shift : Nat} (hshift : shift < 2 ^ 31)
    (hclear : h.nBits.getLsbD 23 = false) :
    buildWorkItem lib (.ofKnots h) shift =
        Miner.buildWorkItem h (targetTop64FromBits h.nBits shift) ∧
      (testMatchesReference lib (.ofKnots h) = some () ↔ h.mFlags &&& 3 = 0) ∧
      ∀ buf r, parseResult buf = some r → Miner.parseResult buf =
        if r.success then some ⟨true, BitVec.ofInt 64 r.nonce, BitVec.ofInt 64 r.hashTop64⟩
        else none := by
  refine ⟨buildWorkItem_eq hlib h hshift hclear, ?_, fun buf r => parseResult_eq⟩
  rw [self_check_iff hlib, land_flags]
  refine and_iff_left_of_imp fun hmode => ?_
  obtain ⟨s, hs⟩ := stageInputs_isSome hmode
  rw [getPowHash_eq hlib hmode, Miner.getPowHash, hs]
  rfl

omit hlib

theorem script_agrees_init : knotsHeaderInit.nBits.getLsbD 23 = false ∧
    buildWorkItem Hashlib.miner (.ofKnots knotsHeaderInit) 22 =
      Miner.buildWorkItem knotsHeaderInit (targetTop64FromBits knotsHeaderInit.nBits 22) :=
  ⟨by decide, (script_agrees Hashlib.miner_agrees knotsHeaderInit (by decide) (by decide)).1⟩

end Agree

end OspreyBlake2b.Zynq
