import OspreyBlake2b.Miner.WorksrcStratum
import OspreyBlake2b.Rtl.Top
import OspreyBlake2b.Rtl.UartReceiverLaws

namespace OspreyBlake2b.Miner

open OspreyBlake2b.Lib OspreyBlake2b.Hash.Blake2b OspreyBlake2b.Rtl OspreyBlake2b.Rtl.Uart

theorem eq_of_byte_slices {x y : BitVec (R * 8)}
    (h : ∀ b < R, x.extractLsb' (8 * b) 8 = y.extractLsb' (8 * b) 8) : x = y := by
  apply BitVec.eq_of_getLsbD_eq
  intro i hi
  have hbyte := congrArg (fun v => v.getLsbD (i % 8)) (h (i / 8) (by omega))
  simpa [BitVec.getLsbD_extractLsb', Nat.mod_lt, Nat.div_add_mod] using hbyte

theorem shift_bytes (bs : List Byte) (w : BitVec (bs.length * 8)) :
    (bs.flatMap bitsOf).foldl shiftIn w = leWord (bs.length * 8) bs := by
  apply eq_of_byte_slices
  intro b hb
  have hbits : bs.flatMap bitsOf = bytesBits (bs.map fun v => (0, v)) := by
    simp [bytesBits, List.flatMap_map]
  have hword := extract_leWord b 1 bs (w := bs.length * 8) (by omega) (by omega)
  rw [hbits, group_bytes _ _ (by simp) b hb, hword, List.take_one_drop_eq_of_lt_length hb]
  simp [leWord]

theorem slot_of_shifted {bs : List Byte} (hlen : bs.length = R) (w : BitVec (R * 8)) (k : Nat)
    (hk : 8 * k ≤ R) :
    ((bs.flatMap bitsOf).foldl shiftIn w).extractLsb' (64 * k) 64 = load64 (bs.drop (8 * k)) := by
  subst hlen
  have hslice := extract_leWord (8 * k) 8 bs (w := bs.length * 8) (by omega) hk
  rw [← Nat.mul_assoc] at hslice
  rw [shift_bytes]
  exact hslice

theorem load64_front {bs : List Byte} {k : Nat} (hk : 8 * k + 8 ≤ bs.length) (post : List Byte) :
    load64 ((bs ++ post).drop (8 * k)) = load64 (bs.drop (8 * k)) := by
  have hfit : 8 ≤ (bs.drop (8 * k)).length := by
    rw [List.length_drop]
    omega
  rw [List.drop_append_of_le_length (by omega), load64, load64, List.take_append_of_le_length hfit]

theorem load64_middle {pre bs : List Byte} {n k : Nat} (hpre : pre.length = n)
    (hk : 8 * k + 8 ≤ bs.length) (post : List Byte) :
    load64 ((pre ++ bs ++ post).drop (n + 8 * k)) = load64 (bs.drop (8 * k)) := by
  rw [List.append_assoc, ← List.drop_drop, List.drop_left' hpre, load64_front hk]

theorem load64_target (pre : List Byte) (v : U64) :
    load64 ((pre ++ putTargetLe v).drop pre.length) = v := by
  rw [List.drop_left, putTargetLe, load64, List.take_of_length_le (by simp)]
  exact leWord_leBytes 8 v

/-- For every work context, whatever the register of the receiver held before. -/
theorem pack_unpack (ctx : WorkCtx) (h3 : ctx.ss3.length = stage3Len)
    (h4 : ctx.ss4.length = stage4Len) :
    (∃ item, worksrcPackItem ctx 168 = some item ∧ item.length = 168 ∧ ∀ w : BitVec kRxBits,
        let held : BitVec kRxBits := (item.flatMap bitsOf).foldl shiftIn w
        (∀ i, unpackStage3 held i = load64 ((ctx.ss3 ++ List.replicate 28 0).drop (8 * i.val))) ∧
        (∀ i, unpackStage4 held i = load64 (ctx.ss4.drop (8 * i.val))) ∧
        unpackTarget held = ctx.targetTop64) ∧
      (∃ item, worksrcPackItem ctx 88 = some item ∧ item.length = 88 ∧ ∀ w : BitVec kSiaRxBits,
        let held : BitVec kSiaRxBits := (item.flatMap bitsOf).foldl shiftIn w
        (∀ i, unpackHeader held i = load64 (ctx.ss4.drop (8 * i.val))) ∧
        unpackSiaTarget held = ctx.targetTop64) ∧
      ∀ itemLen, itemLen ≠ 168 → itemLen ≠ 88 → worksrcPackItem ctx itemLen = none := by
  rw [stage3Len] at h3
  rw [stage4Len] at h4
  have htgt : (putTargetLe ctx.targetTop64).length = 8 := leBytes_length 8 _
  refine ⟨?_, ?_, ?_⟩
  · have hpad : (ctx.ss3 ++ List.replicate 28 0).length = 80 := by simp [h3]
    have hpre : (ctx.ss3 ++ List.replicate 28 0 ++ ctx.ss4).length = 160 := by
      rw [List.length_append, hpad, h4]
    have hlen : (ctx.ss3 ++ List.replicate 28 0 ++ ctx.ss4 ++ putTargetLe ctx.targetTop64).length =
        168 := by rw [List.length_append, hpre, htgt]
    refine ⟨_, if_pos rfl, hlen, fun w => ⟨fun i => ?_, fun i => ?_, ?_⟩⟩
    · have hi := i.isLt
      refine (slot_of_shifted hlen w i.val (by omega)).trans ?_
      rw [List.append_assoc _ ctx.ss4]
      exact load64_front (by omega) _
    · have hi := i.isLt
      refine (slot_of_shifted hlen w (10 + i.val) (by omega)).trans ?_
      rw [show 8 * (10 + i.val) = 80 + 8 * i.val by omega]
      exact load64_middle hpad (by omega) _
    · refine (slot_of_shifted hlen w 20 (by omega)).trans ?_
      rw [show 8 * 20 = 160 by rfl, ← hpre]
      exact load64_target _ _
  · have hlen : (ctx.ss4 ++ putTargetLe ctx.targetTop64).length = 88 := by
      rw [List.length_append, h4, htgt]
    refine ⟨_, (if_neg (by decide)).trans (if_pos rfl), hlen, fun w => ⟨fun i => ?_, ?_⟩⟩
    · have hi := i.isLt
      refine (slot_of_shifted hlen w i.val (by omega)).trans ?_
      exact load64_front (by omega) _
    · refine (slot_of_shifted hlen w 10 (by omega)).trans ?_
      rw [show 8 * 10 = 80 by rfl, ← h4]
      exact load64_target _ _
  · intro itemLen h168 h88
    exact (if_neg h168).trans (if_neg h88)

def countingCtx : WorkCtx :=
  ⟨(List.range stage3Len).map (BitVec.ofNat 8 ·), (List.range stage4Len).map (BitVec.ofNat 8 <| 128 + ·),
    0xf7f6f5f4f3f2f1f0#64, true⟩

theorem pack_unpack_counting :
    countingCtx.ss3.length = stage3Len ∧ countingCtx.ss4.length = stage4Len ∧
      (∃ item, worksrcPackItem countingCtx 168 = some item ∧
        let held : BitVec kRxBits := (item.flatMap bitsOf).foldl shiftIn (BitVec.allOnes kRxBits)
        unpackStage3 held 0 = 0x0706050403020100#64 ∧ unpackStage3 held 6 = 0x33323130#64 ∧
          unpackStage4 held 0 = 0x8786858483828180#64 ∧
          unpackStage4 held 9 = 0xcfcecdcccbcac9c8#64 ∧
          unpackTarget held = 0xf7f6f5f4f3f2f1f0#64) ∧
      ∃ item, worksrcPackItem countingCtx 88 = some item ∧
        let held : BitVec kSiaRxBits := (item.flatMap bitsOf).foldl shiftIn 0
        unpackHeader held 4 = 0xa7a6a5a4a3a2a1a0#64 ∧
          unpackSiaTarget held = 0xf7f6f5f4f3f2f1f0#64 := by
  obtain ⟨⟨item, hitem, -, hheld⟩, ⟨item', hitem', -, hheld'⟩, -⟩ :=
    pack_unpack countingCtx (by decide) (by decide)
  obtain ⟨hstage3, hstage4, htarget⟩ := hheld (BitVec.allOnes kRxBits)
  refine ⟨by decide, by decide, ⟨item, hitem, (hstage3 0).trans ?_, (hstage3 6).trans ?_,
    (hstage4 0).trans ?_, (hstage4 9).trans ?_, htarget⟩,
    item', hitem', ((hheld' 0).1 4).trans ?_, (hheld' 0).2⟩ <;>
  decide +kernel

end OspreyBlake2b.Miner
