import OspreyBlake2b.Lib.Decode
import OspreyBlake2b.Miner.WorkItemLaws

namespace OspreyBlake2b.Miner

open OspreyBlake2b.Lib OspreyBlake2b.Lib.Decoder

/-- The time on the wire becomes the block's time by adding the offset back. -/
def readHeader : Decoder KnotsHeader := do
  let nVersion ← word 32 4
  let hashPrevBlock ← bytes 32
  let hashMerkleRoot ← bytes 32
  let time ← word 32 4
  let nBits ← word 32 4
  let nNonce ← word 32 4
  let mNonce2 ← word 32 4
  let mNonce3 ← word 32 4
  let mExtranonce ← bytes 16
  let mTimeOffset ← word 32 4
  let mTxcount ← word 16 2
  let mFlags ← word 8 1
  let mXorKeyMaskClearBits ← word 8 1
  let mXorKey ← bytes 16
  let mHeight ← word 32 4
  let mMmRhs ← bytes 32
  return {
    nVersion, hashPrevBlock, hashMerkleRoot, nBits, nNonce, mNonce2, mNonce3, mExtranonce
    mTimeOffset, mTxcount, mFlags, mXorKeyMaskClearBits, mXorKey, mHeight, mMmRhs
    nTime := if mFlags &&& useTimeOffset = 0 then time else time + mTimeOffset }

def readCompact : Decoder U64 := do
  let b ← word 64 1
  if b < 0xfd#64 then return b
  else if b = 0xfd#64 then word 64 2
  else if b = 0xfe#64 then word 64 4
  else word 64 8

theorem word_two (v : BitVec 16) (rest : List Byte) :
    word 16 2 (leBytes 2 v ++ rest) = some (v, rest) := word_leBytes 2 v rest

theorem word_four (v : U32) (rest : List Byte) :
    word 32 4 (leBytes 4 v ++ rest) = some (v, rest) := word_leBytes 4 v rest

theorem word_one (b : Byte) (rest : List Byte) : word 8 1 ([b] ++ rest) = some (b, rest) := by
  simp [word, leWord]

def nodeHeader (h : KnotsHeader) : KnotsHeader := { h with
  nVersion := knotsCompleteVersion h
  nTime := if h.mFlags &&& useTimeOffset = 0 then knotsTimeOnWire h
    else knotsTimeOnWire h + h.mTimeOffset }

theorem readHeader_blockSerializeHeader (h : KnotsHeader) (rest : List Byte) :
    readHeader (blockSerializeHeader h ++ rest) = some (nodeHeader h, rest) := by
  rw [blockSerializeHeader]
  simp only [List.append_assoc]
  rw [readHeader, bind_of_eq (word_four _ _), bind_of_eq (bytes_toList _ _),
    bind_of_eq (bytes_toList _ _), bind_of_eq (word_four _ _), bind_of_eq (word_four _ _),
    bind_of_eq (word_four _ _), bind_of_eq (word_four _ _), bind_of_eq (word_four _ _),
    bind_of_eq (bytes_toList _ _), bind_of_eq (word_four _ _), bind_of_eq (word_two _ _),
    bind_of_eq (word_one _ _), bind_of_eq (word_one _ _), bind_of_eq (bytes_toList _ _),
    bind_of_eq (word_four _ _), bind_of_eq (bytes_toList _ _)]
  rfl

theorem readCompact_putCompact (v : U64) (rest : List Byte) :
    readCompact (putCompact v ++ rest) = some (v, rest) := by
  have hmark : ∀ (b : Byte) (bs : List Byte), word 64 1 (b :: bs) = some (b.setWidth 64, bs) := by
    intro b bs
    simp [word, leWord]
  rw [putCompact, readCompact]
  split
  · rename_i h
    have hv : v.toNat < 256 ^ 1 := Nat.lt_trans (BitVec.lt_def.mp h) (by decide)
    rw [bind_of_eq (word_leBytes_of_lt (by decide) hv rest), if_pos h]
    rfl
  split
  · rename_i h
    have hv : v.toNat < 256 ^ 2 := Nat.lt_of_le_of_lt (BitVec.le_def.mp h) (by decide)
    rw [List.cons_append, bind_of_eq (hmark _ _), if_neg (by decide), if_pos (by decide)]
    exact word_leBytes_of_lt (by decide) hv rest
  split
  · rename_i h
    have hv : v.toNat < 256 ^ 4 := Nat.lt_of_le_of_lt (BitVec.le_def.mp h) (by decide)
    rw [List.cons_append, bind_of_eq (hmark _ _), if_neg (by decide), if_neg (by decide),
      if_pos (by decide)]
    exact word_leBytes_of_lt (by decide) hv rest
  · rw [List.cons_append, bind_of_eq (hmark _ _), if_neg (by decide), if_neg (by decide),
      if_neg (by decide)]
    exact word_leBytes 8 v rest

theorem blockSerializeHeader_length (h : KnotsHeader) :
    (blockSerializeHeader h).length = 164 := by
  simp [blockSerializeHeader]

theorem nodeHeader_nVersion (h : KnotsHeader) : (nodeHeader h).nVersion = h.nVersion ||| headerV2Flag := by
  apply BitVec.eq_of_getLsbD_eq
  intro i hi
  simp only [nodeHeader, knotsCompleteVersion, BitVec.getLsbD_or, BitVec.getLsbD_and,
    BitVec.getLsbD_not, hi, decide_true, Bool.true_and]
  cases headerV2Flag.getLsbD i <;> simp

theorem nodeHeader_nTime (h : KnotsHeader) : (nodeHeader h).nTime = h.nTime := by
  simp only [nodeHeader, knotsTimeOnWire]
  split
  · rfl
  · exact BitVec.sub_add_cancel _ _

theorem getPowHash_nodeHeader (h : KnotsHeader) : getPowHash (nodeHeader h) = getPowHash h := by
  have hversion : knotsCompleteVersion (nodeHeader h) = knotsCompleteVersion h := by
    apply BitVec.eq_of_getLsbD_eq
    intro i hi
    simp only [knotsCompleteVersion, nodeHeader_nVersion, BitVec.getLsbD_or, BitVec.getLsbD_and,
      BitVec.getLsbD_not, hi, decide_true, Bool.true_and]
    cases headerV2Flag.getLsbD i <;> simp
  have htime : knotsTimeOnWire (nodeHeader h) = knotsTimeOnWire h := by
    rw [knotsTimeOnWire, nodeHeader_nTime]
    rfl
  have hpayload : h1Payload (nodeHeader h) = h1Payload h := by
    rw [h1Payload, hversion, htime]
    rfl
  have hstages : stageInputs (nodeHeader h) = stageInputs h := by
    rw [stageInputs, hpayload]
    rfl
  rw [getPowHash, hstages]
  rfl

theorem blockSerialize_fits (h : KnotsHeader) {coinbase txs : List Byte} {outsz : Nat} (count : Nat)
    (hfit : blockHeaderV2Len + 9 + coinbase.length + txs.length ≤ outsz) :
    blockSerialize h coinbase txs count outsz =
      some (blockSerializeHeader h ++ putCompact ((BitVec.ofNat 32 count + 1).setWidth 64) ++
        coinbase ++ txs) := by
  rw [blockSerialize, if_neg (by omega)]

theorem count_setWidth {count : Nat} (hcount : count < 2 ^ 32 - 1) :
    (BitVec.ofNat 32 count + 1).setWidth 64 = BitVec.ofNat 64 (count + 1) := by
  apply BitVec.eq_of_toNat_eq
  have hone : (1 : BitVec 32).toNat = 1 := rfl
  simp only [BitVec.toNat_setWidth, BitVec.toNat_add, BitVec.toNat_ofNat, hone]
  omega

theorem append_putCompact_inj {hd hd' rest rest' : List Byte} {v v' : U64}
    (hlen : hd.length = hd'.length)
    (heq : hd ++ putCompact v ++ rest = hd' ++ putCompact v' ++ rest') :
    hd = hd' ∧ v = v' ∧ rest = rest' := by
  simp only [List.append_assoc] at heq
  obtain ⟨hhd, htail⟩ := List.append_inj heq hlen
  have hread := readCompact_putCompact v rest
  rw [htail, readCompact_putCompact] at hread
  obtain ⟨hv, hrest⟩ := Prod.mk.inj (Option.some.inj hread)
  exact ⟨hhd, hv.symm, hrest.symm⟩

theorem block_reads_back (h : KnotsHeader) (coinbase txs : List Byte) (count outsz : Nat)
    (hcount : count < 2 ^ 32 - 1)
    (hfit : blockHeaderV2Len + 9 + coinbase.length + txs.length ≤ outsz) :
    (blockSerializeHeader h).length = 164 ∧
      readHeader (blockSerializeHeader h) = some ({ h with
        nVersion := h.nVersion ||| 0x80000000#32
        nTime := if h.mFlags &&& 4 = 0 then knotsTimeOnWire h
          else knotsTimeOnWire h + h.mTimeOffset }, []) ∧
      (h.mFlags &&& 3 = 0 → ∃ d pow, readHeader (blockSerializeHeader h) = some (d, []) ∧
        getPowHash d = some pow ∧ getPowHash h = some pow) ∧
      ∃ blk, blockSerialize h coinbase txs count outsz = some blk ∧
        blk.take 164 = blockSerializeHeader h ∧
        readCompact (blk.drop 164) = some (BitVec.ofNat 64 (count + 1), coinbase ++ txs) ∧
        ∀ hd v rest, hd.length = 164 → blk = hd ++ putCompact v ++ rest →
          hd = blockSerializeHeader h ∧ v = BitVec.ofNat 64 (count + 1) ∧ rest = coinbase ++ txs := by
  have hlen := blockSerializeHeader_length h
  have hread := readHeader_blockSerializeHeader h []
  rw [List.append_nil] at hread
  refine ⟨hlen, ?_, ?_, _, blockSerialize_fits h count hfit, ?_, ?_, ?_⟩
  · rw [hread]
    exact congrArg (fun v => some ({ nodeHeader h with nVersion := v }, ([] : List Byte)))
      (nodeHeader_nVersion h)
  · intro hmode
    obtain ⟨s, hs⟩ := stageInputs_isSome hmode
    obtain ⟨pow, hpow⟩ : ∃ pow, getPowHash h = some pow :=
      ⟨_, by rw [getPowHash, hs, Option.map_some]⟩
    exact ⟨nodeHeader h, pow, hread, (getPowHash_nodeHeader h).trans hpow, hpow⟩
  · simp only [List.append_assoc]
    exact List.take_left' hlen
  · rw [count_setWidth hcount, List.append_assoc, List.append_assoc, List.drop_left' hlen]
    exact readCompact_putCompact _ _
  · intro hd v rest hhd heq
    rw [count_setWidth hcount, List.append_assoc _ coinbase] at heq
    obtain ⟨hh, hv, hr⟩ := append_putCompact_inj (hlen.trans hhd.symm) heq
    exact ⟨hh.symm, hv.symm, hr.symm⟩

def offsetHeader : KnotsHeader :=
  { knotsHeaderInit with
    nVersion := 0x20000004#32
    hashPrevBlock := Vector.ofFn fun i => BitVec.ofNat 8 (i.val + 1)
    nTime := 0x65000100#32
    nNonce := 0x01020304#32
    mNonce2 := 0x05060708#32
    mTimeOffset := 60
    mFlags := 4
    mHeight := 840000 }

theorem block_reads_back_offset :
    readHeader (blockSerializeHeader offsetHeader) =
        some ({ offsetHeader with nVersion := 0xa0000004#32 }, []) ∧
      (∃ d pow, readHeader (blockSerializeHeader offsetHeader) = some (d, []) ∧
        getPowHash d = some pow ∧ getPowHash offsetHeader = some pow) ∧
      ∃ blk, blockSerialize offsetHeader [1, 2, 3] [4, 5, 6, 7] 300 256 = some blk ∧
        blk.take 164 = blockSerializeHeader offsetHeader ∧
        readCompact (blk.drop 164) = some (301, [1, 2, 3, 4, 5, 6, 7]) := by
  obtain ⟨-, hheader, hhash, blk, hblk, htake, hread, -⟩ :=
    block_reads_back offsetHeader [1, 2, 3] [4, 5, 6, 7] 300 256 (by decide) (by decide)
  exact ⟨hheader, hhash rfl, blk, hblk, htake, hread⟩

/-- The count wraps: the largest `size_t` comes out as no transaction at all. -/
theorem block_of_size_max :
    ∃ blk, blockSerialize knotsHeaderInit [1#8] [] (2 ^ 32 - 1) 256 = some blk ∧
      readCompact (blk.drop 164) = some (0, [1#8]) ∧ (2 ^ 32 - 1) + 1 ≠ (0 : U64).toNat := by
  refine ⟨_, blockSerialize_fits _ _ (by decide), ?_, by decide⟩
  rw [List.append_assoc, List.append_assoc, List.drop_left' (blockSerializeHeader_length _)]
  exact readCompact_putCompact 0 [1#8]

end OspreyBlake2b.Miner
