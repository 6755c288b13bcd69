import OspreyBlake2b.Lib.Double
import OspreyBlake2b.Miner.Bech32
import OspreyBlake2b.Miner.WorkItem

/-! `miner/coinbase.c`, `miner/merkle.c` and `miner/block.c`: the coinbase of a
template, the merkle root over it, and the block that goes to the node. -/

namespace OspreyBlake2b.Miner

open OspreyBlake2b.Lib OspreyBlake2b.Hash.Sha256

/-- Bitcoin's CompactSize; the two files have the same copy. -/
def putCompact (v : U64) : List Byte :=
  if v < 0xfd#64 then leBytes 1 v
  else if v ≤ 0xffff#64 then 0xfd#8 :: leBytes 2 v
  else if v ≤ 0xffffffff#64 then 0xfe#8 :: leBytes 4 v
  else 0xff#8 :: leBytes 8 v

def hexBytes : List Byte → Option (List Byte)
  | hi :: lo :: hex => do
    let h ← hexval hi
    let l ← hexval lo
    let rest ← hexBytes hex
    return BitVec.ofNat 8 (h * 16 + l) :: rest
  | _ => some []

/-- The static `hex2bin` of `coinbase.c`. -/
def coinbaseHex2bin (hex : List Byte) (outsz : Nat) : Option (List Byte) :=
  if hex.length % 2 ≠ 0 then none
  else if hex.length / 2 > outsz then none
  else hexBytes hex

def heightLoop : Nat → U32 → List Byte
  | 0, _ => []
  | n + 1, h => if h = 0 then [] else h.setWidth 8 :: heightLoop n (h >>> 8)

def pushHeight (height : U32) : List Byte :=
  let tmp := heightLoop 4 height
  let tmp :=
    if tmp = [] then [0]
    else if tmp.getLastD 0 &&& 0x80#8 ≠ 0 then tmp ++ [0]
    else tmp
  BitVec.ofNat 8 tmp.length :: tmp

/-- The two serialisations are `raw[0 .. raw_len)` and `stripped[0 .. stripped_len)`. -/
structure Coinbase where
  raw : List Byte
  stripped : List Byte
  txid : List Byte
  deriving DecidableEq

def zeroCoinbase : Coinbase := ⟨[], [], List.replicate 32 0⟩

def scriptSig (height : U32) (extranonce : U64) : List Byte :=
  pushHeight height ++ [8] ++ leBytes 8 extranonce

def coinbaseBody (script spk wc : List Byte) (value : U64) : List Byte :=
  putCompact 1 ++ List.replicate 32 0 ++ leBytes 4 0xffffffff#32 ++
    putCompact (BitVec.ofNat 64 script.length) ++ script ++ leBytes 4 0xffffffff#32 ++
    putCompact (if wc.length ≠ 0 then 2 else 1) ++ leBytes 8 value ++
    putCompact (BitVec.ofNat 64 spk.length) ++ spk ++
    if wc.length ≠ 0 then leBytes 8 (0 : U64) ++ putCompact (BitVec.ofNat 64 wc.length) ++ wc
    else []

def coinbaseOf (script spk wc : List Byte) (value : U64) : Coinbase :=
  let body := coinbaseBody script spk wc value
  let stripped := leBytes 4 (2 : U32) ++ body ++ leBytes 4 (0 : U32)
  { raw := leBytes 4 (2 : U32) ++ [0x00#8, 0x01#8] ++ body ++ putCompact 1 ++ putCompact 32 ++
      List.replicate 32 0 ++ leBytes 4 (0 : U32)
    stripped := stripped
    txid := sha256d stripped }

/-- The error is the return value; `cb` is then zero.  An empty commitment counts
as none. -/
def coinbaseBuild (address : List Byte) (value : U64) (height : U32) (extranonce : U64)
    (witnessCommitmentHex : List Byte) : Except Int Coinbase :=
  match bech32DecodeAddr address with
  | none => .error (-2)
  | some a =>
    match bech32Scriptpubkey a 64 with
    | none => .error (-3)
    | some spk =>
      match coinbaseHex2bin witnessCommitmentHex 64 with
      | none => .error (-4)
      | some wc => .ok (coinbaseOf (scriptSig height extranonce) spk wc value)

/-- One row, in place: slot `i` is written after the slots it is computed from have
been read. -/
def merkleRow (count : Nat) (ids : List (List Byte)) : List (List Byte) :=
  (List.range ((count + 1) / 2)).foldl (fun ids i =>
    let left := ids.getD (2 * i) []
    let right := if 2 * i + 1 < count then ids.getD (2 * i + 1) [] else left
    ids.set i (sha256d (left ++ right))) ids

/-- `while (count > 1)`: `count` is fuel enough, as every row is shorter. -/
def merkleLoop : Nat → Nat → List (List Byte) → List (List Byte)
  | 0, _, ids => ids
  | fuel + 1, count, ids =>
    if count > 1 then merkleLoop fuel ((count + 1) / 2) (merkleRow count ids) else ids

/-- The root of all of `ids`; `none` is `-1`. -/
def merkleRoot (ids : List (List Byte)) : Option (List Byte) :=
  if ids.length = 0 then none else some ((merkleLoop ids.length ids.length ids).headD [])

def blockHeaderV2Len : Nat := 164

def blockSerializeHeader (h : KnotsHeader) : List Byte :=
  leBytes 4 (knotsCompleteVersion h) ++ h.hashPrevBlock.toList ++ h.hashMerkleRoot.toList ++
    leBytes 4 (knotsTimeOnWire h) ++ leBytes 4 h.nBits ++ leBytes 4 h.nNonce ++
    leBytes 4 h.mNonce2 ++ leBytes 4 h.mNonce3 ++ h.mExtranonce.toList ++
    leBytes 4 h.mTimeOffset ++ leBytes 2 h.mTxcount ++ [h.mFlags] ++
    [h.mXorKeyMaskClearBits] ++ h.mXorKey.toList ++ leBytes 4 h.mHeight ++ h.mMmRhs.toList

/-- `tx_count + 1` is a `size_t`, which has 32 bits on the device. -/
def blockSerialize (h : KnotsHeader) (coinbaseRaw txData : List Byte) (txCount outsz : Nat) :
    Option (List Byte) :=
  if outsz < blockHeaderV2Len + 9 + coinbaseRaw.length + txData.length then none
  else some (blockSerializeHeader h ++ putCompact ((BitVec.ofNat 32 txCount + 1).setWidth 64) ++
    coinbaseRaw ++ txData)

end OspreyBlake2b.Miner
