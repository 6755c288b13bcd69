import OspreyBlake2b.Hash.Blake2b
import OspreyBlake2b.Hash.Sha256

/-! `miner/work_item.c`: the stage messages of a Knots header, the proof-of-work
hash, targets, and the 17-byte reply of the FPGA. -/

namespace OspreyBlake2b.Miner

open OspreyBlake2b.Lib OspreyBlake2b.Hash.Blake2b OspreyBlake2b.Hash.Sha256

def stage3Len : Nat := 52
def stage4Len : Nat := 80
def slots : Nat := 10
def workItemLen : Nat := 168
def resultLen : Nat := 17
def blake2bTargetShiftMainnet : Nat := 22

structure KnotsHeader where
  nVersion : U32
  hashPrevBlock : Vector Byte 32
  hashMerkleRoot : Vector Byte 32
  nTime : U32
  nBits : U32
  nNonce : U32
  mNonce2 : U32
  mNonce3 : U32
  mExtranonce : Vector Byte 16
  mTimeOffset : U32
  mTxcount : BitVec 16
  mFlags : Byte
  mXorKeyMaskClearBits : Byte
  mXorKey : Vector Byte 16
  mHeight : U32
  mMmRhs : Vector Byte 32
  deriving DecidableEq

def knotsHeaderInit : KnotsHeader where
  nVersion := 0x20000000#32
  hashPrevBlock := Vector.replicate 32 0
  hashMerkleRoot := Vector.replicate 32 0
  nTime := 0
  nBits := 0x1d00ffff#32
  nNonce := 0
  mNonce2 := 0
  mNonce3 := 0
  mExtranonce := Vector.replicate 16 0
  mTimeOffset := 0
  mTxcount := 0
  mFlags := 0
  mXorKeyMaskClearBits := 0
  mXorKey := Vector.replicate 16 0
  mHeight := 0
  mMmRhs := Vector.replicate 32 0

def headerV2Flag : U32 := 0x80000000#32
def useTimeOffset : Byte := 4

def knotsCompleteVersion (h : KnotsHeader) : U32 :=
  headerV2Flag ||| (h.nVersion &&& ~~~headerV2Flag)

def knotsTimeOnWire (h : KnotsHeader) : U32 :=
  if h.mFlags &&& useTimeOffset = 0 then h.nTime else h.nTime - h.mTimeOffset

structure Stages where
  ss3 : List Byte
  ss4 : List Byte
  hashA : List Byte

def h1Payload (h : KnotsHeader) : List Byte :=
  leBytes 4 (knotsCompleteVersion h) ++ h.hashPrevBlock.toList.reverse ++ leBytes 4 h.mHeight ++
    h.hashMerkleRoot.toList ++ leBytes 4 (knotsTimeOnWire h) ++ [0] ++ leBytes 4 h.nBits ++
    leBytes 4 (h.mTxcount.setWidth 32) ++ [h.mFlags] ++ [h.mXorKeyMaskClearBits] ++
    taggedHash "Bitcoin block hash PoW XOR key" h.mXorKey.toList

/-- `-1` is the only failure a header can cause: the two length checks compare
constants. -/
def stageInputs (h : KnotsHeader) : Option Stages :=
  if h.mFlags &&& 3 ≠ 0 then none
  else
    let h1Hash := taggedHash "Bitcoin block header 1" (h1Payload h)
    let h2Payload := h1Hash ++ List.replicate 32 0 ++ h.mMmRhs.toList
    let h2Hash := taggedHash "Merge-mining hook" h2Payload
    let ss3 := leBytes 4 (0 : U32) ++ h2Hash ++ h.mExtranonce.toList
    let hashA := blake2bNokey ss3 32
    let prevHidden := List.replicate 6 0 ++
      (taggedHash "Bitcoin prevblock header, hashed" h.hashPrevBlock.toList.reverse).drop 6
    let ss4 := prevHidden ++ leBytes 4 h.nNonce ++ leBytes 4 h.mNonce2 ++
      leBytes 4 h.mTimeOffset ++ leBytes 4 h.mNonce3 ++ hashA
    some ⟨ss3, ss4, hashA⟩

def buildWorkItem (h : KnotsHeader) (targetTop64 : U64) : Option (List Byte) :=
  (stageInputs h).map fun s =>
    s.ss3 ++ List.replicate (slots * 8 - stage3Len) 0 ++ s.ss4 ++ leBytes 8 targetTop64

def xorMask (h : KnotsHeader) : List Byte :=
  if h.mXorKey.toList.all (· = 0) then List.replicate 32 0
  else
    let mask := taggedHash "Bitcoin block hash PoW XOR mask" h.mXorKey.toList
    let clearBytes := h.mXorKeyMaskClearBits.toNat / 8
    let rem := h.mXorKeyMaskClearBits.toNat % 8
    let mask := List.replicate (min clearBytes 32) 0 ++ mask.drop clearBytes
    if rem ≠ 0 ∧ clearBytes < 32 then mask.modify clearBytes (· &&& (0xff#8 >>> rem)) else mask

def getPowHash (h : KnotsHeader) : Option (List Byte) :=
  (stageInputs h).map fun s =>
    ((blake2bNokey s.ss4 32).zipWith (· ^^^ ·) (xorMask h)).reverse

def setBit256 (out : List Byte) (pos : Nat) : List Byte :=
  out.modify (31 - pos / 8) (· ||| 1#8 <<< (pos % 8))

/-- `long` has 32 bits on the device.  A sum past its range is not wrapped here: it
only concerns bits that are dropped either way. -/
def compactToTargetShifted (nBits : U32) (shift : Nat) : List Byte :=
  let exp := ((nBits >>> 24) &&& 0xff#32).toNat
  let mant := nBits &&& 0x007fffff#32
  let zero := List.replicate 32 0
  if nBits &&& 0x00800000#32 ≠ 0 then zero
  else
    let long := (BitVec.ofNat 32 shift).toInt
    let mant := if exp ≤ 3 then mant >>> (8 * (3 - exp)) else mant
    let bitpos := if exp ≤ 3 then long else 8 * ((exp : Int) - 3) + long
    (List.range 24).foldl (fun out (b : Nat) =>
      if (mant >>> b) &&& 1 = 0 then out
      else if bitpos + b < 0 ∨ bitpos + b ≥ 256 then out
      else setBit256 out (bitpos + b).toNat) zero

def top64 (t : List Byte) : U64 := beWord 64 (t.take 8)

def targetTop64FromBits (nBits : U32) (shift : Nat) : U64 :=
  top64 (compactToTargetShifted nBits shift)

def hashMeetsTarget (hashBe targetBe : List Byte) : Bool := memcmp hashBe targetBe ≤ 0

structure FpgaResult where
  success : Bool
  nonce : U64
  hashTop64 : U64
  deriving DecidableEq

/-- `none` is the return value `-1`. -/
def parseResult (buf : List Byte) : Option FpgaResult :=
  let r : FpgaResult :=
    { success := buf.headD 0 = 0x01#8
      nonce := leWord 64 ((buf.drop 1).take 8)
      hashTop64 := leWord 64 ((buf.drop 9).take 8) }
  if r.success then some r else none

end OspreyBlake2b.Miner
