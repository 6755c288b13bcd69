import OspreyBlake2b.Miner.WorkItem
import Mathlib.Data.Int.Bitwise

/-! `zynq/blake2b_reference.py`: the golden reference of the proof-of-work hash.  A Python
integer is an `Int`, `bytes` and `bytearray` are byte lists, an exception is `none`. -/

namespace OspreyBlake2b.Zynq

open OspreyBlake2b.Lib OspreyBlake2b.Hash

/-- What the script imports from `hashlib`. -/
structure Hashlib where
  sha256 : List Byte → List Byte
  blake2b : List Byte → Nat → List Byte

/-- `hashlib` computes the hash functions of the miner; `digest_size` is 1 to 64. -/
structure Hashlib.Agrees (lib : Hashlib) : Prop where
  sha256 : ∀ data, lib.sha256 data = Sha256.sha256 data
  blake2b : ∀ data outlen, 1 ≤ outlen → outlen ≤ 64 →
    lib.blake2b data outlen = Blake2b.blake2bNokey data outlen

def Hashlib.miner : Hashlib := ⟨Sha256.sha256, Blake2b.blake2bNokey⟩

theorem Hashlib.miner_agrees : Hashlib.miner.Agrees := ⟨fun _ => rfl, fun _ _ _ _ => rfl⟩

/-- `struct.pack` of an unsigned little-endian field of `n` bytes. -/
def packU (n : Nat) (v : Int) : Option (List Byte) :=
  if 0 ≤ v ∧ v < 2 ^ (8 * n) then some (leBytes n (BitVec.ofInt (8 * n) v)) else none

def packI (n : Nat) (v : Int) : Option (List Byte) :=
  if -2 ^ (8 * n - 1) ≤ v ∧ v < 2 ^ (8 * n - 1) then some (leBytes n (BitVec.ofInt (8 * n) v))
  else none

def fromBytesBig (data : List Byte) : Int := beVal data

variable (lib : Hashlib)

def taggedHashPrefix (tag : String) : List Byte :=
  let th := lib.sha256 (ascii tag)
  th ++ th

def taggedHash (tag : String) (payload : List Byte) : List Byte :=
  lib.sha256 (taggedHashPrefix lib tag ++ payload)

def blake2bNokey (data : List Byte) (outlen : Nat) : List Byte := lib.blake2b data outlen

def compactToTarget (nBits : Int) : Int :=
  let exp := Int.land (nBits >>> (24 : Nat)) 0xff
  let mant := Int.land nBits 0x007fffff
  let negative := Int.land nBits 0x00800000 ≠ 0
  let target :=
    if exp ≤ 3 then mant >>> (8 * (3 - exp)).toNat else mant <<< (8 * (exp - 3)).toNat
  if negative then -target else target

def applyBlake2bTargetShift (nBits : Int) (shift : Nat) : Int := compactToTarget nBits <<< shift

structure KnotsBlockHeaderV2 where
  nVersion : Int
  hashPrevBlock : List Byte
  hashMerkleRoot : List Byte
  nTime : Int
  nBits : Int
  nNonce : Int
  mNonce2 : Int
  mNonce3 : Int
  mExtranonce : List Byte
  mTimeOffset : Int
  mTxcount : Int
  mFlags : Int
  mXorKeyMaskClearBits : Int
  mXorKey : List Byte
  mHeight : Int
  mMmRhs : List Byte

namespace KnotsBlockHeaderV2

def versionHeaderV2Flag : Int := 0x80000000

def getCompleteVersion (hdr : KnotsBlockHeaderV2) : Int :=
  Int.lor versionHeaderV2Flag (Int.land hdr.nVersion (Int.lnot versionHeaderV2Flag))

def getTimeOnWire (hdr : KnotsBlockHeaderV2) : Int :=
  if Int.land hdr.mFlags 4 = 0 then hdr.nTime
  else Int.land (hdr.nTime - hdr.mTimeOffset) 0xffffffff

end KnotsBlockHeaderV2

def h1Payload (hdr : KnotsBlockHeaderV2) : Option (List Byte) := do
  let version ← packU 4 hdr.getCompleteVersion
  let height ← packI 4 hdr.mHeight
  let time ← packU 4 hdr.getTimeOnWire
  let nBits ← packU 4 hdr.nBits
  let txcount ← packU 4 hdr.mTxcount
  let flags ← packU 1 hdr.mFlags
  let clearBits ← packU 1 hdr.mXorKeyMaskClearBits
  let payload := version ++ hdr.hashPrevBlock.reverse ++ height ++ hdr.hashMerkleRoot ++ time ++
    [0] ++ nBits ++ txcount ++ flags ++ clearBits ++
    taggedHash lib "Bitcoin block hash PoW XOR key" hdr.mXorKey
  guard (payload.length = 119)
  return payload

def stage4 (hdr : KnotsBlockHeaderV2) (h2Hash hashA : List Byte) : Option (List Byte) := do
  let mode := Int.land hdr.mFlags 3
  let nNonce ← packU 4 hdr.nNonce
  let nonce2 ← packU 4 hdr.mNonce2
  let nonce3 ← packU 4 hdr.mNonce3
  let timeOffset ← packU 4 hdr.mTimeOffset
  let words := nNonce ++ nonce2 ++ timeOffset ++ nonce3 ++ hashA
  if mode = 0 then
    let hidden := taggedHash lib "Bitcoin prevblock header, hashed" hdr.hashPrevBlock.reverse
    guard (6 ≤ hidden.length)
    return List.replicate 6 0 ++ hidden.drop 6 ++ words
  else if mode = 1 then return nNonce ++ nonce2 ++ nonce3 ++ timeOffset ++ hashA ++ h2Hash
  else if mode = 2 then return List.replicate 80 0 ++ h2Hash ++ words
  else if mode = 3 then return List.replicate 32 0 ++ List.replicate 80 0 ++ h2Hash ++ words
  else none

/-- Writing past the mask is an `IndexError`. -/
def xorKeyMask (hdr : KnotsBlockHeaderV2) : Option (List Byte) := do
  if hdr.mXorKey = List.replicate 16 0 then return List.replicate 32 0
  else
    let mask := taggedHash lib "Bitcoin block hash PoW XOR mask" hdr.mXorKey
    let clearBytes := (hdr.mXorKeyMaskClearBits / 8).toNat
    guard (clearBytes ≤ mask.length)
    let mask := List.replicate clearBytes 0 ++ mask.drop clearBytes
    let remBits := (hdr.mXorKeyMaskClearBits % 8).toNat
    if remBits ≠ 0 then
      guard (clearBytes < mask.length)
      return mask.modify clearBytes (· &&& (0xff#8 >>> remBits))
    else return mask

def getPowHash (hdr : KnotsBlockHeaderV2) : Option (List Byte) := do
  let h1Payload ← h1Payload lib hdr
  let h1Hash := taggedHash lib "Bitcoin block header 1" h1Payload
  let h2Payload := h1Hash ++ List.replicate 32 0 ++ hdr.mMmRhs
  guard (h2Payload.length = 96)
  let h2Hash := taggedHash lib "Merge-mining hook" h2Payload
  let zero ← packU 4 0
  let ss3 := zero ++ h2Hash ++ hdr.mExtranonce
  guard (ss3.length = 52)
  let hashA := blake2bNokey lib ss3 32
  let ss4 ← stage4 lib hdr h2Hash hashA
  let hashB := blake2bNokey lib ss4 32
  let mask ← xorKeyMask lib hdr
  guard (32 ≤ hashB.length ∧ 32 ≤ mask.length)
  return ((hashB.take 32).zipWith (· ^^^ ·) (mask.take 32)).reverse

def meetsTarget (finalHash : List Byte) (nBits : Int) (blake2bTargetShift : Nat) : Bool :=
  fromBytesBig finalHash ≤ applyBlake2bTargetShift nBits blake2bTargetShift

end OspreyBlake2b.Zynq
