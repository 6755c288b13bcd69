import OspreyBlake2b.Lib.JsonParse
import OspreyBlake2b.Lib.Utf8
import OspreyBlake2b.Miner.WorksrcStratum
import OspreyBlake2b.Zynq.Blake2bReference

/-! `zynq/sia_reference.py`, and how `zynq/stratum_test_server.py` reads and grades a
submission with it.  An exception is `none`. -/

namespace OspreyBlake2b.Zynq

open OspreyBlake2b.Lib OspreyBlake2b.Lib.JsonText OspreyBlake2b.Miner

/-- `bytes.fromhex`: blanks may stand between two bytes. -/
def fromHex : List Byte → Option (List Byte)
  | [] => some []
  | c :: t =>
    if isspace c then fromHex t
    else
      match t with
      | [] => none
      | d :: t =>
        match hexval c, hexval d with
        | some hi, some lo => (fromHex t).map fun bs => BitVec.ofNat 8 (hi * 16 + lo) :: bs
        | _, _ => none

def fromBytesLittle (data : List Byte) : Int := leVal data

/-- Stratum mixes raw bytes and hex strings. -/
inductive BytesArg where
  | bytes (b : List Byte)
  | hex (text : List Byte)

def asBytes : BytesArg → Option (List Byte)
  | .bytes b => some b
  | .hex text => fromHex text

def stage4Len : Nat := 80

def leafTag : List Byte := [0x00#8]
def nodeTag : List Byte := [0x01#8]

def arbitraryTx (coinb1 extranonce1 extranonce2 coinb2 : BytesArg) : Option (List Byte) := do
  let cb1 ← asBytes coinb1
  let en1 ← asBytes extranonce1
  let en2 ← asBytes extranonce2
  let cb2 ← asBytes coinb2
  return cb1 ++ en1 ++ en2 ++ cb2

def buildHeader (prevhash nonce ntime merkleroot : BytesArg) : Option (List Byte) := do
  let prev ← asBytes prevhash
  let nonce ← asBytes nonce
  let time ← asBytes ntime
  let root ← asBytes merkleroot
  let hdr := prev ++ nonce ++ time ++ root
  guard (hdr.length = stage4Len)
  return hdr

variable (lib : Hashlib)

def arbtxLeaf (arbtx : BytesArg) : Option (List Byte) := do
  let b ← asBytes arbtx
  return blake2bNokey lib (leafTag ++ b) 32

/-- One step of the fold: the pool's branch is the left child. -/
def foldBranch (acc : List Byte) (br : BytesArg) : Option (List Byte) := do
  let b ← asBytes br
  guard (b.length = 32)
  return blake2bNokey lib (nodeTag ++ b ++ acc) 32

def merkleRootFromBranches (leaf : BytesArg) (branches : List BytesArg) : Option (List Byte) := do
  let acc ← asBytes leaf
  guard (acc.length = 32)
  branches.foldlM (foldBranch lib) acc

def powCompareValue (header : BytesArg) : Option Int := do
  let b ← asBytes header
  return fromBytesLittle (blake2bNokey lib b 32)

def siaCompareValue (header : BytesArg) : Option Int := do
  let b ← asBytes header
  return fromBytesBig (blake2bNokey lib b 32)

structure FixtureJob where
  prevhash : BytesArg
  coinb1 : BytesArg
  coinb2 : BytesArg
  branches : List BytesArg

def gradeHeader (job : FixtureJob) (extranonce1 extranonce2 ntime nonce : List Byte) :
    Option (List Byte) := do
  let arbtx ← arbitraryTx job.coinb1 (.bytes extranonce1) (.bytes extranonce2) job.coinb2
  let leaf ← arbtxLeaf lib (.bytes arbtx)
  let root ← merkleRootFromBranches lib (.bytes leaf) job.branches
  buildHeader job.prevhash (.bytes nonce) (.bytes ntime) (.bytes root)

def compareValue (chain : Chain) (header : List Byte) : Option Int :=
  match chain with
  | .sia => siaCompareValue lib (.bytes header)
  | .knots => powCompareValue lib (.bytes header)

/-- Whether `grade` accepts; `target` is what the difficulty comes to. -/
def grade (chain : Chain) (target : Int) (job : FixtureJob)
    (extranonce1 extranonce2 ntime nonce : List Byte) : Option Bool := do
  let header ← gradeHeader lib job extranonce1 extranonce2 ntime nonce
  let value ← compareValue lib chain header
  return value ≤ target

structure Submission where
  worker : List Byte
  jobId : List Byte
  extranonce2 : List Byte
  ntime : List Byte
  nonce : List Byte

/-- From the line on the wire to what `on_submit` grades.  That `extranonce2` has the
eight bytes this server asks for is not part of the dialect. -/
def readSubmit (line : List Byte) : Option Submission := do
  let msg ← Json.parse (Utf8.decode line)
  match msg.get "method", msg.get "params" with
  | some (.str method), some (.arr params) =>
    guard (method = ascii "mining.submit")
    match params.take 5 with
    | [.str worker, .str jobId, .str en2Hex, .str ntimeHex, .str nonceHex] =>
      guard (ntimeHex.length = 16 ∧ nonceHex.length = 16)
      let en2 ← fromHex en2Hex
      let ntime ← fromHex ntimeHex
      let nonce ← fromHex nonceHex
      return ⟨worker, jobId, en2, ntime, nonce⟩
    | _ => none
  | _, _ => none

end OspreyBlake2b.Zynq
