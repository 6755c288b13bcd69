import OspreyBlake2b.Miner.WorkItem

/-! `miner/sia_stratum.c`: from a Sia-dialect stratum job to the stage messages
of the FPGA, and the two chains' readings of the digest. -/

namespace OspreyBlake2b.Miner

open OspreyBlake2b.Lib OspreyBlake2b.Hash.Blake2b

def stratumMaxBranches : Nat := 32
def stratumMaxCb : Nat := 512
def stratumMaxEn1 : Nat := 32
def stratumMaxEn2 : Nat := 32

structure StratumJob where
  jobId : List Byte
  prevhash : Vector Byte 32
  coinb1 : List Byte
  coinb2 : List Byte
  branches : List (Vector Byte 32)
  ntime : Vector Byte 8
  nbits : U32
  clean : Bool
  seq : U64
  deriving DecidableEq

def siaArbtx (j : StratumJob) (en1 en2 : List Byte) (maxlen : Nat) : Option (List Byte) :=
  if j.coinb1.length + en1.length + en2.length + j.coinb2.length > maxlen then none
  else some (j.coinb1 ++ en1 ++ en2 ++ j.coinb2)

def siaArbtxLeaf (arbtx : List Byte) : List Byte :=
  blake2bNokey ([0x00#8] ++ arbtx.take (4 * stratumMaxCb)) 32

def siaMerkleRoot (j : StratumJob) (leaf : List Byte) : List Byte :=
  j.branches.foldl (fun acc br => blake2bNokey ([0x01#8] ++ br.toList ++ acc) 32) leaf

/-- The 80 bytes both builders write: the nonce slot stays zero. -/
def headerOf (j : StratumJob) (merkleroot : List Byte) : List Byte :=
  j.prevhash.toList ++ List.replicate 8 0 ++ j.ntime.toList ++ merkleroot

structure BuiltStages where
  ss3 : List Byte
  ss4 : List Byte
  merkleroot : List Byte

def siaBuildStages (j : StratumJob) (en1 en2 : List Byte) : Option BuiltStages := do
  let arbtx ← siaArbtx j en1 en2 (4 * stratumMaxCb)
  if arbtx.length + 1 ≠ stage3Len then none
  else
    let root := siaMerkleRoot j (siaArbtxLeaf arbtx)
    return ⟨[0x00#8] ++ arbtx, headerOf j root, root⟩

def putNonce (ss4 : List Byte) (nonce : U64) : List Byte :=
  ss4.take 32 ++ leBytes 8 nonce ++ ss4.drop 40

def siaExpectedTop64 (ss4 : List Byte) (nonce : U64) : U64 :=
  beWord 64 ((blake2bNokey (putNonce ss4 nonce) 32).drop 24)

/-- Bitcoin's convention: the compare value is the digest reversed. -/
def siaPowCompare (ss4 : List Byte) (nonce : U64) : List Byte :=
  (blake2bNokey (putNonce ss4 nonce) 32).reverse

def siaBuildHeader (j : StratumJob) (en1 en2 : List Byte) : Option (List Byte × List Byte) := do
  let arbtx ← siaArbtx j en1 en2 (4 * stratumMaxCb)
  let root := siaMerkleRoot j (siaArbtxLeaf arbtx)
  return (headerOf j root, root)

def siaChainExpectedTop64 (header : List Byte) (nonce : U64) : U64 :=
  beWord 64 ((blake2bNokey (putNonce header nonce) 32).take 8)

/-- Siacoin compares the digest exactly as it is emitted. -/
def siaChainPowCompare (header : List Byte) (nonce : U64) : List Byte :=
  blake2bNokey (putNonce header nonce) 32

end OspreyBlake2b.Miner
