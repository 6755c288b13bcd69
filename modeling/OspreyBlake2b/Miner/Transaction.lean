import OspreyBlake2b.Miner.BlockLaws

/-! Transactions in the extended serialisation: what a node reads, the same
transaction written back with and without its witness, and the pushes of a script. -/

namespace OspreyBlake2b.Miner

open OspreyBlake2b.Lib OspreyBlake2b.Lib.Decoder

structure TxIn where
  prevHash : Vector Byte 32
  prevIndex : U32
  script : List Byte
  sequence : U32
  deriving DecidableEq

structure TxOut where
  value : U64
  script : List Byte
  deriving DecidableEq

/-- The witness has one stack of items for each input. -/
structure Tx where
  version : U32
  ins : List TxIn
  outs : List TxOut
  witness : List (List (List Byte))
  lockTime : U32
  deriving DecidableEq

section Writing

def putString (bs : List Byte) : List Byte := putCompact (BitVec.ofNat 64 bs.length) ++ bs

def putList (f : A → List Byte) (as : List A) : List Byte :=
  putCompact (BitVec.ofNat 64 as.length) ++ as.flatMap f

def putTxIn (i : TxIn) : List Byte :=
  i.prevHash.toList ++ leBytes 4 i.prevIndex ++ putString i.script ++ leBytes 4 i.sequence

def putTxOut (o : TxOut) : List Byte := leBytes 8 o.value ++ putString o.script

def putBody (tx : Tx) : List Byte := putList putTxIn tx.ins ++ putList putTxOut tx.outs

def putWitness (tx : Tx) : List Byte := tx.witness.flatMap (putList putString)

def withWitness (tx : Tx) : List Byte :=
  leBytes 4 tx.version ++ [0x00#8, 0x01#8] ++ putBody tx ++ putWitness tx ++ leBytes 4 tx.lockTime

def withoutWitness (tx : Tx) : List Byte :=
  leBytes 4 tx.version ++ putBody tx ++ leBytes 4 tx.lockTime

def putPush (bs : List Byte) : List Byte := BitVec.ofNat 8 bs.length :: bs

end Writing

section Reading

/-- A node refuses a count that is longer than it need be. -/
def readCount : Decoder U64 := fun bs => do
  let (v, rest) ← readCompact bs
  if bs = putCompact v ++ rest then some (v, rest) else none

def readString : Decoder (List Byte) := do
  let n ← readCount
  string n.toNat

def readList (d : Decoder A) : Decoder (List A) := do
  let n ← readCount
  times n.toNat d

def readTxIn : Decoder TxIn := do
  let prevHash ← bytes 32
  let prevIndex ← word 32 4
  let script ← readString
  let sequence ← word 32 4
  return { prevHash, prevIndex, script, sequence }

def readTxOut : Decoder TxOut := do
  let value ← word 64 8
  let script ← readString
  return { value, script }

def readMarker : Decoder Unit := fun bs =>
  if bs.take 2 = [0x00#8, 0x01#8] then some ((), bs.drop 2) else none

def readBody : Decoder (List TxIn × List TxOut) := do
  let ins ← readList readTxIn
  let outs ← readList readTxOut
  return (ins, outs)

def readWitness (n : Nat) : Decoder (List (List (List Byte))) := times n (readList readString)

def readTx : Decoder Tx := do
  let version ← word 32 4
  readMarker
  let (ins, outs) ← readBody
  let witness ← readWitness ins.length
  let lockTime ← word 32 4
  return { version, ins, outs, witness, lockTime }

def removeWitness (raw : List Byte) : Option (List Byte) := do
  let (version, r) ← string 4 raw
  let ((), r) ← readMarker r
  let ((ins, _), r') ← readBody r
  let (_, lockTime) ← readWitness ins.length r'
  return version ++ r.take (r.length - r'.length) ++ lockTime

def readPush : Decoder (List Byte) := do
  let op ← word 8 1
  if op = 0 ∨ 75 < op.toNat then fun _ => none else string op.toNat

end Reading

section RoundTrip

theorem reads_count (v : U64) : Reads readCount (putCompact v) v := by
  intro rest
  rw [readCount, readCompact_putCompact]
  simp

theorem reads_putString {bs : List Byte} (h : bs.length < 2 ^ 64) :
    Reads readString (putString bs) bs := by
  have hlen : (BitVec.ofNat 64 bs.length).toNat = bs.length := by
    rw [BitVec.toNat_ofNat, Nat.mod_eq_of_lt h]
  refine (reads_count _).bind ?_
  rw [hlen]
  exact reads_string bs

theorem reads_putList {d : Decoder A} {f : A → List Byte} {as : List A} (h : as.length < 2 ^ 64)
    (has : ∀ a ∈ as, Reads d (f a) a) : Reads (readList d) (putList f as) as := by
  have hlen : (BitVec.ofNat 64 as.length).toNat = as.length := by
    rw [BitVec.toNat_ofNat, Nat.mod_eq_of_lt h]
  refine (reads_count _).bind ?_
  rw [hlen]
  exact reads_times has

theorem reads_putTxIn {i : TxIn} (h : i.script.length < 2 ^ 64) :
    Reads readTxIn (putTxIn i) i := by
  intro rest
  simp only [putTxIn, List.append_assoc]
  rw [readTxIn, bind_of_eq (bytes_toList _ _), bind_of_eq (word_four _ _),
    bind_of_eq (reads_putString h _), bind_of_eq (word_four _ _)]
  rfl

theorem reads_putTxOut {o : TxOut} (h : o.script.length < 2 ^ 64) :
    Reads readTxOut (putTxOut o) o := by
  intro rest
  simp only [putTxOut, List.append_assoc]
  rw [readTxOut, bind_of_eq (word_leBytes 8 _ _), bind_of_eq (reads_putString h _)]
  rfl

structure Fits (tx : Tx) : Prop where
  ins : tx.ins.length < 2 ^ 64
  inScripts : ∀ i ∈ tx.ins, i.script.length < 2 ^ 64
  outs : tx.outs.length < 2 ^ 64
  outScripts : ∀ o ∈ tx.outs, o.script.length < 2 ^ 64
  perInput : tx.witness.length = tx.ins.length
  stackSizes : ∀ stack ∈ tx.witness, stack.length < 2 ^ 64
  items : ∀ stack ∈ tx.witness, ∀ item ∈ stack, item.length < 2 ^ 64

variable {tx : Tx}

theorem Fits.reads_body (h : Fits tx) : Reads readBody (putBody tx) (tx.ins, tx.outs) := by
  have hins := reads_putList h.ins fun i hi => reads_putTxIn (h.inScripts i hi)
  have houts := reads_putList h.outs fun o ho => reads_putTxOut (h.outScripts o ho)
  exact hins.bind (houts.map (tx.ins, ·))

theorem Fits.reads_witness (h : Fits tx) :
    Reads (readWitness tx.ins.length) (putWitness tx) tx.witness := by
  rw [readWitness, ← h.perInput]
  exact reads_times fun stack hstack => reads_putList (h.stackSizes stack hstack)
    fun item hitem => reads_putString (h.items stack hstack item hitem)

theorem reads_marker : Reads readMarker [0x00#8, 0x01#8] () := fun _ => rfl

theorem readTx_withWitness (h : Fits tx) : readTx (withWitness tx) = some (tx, []) := by
  simp only [withWitness, List.append_assoc]
  rw [readTx, bind_of_eq (word_four _ _), bind_of_eq (reads_marker _),
    bind_of_eq (h.reads_body _)]
  dsimp only
  rw [bind_of_eq (h.reads_witness _), ← List.append_nil (leBytes 4 tx.lockTime),
    bind_of_eq (word_four _ _)]
  rfl

theorem removeWitness_withWitness (h : Fits tx) :
    removeWitness (withWitness tx) = some (withoutWitness tx) := by
  have hversion := reads_string (leBytes 4 tx.version)
  rw [leBytes_length] at hversion
  simp only [withWitness, withoutWitness, List.append_assoc]
  rw [removeWitness, hversion]
  simp only [Option.bind_eq_bind, Option.bind_some]
  rw [reads_marker]
  simp only [Option.bind_some]
  rw [h.reads_body]
  simp only [Option.bind_some]
  rw [h.reads_witness]
  simp

theorem reads_push {bs : List Byte} (hpos : 0 < bs.length) (hlen : bs.length ≤ 75) :
    Reads readPush (putPush bs) bs := by
  have hop : (BitVec.ofNat 8 bs.length).toNat = bs.length := by
    rw [BitVec.toNat_ofNat]
    omega
  intro rest
  rw [readPush, putPush, List.cons_append, ← List.singleton_append, bind_of_eq (word_one _ _),
    if_neg, hop]
  · exact reads_string bs rest
  · rintro (h | h)
    · rw [h, show (0 : Byte).toNat = 0 from rfl] at hop
      omega
    · omega

end RoundTrip

end OspreyBlake2b.Miner
