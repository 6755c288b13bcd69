import OspreyBlake2b.Rtl.MixG
import OspreyBlake2b.Lib.Clocked
import Mathlib.Data.Fin.VecNotation

/-! The two mining cores, `src/OspreyBlake2bStage4Core.vhd` and
`src/sia/OspreySiaCore.vhd`.  They share the twelve-round pipeline and the
twelve time-skewed nonce registers, and differ in which digest word they tap
and in which byte order they compare it; `Tap` holds that difference. -/

namespace OspreyBlake2b.Rtl

open OspreyBlake2b.Lib OspreyBlake2b.Hash.Blake2b

def kPipeLength : Nat := 4 * 2 * 12

def kSigma : Fin 10 → Fin 16 → Fin 16 := ![
  ![ 0,  1,  2,  3,  4,  5,  6,  7,  8,  9, 10, 11, 12, 13, 14, 15],
  ![14, 10,  4,  8,  9, 15, 13,  6,  1, 12,  0,  2, 11,  7,  5,  3],
  ![11,  8, 12,  0,  5,  2, 15, 13, 10, 14,  3,  6,  7,  1,  9,  4],
  ![ 7,  9,  3,  1, 13, 12, 11, 14,  2,  6,  5, 10,  4,  0, 15,  8],
  ![ 9,  0,  5,  7,  2,  4, 10, 15, 14,  1, 11, 12,  6,  8,  3, 13],
  ![ 2, 12,  6, 10,  0, 11,  8,  3,  4, 13,  7,  5, 15, 14,  1,  9],
  ![12,  5,  1, 15, 14, 13,  4, 10,  0,  7,  6,  3,  9,  2,  8, 11],
  ![13, 11,  7, 14, 12,  1,  3,  9,  5,  0, 15,  4,  8,  6,  2, 10],
  ![ 6, 15, 14,  9, 11,  3,  0,  8, 12,  2, 13,  7,  1,  4, 10,  5],
  ![10,  2,  8,  4,  7,  6,  1,  5, 15, 11,  9, 14,  3, 12, 13,  0]]

/-- `kIV`, index 0 first (the VHDL aggregate is written from index 7 down). -/
def kIV : Fin 8 → U64 := ![
  0x6a09e667f3bcc908#64, 0xbb67ae8584caa73b#64,
  0x3c6ef372fe94f82b#64, 0xa54ff53a5f1d36f1#64,
  0x510e527fade682d1#64, 0x9b05688c2b3e6c1f#64,
  0x1f83d9abfb41bd6b#64, 0x5be0cd19137e2179#64]

def kHashLen : BitVec 8 := 0x20#8
def kKeyLen : BitVec 8 := 0x00#8
def kMsgLen : BitVec 8 := 0x50#8

def kHin : Fin 8 → U64 :=
  Function.update kIV 0 (kIV 0 ^^^ (0x000000000101#48 ++ kKeyLen ++ kHashLen))

/-- `kNonceSigmaIdx`: the message word the nonce iterator replaces. -/
def kNonceSigmaIdx : Fin 16 := 4

structure CoreIn where
  Enable : Bool
  BlockHeader : Fin 10 → U64
  TargetTop64 : U64

structure Core where
  Nonce : Fin 12 → U64
  mixer1 : Fin 12 → Fin 4 → MixG
  mixer2 : Fin 12 → Fin 4 → MixG
  A2OutDly : U64
  Success : Bool
  NonceOut : U64
  HashTop64Out : U64

/-- What distinguishes the two cores: the digest word `H[word]` they tap, the
lanes of the last mixer it is read from, and the word they compare. -/
structure Tap where
  word : Fin 8
  aLane : Fin 4
  cLane : Fin 4
  compared : U64 → U64

def Msg (i : CoreIn) (k : Fin 16) : U64 :=
  if h : k.val < 10 then i.BlockHeader ⟨k.val, h⟩ else 0

def feed (i : CoreIn) (s : Core) (r : Fin 12) (p : Fin 16) : U64 :=
  let k := kSigma (Fin.ofNat 10 r.val) p
  if k ≠ kNonceSigmaIdx then Msg i k else s.Nonce r

def initLanes (j : Fin 4) : Quad :=
  { a := kHin (Fin.castAdd 4 j)
    b := kHin (Fin.natAdd 4 j)
    c := kIV (Fin.castAdd 4 j)
    d := ![kIV 4 ^^^ (0x00000000000000#56 ++ kMsgLen), kIV 5, ~~~kIV 6, kIV 7] j }

def outLanes (m : Fin 4 → MixG) (j : Fin 4) : Quad :=
  ⟨(m j).A3, (m j).B2, (m j).C3, (m j).D3⟩

def ror1 (v : Fin 4 → U64) : Fin 4 → U64 := ![v 1, v 2, v 3, v 0]

def ror2 (v : Fin 4 → U64) : Fin 4 → U64 := ![v 2, v 3, v 0, v 1]

def ror3 (v : Fin 4 → U64) : Fin 4 → U64 := ![v 3, v 0, v 1, v 2]

/-- What the round generators wire into the mixers of round `r`, for constants `init`:
the same in every core. -/
def lanesInto1 (init : Fin 4 → Quad) (mixer2 : Fin 12 → Fin 4 → MixG) (r : Fin 12) (j : Fin 4) :
    Quad :=
  if h : r.val = 0 then init j
  else
    let q := outLanes (mixer2 ⟨r.val - 1, by omega⟩)
    ⟨(q j).a, ror3 (fun k => (q k).b) j, ror2 (fun k => (q k).c) j, ror1 (fun k => (q k).d) j⟩

def lanesInto2 (mixer1 : Fin 12 → Fin 4 → MixG) (r : Fin 12) (j : Fin 4) : Quad :=
  let q := outLanes (mixer1 r)
  ⟨(q j).a, ror1 (fun k => (q k).b) j, ror2 (fun k => (q k).c) j, ror3 (fun k => (q k).d) j⟩

def lanes1 (s : Core) : Fin 12 → Fin 4 → Quad := lanesInto1 initLanes s.mixer2

def lanes2 (s : Core) : Fin 12 → Fin 4 → Quad := lanesInto2 s.mixer1

def mixIn (q : Quad) (x y : U64) : MixIn := ⟨q.a, q.b, q.c, q.d, x, y⟩

theorem x1_lt (j : Fin 4) : 2 * j.val < 16 := by omega

theorem y1_lt (j : Fin 4) : 2 * j.val + 1 < 16 := by omega

theorem x2_lt (j : Fin 4) : 2 * j.val + 8 < 16 := by omega

theorem y2_lt (j : Fin 4) : 2 * j.val + 9 < 16 := by omega

def mixer1In (i : CoreIn) (s : Core) (r : Fin 12) (j : Fin 4) : MixIn :=
  mixIn (lanes1 s r j) (feed i s r ⟨2 * j.val, x1_lt j⟩) (feed i s r ⟨2 * j.val + 1, y1_lt j⟩)

def mixer2In (i : CoreIn) (s : Core) (r : Fin 12) (j : Fin 4) : MixIn :=
  mixIn (lanes2 s r j) (feed i s r ⟨2 * j.val + 8, x2_lt j⟩)
    (feed i s r ⟨2 * j.val + 9, y2_lt j⟩)

def nonceLag : Fin 12 → Nat :=
  ![0, 8, 20 + 2, 28, 32 + 2, 44, 48, 60 + 2, 68 + 2, 72 + 2, 80, 88]

def byteReverse (w : U64) : U64 :=
  w.extractLsb' 0 8 ++ w.extractLsb' 8 8 ++ w.extractLsb' 16 8 ++ w.extractLsb' 24 8 ++
    w.extractLsb' 32 8 ++ w.extractLsb' 40 8 ++ w.extractLsb' 48 8 ++ w.extractLsb' 56 8

def hash0 (tap : Tap) (s : Core) : U64 :=
  kHin tap.word ^^^ s.A2OutDly ^^^ (s.mixer2 11 tap.cLane).C3

def Core.step (tap : Tap) (kNonceSeed : U64) (i : CoreIn) (s : Core) : Core :=
  let pass := tap.compared (hash0 tap s) < i.TargetTop64
  { Nonce := fun r =>
      if i.Enable then s.Nonce r + 1 else kNonceSeed - BitVec.ofNat 64 (nonceLag r)
    mixer1 := fun r j => (s.mixer1 r j).step (mixer1In i s r j)
    mixer2 := fun r j => (s.mixer2 r j).step (mixer2In i s r j)
    A2OutDly := (s.mixer2 11 tap.aLane).A3
    Success := decide pass
    NonceOut := if pass then s.Nonce 0 - BitVec.ofNat 64 (kPipeLength + 1) else 0
    HashTop64Out := if pass then byteReverse (hash0 tap s) else 0 }

/-- `OspreyBlake2bStage4Core` taps H[3] and compares it as it stands. -/
def stage4Tap : Tap := { word := 3, aLane := 3, cLane := 1, compared := id }

/-- `OspreySiaCore` taps H[0] and compares it byte-reversed. -/
def siaTap : Tap := { word := 0, aLane := 0, cLane := 2, compared := byteReverse }

def stage4CoreStep (kNonceSeed : U64) : CoreIn → Core → Core := Core.step stage4Tap kNonceSeed

def siaCoreStep (kNonceSeed : U64) : CoreIn → Core → Core := Core.step siaTap kNonceSeed

end OspreyBlake2b.Rtl
