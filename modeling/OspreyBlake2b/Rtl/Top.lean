import OspreyBlake2b.Rtl.Core

/-! `src/OspreyBlake2bStage3Core.vhd`, the entity `OspreyBlake2bTop` that feeds
stage 4 either from it or from the work item, and the unpacking of a work item
in `OspreyBlake2bUartTop.vhd` and `OspreySiaUartTop.vhd`. -/

namespace OspreyBlake2b.Rtl

open OspreyBlake2b.Lib OspreyBlake2b.Hash.Blake2b

def kStage3MsgLen : BitVec 8 := 0x34#8

/-- The registers of stage 3.  Its `Enable` port is read by nothing. -/
structure Stage3Core where
  mixer1 : Fin 12 → Fin 4 → MixG
  mixer2 : Fin 12 → Fin 4 → MixG
  A2OutDly : Fin 4 → U64

def stage3Msg (BlockHeader : Fin 10 → U64) (k : Fin 16) : U64 :=
  if h : k.val < 10 then BlockHeader ⟨k.val, h⟩ else 0

def stage3Feed (BlockHeader : Fin 10 → U64) (r : Fin 12) (p : Fin 16) : U64 :=
  stage3Msg BlockHeader (kSigma (Fin.ofNat 10 r.val) p)

def stage3InitLanes (j : Fin 4) : Quad :=
  { a := kHin (Fin.castAdd 4 j)
    b := kHin (Fin.natAdd 4 j)
    c := kIV (Fin.castAdd 4 j)
    d := ![kIV 4 ^^^ (0x00000000000000#56 ++ kStage3MsgLen), kIV 5, ~~~kIV 6, kIV 7] j }

def stage3Lanes1 (s : Stage3Core) : Fin 12 → Fin 4 → Quad := lanesInto1 stage3InitLanes s.mixer2

def stage3Lanes2 (s : Stage3Core) : Fin 12 → Fin 4 → Quad := lanesInto2 s.mixer1

def Stage3Core.step (BlockHeader : Fin 10 → U64) (s : Stage3Core) : Stage3Core where
  mixer1 r j := (s.mixer1 r j).step
    (mixIn (stage3Lanes1 s r j) (stage3Feed BlockHeader r ⟨2 * j.val, x1_lt j⟩)
      (stage3Feed BlockHeader r ⟨2 * j.val + 1, y1_lt j⟩))
  mixer2 r j := (s.mixer2 r j).step
    (mixIn (stage3Lanes2 s r j) (stage3Feed BlockHeader r ⟨2 * j.val + 8, x2_lt j⟩)
      (stage3Feed BlockHeader r ⟨2 * j.val + 9, y2_lt j⟩))
  A2OutDly j := (s.mixer2 11 j).A3

def Stage3Core.HashOut (s : Stage3Core) : Fin 4 → U64 :=
  ![kHin 0 ^^^ s.A2OutDly 0 ^^^ (s.mixer2 11 2).C3,
    kHin 1 ^^^ s.A2OutDly 1 ^^^ (s.mixer2 11 3).C3,
    kHin 2 ^^^ s.A2OutDly 2 ^^^ (s.mixer2 11 0).C3,
    kHin 3 ^^^ s.A2OutDly 3 ^^^ (s.mixer2 11 1).C3]

structure TopIn where
  Enable : Bool
  Stage3In : Fin 10 → U64
  Stage4In : Fin 10 → U64
  TargetTop64 : U64

/-- `S3On` and `S3Off`: a bypassed stage 3 has no registers. -/
def Stage3 : (kOnChipStage3 : Bool) → Type
  | true => Stage3Core
  | false => Unit

def Stage3.step : (kOnChipStage3 : Bool) → (Fin 10 → U64) → Stage3 kOnChipStage3 →
    Stage3 kOnChipStage3
  | true => Stage3Core.step
  | false => fun _ s => s

def HashA : (kOnChipStage3 : Bool) → (Fin 10 → U64) → Stage3 kOnChipStage3 → Fin 4 → U64
  | true, _, s => Stage3Core.HashOut s
  | false, Stage4In, _ => ![Stage4In 6, Stage4In 7, Stage4In 8, Stage4In 9]

structure Top (kOnChipStage3 : Bool) where
  stage3 : Stage3 kOnChipStage3
  stage4 : Core

def Stage4Msg (Stage4In : Fin 10 → U64) (HashA : Fin 4 → U64) : Fin 10 → U64 :=
  ![Stage4In 0, Stage4In 1, Stage4In 2, Stage4In 3, 0, Stage4In 5,
    HashA 0, HashA 1, HashA 2, HashA 3]

def Top.coreIn (i : TopIn) (s : Top kOnChipStage3) : CoreIn :=
  ⟨i.Enable, Stage4Msg i.Stage4In (HashA kOnChipStage3 i.Stage4In s.stage3), i.TargetTop64⟩

def Top.step (kNonceSeed : U64) (i : TopIn) (s : Top kOnChipStage3) : Top kOnChipStage3 where
  stage3 := Stage3.step kOnChipStage3 i.Stage3In s.stage3
  stage4 := stage4CoreStep kNonceSeed (s.coreIn i) s.stage4

structure TopOut where
  Success : Bool
  Nonce : U64
  HashTop64 : U64
  deriving DecidableEq

def Top.out (s : Top kOnChipStage3) : TopOut :=
  ⟨s.stage4.Success, s.stage4.NonceOut, s.stage4.HashTop64Out⟩

def kRxBits : Nat := 168 * 8

def unpackStage3 (WorkDataHeld : BitVec kRxBits) (i : Fin 10) : U64 :=
  WorkDataHeld.extractLsb' (64 * i.val) 64

def unpackStage4 (WorkDataHeld : BitVec kRxBits) (i : Fin 10) : U64 :=
  WorkDataHeld.extractLsb' (64 * (10 + i.val)) 64

def unpackTarget (WorkDataHeld : BitVec kRxBits) : U64 := WorkDataHeld.extractLsb' (64 * 20) 64

def kSiaRxBits : Nat := 88 * 8

def unpackHeader (WorkDataHeld : BitVec kSiaRxBits) (i : Fin 10) : U64 :=
  WorkDataHeld.extractLsb' (64 * i.val) 64

def unpackSiaTarget (WorkDataHeld : BitVec kSiaRxBits) : U64 :=
  WorkDataHeld.extractLsb' (64 * 10) 64

end OspreyBlake2b.Rtl
