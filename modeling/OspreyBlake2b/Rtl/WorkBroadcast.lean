import OspreyBlake2b.Lib.Clocked
import OspreyBlake2b.Rtl.Top
import Mathlib.Data.PNat.Basic

/-! The way of a work item from the receiver to the cores in `OspreyBlake2bUartTop.vhd`:
the processes HoldWork, RunCtl, Trunk and PerCoreReg.  They move the item and never look
into it, so the type of what they move is a parameter. -/

namespace OspreyBlake2b.Rtl

open OspreyBlake2b.Lib

def kNumGroups : Nat := 2

def kCoresPerGrp (kNumCores : ℕ+) : Nat := kNumCores / kNumGroups

/-- The group that feeds each core.  There is no design when `kCoresPerGrp`, a
`positive`, would be zero, or when an index leaves the range of the groups. -/
def elaborate (kNumCores : ℕ+) : Option (Fin kNumCores → Fin kNumGroups) :=
  if h : 0 < kCoresPerGrp kNumCores ∧ ∀ k : Fin kNumCores, k / kCoresPerGrp kNumCores < kNumGroups
  then some fun k => ⟨k / kCoresPerGrp kNumCores, h.2 k⟩
  else none

structure WorkIn (W : Type) where
  NewWork : Bool
  WorkData : W

structure Broadcast (kNumCores : ℕ+) (W S T : Type) where
  WorkDataHeld : W
  Enable : Bool
  BcS4Tx : Fin kNumGroups → S
  BcS4Rx : Fin kNumGroups → S
  BcTgtTx : Fin kNumGroups → T
  BcTgtRx : Fin kNumGroups → T
  BcEnTx : Fin kNumGroups → Bool
  BcEnRx : Fin kNumGroups → Bool
  S4Reg : Fin kNumCores → S
  TgtReg : Fin kNumCores → T
  EnReg : Fin kNumCores → Bool

variable {kNumCores : ℕ+} {W S T : Type}

def Broadcast.step (group : Fin kNumCores → Fin kNumGroups) (Stage4In : W → S) (TargetTop64 : W → T)
    (i : WorkIn W) (s : Broadcast kNumCores W S T) : Broadcast kNumCores W S T where
  WorkDataHeld := if i.NewWork then i.WorkData else s.WorkDataHeld
  Enable := if i.NewWork then false else true
  BcS4Tx _ := Stage4In s.WorkDataHeld
  BcTgtTx _ := TargetTop64 s.WorkDataHeld
  BcEnTx _ := s.Enable
  BcS4Rx g := s.BcS4Tx g
  BcTgtRx g := s.BcTgtTx g
  BcEnRx g := s.BcEnTx g
  S4Reg k := s.BcS4Rx (group k)
  TgtReg k := s.BcTgtRx (group k)
  EnReg k := s.BcEnRx (group k)

def workStep (group : Fin kNumCores → Fin kNumGroups) :
    WorkIn (BitVec kRxBits) → Broadcast kNumCores (BitVec kRxBits) (Fin 10 → U64) U64 →
      Broadcast kNumCores (BitVec kRxBits) (Fin 10 → U64) U64 :=
  Broadcast.step group unpackStage4 unpackTarget

end OspreyBlake2b.Rtl
