import OspreyBlake2b.Lib.Bytes
import OspreyBlake2b.Lib.Clocked

/-! `OspreyBlake2bUartGetWork.vhd`, receive side: the processes DS, BaudGen and
Receiver, and the line an ideal 8N1 sender drives. -/

namespace OspreyBlake2b.Rtl.Uart

open OspreyBlake2b.Lib

structure Generics where
  kBitTimeInClks : Nat
  kRxBytes : Nat
  kBitTimeInClks_pos : 0 < kBitTimeInClks
  kRxBytes_pos : 0 < kRxBytes

inductive RxState where
  | Idle
  | ShiftByte
  deriving DecidableEq

structure DS where
  rx_ms : Bool
  rx : Bool
  rx_dly : Bool
  deriving DecidableEq

structure BaudGen where
  bitTime : Bool
  clkCount : Int
  deriving DecidableEq

structure Receiver (width : Nat) where
  NewWork : Bool
  restartBaud : Bool
  rxState : RxState
  rxBitCount : Nat
  rxByteCount : Nat
  workDataLcl : BitVec width
  deriving DecidableEq

structure GetWork (g : Generics) where
  ds : DS
  baud : BaudGen
  recv : Receiver (g.kRxBytes * 8)
  deriving DecidableEq

def DS.reset : DS := ⟨true, true, true⟩

def BaudGen.reset : BaudGen := ⟨false, 0⟩

def Receiver.reset (width : Nat) : Receiver width := ⟨false, false, .Idle, 0, 0, 0⟩

def GetWork.reset (g : Generics) : GetWork g := ⟨DS.reset, BaudGen.reset, Receiver.reset _⟩

def DS.step (aRx : Bool) (s : DS) : DS := ⟨aRx, s.rx_ms, s.rx⟩

def BaudGen.step (kBitTimeInClks : Nat) (restartBaud : Bool) (s : BaudGen) : BaudGen :=
  if restartBaud then ⟨false, -1 * ((kBitTimeInClks / 2 : Nat) : Int)⟩
  else if s.clkCount = kBitTimeInClks then ⟨true, 0⟩
  else ⟨false, s.clkCount + 1⟩

def shiftIn (w : BitVec n) (rx : Bool) : BitVec n := (BitVec.cons rx w).extractLsb' 1 n

def Receiver.step (kRxBytes : Nat) (d : DS) (b : BaudGen) (s : Receiver w) : Receiver w :=
  let s := { s with NewWork := false }
  match s.rxState with
  | .Idle =>
    let s := { s with rxBitCount := 0 }
    if d.rx = false ∧ d.rx_dly = true then { s with rxState := .ShiftByte, restartBaud := true }
    else s
  | .ShiftByte =>
    let s := { s with restartBaud := false }
    if s.rxBitCount < 8 then
      if b.bitTime then
        { s with workDataLcl := shiftIn s.workDataLcl d.rx, rxBitCount := s.rxBitCount + 1 }
      else s
    else
      let s :=
        if s.rxByteCount = kRxBytes - 1 then { s with NewWork := true, rxByteCount := 0 }
        else { s with rxByteCount := s.rxByteCount + 1 }
      { s with rxState := .Idle }

/-- One rising edge: every process reads the registers as they were before it. -/
def GetWork.step (g : Generics) (aRx : Bool) (s : GetWork g) : GetWork g where
  ds := s.ds.step aRx
  baud := s.baud.step g.kBitTimeInClks s.recv.restartBaud
  recv := s.recv.step g.kRxBytes s.ds s.baud

def GetWork.NewWork (s : GetWork g) : Bool := s.recv.NewWork

def GetWork.WorkData (s : GetWork g) : BitVec (g.kRxBytes * 8) := s.recv.workDataLcl

def cell (b : Byte) : Nat → Bool
  | 0 => false
  | k + 1 => if k < 8 then b.getLsbD k else true

/-- The line for a list of bytes, each sent after its own number of idle clocks. -/
def line (kBitTimeInClks : Nat) : List (Nat × Byte) → Nat → Bool
  | [], _ => true
  | (gap, b) :: fs, t =>
    if t < gap then true
    else if t < gap + 10 * kBitTimeInClks then cell b ((t - gap) / kBitTimeInClks)
    else line kBitTimeInClks fs (t - (gap + 10 * kBitTimeInClks))

end OspreyBlake2b.Rtl.Uart
