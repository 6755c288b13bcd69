import OspreyBlake2b.Rtl.NonceSeed
import OspreyBlake2b.Rtl.UartTransmitter
import OspreyBlake2b.Rtl.WorkBroadcast

/-! `OspreyBlake2bUartTop.vhd` as a whole, with `kDebugEcho = false`: the UART, the way
of the work item, the cores with their seeds, and the arbiter. -/

namespace OspreyBlake2b.Rtl

open OspreyBlake2b.Lib

theorem kRxBytes_pos : 0 < 168 := by decide

def knotsUart (kBitTimeInClks : ℕ+) : Uart.Generics :=
  ⟨kBitTimeInClks, 168, kBitTimeInClks.pos, kRxBytes_pos⟩

def port (k : Fin (n + 1)) : Fin n.succPNat := k

/-- What elaboration fixes for `n + 1` cores. -/
structure Design (n : Nat) where
  group : Fin n.succPNat → Fin kNumGroups
  seed : Fin (n + 1) → U64
  group_eq : elaborate n.succPNat = some group
  seed_eq : ∀ k : Fin (n + 1), CoreNonceSeed k (n + 1) = some (seed k)

structure Board (kBitTimeInClks : ℕ+) (n : Nat) where
  uart : Uart.UartTop (knotsUart kBitTimeInClks) n
  work : Broadcast n.succPNat (BitVec kRxBits) (Fin 10 → U64) U64
  core : Fin (n + 1) → Top false

namespace Board

variable {kBitTimeInClks : ℕ+} {n : Nat}

def NewWork (s : Board kBitTimeInClks n) : Bool := s.uart.rx.NewWork

def WorkData (s : Board kBitTimeInClks n) : BitVec kRxBits := s.uart.rx.WorkData

def workIn (s : Board kBitTimeInClks n) : WorkIn (BitVec kRxBits) := ⟨s.NewWork, s.WorkData⟩

def topIn (s : Board kBitTimeInClks n) (k : Fin (n + 1)) : TopIn :=
  ⟨s.work.EnReg (port k), unpackStage3 s.work.WorkDataHeld, s.work.S4Reg (port k),
    s.work.TgtReg (port k)⟩

def uartIn (aRx : Bool) (s : Board kBitTimeInClks n) : Uart.TopIn n where
  aRx := aRx
  CoreSuccess k := (s.core k).out.Success
  CoreNonce k := (s.core k).out.Nonce
  CoreHash k := (s.core k).out.HashTop64

def step (d : Design n) (aRx : Bool) (s : Board kBitTimeInClks n) : Board kBitTimeInClks n where
  uart := s.uart.step _ (s.uartIn aRx)
  work := workStep d.group s.workIn s.work
  core k := (s.core k).step (d.seed k) (s.topIn k)

/-- After `aResetInt`: the broadcast registers, the pipelines and the payload arrays of
the arbiter have no reset. -/
structure IsReset (s : Board kBitTimeInClks n) : Prop where
  uart : s.uart = Uart.UartTop.reset _ s.uart.arb.Nonce s.uart.arb.Hash
  held : s.work.WorkDataHeld = 0
  enable : s.work.Enable = false

def zeroMixG : MixG := ⟨0, 0, 0, 0, 0, 0, 0, 0, 0, 0, 0, 0, 0, 0, 0, 0⟩

def zeroCore : Core :=
  ⟨fun _ => 0, fun _ _ => zeroMixG, fun _ _ => zeroMixG, 0, false, 0, 0⟩

def zero (kBitTimeInClks : ℕ+) (n : Nat) : Board kBitTimeInClks n where
  uart := Uart.UartTop.reset _ (fun _ => 0) fun _ => 0
  work := ⟨0, false, fun _ _ => 0, fun _ _ => 0, fun _ => 0, fun _ => 0, fun _ => false,
    fun _ => false, fun _ _ => 0, fun _ => 0, fun _ => false⟩
  core _ := ⟨(), zeroCore⟩

theorem isReset_zero : (zero kBitTimeInClks n).IsReset := ⟨rfl, rfl, rfl⟩

end Board

end OspreyBlake2b.Rtl
