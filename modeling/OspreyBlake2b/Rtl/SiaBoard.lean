import OspreyBlake2b.Rtl.Board
import OspreyBlake2b.Rtl.HeldWork
import OspreyBlake2b.Rtl.UartTransmitterLaws

/-! `sia/OspreySiaUartTop.vhd` as a whole: one core on the held item, and the transmitter
right behind it.  There is no arbiter, so a solution that meets a frame on its way out is
lost. -/

namespace OspreyBlake2b.Rtl

open OspreyBlake2b.Lib OspreyBlake2b.Lib.Clocked OspreyBlake2b.Hash.Blake2b

def kSiaWorkItemBytes : Nat := 88

theorem kSiaWorkItemBytes_pos : 0 < kSiaWorkItemBytes := Nat.zero_lt_succ 87

def siaUart (kBitTimeInClks : ℕ+) : Uart.Generics :=
  ⟨kBitTimeInClks, kSiaWorkItemBytes, kBitTimeInClks.pos, kSiaWorkItemBytes_pos⟩

structure SiaBoard (kBitTimeInClks : ℕ+) where
  rx : Uart.GetWork (siaUart kBitTimeInClks)
  txBaud : Uart.TxBaudGen
  tx : Uart.Transmitter Uart.kTxBytes
  WorkDataHeld : BitVec kSiaRxBits
  Enable : Bool
  core : Core

namespace SiaBoard

variable {kBitTimeInClks : ℕ+}

def NewWork (s : SiaBoard kBitTimeInClks) : Bool := s.rx.NewWork

def WorkData (s : SiaBoard kBitTimeInClks) : BitVec kSiaRxBits := s.rx.WorkData

def coreIn (s : SiaBoard kBitTimeInClks) : CoreIn :=
  ⟨s.Enable, unpackHeader s.WorkDataHeld, unpackSiaTarget s.WorkDataHeld⟩

def ResultData (s : SiaBoard kBitTimeInClks) : BitVec (Uart.kTxBytes * 8) :=
  Uart.UartTop.resultData s.core.NonceOut s.core.HashTop64Out

def step (kNonceSeed : U64) (aRx : Bool) (s : SiaBoard kBitTimeInClks) : SiaBoard kBitTimeInClks where
  rx := s.rx.step _ aRx
  txBaud := s.txBaud.step kBitTimeInClks
  tx := s.tx.step s.txBaud.txBitTime s.core.Success s.ResultData
  WorkDataHeld := if s.NewWork then s.WorkData else s.WorkDataHeld
  Enable := if s.NewWork then false else true
  core := siaCoreStep kNonceSeed s.coreIn s.core

def Tx (s : SiaBoard kBitTimeInClks) : Bool := s.tx.Tx

/-- After `aResetInt`, and with the initial value of the core's `Success`; the pipeline has
no reset. -/
structure IsReset (s : SiaBoard kBitTimeInClks) : Prop where
  rx : s.rx = Uart.GetWork.reset _
  txBaud : s.txBaud = Uart.TxBaudGen.reset
  tx : s.tx = Uart.Transmitter.reset Uart.kTxBytes
  held : s.WorkDataHeld = 0
  enable : s.Enable = false
  success : s.core.Success = false

def zero (kBitTimeInClks : ℕ+) : SiaBoard kBitTimeInClks :=
  ⟨Uart.GetWork.reset _, Uart.TxBaudGen.reset, Uart.Transmitter.reset _, 0, false, Board.zeroCore⟩

theorem isReset_zero : (zero kBitTimeInClks).IsReset := ⟨rfl, rfl, rfl, rfl, rfl, rfl⟩

/-- The pair that goes out on the line, if the transmitter takes one. -/
def sent (s : SiaBoard kBitTimeInClks) : Option (U64 × U64) :=
  if s.tx.txState = .Idle ∧ s.core.Success then some (s.core.NonceOut, s.core.HashTop64Out) else none

variable {kNonceSeed : U64} {aRx : Nat → Bool} {σ : Nat → SiaBoard kBitTimeInClks}

theorem trace_rx (hσ : Trace (step kNonceSeed) aRx σ) :
    Trace (Uart.GetWork.step (siaUart kBitTimeInClks)) aRx fun t => (σ t).rx := by
  intro t
  exact congrArg SiaBoard.rx (hσ t)

theorem trace_core (hσ : Trace (step kNonceSeed) aRx σ) :
    Trace (Core.step siaTap kNonceSeed) (fun t => (σ t).coreIn) fun t => (σ t).core := by
  intro t
  exact congrArg SiaBoard.core (hσ t)

/-- The held item is at the core's ports at once, `Enable` a clock behind the pulse. -/
theorem feeds (hσ : Trace (step kNonceSeed) aRx σ) :
    Feeds 0 (fun t => (σ t).NewWork) (fun t => (σ t).WorkData) (fun t => (σ t).WorkDataHeld)
      unpackHeader unpackSiaTarget fun t => (σ t).coreIn := by
  constructor
  · intro t
    rw [hσ t]
    rfl
  · intro t
    rfl
  · intro t
    rfl
  · intro t
    rw [coreIn, Nat.add_zero, hσ t, step]
    cases (σ t).NewWork <;> rfl

theorem line_sent (hσ : Trace (step kNonceSeed) aRx σ) (h0 : (σ 0).IsReset) {R : Nat → Uart.Reader}
    (hR : Trace (Uart.Reader.step (kBitTimeInClks + 1)) (fun t => (σ t).Tx) R)
    (hR0 : R 0 = Uart.Reader.init) (t : Nat) :
    (R t).bytes <+: ((history (fun c => (σ c).sent) t).flatMap Uart.UartTop.frame).map some := by
  have hbaud (t : Nat) : (σ (t + 1)).txBaud = (σ t).txBaud.step kBitTimeInClks :=
    congrArg SiaBoard.txBaud (hσ t)
  have htx (t : Nat) : (σ (t + 1)).tx =
      (σ t).tx.step (σ t).txBaud.txBitTime (σ t).core.Success (σ t).ResultData :=
    congrArg SiaBoard.tx (hσ t)
  have hlink : Uart.Link (kBitTimeInClks : Nat) [] (σ 0).txBaud (σ 0).tx (R 0) := by
    rw [h0.txBaud, h0.tx, hR0]
    exact .idle rfl rfl
  have hrun := Uart.taken_run kBitTimeInClks.pos (by decide) hbaud htx hR
    (h0.txBaud ▸ ⟨Nat.zero_le _, nofun⟩) hlink t
  have hframes : (history (Uart.taken (fun t => (σ t).tx) (fun t => (σ t).core.Success)
        fun t => (σ t).ResultData) t).flatMap (leBytes Uart.kTxBytes) =
      (history (fun c => (σ c).sent) t).flatMap Uart.UartTop.frame := by
    apply history_flatMap
    intro c
    rw [Uart.taken, sent]
    split <;> rfl
  rw [← hframes]
  exact hrun.bytes_sent

end SiaBoard

end OspreyBlake2b.Rtl
