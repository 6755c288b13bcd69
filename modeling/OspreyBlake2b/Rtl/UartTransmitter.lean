import OspreyBlake2b.Rtl.ResultArb
import OspreyBlake2b.Rtl.UartReceiver

/-! `OspreyBlake2bUartGetWork.vhd`, transmit side: the processes TxBaudGen and
Transmitter, and the reply path of `OspreyBlake2bUartTop.vhd` with the arbiter in
front of it and `kDebugEcho = false`. -/

namespace OspreyBlake2b.Rtl.Uart

open OspreyBlake2b.Lib

inductive TxState where
  | Idle
  | LoadByte
  | ShiftOut
  deriving DecidableEq

structure TxBaudGen where
  txBitTime : Bool
  txClkCount : Nat
  deriving DecidableEq

structure Transmitter (kTxBytes : Nat) where
  byteOut : BitVec 10
  resultLcl : BitVec (kTxBytes * 8)
  txState : TxState
  txByteCount : Nat
  txBitCount : Nat
  deriving DecidableEq

def TxBaudGen.reset : TxBaudGen := ⟨false, 0⟩

def Transmitter.reset (kTxBytes : Nat) : Transmitter kTxBytes := ⟨BitVec.allOnes 10, 0, .Idle, 0, 0⟩

def TxBaudGen.step (kBitTimeInClks : Nat) (s : TxBaudGen) : TxBaudGen :=
  if s.txClkCount = kBitTimeInClks then ⟨true, 0⟩ else ⟨false, s.txClkCount + 1⟩

def stopDataStart (b : Byte) : BitVec 10 := BitVec.cons true (b ++ 0#1)

def Transmitter.step (txBitTime Success : Bool) (ResultData : BitVec (m * 8)) (s : Transmitter m) :
    Transmitter m :=
  match s.txState with
  | .Idle =>
    if Success then { s with resultLcl := ResultData, txByteCount := 0, txState := .LoadByte } else s
  | .LoadByte =>
    if txBitTime then
      { byteOut := stopDataStart (s.resultLcl.setWidth 8)
        resultLcl := s.resultLcl >>> 8
        txByteCount := s.txByteCount + 1
        txBitCount := s.txBitCount + 1
        txState := .ShiftOut }
    else s
  | .ShiftOut =>
    if txBitTime then
      let s' := { s with byteOut := shiftIn s.byteOut true, txBitCount := s.txBitCount + 1 }
      if s.txBitCount = 10 then
        { s' with txBitCount := 0, txState := if s.txByteCount < m then .LoadByte else .Idle }
      else s'
    else s

def Transmitter.Tx (s : Transmitter m) : Bool := s.byteOut.getLsbD 0

def Transmitter.ResultReady (s : Transmitter m) : Bool := s.txState = .Idle

def kTxBytes : Nat := 17

structure UartTop (g : Generics) (n : Nat) where
  rx : GetWork g
  txBaud : TxBaudGen
  tx : Transmitter kTxBytes
  arb : ResultArb n

structure TopIn (n : Nat) where
  aRx : Bool
  CoreSuccess : Fin (n + 1) → Bool
  CoreNonce : Fin (n + 1) → U64
  CoreHash : Fin (n + 1) → U64

namespace UartTop

def reset (g : Generics) (Nonce Hash : Fin (n + 1) → U64) : UartTop g n :=
  ⟨GetWork.reset g, TxBaudGen.reset, Transmitter.reset kTxBytes, ResultArb.reset Nonce Hash⟩

def TxReady (s : UartTop g n) : Bool := s.tx.ResultReady

def ArbValid (s : UartTop g n) : Bool := s.arb.GrantValid s.TxReady

def ArbNonce (s : UartTop g n) : U64 := s.arb.ResultNonce s.TxReady

def ArbHash (s : UartTop g n) : U64 := s.arb.ResultHash s.TxReady

def resultData (ArbNonce ArbHash : U64) : BitVec (kTxBytes * 8) := ArbHash ++ ArbNonce ++ 0x01#8

def ResultData (s : UartTop g n) : BitVec (kTxBytes * 8) := resultData s.ArbNonce s.ArbHash

def arbIn (s : UartTop g n) (i : TopIn n) : ArbIn n :=
  ⟨i.CoreSuccess, i.CoreNonce, i.CoreHash, s.TxReady⟩

def step (g : Generics) (i : TopIn n) (s : UartTop g n) : UartTop g n where
  rx := s.rx.step g i.aRx
  txBaud := s.txBaud.step g.kBitTimeInClks
  tx := s.tx.step s.txBaud.txBitTime s.ArbValid s.ResultData
  arb := s.arb.step (s.arbIn i)

def Tx (s : UartTop g n) : Bool := s.tx.Tx

end UartTop

/-- An 8N1 reader with cells of `cellClks` clocks, from the falling edge that starts
a byte to the middle of its stop cell.  `pos` is the cell and the clock in it, and a
stop cell that is low gives `none` in place of a byte. -/
structure Reader where
  pos : Option (Nat × Nat)
  bits : List Bool
  bytes : List (Option Byte)
  deriving DecidableEq

def Reader.init : Reader := ⟨none, [], []⟩

def advance (cellClks : Nat) (cell clk : Nat) : Nat × Nat :=
  if clk + 1 = cellClks then (cell + 1, 0) else (cell, clk + 1)

def byteOfBits (bits : List Bool) : Byte := BitVec.ofNat 8 (Nat.ofBits fun i : Fin 8 => bits.getD i false)

def Reader.step (cellClks : Nat) (rx : Bool) (s : Reader) : Reader :=
  match s.pos with
  | none => if rx then s else { s with pos := some (advance cellClks 0 0), bits := [] }
  | some (cell, clk) =>
    if clk ≠ cellClks / 2 then { s with pos := some (advance cellClks cell clk) }
    else if cell = 0 then
      if rx then { s with pos := none } else { s with pos := some (advance cellClks cell clk) }
    else if cell ≤ 8 then
      { s with pos := some (advance cellClks cell clk), bits := s.bits ++ [rx] }
    else
      { pos := none, bits := [], bytes := s.bytes ++ [if rx then some (byteOfBits s.bits) else none] }

end OspreyBlake2b.Rtl.Uart
