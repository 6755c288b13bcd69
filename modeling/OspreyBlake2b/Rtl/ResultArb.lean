import OspreyBlake2b.Lib.Bytes
import OspreyBlake2b.Lib.Clocked

/-! `OspreyBlake2bResultArb` of `OspreyBlake2bTop.vhd`, for `n + 1` cores: the
flattened ports are indexed by core. -/

namespace OspreyBlake2b.Rtl

open OspreyBlake2b.Lib

structure ArbIn (n : Nat) where
  CoreSuccess : Fin (n + 1) → Bool
  CoreNonce : Fin (n + 1) → U64
  CoreHash : Fin (n + 1) → U64
  ResultReady : Bool

structure ResultArb (n : Nat) where
  Nonce : Fin (n + 1) → U64
  Hash : Fin (n + 1) → U64
  Vld : Fin (n + 1) → Bool
  Drop : Fin (n + 1) → BitVec 16
  RrPtr : Fin (n + 1)

namespace ResultArb

/-- Reset leaves the two payload arrays as they are. -/
def reset (Nonce Hash : Fin (n + 1) → U64) : ResultArb n :=
  ⟨Nonce, Hash, fun _ => false, fun _ => 0, 0⟩

/-- `Select_p`: the first valid slot from `RrPtr` on. -/
def select (s : ResultArb n) (ResultReady : Bool) : Option (Fin (n + 1)) :=
  if ResultReady then
    ((List.finRange (n + 1)).find? fun i => s.Vld (s.RrPtr + i)).map (s.RrPtr + ·)
  else none

def GrantIdx (s : ResultArb n) (ResultReady : Bool) : Fin (n + 1) := (s.select ResultReady).getD 0

def GrantValid (s : ResultArb n) (ResultReady : Bool) : Bool := (s.select ResultReady).isSome

def Grant (s : ResultArb n) (ResultReady : Bool) (k : Fin (n + 1)) : Bool :=
  s.GrantValid ResultReady ∧ s.GrantIdx ResultReady = k

def captures (s : ResultArb n) (i : ArbIn n) (k : Fin (n + 1)) : Bool :=
  i.CoreSuccess k ∧ (s.Vld k = false ∨ s.Grant i.ResultReady k)

def step (i : ArbIn n) (s : ResultArb n) : ResultArb n where
  Nonce k := if s.captures i k then i.CoreNonce k else s.Nonce k
  Hash k := if s.captures i k then i.CoreHash k else s.Hash k
  Vld k :=
    if s.captures i k then true
    else if i.CoreSuccess k then s.Vld k
    else if s.Grant i.ResultReady k then false
    else s.Vld k
  Drop k :=
    if s.captures i k then s.Drop k
    else if i.CoreSuccess k then if s.Drop k ≠ 0xffff#16 then s.Drop k + 1 else s.Drop k
    else s.Drop k
  RrPtr := if s.GrantValid i.ResultReady then s.GrantIdx i.ResultReady + 1 else s.RrPtr

def ResultNonce (s : ResultArb n) (ResultReady : Bool) : U64 := s.Nonce (s.GrantIdx ResultReady)

def ResultHash (s : ResultArb n) (ResultReady : Bool) : U64 := s.Hash (s.GrantIdx ResultReady)

end ResultArb

end OspreyBlake2b.Rtl
