import OspreyBlake2b.Lib.Bytes
import OspreyBlake2b.Lib.PrimeRoots
import Mathlib.Data.Fin.Tuple.Basic
import Mathlib.Data.Fin.VecNotation

/-! Unkeyed BLAKE2 as RFC 7693 defines it: words of `w` bits, blocks of sixteen words. -/

namespace OspreyBlake2b.Lib.Blake2

structure Params (w : Nat) where
  rounds : Nat
  R1 : Nat
  R2 : Nat
  R3 : Nat
  R4 : Nat
  IV : Fin 8 → BitVec w

def SIGMA : Fin 10 → Fin 16 → Fin 16 := ![
  ![0, 1, 2, 3, 4, 5, 6, 7, 8, 9, 10, 11, 12, 13, 14, 15],
  ![14, 10, 4, 8, 9, 15, 13, 6, 1, 12, 0, 2, 11, 7, 5, 3],
  ![11, 8, 12, 0, 5, 2, 15, 13, 10, 14, 3, 6, 7, 1, 9, 4],
  ![7, 9, 3, 1, 13, 12, 11, 14, 2, 6, 5, 10, 4, 0, 15, 8],
  ![9, 0, 5, 7, 2, 4, 10, 15, 14, 1, 11, 12, 6, 8, 3, 13],
  ![2, 12, 6, 10, 0, 11, 8, 3, 4, 13, 7, 5, 15, 14, 1, 9],
  ![12, 5, 1, 15, 14, 13, 4, 10, 0, 7, 6, 3, 9, 2, 8, 11],
  ![13, 11, 7, 14, 12, 1, 3, 9, 5, 0, 15, 4, 8, 6, 2, 10],
  ![6, 15, 14, 9, 11, 3, 0, 8, 12, 2, 13, 7, 1, 4, 10, 5],
  ![10, 2, 8, 4, 7, 6, 1, 5, 15, 11, 9, 14, 3, 12, 13, 0]]

def G (p : Params w) (v : Fin 16 → BitVec w) (a b c d : Fin 16) (x y : BitVec w) :
    Fin 16 → BitVec w :=
  let v := Function.update v a (v a + v b + x)
  let v := Function.update v d ((v d ^^^ v a).rotateRight p.R1)
  let v := Function.update v c (v c + v d)
  let v := Function.update v b ((v b ^^^ v c).rotateRight p.R2)
  let v := Function.update v a (v a + v b + y)
  let v := Function.update v d ((v d ^^^ v a).rotateRight p.R3)
  let v := Function.update v c (v c + v d)
  Function.update v b ((v b ^^^ v c).rotateRight p.R4)

def round (p : Params w) (m v : Fin 16 → BitVec w) (i : Nat) : Fin 16 → BitVec w :=
  let s := SIGMA (Fin.ofNat 10 i)
  let v := G p v 0 4 8 12 (m (s 0)) (m (s 1))
  let v := G p v 1 5 9 13 (m (s 2)) (m (s 3))
  let v := G p v 2 6 10 14 (m (s 4)) (m (s 5))
  let v := G p v 3 7 11 15 (m (s 6)) (m (s 7))
  let v := G p v 0 5 10 15 (m (s 8)) (m (s 9))
  let v := G p v 1 6 11 12 (m (s 10)) (m (s 11))
  let v := G p v 2 7 8 13 (m (s 12)) (m (s 13))
  G p v 3 4 9 14 (m (s 14)) (m (s 15))

def F (p : Params w) (h : Fin 8 → BitVec w) (m : Fin 16 → BitVec w) (t : Nat) (f : Bool) :
    Fin 8 → BitVec w :=
  let v : Fin 16 → BitVec w := Fin.append h p.IV
  let v := Function.update v 12 (v 12 ^^^ BitVec.ofNat w t)
  let v := Function.update v 13 (v 13 ^^^ BitVec.ofNat w (t >>> w))
  let v := if f then Function.update v 14 (v 14 ^^^ BitVec.allOnes w) else v
  let v := (List.range p.rounds).foldl (round p m) v
  fun i => h i ^^^ v (Fin.castAdd 8 i) ^^^ v (Fin.natAdd 8 i)

/-- `dd`: even the empty message has a block. -/
def blockCount (w ll : Nat) : Nat := max 1 ((ll + 2 * w - 1) / (2 * w))

def pad (w : Nat) (msg : List Byte) : List Byte :=
  msg ++ List.replicate (2 * w * blockCount w msg.length - msg.length) 0

def block (w : Nat) (msg : List Byte) (i : Nat) (j : Fin 16) : BitVec w :=
  leWord w (((pad w msg).drop (2 * w * i + w / 8 * j.val)).take (w / 8))

def hash (p : Params w) (msg : List Byte) (nn : Nat) : List Byte :=
  let dd := blockCount w msg.length
  let h := Function.update p.IV 0 (p.IV 0 ^^^ 0x01010000#w ^^^ BitVec.ofNat w nn)
  let h := (List.range (dd - 1)).foldl
    (fun h i => F p h (block w msg i) ((i + 1) * (2 * w)) false) h
  let h := F p h (block w msg (dd - 1)) msg.length true
  ((List.ofFn h).flatMap (leBytes (w / 8))).take nn

/-- BLAKE2b: the constants come from the square roots of the first eight primes. -/
noncomputable def blake2b : Params 64 where
  rounds := 12
  R1 := 32
  R2 := 24
  R3 := 16
  R4 := 63
  IV i := rootBits 2 64 (prime i.val)

end OspreyBlake2b.Lib.Blake2
