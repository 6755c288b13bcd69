import OspreyBlake2b.Lib.CText

/-! `miner/sha256.c`: incremental SHA-256 and Bitcoin's tagged hash.  The
context's `data[0 .. datalen)` is the list `data`. -/

namespace OspreyBlake2b.Hash.Sha256

open OspreyBlake2b.Lib

def rotr (a : U32) (b : Nat) : U32 := a >>> b ||| a <<< (32 - b)
def ch (x y z : U32) : U32 := (x &&& y) ^^^ (~~~x &&& z)
def maj (x y z : U32) : U32 := (x &&& y) ^^^ (x &&& z) ^^^ (y &&& z)
def ep0 (x : U32) : U32 := rotr x 2 ^^^ rotr x 13 ^^^ rotr x 22
def ep1 (x : U32) : U32 := rotr x 6 ^^^ rotr x 11 ^^^ rotr x 25
def sig0 (x : U32) : U32 := rotr x 7 ^^^ rotr x 18 ^^^ (x >>> 3)
def sig1 (x : U32) : U32 := rotr x 17 ^^^ rotr x 19 ^^^ (x >>> 10)

def K : List U32 := [
  0x428a2f98#32, 0x71374491#32, 0xb5c0fbcf#32, 0xe9b5dba5#32, 0x3956c25b#32, 0x59f111f1#32,
  0x923f82a4#32, 0xab1c5ed5#32, 0xd807aa98#32, 0x12835b01#32, 0x243185be#32, 0x550c7dc3#32,
  0x72be5d74#32, 0x80deb1fe#32, 0x9bdc06a7#32, 0xc19bf174#32, 0xe49b69c1#32, 0xefbe4786#32,
  0x0fc19dc6#32, 0x240ca1cc#32, 0x2de92c6f#32, 0x4a7484aa#32, 0x5cb0a9dc#32, 0x76f988da#32,
  0x983e5152#32, 0xa831c66d#32, 0xb00327c8#32, 0xbf597fc7#32, 0xc6e00bf3#32, 0xd5a79147#32,
  0x06ca6351#32, 0x14292967#32, 0x27b70a85#32, 0x2e1b2138#32, 0x4d2c6dfc#32, 0x53380d13#32,
  0x650a7354#32, 0x766a0abb#32, 0x81c2c92e#32, 0x92722c85#32, 0xa2bfe8a1#32, 0xa81a664b#32,
  0xc24b8b70#32, 0xc76c51a3#32, 0xd192e819#32, 0xd6990624#32, 0xf40e3585#32, 0x106aa070#32,
  0x19a4c116#32, 0x1e376c08#32, 0x2748774c#32, 0x34b0bcb5#32, 0x391c0cb3#32, 0x4ed8aa4a#32,
  0x5b9cca4f#32, 0x682e6ff3#32, 0x748f82ee#32, 0x78a5636f#32, 0x84c87814#32, 0x8cc70208#32,
  0x90befffa#32, 0xa4506ceb#32, 0xbef9a3f7#32, 0xc67178f2#32]

structure Regs where
  a : U32
  b : U32
  cc : U32
  dd : U32
  e : U32
  f : U32
  g : U32
  h : U32
  deriving DecidableEq

def schedule (d : List Byte) : List U32 :=
  let m := (List.range 16).map fun i => beWord 32 ((d.drop (4 * i)).take 4)
  (List.range 48).foldl (fun m k =>
    let i := k + 16
    m ++ [sig1 (m.getD (i - 2) 0) + m.getD (i - 7) 0 + sig0 (m.getD (i - 15) 0) +
      m.getD (i - 16) 0]) m

def roundStep (r : Regs) (k m : U32) : Regs :=
  let t1 := r.h + ep1 r.e + ch r.e r.f r.g + k + m
  let t2 := ep0 r.a + maj r.a r.b r.cc
  { h := r.g, g := r.f, f := r.e, e := r.dd + t1,
    dd := r.cc, cc := r.b, b := r.a, a := t1 + t2 }

def sha256Transform (s : Regs) (d : List Byte) : Regs :=
  let r := (K.zip (schedule d)).foldl (fun r km => roundStep r km.1 km.2) s
  ⟨s.a + r.a, s.b + r.b, s.cc + r.cc, s.dd + r.dd, s.e + r.e, s.f + r.f, s.g + r.g, s.h + r.h⟩

structure Sha256Ctx where
  data : List Byte
  bitlen : U64
  state : Regs

def sha256Init : Sha256Ctx :=
  { data := []
    bitlen := 0
    state := ⟨0x6a09e667#32, 0xbb67ae85#32, 0x3c6ef372#32, 0xa54ff53a#32,
      0x510e527f#32, 0x9b05688c#32, 0x1f83d9ab#32, 0x5be0cd19#32⟩ }

def updateByte (c : Sha256Ctx) (b : Byte) : Sha256Ctx :=
  let data := c.data ++ [b]
  if data.length = 64 then ⟨[], c.bitlen + 512, sha256Transform c.state data⟩
  else { c with data }

def sha256Update (c : Sha256Ctx) (data : List Byte) : Sha256Ctx := data.foldl updateByte c

def stateBytes (s : Regs) : List Byte :=
  [s.a, s.b, s.cc, s.dd, s.e, s.f, s.g, s.h].flatMap fun w => (leBytes 4 w).reverse

def sha256Final (c : Sha256Ctx) : List Byte :=
  let bitlen := c.bitlen + BitVec.ofNat 64 c.data.length * 8
  let tail := (leBytes 8 bitlen).reverse
  if c.data.length < 56 then
    let d := c.data ++ [0x80#8] ++ List.replicate (55 - c.data.length) 0
    stateBytes (sha256Transform c.state (d ++ tail))
  else
    let d := c.data ++ [0x80#8] ++ List.replicate (63 - c.data.length) 0
    stateBytes (sha256Transform (sha256Transform c.state d) (List.replicate 56 0 ++ tail))

def sha256 (data : List Byte) : List Byte := sha256Final (sha256Update sha256Init data)

def sha256d (data : List Byte) : List Byte := sha256 (sha256 data)

def taggedHash (tag : String) (payload : List Byte) : List Byte :=
  let th := sha256 (ascii tag)
  sha256Final (sha256Update (sha256Update (sha256Update sha256Init th) th) payload)

@[simp] theorem sha256Final_length (c : Sha256Ctx) : (sha256Final c).length = 32 := by
  simp only [sha256Final]
  split <;> simp [stateBytes]

@[simp] theorem sha256_length (data : List Byte) : (sha256 data).length = 32 :=
  sha256Final_length _

@[simp] theorem sha256d_length (data : List Byte) : (sha256d data).length = 32 := sha256_length _

@[simp] theorem taggedHash_length (tag : String) (payload : List Byte) :
    (taggedHash tag payload).length = 32 := sha256Final_length _

end OspreyBlake2b.Hash.Sha256
