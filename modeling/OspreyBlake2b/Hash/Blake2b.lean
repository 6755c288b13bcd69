import OspreyBlake2b.Lib.Bytes

/-! `miner/blake2b.c`: unkeyed BLAKE2b as the host computes it. -/

namespace OspreyBlake2b.Hash.Blake2b

open OspreyBlake2b.Lib

def iv : Vector U64 8 := #v[
  0x6a09e667f3bcc908#64, 0xbb67ae8584caa73b#64,
  0x3c6ef372fe94f82b#64, 0xa54ff53a5f1d36f1#64,
  0x510e527fade682d1#64, 0x9b05688c2b3e6c1f#64,
  0x1f83d9abfb41bd6b#64, 0x5be0cd19137e2179#64]

def sigma : Vector (Vector (Fin 16) 16) 12 := #v[
  #v[ 0,  1,  2,  3,  4,  5,  6,  7,  8,  9, 10, 11, 12, 13, 14, 15],
  #v[14, 10,  4,  8,  9, 15, 13,  6,  1, 12,  0,  2, 11,  7,  5,  3],
  #v[11,  8, 12,  0,  5,  2, 15, 13, 10, 14,  3,  6,  7,  1,  9,  4],
  #v[ 7,  9,  3,  1, 13, 12, 11, 14,  2,  6,  5, 10,  4,  0, 15,  8],
  #v[ 9,  0,  5,  7,  2,  4, 10, 15, 14,  1, 11, 12,  6,  8,  3, 13],
  #v[ 2, 12,  6, 10,  0, 11,  8,  3,  4, 13,  7,  5, 15, 14,  1,  9],
  #v[12,  5,  1, 15, 14, 13,  4, 10,  0,  7,  6,  3,  9,  2,  8, 11],
  #v[13, 11,  7, 14, 12,  1,  3,  9,  5,  0, 15,  4,  8,  6,  2, 10],
  #v[ 6, 15, 14,  9, 11,  3,  0,  8, 12,  2, 13,  7,  1,  4, 10,  5],
  #v[10,  2,  8,  4,  7,  6,  1,  5, 15, 11,  9, 14,  3, 12, 13,  0],
  #v[ 0,  1,  2,  3,  4,  5,  6,  7,  8,  9, 10, 11, 12, 13, 14, 15],
  #v[14, 10,  4,  8,  9, 15, 13,  6,  1, 12,  0,  2, 11,  7,  5,  3]]

def rotr64 (x : U64) (n : Nat) : U64 := x >>> n ||| x <<< (64 - n)

def load64 (p : List Byte) : U64 := leWord 64 (p.take 8)

structure Quad where
  a : U64
  b : U64
  c : U64
  d : U64
  deriving DecidableEq

def mix (q : Quad) (x y : U64) : Quad :=
  let a := q.a + q.b + x
  let d := rotr64 (q.d ^^^ a) 32
  let c := q.c + d
  let b := rotr64 (q.b ^^^ c) 24
  let a := a + b + y
  let d := rotr64 (d ^^^ a) 16
  let c := c + d
  let b := rotr64 (b ^^^ c) 63
  ⟨a, b, c, d⟩

def G (m : Vector U64 16) (r : Fin 12) (i : Fin 8) (v : Vector U64 16)
    (a b c d : Fin 16) : Vector U64 16 :=
  let q := mix ⟨v[a], v[b], v[c], v[d]⟩
    m[sigma[r][2 * i.val]] m[sigma[r][2 * i.val + 1]]
  (((v.set a q.a).set b q.b).set c q.c).set d q.d

def round (m : Vector U64 16) (v : Vector U64 16) (r : Fin 12) : Vector U64 16 :=
  let v := G m r 0 v 0 4 8 12
  let v := G m r 1 v 1 5 9 13
  let v := G m r 2 v 2 6 10 14
  let v := G m r 3 v 3 7 11 15
  let v := G m r 4 v 0 5 10 15
  let v := G m r 5 v 1 6 11 12
  let v := G m r 6 v 2 7 8 13
  G m r 7 v 3 4 9 14

def loadBlock (block : List Byte) : Vector U64 16 :=
  Vector.ofFn fun i => load64 (block.drop (i.val * 8))

def initV (h : Vector U64 8) (t : U64) (last : Bool) : Vector U64 16 :=
  let v := h ++ iv
  let v := v.set 12 (v[12] ^^^ t)
  if last then v.set 14 (~~~v[14]) else v

def rounds (m v : Vector U64 16) : Vector U64 16 := (List.finRange 12).foldl (round m) v

def compress (h : Vector U64 8) (block : List Byte) (t : U64) (last : Bool) : Vector U64 8 :=
  let v := rounds (loadBlock block) (initV h t last)
  Vector.ofFn fun i => h[i] ^^^ (v[i.val] ^^^ v[i.val + 8])

/-- The loop over complete but not final blocks.  `fuel` only has to reach the
number of such blocks; the input length always does. -/
def absorb : Nat → Vector U64 8 → U64 → List Byte → Vector U64 8 × U64 × List Byte
  | 0, h, counter, rest => (h, counter, rest)
  | fuel + 1, h, counter, rest =>
    if rest.length > 128 then
      absorb fuel (compress h (rest.take 128) (counter + 128) false) (counter + 128) (rest.drop 128)
    else (h, counter, rest)

/-- `h[0] ^= 0x01010000 ^ outlen`: the parameter block of a keyless sequential hash. -/
def paramBlock (outlen : Nat) : Vector U64 8 :=
  iv.set 0 (iv[0] ^^^ (0x01010000#64 ^^^ BitVec.ofNat 64 outlen))

def emit (h : Vector U64 8) (outlen : Nat) : List Byte :=
  (List.range outlen).map fun i => ((h.toList.getD (i / 8) 0) >>> (8 * (i % 8))).setWidth 8

def blake2bNokey (inp : List Byte) (outlen : Nat) : List Byte :=
  let (h, counter, rest) := absorb inp.length (paramBlock outlen) 0 inp
  let block := rest ++ List.replicate (128 - rest.length) 0
  emit (compress h block (counter + BitVec.ofNat 64 rest.length) true) outlen

end OspreyBlake2b.Hash.Blake2b
