import OspreyBlake2b.Lib.CText

/-! `miner/bech32.c`: from a payout address to its witness program. -/

namespace OspreyBlake2b.Miner

open OspreyBlake2b.Lib

def charset : List Byte := ascii "qpzry9x8gf2tvdw0s3jn54khce6mua7l"

def bech32Const : U32 := 1#32
def bech32mConst : U32 := 0x2bc830a3#32
def bech32MaxProgram : Nat := 40

def gen : List U32 :=
  [0x3b6a57b2#32, 0x26508e6d#32, 0x1ea119fa#32, 0x3d4233dd#32, 0x2a1462b3#32]

def polymod (values : List Byte) : U32 :=
  values.foldl (fun chk v =>
    let top := chk >>> 25
    let chk := ((chk &&& 0x1ffffff#32) <<< 5) ^^^ v.setWidth 32
    (List.range 5).foldl (fun chk j =>
      if (top >>> j) &&& 1 ≠ 0 then chk ^^^ gen.getD j 0 else chk) chk) 1#32

def charsetIndex (c : Byte) : Option Nat := charset.findIdx? (· = c)

/-- The loop over `inlen` groups; fewer than 8 bits are pending before each, so the
inner loop runs at most once.  Past the groups that were decoded the array is
uninitialised, here 0. -/
def convert5to8 (outsz : Nat) : Nat → List Byte → U32 → Nat → List Byte → Option (List Byte)
  | 0, _, acc, bits, out =>
    if bits ≥ 5 then none
    else if (acc <<< (8 - bits)) &&& 0xff#32 ≠ 0 then none
    else some out
  | inlen + 1, groups, acc, bits, out =>
    let acc := (acc <<< 5) ||| (groups.headD 0).setWidth 32
    if bits + 5 ≥ 8 then
      let bits := bits + 5 - 8
      if out.length ≥ outsz then none
      else convert5to8 outsz inlen groups.tail acc bits (out ++ [(acc >>> bits).setWidth 8])
    else convert5to8 outsz inlen groups.tail acc (bits + 5) out

structure Bech32Addr where
  hrp : List Byte
  witver : Nat
  program : List Byte
  deriving DecidableEq

def isLower (c : Byte) : Bool := char 'a' ≤ c ∧ c ≤ char 'z'
def isUpper (c : Byte) : Bool := char 'A' ≤ c ∧ c ≤ char 'Z'

def lastSep (buf : List Byte) : Option Nat :=
  (buf.reverse.findIdx? (· = char '1')).map fun i => buf.length - 1 - i

def toLower (c : Byte) : Byte := if isUpper c then c - char 'A' + char 'a' else c

/-- The human-readable part and the symbols behind the separator, in lower case. -/
def bech32Split (addr : List Byte) : Option (List Byte × List Byte) :=
  if addr.length < 8 ∨ addr.length > 90 then none
  else if addr.any fun c => c < 33 ∨ c > 126 then none
  else if addr.any isLower ∧ addr.any isUpper then none
  else
    let buf := addr.map toLower
    match lastSep buf with
    | none => none
    | some hrplen =>
      if hrplen < 1 ∨ hrplen ≥ 8 then none
      else if addr.length - hrplen - 1 < 6 then none
      else some (buf.take hrplen, buf.drop (hrplen + 1))

def checksumConst (witver : Nat) : U32 := if witver = 0 then bech32Const else bech32mConst

def bech32Values (hrp data : List Byte) : List Byte :=
  hrp.map (fun (b : Byte) => b >>> 5) ++ [0] ++ hrp.map (fun (b : Byte) => b &&& 31) ++ data

/-- `datalen - 1 - 6` as a `size_t`, of 32 bits on the device. -/
def groupCount (datalen : Nat) : Nat := if datalen < 7 then 2 ^ 32 - (7 - datalen) else datalen - 7

def bech32Program (data : List Byte) : Option (List Byte) :=
  match convert5to8 bech32MaxProgram (groupCount data.length) data.tail 0 0 [] with
  | none => none
  | some program =>
    if program.length < 2 ∨ program.length > 40 then none
    else if data.headD 0 = 0 ∧ program.length ≠ 20 ∧ program.length ≠ 32 then none
    else some program

def bech32DecodeAddr (addr : List Byte) : Option Bech32Addr := do
  let (hrp, text) ← bech32Split addr
  let symbols ← text.mapM charsetIndex
  let data := symbols.map (BitVec.ofNat 8)
  let witver := (data.headD 0).toNat
  if (bech32Values hrp data).length > 128 then none
  else if polymod (bech32Values hrp data) ≠ checksumConst witver then none
  else if witver > 16 then none
  else
    let program ← bech32Program data
    return ⟨hrp, witver, program⟩

def bech32Scriptpubkey (a : Bech32Addr) (outsz : Nat) : Option (List Byte) :=
  if outsz < a.program.length + 2 then none
  else
    let op := if a.witver = 0 then 0x00#8 else BitVec.ofNat 8 (0x50 + a.witver)
    some (op :: BitVec.ofNat 8 a.program.length :: a.program)

example : (bech32DecodeAddr (ascii "bc1qztsz84mn408vfklya05sgf8v4j2wtfrscszene")).map
    Bech32Addr.program = some [0x12#8, 0xe0#8, 0x23#8, 0xd7#8, 0x73#8, 0xab#8, 0xce#8, 0xc4#8,
      0xdb#8, 0xe4#8, 0xeb#8, 0xe9#8, 0x04#8, 0x24#8, 0xec#8, 0xac#8, 0x94#8, 0xe5#8, 0xa4#8,
      0x70#8] := by decide +kernel

end OspreyBlake2b.Miner
