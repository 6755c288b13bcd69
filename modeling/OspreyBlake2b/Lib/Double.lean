import OspreyBlake2b.Lib.CText
import Mathlib.Data.Rat.Floor

/-! The C type `double` on an IEEE 754 machine, as far as a program can see it
without dividing: finite values are the rationals they stand for, and every
operation rounds to nearest, ties to even. -/

namespace OspreyBlake2b.Lib

inductive Double where
  | nan
  | inf (neg : Bool)
  | fin (q : Rat)
  deriving DecidableEq

namespace Double

def log2 (q : Rat) : Int :=
  let e : Int := q.num.natAbs.log2 - q.den.log2
  if (if e ≥ 0 then (2 : Rat) ^ e.toNat else 1 / 2 ^ (-e).toNat) ≤ q then e else e - 1

def scale (q : Rat) (e : Int) : Rat := if e ≥ 0 then q * 2 ^ e.toNat else q / 2 ^ (-e).toNat

def roundHalfEven (q : Rat) : Int :=
  let f := q.floor
  let r := q - f
  if r < 1 / 2 then f else if r > 1 / 2 then f + 1 else if f % 2 = 0 then f else f + 1

/-- The nearest `double`: 53 significant bits down to `2 ^ -1074`. -/
def round (q : Rat) : Double :=
  if q = 0 then fin 0
  else
    let a := if q < 0 then -q else q
    let ulp := max (log2 a - 52) (-1074)
    let v := scale (roundHalfEven (scale a (-ulp))) ulp
    if v ≥ 2 ^ 1024 then inf (q < 0) else fin (if q < 0 then -v else v)

def lt : Double → Double → Bool
  | fin a, fin b => a < b
  | fin _, inf neg => !neg
  | inf neg, fin _ => neg
  | inf a, inf b => a && !b
  | _, _ => false

def le (a b : Double) : Bool :=
  match a, b with
  | nan, _ => false
  | _, nan => false
  | a, b => !lt b a

def add : Double → Double → Double
  | fin a, fin b => round (a + b)
  | inf a, inf b => if a = b then inf a else nan
  | inf a, fin _ => inf a
  | fin _, inf b => inf b
  | _, _ => nan

def mul : Double → Double → Double
  | fin a, fin b => round (a * b)
  | inf a, inf b => inf (a != b)
  | inf a, fin b => if b = 0 then nan else inf (a != decide (b < 0))
  | fin a, inf b => if a = 0 then nan else inf (b != decide (a < 0))
  | _, _ => nan

def ofNat (n : Nat) : Double := round n

/-- Conversion to an integer type with values `lo .. hi`: truncation; outside the
range C leaves it open, and the target machine saturates, with 0 for a NaN. -/
def trunc (lo hi : Int) : Double → Int
  | nan => 0
  | inf neg => if neg then lo else hi
  | fin q => max lo (min hi (if q < 0 then -(-q).floor else q.floor))

def toU64 (d : Double) : U64 := BitVec.ofInt 64 (d.trunc 0 (2 ^ 64 - 1))

def toInt (d : Double) : Int := d.trunc (-2 ^ 31) (2 ^ 31 - 1)

end Double

def isDigit (c : Byte) : Bool := char '0' ≤ c ∧ c ≤ char '9'

def hexval (c : Byte) : Option Nat :=
  if char '0' ≤ c ∧ c ≤ char '9' then some (c - char '0').toNat
  else if char 'a' ≤ c ∧ c ≤ char 'f' then some ((c - char 'a').toNat + 10)
  else if char 'A' ≤ c ∧ c ≤ char 'F' then some ((c - char 'A').toNat + 10)
  else none

def isHexDigit (c : Byte) : Bool := (hexval c).isSome

def digitsVal (base : Nat) (ds : List Byte) : Nat :=
  ds.foldl (fun v d => v * base + (hexval d).getD 0) 0

def startsCI (w : String) (p : List Byte) : Bool :=
  (p.take w.length).map (fun c => if char 'A' ≤ c ∧ c ≤ char 'Z' then c + 32 else c) = ascii w

def signed (p : List Byte) : Bool × List Byte :=
  if deref p = char '-' then (true, p.drop 1)
  else if deref p = char '+' then (false, p.drop 1)
  else (false, p)

def strtodExp (mark : String) (p : List Byte) : Int :=
  if startsCI mark p then
    let (neg, q) := signed (p.drop 1)
    let v : Int := digitsVal 10 (q.takeWhile isDigit)
    if neg then -v else v
  else 0

/-- The mantissa and what follows it: its digits as a number, and how many of
them stand after the point. -/
def strtodMant (base : Nat) (digit : Byte → Bool) (p : List Byte) :
    Option (Nat × Nat × List Byte) :=
  let ip := p.takeWhile digit
  let r := p.dropWhile digit
  let fp := if deref r = char '.' then (r.drop 1).takeWhile digit else []
  let r := if deref r = char '.' then (r.drop 1).dropWhile digit else r
  if ip = [] ∧ fp = [] then none else some (digitsVal base (ip ++ fp), fp.length, r)

def isspace (c : Byte) : Bool := c = char ' ' ∨ (9 ≤ c ∧ c ≤ 13)

/-- The C library's `strtod` without its end pointer. -/
def strtod (p : List Byte) : Double :=
  let (neg, p) := signed (p.dropWhile isspace)
  let sign (q : Rat) : Rat := if neg then -q else q
  if startsCI "nan" p then .nan
  else if startsCI "inf" p then .inf neg
  else
    match if startsCI "0x" p then strtodMant 16 isHexDigit (p.drop 2) else none with
    | some (m, frac, r) => .round (sign (Double.scale m (strtodExp "p" r - 4 * frac)))
    | none =>
      match strtodMant 10 isDigit p with
      | none => .fin 0
      | some (m, frac, r) =>
        let e := strtodExp "e" r - frac
        .round (sign (if e ≥ 0 then (m : Rat) * 10 ^ e.toNat else m / 10 ^ (-e).toNat))

end OspreyBlake2b.Lib
