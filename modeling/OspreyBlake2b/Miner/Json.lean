import OspreyBlake2b.Lib.Double

/-! The value walker of `miner/stratum.c`.  A pointer into a line is the suffix it
points at, `none` is NULL; a zero byte ends the text like the end of the list.
The scanning loops are structural; a loop that jumps over whole values carries
the length of the text as fuel. -/

namespace OspreyBlake2b.Miner

open OspreyBlake2b.Lib

def isWs (c : Byte) : Bool := c = char ' ' ∨ c = char '\t' ∨ c = char '\r' ∨ c = char '\n'

def jsWs (p : List Byte) : List Byte := p.dropWhile isWs

def toQuote : List Byte → List Byte
  | [] => []
  | c :: p =>
    if c = 0 ∨ c = char '"' then c :: p
    else if c = char '\\' then
      match p with
      | [] => []
      | d :: q => if d = 0 then d :: q else toQuote q
    else toQuote p

/-- The bracket loop: `inStr` is whether it is inside a string. -/
def skipNest (opn cls : Byte) (inStr : Bool) (depth : Nat) : List Byte → Option (List Byte)
  | [] => none
  | c :: p =>
    if c = 0 then none
    else if inStr then
      if c = char '"' then skipNest opn cls false depth p
      else if c = char '\\' then
        match p with
        | [] => none
        | d :: q => if d = 0 then none else skipNest opn cls true depth q
      else skipNest opn cls true depth p
    else if c = char '"' then skipNest opn cls true depth p
    else
      let depth := if c = opn then depth + 1 else depth
      if c = cls then if depth - 1 = 0 then some p else skipNest opn cls false (depth - 1) p
      else skipNest opn cls false depth p

def isDelim (c : Byte) : Bool :=
  c = 0 ∨ c = char ',' ∨ c = char ']' ∨ c = char '}' ∨ isWs c

def jsSkip (p : List Byte) : Option (List Byte) :=
  let p := jsWs p
  if deref p = char '"' then
    let p := toQuote (p.drop 1)
    if deref p = 0 then none else some (p.drop 1)
  else if deref p = char '[' then skipNest (char '[') (char ']') false 0 p
  else if deref p = char '{' then skipNest (char '{') (char '}') false 0 p
  else
    let q := p.dropWhile fun c => !isDelim c
    if q.length < p.length then some q else none

def jsGetLoop (key : List Byte) : Nat → List Byte → Option (List Byte)
  | 0, _ => none
  | fuel + 1, p =>
    let p := jsWs p
    if deref p ≠ char '"' then none
    else
      let ks := p.drop 1
      let ke := toQuote ks
      if deref ke = 0 then none
      else
        let isMatch := ks.take (ks.length - ke.length) = key
        let p := jsWs (ke.drop 1)
        if deref p ≠ char ':' then none
        else
          let p := jsWs (p.drop 1)
          if isMatch then some p
          else
            match jsSkip p with
            | none => none
            | some p =>
              let p := jsWs p
              if deref p = char ',' then jsGetLoop key fuel (p.drop 1) else none

def jsGet (obj : List Byte) (key : String) : Option (List Byte) :=
  let obj := jsWs obj
  if deref obj ≠ char '{' then none
  else
    let p := jsWs (obj.drop 1)
    if deref p = char '}' then none else jsGetLoop (ascii key) obj.length p

def jsElemLoop : Nat → List Byte → Option (List Byte)
  | 0, p => some p
  | idx + 1, p =>
    match jsSkip p with
    | none => none
    | some p =>
      let p := jsWs p
      if deref p ≠ char ',' then none else jsElemLoop idx (jsWs (p.drop 1))

def jsElem (arr : List Byte) (idx : Nat) : Option (List Byte) :=
  let arr := jsWs arr
  if deref arr ≠ char '[' then none
  else
    let p := jsWs (arr.drop 1)
    if deref p = char ']' then none else jsElemLoop idx p

def jsCountLoop : Nat → Int → List Byte → Int
  | 0, _, _ => -1
  | fuel + 1, n, p =>
    match jsSkip p with
    | none => -1
    | some p =>
      let p := jsWs p
      if deref p = char ',' then jsCountLoop fuel (n + 1) (jsWs (p.drop 1))
      else if deref p = char ']' then n + 1
      else -1

def jsCount (arr : List Byte) : Int :=
  let arr := jsWs arr
  if deref arr ≠ char '[' then -1
  else
    let p := jsWs (arr.drop 1)
    if deref p = char ']' then 0 else jsCountLoop arr.length 0 p

def overwrite (buf bytes : List Byte) : List Byte := bytes ++ buf.drop bytes.length

def cstr (buf : List Byte) : List Byte := buf.takeWhile (· ≠ 0)

/-- The copy loop of `js_str` for a buffer with `room` bytes left: what it stores,
and whether it finds the closing quote.  Escapes are not looked at. -/
def jsStrLoop : Nat → List Byte → List Byte × Bool
  | _, [] => ([], false)
  | room, c :: v =>
    if c = char '"' then ([], true)
    else if c = 0 ∨ room ≤ 1 then ([], false)
    else
      let (out, ok) := jsStrLoop (room - 1) v
      (c :: out, ok)

/-- `js_str` into a buffer of `outlen` bytes.  On success a NUL follows what it
stores; on failure the rest of the buffer stays as it was. -/
def jsStr (v : List Byte) (outlen : Nat) : List Byte × Bool :=
  let v := jsWs v
  if deref v ≠ char '"' then ([], false) else jsStrLoop outlen (v.drop 1)

def hexPairs : List Byte → List Byte × Bool
  | hi :: lo :: buf =>
    match hexval hi, hexval lo with
    | some h, some l =>
      let (out, ok) := hexPairs buf
      (BitVec.ofNat 8 (h * 16 + l) :: out, ok)
    | _, _ => ([], false)
  | _ => ([], true)

/-- `js_hex` into a buffer of `maxlen` bytes: what it stores from the start of the
buffer, and whether it succeeds.  A bad digit stops it after it has stored the
bytes before. -/
def jsHex (v : List Byte) (maxlen : Nat) : List Byte × Bool :=
  let (buf, ok) := jsStr v (2 * 512 + 4)
  if !ok then ([], false)
  else if buf.length % 2 ≠ 0 then ([], false)
  else if buf.length / 2 > maxlen then ([], false)
  else hexPairs buf

def jsNum (v : List Byte) : Double := strtod (jsWs v)

def jsTrue (v : List Byte) : Bool := (jsWs v).take 4 = ascii "true"

def hexDigit (n : Nat) : Byte := (ascii "0123456789abcdef").getD n 0

def bin2hex (b : List Byte) : List Byte :=
  b.flatMap fun x => [hexDigit (x.toNat / 16), hexDigit (x.toNat % 16)]

end OspreyBlake2b.Miner
