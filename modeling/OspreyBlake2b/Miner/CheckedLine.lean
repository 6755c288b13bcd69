import OspreyBlake2b.Lib.Checked
import OspreyBlake2b.Miner.Stratum

/-! The value walker and `on_line` of `miner/stratum.c` once more, over positions in
the NUL-terminated line and with every access checked. -/

namespace OspreyBlake2b.Miner.Checked

open OspreyBlake2b.Lib

variable (t : CString)

def jsWs (p : Nat) : Except Fault Nat := t.skipWhile isWs p

/-- `while (*p && *p != '"') p += (*p == '\\' && p[1]) ? 2 : 1;` -/
def toQuoteLoop : Nat → Nat → Except Fault Nat
  | 0, _ => .error .endless
  | fuel + 1, p => do
    let c ← t.read p
    if c = 0 ∨ c = char '"' then return p
    else if c = char '\\' then
      let d ← t.read (p + 1)
      toQuoteLoop fuel (if d ≠ 0 then p + 2 else p + 1)
    else toQuoteLoop fuel (p + 1)

def toQuote (p : Nat) : Except Fault Nat := toQuoteLoop t t.bound p

def skipNestLoop (opn cls : Byte) : Nat → Int → Nat → Except Fault (Option Nat)
  | 0, _, _ => .error .endless
  | fuel + 1, depth, p => do
    let c ← t.read p
    if c = 0 then return none
    else if c = char '"' then
      let p ← toQuote t (p + 1)
      if (← t.read p) = 0 then return none else skipNestLoop opn cls fuel depth (p + 1)
    else
      let depth := if c = opn then depth + 1 else depth
      if c = cls then
        if depth - 1 = 0 then return some (p + 1)
        else skipNestLoop opn cls fuel (depth - 1) (p + 1)
      else skipNestLoop opn cls fuel depth (p + 1)

def skipNest (opn cls : Byte) (p : Nat) : Except Fault (Option Nat) :=
  skipNestLoop t opn cls t.bound 0 p

def jsSkip (p : Nat) : Except Fault (Option Nat) := do
  let p ← jsWs t p
  let c ← t.read p
  if c = char '"' then
    let p ← toQuote t (p + 1)
    if (← t.read p) = 0 then return none else return some (p + 1)
  else if c = char '[' then skipNest t (char '[') (char ']') p
  else if c = char '{' then skipNest t (char '{') (char '}') p
  else
    let q ← t.skipWhile (fun c => !isDelim c) p
    if p < q then return some q else return none

/-- `((size_t)(ke - ks) == klen) && (memcmp(ks, key, klen) == 0)` -/
def keyMatches (key : List Byte) (ks ke : Nat) : Except Fault Bool :=
  if ke - ks = key.length then t.memEq key ks else return false

def jsGetLoop (key : List Byte) : Nat → Nat → Except Fault (Option Nat)
  | 0, _ => .error .endless
  | fuel + 1, p => do
    let p ← jsWs t p
    if (← t.read p) ≠ char '"' then return none
    else
      let ks := p + 1
      let ke ← toQuote t ks
      if (← t.read ke) = 0 then return none
      else
        let isMatch ← keyMatches t key ks ke
        let p ← jsWs t (ke + 1)
        if (← t.read p) ≠ char ':' then return none
        else
          let p ← jsWs t (p + 1)
          if isMatch then return some p
          else
            match ← jsSkip t p with
            | none => return none
            | some p =>
              let p ← jsWs t p
              if (← t.read p) = char ',' then jsGetLoop key fuel (p + 1) else return none

def jsGet (obj : Nat) (key : String) : Except Fault (Option Nat) := do
  let obj ← jsWs t obj
  if (← t.read obj) ≠ char '{' then return none
  else
    let p ← jsWs t (obj + 1)
    if (← t.read p) = char '}' then return none else jsGetLoop t (ascii key) t.bound p

def jsElemLoop (idx : Int) : Nat → Int → Nat → Except Fault (Option Nat)
  | 0, _, _ => .error .endless
  | fuel + 1, i, p => do
    if i = idx then return some p
    else
      match ← jsSkip t p with
      | none => return none
      | some p =>
        let p ← jsWs t p
        if (← t.read p) ≠ char ',' then return none
        else
          let p ← jsWs t (p + 1)
          jsElemLoop idx fuel (i + 1) p

def jsElem (arr : Nat) (idx : Int) : Except Fault (Option Nat) := do
  let arr ← jsWs t arr
  if (← t.read arr) ≠ char '[' then return none
  else
    let p ← jsWs t (arr + 1)
    if (← t.read p) = char ']' then return none else jsElemLoop t idx t.bound 0 p

def jsCountLoop : Nat → Int → Nat → Except Fault Int
  | 0, _, _ => .error .endless
  | fuel + 1, n, p => do
    match ← jsSkip t p with
    | none => return -1
    | some p =>
      let p ← jsWs t p
      let c ← t.read p
      if c = char ',' then
        let p ← jsWs t (p + 1)
        jsCountLoop fuel (n + 1) p
      else if c = char ']' then return n + 1
      else return -1

def jsCount (arr : Nat) : Except Fault Int := do
  let arr ← jsWs t arr
  if (← t.read arr) ≠ char '[' then return -1
  else
    let p ← jsWs t (arr + 1)
    if (← t.read p) = char ']' then return 0 else jsCountLoop t t.bound 0 p

/-- `out` is what the buffer of `outlen` bytes holds already. -/
def jsStrLoop (outlen : Nat) : Nat → Nat → List Byte → Except Fault (List Byte × Bool)
  | 0, _, _ => .error .endless
  | fuel + 1, v, out => do
    let c ← t.read v
    if c = char '"' then
      let _ ← store outlen out 0
      return (out, true)
    else if c = 0 ∨ out.length + 1 ≥ outlen then return (out, false)
    else
      let out ← store outlen out c
      jsStrLoop outlen fuel (v + 1) out

def jsStr (v outlen : Nat) : Except Fault (List Byte × Bool) := do
  let v ← jsWs t v
  if (← t.read v) ≠ char '"' then return ([], false) else jsStrLoop t outlen t.bound (v + 1) []

def hexLoop (buf : List Byte) (maxlen : Nat) : Nat → Nat → List Byte →
    Except Fault (List Byte × Bool)
  | 0, _, out => return (out, true)
  | n + 1, i, out => do
    let hi ← readAt buf (2 * i)
    let lo ← readAt buf (2 * i + 1)
    match hexval hi, hexval lo with
    | some h, some l =>
      let out ← store maxlen out (BitVec.ofNat 8 (h * 16 + l))
      hexLoop buf maxlen n (i + 1) out
    | _, _ => return (out, false)

/-- Of `buf` only what `js_str` has written may be read. -/
def jsHex (v maxlen : Nat) : Except Fault (List Byte × Bool) := do
  let (buf, ok) ← jsStr t v (2 * 512 + 4)
  if !ok then return ([], false)
  else
    let buf := buf ++ [0]
    let n := (cstr buf).length
    if n % 2 ≠ 0 then return ([], false)
    else if n / 2 > maxlen then return ([], false)
    else hexLoop buf maxlen (n / 2) 0 []

def jsNum (v : Nat) : Except Fault Double := do
  let v ← jsWs t v
  return strtod (← t.rest v)

def jsTrue (v : Nat) : Except Fault Bool := do
  let v ← jsWs t v
  t.startsAt (ascii "true") v

/-- `out` has `cap` bytes, and its last index written is the NUL's. -/
def bin2hex (b : List Byte) (cap : Nat) : Except Fault (List Byte) := do
  let out ← (Miner.bin2hex b).foldlM (store cap) []
  let _ ← store cap out 0
  return out

def hexExact (v n : Nat) : OptionT (Except Fault) (Vector Byte n) := do
  let (out, ok) ← jsHex t v n
  if ok then OptionT.mk (return toVector n out) else failure

def hexUpTo (v maxlen : Nat) : OptionT (Except Fault) (List Byte) := do
  let (out, ok) ← jsHex t v maxlen
  if ok then return out else failure

def onSubscribe (s : Stratum) (result : Nat) : Except Fault Stratum := do
  let en1 ← jsElem t result 1
  let sz ← jsElem t result 2
  match en1, sz with
  | some en1, some sz =>
    let (out, ok) ← jsHex t en1 stratumMaxEn1
    let s := { s with extranonce1 := overwrite s.extranonce1 out }
    if !ok then return s
    else
      let s := { s with en1Len := out.length }
      let n ← jsNum t sz
      if n.lt (.ofNat 1) ∨ (Double.ofNat stratumMaxEn2).lt n then return s
      else
        let _ ← bin2hex s.en1 (2 * stratumMaxEn1 + 1)
        return { s with en2Size := n.toU64.toNat, subscribed := true }
  | _, _ => return s

def branchLoop (pBr : Nat) : Nat → List (Vector Byte 32) →
    OptionT (Except Fault) (List (Vector Byte 32))
  | 0, branches => return branches
  | n + 1, branches => do
    let e ← OptionT.mk (jsElem t pBr branches.length)
    let b ← hexExact t e 32
    let branches ← store stratumMaxBranches branches b
    branchLoop pBr n branches

def given (v : Option α) : OptionT (Except Fault) α := OptionT.mk (.ok v)

def parseParams (pJob pPrev pCb1 pCb2 pBr pBits pNtime pClean : Option Nat) :
    OptionT (Except Fault) StratumJob := do
  let pJob ← given pJob
  let pPrev ← given pPrev
  let pCb1 ← given pCb1
  let pCb2 ← given pCb2
  let pBr ← given pBr
  let pBits ← given pBits
  let pNtime ← given pNtime
  let (jobId, ok) ← jsStr t pJob 64
  guard ok
  let prevhash ← hexExact t pPrev 32
  let coinb1 ← hexUpTo t pCb1 stratumMaxCb
  let coinb2 ← hexUpTo t pCb2 stratumMaxCb
  let nb ← jsCount t pBr
  guard (0 ≤ nb ∧ nb ≤ stratumMaxBranches)
  let branches ← branchLoop t pBr nb.toNat []
  let ntime ← hexExact t pNtime 8
  let bits ← hexExact t pBits 4
  let clean ← match pClean with
    | some v => jsTrue t v
    | none => pure true
  return { jobId, prevhash, coinb1, coinb2, branches, ntime, clean
           nbits := leWord 32 bits.toList
           seq := 0 }

/-- All parameters are looked up before any is checked. -/
def parseJob (params : Nat) : Except Fault (Option StratumJob) := do
  let n ← jsCount t params
  if n < 9 then return none
  else
    let pJob ← jsElem t params 0
    let pPrev ← jsElem t params 1
    let pCb1 ← jsElem t params 2
    let pCb2 ← jsElem t params 3
    let pBr ← jsElem t params 4
    let pBits ← jsElem t params 6
    let pNtime ← jsElem t params 7
    let pClean ← jsElem t params 8
    (parseParams t pJob pPrev pCb1 pCb2 pBr pBits pNtime pClean).run

def onNotify (s : Stratum) (params : Nat) : Except Fault Stratum := do
  match ← parseJob t params with
  | none => return s
  | some j => return { s with
      job := { j with seq := s.job.seq + 1 }, haveJob := true, jobsReceived := s.jobsReceived + 1 }

def onSetDifficulty (s : Stratum) (params : Nat) : Except Fault Stratum := do
  match ← jsElem t params 0 with
  | none => return s
  | some d =>
    let n ← jsNum t d
    return { s with difficulty := n }

def newSize (s : Stratum) (z : Option Nat) : Except Fault Nat :=
  match z with
  | none => return s.en2Size
  | some z => do
    let n ← jsNum t z
    if (Double.ofNat 1).le n ∧ n.le (.ofNat stratumMaxEn2) then return n.toU64.toNat
    else return s.en2Size

def onSetExtranonce (s : Stratum) (params : Nat) : Except Fault Stratum := do
  let e ← jsElem t params 0
  let z ← jsElem t params 1
  match e with
  | none => return s
  | some e =>
    let (out, ok) ← jsHex t e stratumMaxEn1
    let s := { s with extranonce1 := overwrite s.extranonce1 out }
    if !ok then return s
    else
      let size ← newSize t s z
      return { s with en1Len := out.length, en2Size := size, haveJob := false }

/-- `w ? js_num (w) : 0` -/
def newWait (w : Option Nat) : Except Fault Double :=
  match w with
  | some w => jsNum t w
  | none => return .fin 0

/-- `p ? (int)js_num (p) : s->port` -/
def newPort (s : Stratum) (p : Option Nat) : Except Fault Int :=
  match p with
  | some p => do
    let n ← jsNum t p
    return n.toInt
  | none => return s.port

def onReconnect (s : Stratum) (params : Nat) (now : U64) : Except Fault Stratum := do
  let h ← jsElem t params 0
  let p ← jsElem t params 1
  let w ← jsElem t params 2
  let wait ← newWait t w
  let wait := if wait.lt (.fin 0) then .fin 0 else wait
  let wait := if (Double.ofNat 300).lt wait then .ofNat 300 else wait
  match h with
  | none => return drop s
  | some h =>
    let (out, ok) ← jsStr t h 128
    if ok then
      let port ← newPort t s p
      return drop { s with
        reconnectHost := overwrite s.reconnectHost (out ++ [0])
        reconnectPort := port
        reconnectPending := true
        addr := []
        retryAt := now + wait.toU64 }
    else return drop { s with reconnectHost := overwrite s.reconnectHost out }

/-- `res && js_true (res)` -/
def isTrue (res : Option Nat) : Except Fault Bool :=
  match res with
  | some r => jsTrue t r
  | none => return false

/-- `v && *js_ws (v) == '['` -/
def isArray (v : Option Nat) : Except Fault Bool :=
  match v with
  | some v => do
    let p ← jsWs t v
    return (← t.read p) = char '['
  | none => return false

/-- The reason goes to `last_reject`, which has 128 bytes and which nothing reads back. -/
def rejectReason (err : Option Nat) : Except Fault Unit := do
  match err with
  | none => return ()
  | some e =>
    if ← isArray t (some e) then
      match ← jsElem t e 1 with
      | none => return ()
      | some msg =>
        let _ ← jsStr t msg 128
        return ()
    else return ()

def onReply (s : Stratum) : Except Fault Stratum := do
  match ← jsGet t 0 "id" with
  | none => return s
  | some idv =>
    let id := (← jsNum t idv).toU64
    let res ← jsGet t 0 "result"
    let err ← jsGet t 0 "error"
    if id = s.subId then
      match res with
      | some r => if ← isArray t (some r) then onSubscribe t s r else return s
      | none => return s
    else if id = s.authId then return { s with authorized := ← isTrue t res }
    else if id = s.suggestDiffId then
      let _ ← isTrue t res
      return s
    else if ← isTrue t res then return { s with sharesAccepted := s.sharesAccepted + 1 }
    else
      rejectReason t err
      return { s with sharesRejected := s.sharesRejected + 1 }

def onLine (s : Stratum) (now : U64) : Except Fault Stratum := do
  match ← jsGet t 0 "method" with
  | some meth =>
    let (m, ok) ← jsStr t meth 64
    if !ok then return s
    else
      match ← jsGet t 0 "params" with
      | none => return s
      | some params =>
        if m = ascii "mining.notify" then onNotify t s params
        else if m = ascii "mining.set_difficulty" then onSetDifficulty t s params
        else if m = ascii "mining.set_extranonce" then onSetExtranonce t s params
        else if m = ascii "client.reconnect" then onReconnect t s params now
        else return s
  | none => onReply t s

end OspreyBlake2b.Miner.Checked
