import OspreyBlake2b.Miner.Json
import OspreyBlake2b.Miner.SiaStratum

/-! `miner/stratum.c`: one session with a pool.  What the operating system and the
network decide is a parameter of the call that asks; log lines are left out. -/

namespace OspreyBlake2b.Miner

open OspreyBlake2b.Lib

structure Stratum where
  host : List Byte
  addr : List Byte
  port : Int
  worker : List Byte
  password : List Byte
  fd : Int
  rx : List Byte
  extranonce1 : List Byte
  en1Len : Nat
  en2Size : Nat
  difficulty : Double
  job : StratumJob
  haveJob : Bool
  subscribed : Bool
  authorized : Bool
  nextId : U64
  subId : U64
  authId : U64
  suggestDiffId : U64
  backoffS : Nat
  retryAt : U64
  reconnectHost : List Byte
  reconnectPort : Int
  reconnectPending : Bool
  jobsReceived : U64
  sharesSubmitted : U64
  sharesAccepted : U64
  sharesRejected : U64
  reconnects : U64
  deriving DecidableEq

def zeroJob : StratumJob where
  jobId := []
  prevhash := Vector.replicate 32 0
  coinb1 := []
  coinb2 := []
  branches := []
  ntime := Vector.replicate 8 0
  nbits := 0
  clean := false
  seq := 0

def stratumInit (host : List Byte) (port : Int) (worker password : List Byte) : Stratum where
  host := host.take 191
  addr := []
  port := port
  worker := worker.take 159
  password := password.take 159
  fd := -1
  rx := []
  extranonce1 := List.replicate stratumMaxEn1 0
  en1Len := 0
  en2Size := 8
  difficulty := .ofNat 1
  job := zeroJob
  haveJob := false
  subscribed := false
  authorized := false
  nextId := 0
  subId := 0
  authId := 0
  suggestDiffId := 0
  backoffS := 0
  retryAt := 0
  reconnectHost := List.replicate 128 0
  reconnectPort := 0
  reconnectPending := false
  jobsReceived := 0
  sharesSubmitted := 0
  sharesAccepted := 0
  sharesRejected := 0
  reconnects := 0

def Stratum.en1 (s : Stratum) : List Byte := s.extranonce1.take s.en1Len

def diff1Target : List Byte :=
  List.replicate 4 0 ++ [0xff#8, 0xff#8] ++ List.replicate 26 0

def bnDivU64 (input : List Byte) (divisor : U64) : List Byte :=
  if divisor = 0 then List.replicate 32 0
  else
    ((List.range 256).foldl
      (fun (rem, out) i =>
        let byte := i / 8
        let bit := 7 - i % 8
        let rem := (rem <<< 1) ||| ((input.getD byte 0 >>> bit) &&& 1).setWidth 64
        if rem ≥ divisor then (rem - divisor, out.modify byte (· ||| 1#8 <<< bit)) else (rem, out))
      ((0 : U64), List.replicate 32 0)).2

def bnShl32 (input : List Byte) : List Byte := input.drop 4 ++ List.replicate 4 0

def dscaled (difficulty : Double) : U64 :=
  let d := if Double.lt (.round (1 / 10 ^ 9)) difficulty then difficulty else .ofNat 1
  let v := ((d.mul (.ofNat (2 ^ 32))).add (.fin (1 / 2))).toU64
  if v = 0 then 1 else v

def stratumTargetFull (s : Stratum) : List Byte :=
  bnShl32 (bnDivU64 diff1Target (dscaled s.difficulty))

def stratumTargetTop64 (s : Stratum) : U64 := top64 (stratumTargetFull s)

def drop (s : Stratum) : Stratum :=
  { s with fd := -1, subscribed := false, authorized := false, haveJob := false, rx := [] }

/-- `ok` is whether the kernel takes the whole line. -/
def sendLine (s : Stratum) (ok : Bool) : Stratum × Bool :=
  if s.fd < 0 then (s, false) else if ok then (s, true) else (drop s, false)

def dec (n : Nat) : List Byte := ascii (toString n)

def requestLine (id : U64) (method : String) (params : List Byte) : List Byte :=
  ascii "\x7b\"id\":" ++ dec id.toNat ++ ascii ",\"method\":\"" ++ ascii method ++
    ascii "\",\"params\":[" ++ params ++ ascii "]\x7d\n"

def quoted (t : List Byte) : List Byte := ascii "\"" ++ t ++ ascii "\""

/-- The answers a dial gets: the resolver's address, the socket's number, whether
the address parses, whether the connection comes up, and the three sends. -/
structure DialEnv where
  dns : Option (List Byte)
  socket : Int
  pton : Bool
  connects : Bool
  sendSubscribe : Bool
  sendAuthorize : Bool
  sendSuggest : Bool
  deriving DecidableEq

def backoffMinS : Nat := 2
def backoffMaxS : Nat := 120

def backOff (s : Stratum) (now : U64) : Stratum :=
  let b := if s.backoffS ≠ 0 then s.backoffS * 2 else backoffMinS
  let b := if b > backoffMaxS then backoffMaxS else b
  { s with backoffS := b, retryAt := now + BitVec.ofNat 64 b }

def handshake (s : Stratum) (e : DialEnv) : Stratum × List (List Byte) :=
  let s := { s with subId := s.nextId + 1, nextId := s.nextId + 1 }
  let sub := (requestLine s.subId "mining.subscribe" (quoted (ascii "osprey-blake2b/1.0"))).take 511
  match sendLine s e.sendSubscribe with
  | (s, false) => (s, [])
  | (s, true) =>
    let s := { s with authId := s.nextId + 1, nextId := s.nextId + 1 }
    let auth := (requestLine s.authId "mining.authorize"
      (quoted s.worker ++ ascii "," ++ quoted s.password)).take 511
    match sendLine s e.sendAuthorize with
    | (s, false) => (s, [sub])
    | (s, true) =>
      let s := { s with suggestDiffId := s.nextId + 1, nextId := s.nextId + 1 }
      let sug := requestLine s.suggestDiffId "mining.suggest_difficulty" (ascii "32")
      match sendLine s e.sendSuggest with
      | (s, false) => (s, [sub, auth])
      | (s, true) => (s, [sub, auth, sug])

def connectTo (s : Stratum) (redirect : Bool) (now : U64) (e : DialEnv) :
    Stratum × List (List Byte) :=
  if e.socket < 0 then (s, [])
  else if !e.pton then (if redirect then s else { s with addr := [] }, [])
  else if !e.connects then (backOff s now, [])
  else
    handshake { s with fd := e.socket, rx := [], backoffS := 0, reconnects := s.reconnects + 1 } e

structure Dialled where
  session : Stratum
  target : Option (List Byte × Int)
  sent : List (List Byte)

/-- A pending redirect is used up here whatever becomes of the attempt, and its
address never enters the cache of the configured host. -/
def dial (s : Stratum) (now : U64) (e : DialEnv) : Dialled :=
  if now < s.retryAt then ⟨s, none, []⟩
  else
    let redirect := s.reconnectPending
    let target := if redirect then (cstr s.reconnectHost, s.reconnectPort) else (s.host, s.port)
    let s := { s with reconnectPending := false }
    let (s, sent) :=
      if redirect ∨ s.addr = [] then
        match e.dns with
        | none => (backOff s now, [])
        | some a => connectTo (if redirect then s else { s with addr := a }) redirect now e
      else connectTo s redirect now e
    ⟨s, some target, sent⟩

def toVector (n : Nat) (l : List Byte) : Option (Vector Byte n) :=
  if h : l.length = n then some ⟨l.toArray, by simp [h]⟩ else none

def hexExact (v : List Byte) (n : Nat) : Option (Vector Byte n) :=
  let (out, ok) := jsHex v n
  if ok then toVector n out else none

def hexUpTo (v : List Byte) (maxlen : Nat) : Option (List Byte) :=
  let (out, ok) := jsHex v maxlen
  if ok then some out else none

def onSubscribe (s : Stratum) (result : List Byte) : Stratum :=
  match jsElem result 1, jsElem result 2 with
  | some en1, some sz =>
    let (out, ok) := jsHex en1 stratumMaxEn1
    let s := { s with extranonce1 := overwrite s.extranonce1 out }
    if !ok then s
    else
      let s := { s with en1Len := out.length }
      let n := jsNum sz
      if n.lt (.ofNat 1) ∨ (Double.ofNat stratumMaxEn2).lt n then s
      else { s with en2Size := n.toU64.toNat, subscribed := true }
  | _, _ => s

/-- The job of a notify that passes every check, not yet numbered. -/
def parseJob (params : List Byte) : Option StratumJob := do
  guard (jsCount params ≥ 9)
  let pJob ← jsElem params 0
  let pPrev ← jsElem params 1
  let pCb1 ← jsElem params 2
  let pCb2 ← jsElem params 3
  let pBr ← jsElem params 4
  let pBits ← jsElem params 6
  let pNtime ← jsElem params 7
  let (jobId, ok) := jsStr pJob 64
  guard ok
  let prevhash ← hexExact pPrev 32
  let coinb1 ← hexUpTo pCb1 stratumMaxCb
  let coinb2 ← hexUpTo pCb2 stratumMaxCb
  let nb := jsCount pBr
  guard (0 ≤ nb ∧ nb ≤ stratumMaxBranches)
  let branches ← (List.range nb.toNat).mapM fun i => do
    let e ← jsElem pBr i
    hexExact e 32
  let ntime ← hexExact pNtime 8
  let bits ← hexExact pBits 4
  return {
    jobId, prevhash, coinb1, coinb2, branches, ntime
    nbits := leWord 32 bits.toList
    clean := match jsElem params 8 with
      | some v => jsTrue v
      | none => true
    seq := 0 }

def parseNotify (s : Stratum) (params : List Byte) : Option StratumJob :=
  (parseJob params).map fun j => { j with seq := s.job.seq + 1 }

def onNotify (s : Stratum) (params : List Byte) : Stratum :=
  match parseNotify s params with
  | none => s
  | some j => { s with job := j, haveJob := true, jobsReceived := s.jobsReceived + 1 }

def onSetDifficulty (s : Stratum) (params : List Byte) : Stratum :=
  match jsElem params 0 with
  | none => s
  | some d => { s with difficulty := jsNum d }

def onSetExtranonce (s : Stratum) (params : List Byte) : Stratum :=
  match jsElem params 0 with
  | none => s
  | some e =>
    let (out, ok) := jsHex e stratumMaxEn1
    let s := { s with extranonce1 := overwrite s.extranonce1 out }
    if !ok then s
    else
      let size :=
        match jsElem params 1 with
        | none => s.en2Size
        | some z =>
          let n := jsNum z
          if (Double.ofNat 1).le n ∧ n.le (.ofNat stratumMaxEn2) then n.toU64.toNat else s.en2Size
      { s with en1Len := out.length, en2Size := size, haveJob := false }

def onReconnect (s : Stratum) (params : List Byte) (now : U64) : Stratum :=
  let wait := match jsElem params 2 with
    | some w => jsNum w
    | none => .fin 0
  let wait := if wait.lt (.fin 0) then .fin 0 else wait
  let wait := if (Double.ofNat 300).lt wait then .ofNat 300 else wait
  match jsElem params 0 with
  | none => drop s
  | some h =>
    let (out, ok) := jsStr h 128
    if ok then
      drop { s with
        reconnectHost := overwrite s.reconnectHost (out ++ [0])
        reconnectPort := match jsElem params 1 with
          | some p => (jsNum p).toInt
          | none => s.port
        reconnectPending := true
        addr := []
        retryAt := now + wait.toU64 }
    else drop { s with reconnectHost := overwrite s.reconnectHost out }

def onReply (s : Stratum) (line : List Byte) : Stratum :=
  match jsGet line "id" with
  | none => s
  | some idv =>
    let id := (jsNum idv).toU64
    let res := jsGet line "result"
    have isTrue : Bool := match res with
      | some r => jsTrue r
      | none => false
    if id = s.subId then
      match res with
      | some r => if deref (jsWs r) = char '[' then onSubscribe s r else s
      | none => s
    else if id = s.authId then { s with authorized := isTrue }
    else if id = s.suggestDiffId then s
    else if isTrue then { s with sharesAccepted := s.sharesAccepted + 1 }
    else { s with sharesRejected := s.sharesRejected + 1 }

def onLine (s : Stratum) (line : List Byte) (now : U64) : Stratum :=
  match jsGet line "method" with
  | some meth =>
    let (m, ok) := jsStr meth 64
    if !ok then s
    else
      match jsGet line "params" with
      | none => s
      | some params =>
        if m = ascii "mining.notify" then onNotify s params
        else if m = ascii "mining.set_difficulty" then onSetDifficulty s params
        else if m = ascii "mining.set_extranonce" then onSetExtranonce s params
        else if m = ascii "client.reconnect" then onReconnect s params now
        else s
  | none => onReply s line

def stratumReady (s : Stratum) : Bool := 0 ≤ s.fd ∧ s.subscribed ∧ s.authorized ∧ s.haveJob

def submitLine (id : U64) (worker jobId en2 ntime nonce : List Byte) : List Byte :=
  (requestLine id "mining.submit" (quoted worker ++ ascii "," ++ quoted jobId ++ ascii "," ++
    quoted (bin2hex en2) ++ ascii "," ++ quoted (bin2hex ntime) ++ ascii "," ++
    quoted (bin2hex nonce))).take 1023

def stratumSubmit (s : Stratum) (ok : Bool) : Stratum × Bool :=
  if s.fd < 0 then (s, false)
  else
    match sendLine { s with nextId := s.nextId + 1 } ok with
    | (s, false) => (s, false)
    | (s, true) => ({ s with sharesSubmitted := s.sharesSubmitted + 1 }, true)

end OspreyBlake2b.Miner
