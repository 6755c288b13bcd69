import OspreyBlake2b.Lib.JsonDump
import OspreyBlake2b.Zynq.SiaReference

/-! `zynq/stratum_test_server.py`: a pool to test the miner against.  Every connection has a
thread that reads requests line by line; what is printed for the operator is left out. -/

namespace OspreyBlake2b.Zynq

open OspreyBlake2b.Lib OspreyBlake2b.Lib.JsonText OspreyBlake2b.Miner

def poolNbits : List Byte := ascii "d4c20319"
def poolNtime : List Byte := ascii "0000000000000000"
def extranonce2Size : Nat := 8

def diff1Target : Rat := 0xffff * 2 ^ 208

/-- The quotient is a float, and `int` of an infinite one is an exception. -/
def difficultyToTarget (difficulty : Double) : Option Int :=
  match difficulty with
  | .fin d =>
    if d ≤ 0 then none
    else
      match Double.round (diff1Target / d) with
      | .fin q => some (min q.floor (2 ^ 256 - 1))
      | _ => none
  | .inf neg => if neg then none else some 0
  | .nan => none

structure Template where
  prevhash : Vector Byte 32
  coinb1 : Vector Byte 39

/-- The difficulty is kept as it is printed, which reads back as the same float. -/
structure Server where
  chain : Chain
  difficulty : Number
  acceptTarget : Nat
  accepted : Nat
  rejected : Nat
  submits : Nat
  done : Bool

def Server.target (srv : Server) : Option Int := difficultyToTarget (.round srv.difficulty.val)

def Server.record (srv : Server) (accepted : Bool) : Server :=
  let srv := { srv with submits := srv.submits + 1 }
  if accepted then
    let srv := { srv with accepted := srv.accepted + 1 }
    if srv.acceptTarget ≠ 0 ∧ srv.acceptTarget ≤ srv.accepted then { srv with done := true } else srv
  else { srv with rejected := srv.rejected + 1 }

structure Handler where
  jobs : List (List Byte × FixtureJob)
  jobCounter : Nat
  extranonce1 : List Byte
  authorized : Bool

def Handler.setup (extranonce1 : Vector Byte 4) : Handler := ⟨[], 0, extranonce1.toList, false⟩

def reply (mid : Option Json) (result error : Json) : Json :=
  .obj [(ascii "id", mid.getD .null), (ascii "result", result), (ascii "error", error)]

def fault (code : Nat) (text : List Byte) : Json := .arr [.num (dec code), .str text, .null]

def notice (method : String) (params : List Json) : Json :=
  .obj [(ascii "id", .null), (ascii "method", .str (ascii method)), (ascii "params", .arr params)]

def Server.setDifficulty (srv : Server) : Json :=
  notice "mining.set_difficulty" [.num srv.difficulty.text]

def jobName (counter : Nat) : List Byte :=
  let digits := Nat.toDigits 16 counter
  ascii "fixture" ++ (List.replicate (8 - digits.length) '0' ++ digits).map char

def Template.job (t : Template) : FixtureJob where
  prevhash := .bytes t.prevhash.toList
  coinb1 := .bytes t.coinb1.toList
  coinb2 := .bytes []
  branches := []

def Template.notify (t : Template) (jobId : List Byte) : Json :=
  notice "mining.notify" [.str jobId, .str (bin2hex t.prevhash.toList), .str (bin2hex t.coinb1.toList),
    .str [], .arr [], .str [], .str poolNbits, .str poolNtime, .bool true]

def pushJob (h : Handler) (t : Template) : Handler × Json :=
  let jobId := jobName (h.jobCounter + 1)
  ({ h with jobCounter := h.jobCounter + 1, jobs := (jobId, t.job) :: h.jobs }, t.notify jobId)

def truthy : Json → Bool
  | .null => false
  | .bool b => b
  | .num text => strtod text ≠ .fin 0
  | .str text => text ≠ []
  | .arr es => !es.isEmpty
  | .obj ms => !ms.isEmpty

/-- Why a submission is not graded: an exception, or an answer with an error. -/
inductive Refusal where
  | raised
  | malformed
  | refused (code : Nat) (text : List Byte)

def pyLen : Json → Except Refusal Nat
  | .str text => pure (Json.codePoints text).length
  | .arr es => pure es.length
  | .obj ms => pure (ms.map Prod.fst).dedup.length
  | _ => throw .raised

def submitParams : Option Json → Except Refusal (List Json)
  | none => pure []
  | some v =>
    if !truthy v then pure []
    else
      match v with
      | .arr es => pure es
      | .str text => pure ((Json.codePoints text).map fun n => .str (Json.utf8 n))
      | .obj ms => if (ms.map Prod.fst).dedup.length < 5 then pure [] else throw .raised
      | _ => throw .raised

def Handler.findJob (h : Handler) : Json → Except Refusal FixtureJob
  | .str jobId =>
    match h.jobs.lookup jobId with
    | some job => pure job
    | none => throw (.refused 21 (ascii "Job not found"))
  | .arr _ | .obj _ => throw .raised
  | _ => throw (.refused 21 (ascii "Job not found"))

def checkWidth (v : Json) (text : String) : Except Refusal Unit := do
  if (← pyLen v) ≠ 2 * extranonce2Size then throw (.refused 20 (ascii text))

def hexField : Json → Except Refusal (List Byte)
  | .str text =>
    match fromHex text with
    | some bytes => pure bytes
    | none => throw (.refused 20 (ascii "Non-hex submit field"))
  | _ => throw .raised

def narrowText : String := "ntime and nonce must be 16 hex chars (64-bit) in the Sia dialect"

section Requests

variable (lib : Hashlib) (srv : Server) (h : Handler)

def gradeSubmit (params : Option Json) : Except Refusal Bool := do
  match ← submitParams params with
  | _worker :: jobId :: en2Hex :: ntimeHex :: nonceHex :: _ =>
    let job ← h.findJob jobId
    checkWidth ntimeHex narrowText
    checkWidth nonceHex narrowText
    checkWidth en2Hex "Bad extranonce2 size"
    let en2 ← hexField en2Hex
    let ntime ← hexField ntimeHex
    let nonce ← hexField nonceHex
    match srv.target.bind fun target => grade lib srv.chain target job h.extranonce1 en2 ntime nonce with
    | some accepted => pure accepted
    | none => throw .raised
  | _ => throw .malformed

/-- What a request leads to: the thread's and the server's state, the objects sent before the
end of the request or of the thread, and the verdict that was counted. -/
structure Turn where
  handler : Handler
  server : Server
  sent : List Json
  verdict : Option Bool
  raised : Bool

def idle : Turn := ⟨h, srv, [], none, false⟩

def answer (sent : List Json) : Turn := ⟨h, srv, sent, none, false⟩

def onSubmit (mid params : Option Json) : Turn :=
  match gradeSubmit lib srv h params with
  | .ok true => ⟨h, srv.record true, [reply mid (.bool true) .null], some true, false⟩
  | .ok false =>
    ⟨h, srv.record false, [reply mid (.bool false) (fault 23 (ascii "LowDifficultyShare"))],
      some false, false⟩
  | .error (.refused code text) =>
    ⟨h, srv.record false, [reply mid (.bool false) (fault code text)], some false, false⟩
  | .error .malformed =>
    answer srv h [reply mid (.bool false) (fault 20 (ascii "Malformed submit"))]
  | .error .raised => ⟨h, srv, [], none, true⟩

def hasFirst : Option Json → Bool
  | none => true
  | some (.arr es) => !es.isEmpty
  | some (.str text) => text ≠ []
  | _ => false

def onAuthorize (mid params : Option Json) (t : Template) : Turn :=
  let h := { h with authorized := true }
  let accepted := reply mid (.bool true) .null
  if hasFirst params then
    let (h, job) := pushJob h t
    answer srv h [accepted, srv.setDifficulty, job]
  else ⟨h, srv, [accepted], none, true⟩

/-- How a method that is no string is printed; arrays and objects are left out. -/
def printed : Json → List Byte
  | .str text => text
  | .num text => text
  | .bool b => ascii (if b then "True" else "False")
  | _ => []

def unknownMethod (mid : Option Json) (method : Json) : Turn :=
  answer srv h [reply mid .null (fault 20 (ascii "Unknown method " ++ printed method))]

/-- `t` is what the template source has, should a job be pushed. -/
def dispatch (msg : Json) (t : Template) : Turn :=
  match msg with
  | .obj _ =>
    let mid := msg.get "id"
    match msg.get "method" with
    | some (.str method) =>
      if method = ascii "mining.subscribe" then
        answer srv h [reply mid (.arr [.arr [.arr [.str (ascii "mining.notify"), .str (ascii "fixture")]],
          .str (bin2hex h.extranonce1), .num (dec extranonce2Size)]) .null]
      else if method = ascii "mining.authorize" then onAuthorize srv h mid (msg.get "params") t
      else if method = ascii "mining.suggest_difficulty" then
        answer srv h [reply mid (.bool false) .null]
      else if method = ascii "mining.submit" then onSubmit lib srv h mid (msg.get "params")
      else unknownMethod srv h mid (.str method)
    | none | some .null => idle srv h
    | some method => unknownMethod srv h mid method
  | _ => ⟨h, srv, [], none, true⟩

def pySpace (c : Byte) : Bool := c = char ' ' ∨ (9 ≤ c ∧ c ≤ 13) ∨ (28 ≤ c ∧ c ≤ 31)

def strip (line : List Byte) : List Byte :=
  ((line.dropWhile pySpace).reverse.dropWhile pySpace).reverse

def handleLine (raw : List Byte) (t : Template) : Turn :=
  let line := strip (Utf8.decode raw)
  if line = [] then idle srv h
  else
    match Json.parse line with
    | none => idle srv h
    | some msg => dispatch lib srv h msg t

end Requests

end OspreyBlake2b.Zynq
