import OspreyBlake2b.Lib.CText

/-! `miner/dns.c`: the question of a query and the walk over the reply. -/

namespace OspreyBlake2b.Miner

open OspreyBlake2b.Lib

def typeA : Nat := 1

def encodeLabels (buflen : Nat) (p out : List Byte) : Option (List Byte) :=
  if p = [] then some out
  else
    let label := p.takeWhile (· ≠ char '.')
    let rest := p.dropWhile (· ≠ char '.')
    if label.length = 0 ∨ label.length > 63 then none
    else if out.length + 1 + label.length + 1 > buflen then none
    else
      let out := out ++ BitVec.ofNat 8 label.length :: label
      if rest = [] then some out else encodeLabels buflen rest.tail out
termination_by p.length
decreasing_by
  have hle := (p.dropWhile_suffix (· ≠ char '.')).length_le
  have hpos := List.length_pos_of_ne_nil (l := p) (by assumption)
  simp only [List.length_tail]
  omega

def encodeQname (host : List Byte) (buflen : Nat) : Option (List Byte) := do
  let out ← encodeLabels buflen host []
  if out.length + 1 > buflen then none else return out ++ [0]

inductive DnsError where
  | noReply
  | idMismatch
  | rcode (code : Nat)
  | noAnswer
  | malformedQuestion
  | malformedAnswer
  | rdataOverruns
  | noARecord
  deriving DecidableEq

def DnsError.text (server host : String) : DnsError → String
  | .noReply => "dns no reply from " ++ server
  | .idMismatch => "dns id mismatch"
  | .rcode code => "dns rcode " ++ toString code ++ " for " ++ host
  | .noAnswer => "dns no answer for " ++ host
  | .malformedQuestion => "dns malformed question"
  | .malformedAnswer => "dns malformed answer"
  | .rdataOverruns => "dns rdata overruns packet"
  | .noARecord => "dns answer for " ++ host ++ " carried no A record"

/-- `outside` stands for a read behind the bytes received, which C would go through
with. -/
inductive DnsStop where
  | outside (i : Nat)
  | failed (e : DnsError)
  deriving DecidableEq

def byteAt (r : List Byte) (i : Nat) : Except DnsStop Byte :=
  match r[i]? with
  | some b => .ok b
  | none => .error (.outside i)

def u16At (r : List Byte) (i : Nat) : Except DnsStop Nat := do
  let hi ← byteAt r i
  let lo ← byteAt r (i + 1)
  return hi.toNat <<< 8 ||| lo.toNat

/-- `none` is `-1`. -/
def skipName (msg : List Byte) (off : Nat) : Except DnsStop (Option Nat) :=
  if off < msg.length then
    match byteAt msg off with
    | .error e => .error e
    | .ok l =>
      if l = 0 then .ok (some (off + 1))
      else if l &&& 0xc0#8 = 0xc0#8 then .ok (if off + 2 ≤ msg.length then some (off + 2) else none)
      else if l.toNat > 63 then .ok none
      else skipName msg (off + (1 + l.toNat))
  else .ok none
termination_by msg.length - off

def skipQuestions (r : List Byte) : Nat → Nat → Except DnsStop Nat
  | 0, off => return off
  | qd + 1, off => do
    match ← skipName r off with
    | none => throw (.failed .malformedQuestion)
    | some off =>
      if off + 4 > r.length then throw (.failed .malformedQuestion)
      else skipQuestions r qd (off + 4)

/-- The four bytes that go to `inet_ntop`. -/
def walkAnswers (r : List Byte) : Nat → Nat → Except DnsStop (List Byte)
  | 0, _ => throw (.failed .noARecord)
  | an + 1, off => do
    match ← skipName r off with
    | none => throw (.failed .malformedAnswer)
    | some off =>
      if off + 10 > r.length then throw (.failed .malformedAnswer)
      else
        let type ← u16At r off
        let rdlen ← u16At r (off + 8)
        let off := off + 10
        if off + rdlen > r.length then throw (.failed .rdataOverruns)
        else if type = typeA ∧ rdlen = 4 then (List.range 4).mapM fun k => byteAt r (off + k)
        else walkAnswers r an (off + rdlen)

/-- `query_one` from `recv` on, with `r` the bytes received. -/
def walkReply (r : List Byte) (id : BitVec 16) : Except DnsStop (List Byte) := do
  if r.length < 12 then throw (.failed .noReply)
  else
    let got ← u16At r 0
    if got ≠ id.toNat then throw (.failed .idMismatch)
    else
      let flags ← byteAt r 3
      let rcode := flags &&& 0x0f#8
      if rcode ≠ 0 then throw (.failed (.rcode rcode.toNat))
      else
        let qd ← u16At r 4
        let an ← u16At r 6
        if an ≤ 0 then throw (.failed .noAnswer)
        else
          let off ← skipQuestions r qd 12
          walkAnswers r an off

end OspreyBlake2b.Miner
