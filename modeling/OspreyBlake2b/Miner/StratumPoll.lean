import OspreyBlake2b.Lib.Lines
import OspreyBlake2b.Lib.Machine
import OspreyBlake2b.Miner.Stratum

/-! `stratum_poll` of `miner/stratum.c`, and the life of one connection under it. -/

namespace OspreyBlake2b.Miner

open OspreyBlake2b.Lib

def rxSize : Nat := 262144

/-- What one call of `recv` finds: bytes the peer has sent, none at all after its
orderly close; nothing yet; a signal; an error. -/
inductive Recv where
  | got (bytes : List Byte)
  | wouldBlock
  | interrupted
  | failed
  deriving DecidableEq

inductive Reading where
  | blocked
  | closed
  | failed
  | overflow
  deriving DecidableEq

/-- The reading loop on the results of its `recv` calls, with how it ends and what is
then buffered.  After the last result nothing more arrives. -/
def recvLoop (rx : List Byte) : List Recv → Reading × List Byte
  | [] => (if rx.length + 1 ≥ rxSize then .overflow else .blocked, rx)
  | r :: tape =>
    if rx.length + 1 ≥ rxSize then (.overflow, rx)
    else
      match r with
      | .got bytes =>
        let bytes := bytes.take (rxSize - rx.length - 1)
        if bytes = [] then (.closed, rx) else recvLoop (rx ++ bytes) tape
      | .wouldBlock => (.blocked, rx)
      | .interrupted => recvLoop rx tape
      | .failed => (.failed, rx)

structure Dispatched where
  session : Stratum
  calls : List (List Byte)
  deriving DecidableEq

/-- The dispatch loop from the start of a line, of which `line` has been passed over. -/
def dispatchLoop (now : U64) (s : Stratum) (line : List Byte) : List Byte → Dispatched
  | [] => ⟨{ s with rx := line }, []⟩
  | c :: rest =>
    if c = char '\n' then
      let s := if line = [] then s else onLine s line now
      let calls := if line = [] then [] else [line]
      if s.fd < 0 then ⟨s, calls⟩
      else
        let d := dispatchLoop now s [] rest
        ⟨d.session, calls ++ d.calls⟩
    else dispatchLoop now s (line ++ [c]) rest

def stratumPoll (s : Stratum) (now : U64) (env : DialEnv) (tape : List Recv) : Dispatched :=
  if s.fd < 0 then ⟨(dial s now env).session, []⟩
  else
    match recvLoop s.rx tape with
    | (.blocked, rx) => dispatchLoop now s [] rx
    | _ => ⟨drop s, []⟩

structure Poll where
  now : U64
  env : DialEnv
  tape : List Recv

/-- A connection with what has been received on it and given to `on_line`, and, when
reading has ended it, how and with what in the buffer. -/
structure Conn where
  session : Stratum
  received : List Byte
  calls : List (List Byte)
  ending : Option (Reading × List Byte)

def connInit (s : Stratum) (fd : Nat) : Conn := ⟨{ s with fd := fd, rx := [] }, [], [], none⟩

def Conn.step (c : Conn) (p : Poll) : Conn :=
  if c.session.fd < 0 then c
  else
    let r := recvLoop c.session.rx p.tape
    let d := stratumPoll c.session p.now p.env p.tape
    { session := d.session
      received := c.received ++ r.2.drop c.session.rx.length
      calls := c.calls ++ d.calls
      ending := if r.1 = .blocked then none else some r }

end OspreyBlake2b.Miner
