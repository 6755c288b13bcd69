import OspreyBlake2b.Miner.PoolLoopLaws
import OspreyBlake2b.Zynq.StratumTestServer

/-! The miner and the test server over the network: the whole mining loop on one side, a thread
for each connection of the main session on the other, and lines under way in both directions. -/

namespace OspreyBlake2b.Zynq

open OspreyBlake2b.Lib OspreyBlake2b.Lib.JsonText OspreyBlake2b.Miner

/-- A share as the miner knows it: what it hashed, whether that was the item in force with its
extranonce still in place, and the verdict once there is one. -/
structure Entry where
  ctx : WorkCtx
  nonce : U64
  sound : Bool
  verdict : Option Bool

/-- A connection.  The end of each line from the server is left out; `alive` is its thread.
The ledger is history: the shares sent here, of whose verdicts `heard` have come back. -/
structure Conn where
  handler : Handler
  up : List (List Byte)
  down : List (List Byte)
  alive : Bool
  ledger : List Entry
  heard : Nat

/-- The last connection is the one the main session is on, if that is up; the threads of the
others go on until they notice. -/
structure Link where
  miner : Watched
  server : Server
  conns : List Conn

def Link.main (l : Link) : Stratum := l.miner.pool.src.main

/-- `hear` and `serve` take the next line off a connection.  `loop` is an event of the mining
loop that is not one of the main session. -/
inductive LinkEvent where
  | dial (now : U64) (env : DialEnv) (extranonce1 : Vector Byte 4)
  | hear (now : U64)
  | lost
  | loop (e : Event)
  | serve (i : Nat) (t : Template)
  | hangUp (i : Nat)

def Conn.opened (extranonce1 : Vector Byte 4) (sent : List (List Byte)) : Conn :=
  ⟨.setup extranonce1, sent, [], true, [], 0⟩

def settle (verdict : Bool) : List Entry → List Entry
  | [] => []
  | e :: es =>
    if e.verdict = none then { e with verdict := some verdict } :: es else e :: settle verdict es

def verdictsOf (s : Stratum) : U64 := s.sharesAccepted + s.sharesRejected

def Conn.hears (c : Conn) (rest : List (List Byte)) (s s' : Stratum) : Conn :=
  { c with down := rest, heard := c.heard + (verdictsOf s' - verdictsOf s).toNat }

def Conn.submits (c : Conn) (line : List Byte) (e : Entry) : Conn :=
  { c with up := c.up ++ [line], ledger := c.ledger ++ [e] }

def Conn.serves (c : Conn) (rest : List (List Byte)) (turn : Turn) : Conn :=
  { c with
    handler := turn.handler
    up := rest
    down := c.down ++ turn.sent.map Json.dumps
    alive := !turn.raised
    ledger := match turn.verdict with
      | some b => settle b c.ledger
      | none => c.ledger }

def Link.share? (l : Link) : Event → Option (Share × Entry)
  | .candidate nonce hashTop64 true =>
    match (l.miner.pool.react (.candidate nonce hashTop64 true)).2 with
    | .submitted share =>
      if share.sess = .main then
        some (share, ⟨l.miner.pool.ctx, nonce, !l.miner.past.behind && !l.miner.past.dead, none⟩)
      else none
    | _ => none
  | _ => none

def Link.shareLine (l : Link) (share : Share) : List Byte :=
  submitLine (l.main.nextId + 1) l.main.worker share.jobId share.en2 share.ntime share.nonce

def Link.step (lib : Hashlib) (l : Link) : LinkEvent → Link
  | .dial now env extranonce1 =>
    let sent := (dial l.main now env).sent
    if isUp l.miner.pool.src .main then l
    else
      { l with
        miner := l.miner.step (.dial .main now env)
        conns := if sent = [] then l.conns else l.conns ++ [.opened extranonce1 sent] }
  | .hear now =>
    match l.conns.getLast? with
    | some c =>
      match c.down with
      | line :: rest =>
        if isUp l.miner.pool.src .main then
          let miner := l.miner.step (.line .main line now)
          { l with
            miner := miner
            conns := l.conns.dropLast ++ [c.hears rest l.main miner.pool.src.main] }
        else l
      | [] => l
    | none => l
  | .lost => { l with miner := l.miner.step (.lost .main) }
  | .loop e =>
    if e.session? = some .main then l
    else
      { l with
        miner := l.miner.step e
        conns := match l.share? e, l.conns.getLast? with
          | some (share, entry), some c =>
            l.conns.dropLast ++ [c.submits (l.shareLine share) entry]
          | _, _ => l.conns }
  | .serve i t =>
    match l.conns[i]? with
    | some c =>
      match c.up with
      | line :: rest =>
        if c.alive then
          let turn := handleLine lib l.server c.handler line t
          { l with server := turn.server, conns := l.conns.set i (c.serves rest turn) }
        else l
      | [] => l
    | none => l
  | .hangUp i => { l with conns := l.conns.modify i fun c => { c with alive := false } }

def Server.start (chain : Chain) (difficulty : Number) (acceptTarget : Nat) : Server :=
  ⟨chain, difficulty, acceptTarget, 0, 0, 0, false⟩

def linkInit (main : Stratum) (dev : Option Stratum) (server : Server) : Link :=
  ⟨watchedInit (worksrcStratumConfigure server.chain main dev), server, []⟩

def Link.total (l : Link) (f : Conn → Nat) : Nat := (l.conns.map f).sum

def Conn.graded (b : Bool) (c : Conn) : Nat := c.ledger.countP fun e => e.verdict = some b

def Conn.heardOf (b : Bool) (c : Conn) : Nat :=
  (c.ledger.take c.heard).countP fun e => e.verdict = some b

end OspreyBlake2b.Zynq
