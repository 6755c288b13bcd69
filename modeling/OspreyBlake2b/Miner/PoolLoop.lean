import OspreyBlake2b.Lib.Machine
import OspreyBlake2b.Miner.WorksrcStratum

/-! The pool mining loop: the pieces of `main` in `miner/miner.c` that touch the
work in force, one event for each thing that can happen between two of them. -/

namespace OspreyBlake2b.Miner

open OspreyBlake2b.Lib

structure Pool where
  src : Worksrc
  ctx : WorkCtx
  haveWork : Bool
  lastTemplate : U64
  txBytes : Nat
  deriving DecidableEq

/-- `line`, `lost` and `dial` are what `stratum_poll` does to a session: a received
line, an end of the connection, an attempt to connect.  `work` is the push block
of one pass at time `t`, with `accepts` the bytes the transmitter takes before it
stalls.  `candidate` is a parsed frame. -/
inductive Event where
  | line (x : Sess) (text : List Byte) (now : U64)
  | lost (x : Sess)
  | dial (x : Sess) (now : U64) (env : DialEnv)
  | work (t now : U64) (accepts : Nat)
  | candidate (nonce hashTop64 : U64) (sendOk : Bool)
  deriving DecidableEq

/-- What an event shows outside the loop: a work item offered to the FPGA, and
whether the push went through, or a share put on a socket. -/
inductive Effect where
  | none
  | offered (pushed : Bool)
  | submitted (share : Share)
  deriving DecidableEq

/-- `st_poll` leaves the dev session alone unless it is configured. -/
def polled (g : Worksrc) : Sess → Bool
  | .main => true
  | .dev => g.devConfigured

def isUp (g : Worksrc) (x : Sess) : Bool := 0 ≤ (g.session x).fd

def pushWork (p : Pool) (t now : U64) (accepts : Nat) : Pool × Effect :=
  if !p.haveWork ∨ t - p.lastTemplate ≥ refreshS then
    match stGetWork p.src now with
    | (src, none) => ({ p with src := src, lastTemplate := t }, .none)
    | (src, some next) =>
      match worksrcPackItem next src.chain.itemLen with
      | none => ({ p with src := src, lastTemplate := t }, .offered false)
      | some item =>
        if accepts ≥ item.length then
          ({ src := src, ctx := next, haveWork := true, lastTemplate := t
             txBytes := p.txBytes + item.length }, .offered true)
        else
          ({ p with src := src, lastTemplate := t, txBytes := p.txBytes + accepts },
            .offered false)
  else (p, .none)

def onCandidate (p : Pool) (nonce hashTop64 : U64) (sendOk : Bool) : Pool × Effect :=
  match stOnCandidate p.src p.ctx nonce hashTop64 sendOk with
  | (src, _, some share) => ({ p with src := src }, .submitted share)
  | (src, _, none) => ({ p with src := src }, .none)

def Pool.react (p : Pool) : Event → Pool × Effect
  | .line x text now =>
    if polled p.src x ∧ isUp p.src x then
      ({ p with src := p.src.setSession x (onLine (p.src.session x) text now) }, .none)
    else (p, .none)
  | .lost x =>
    if polled p.src x ∧ isUp p.src x then
      ({ p with src := p.src.setSession x (drop (p.src.session x)) }, .none)
    else (p, .none)
  | .dial x now env =>
    if polled p.src x ∧ !isUp p.src x then
      ({ p with src := p.src.setSession x (dial (p.src.session x) now env).session }, .none)
    else (p, .none)
  | .work t now accepts => pushWork p t now accepts
  | .candidate nonce hashTop64 sendOk =>
    -- frames are assembled only once synced, and that only with work in force
    if p.haveWork then onCandidate p nonce hashTop64 sendOk else (p, .none)

def poolInit (src : Worksrc) : Pool := ⟨src, zeroCtx, false, 0, 0⟩

structure Origin where
  sess : Sess
  job : StratumJob
  en1 : List Byte
  en1Len : Nat
  en2 : List Byte
  conn : U64
  deriving DecidableEq

def originOf (g : Worksrc) : Option Origin :=
  g.cur.sess.map fun x =>
    let s := g.session x
    ⟨x, s.job, s.en1, s.en1Len, g.cur.en2, s.reconnects⟩

def isRotation (text : List Byte) : Bool :=
  match jsGet text "method", jsGet text "params" with
  | some meth, some params =>
    jsStr meth 64 == (ascii "mining.set_extranonce", true) &&
      match jsElem params 0 with
      | some e => (jsHex e stratumMaxEn1).2
      | none => false
  | _, _ => false

/-- The history of a run: what `g_cur` and what the item on the FPGA were built
from, whether a push has failed since the latter went out, and whether the former
has outlived its extranonce or its connection. -/
structure History where
  built : Option Origin
  ground : Option Origin
  behind : Bool
  dead : Bool
  deriving DecidableEq

def historyInit : History := ⟨none, none, false, false⟩

/-- Session `x` went from `s` to `s'`: the item built last is dead if it came from
that session and the extranonce was rotated, or its bytes or length changed, or
the session is on a new connection. -/
def outlives (h : History) (x : Sess) (s s' : Stratum) (rotated : Bool) : Bool :=
  h.built.any fun o => o.sess = x ∧
    (rotated ∨ s'.en1 ≠ s.en1 ∨ s'.en1Len ≠ s.en1Len ∨ s'.reconnects ≠ s.reconnects)

def Event.rotates (g : Worksrc) : Event → Bool
  | .line x text _ => polled g x ∧ isUp g x ∧ isRotation text
  | _ => false

def Event.session? : Event → Option Sess
  | .line x _ _ => some x
  | .lost x => some x
  | .dial x _ _ => some x
  | _ => none

def History.watch (h : History) (p p' : Pool) (e : Event) (eff : Effect) : History :=
  match eff with
  | .offered pushed =>
    let o := originOf p'.src
    ⟨o, if pushed then o else h.ground, !pushed, false⟩
  | _ =>
    match e.session? with
    | none => h
    | some x =>
      { h with dead := h.dead ||
          outlives h x (p.src.session x) (p'.src.session x) (e.rotates p.src) }

structure Watched where
  pool : Pool
  past : History

def Watched.step (w : Watched) (e : Event) : Watched :=
  let (p', eff) := w.pool.react e
  ⟨p', w.past.watch w.pool p' e eff⟩

def watchedInit (src : Worksrc) : Watched := ⟨poolInit src, historyInit⟩

end OspreyBlake2b.Miner
