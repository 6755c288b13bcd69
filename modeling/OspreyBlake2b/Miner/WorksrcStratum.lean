import OspreyBlake2b.Miner.Stratum

/-! `miner/worksrc_stratum.c` with the pool half of `miner/devfee.c` and
`worksrc_pack_item`: from sessions to work items, and from candidates to shares. -/

namespace OspreyBlake2b.Miner

open OspreyBlake2b.Lib

def devfeeInterval : Nat := 20

structure DevfeePool where
  jobs : U64
  devJobs : U64
  skipped : U64
  shares : U64
  deriving DecidableEq

def devfeePoolEpoch (d : DevfeePool) : DevfeePool × Bool :=
  let d := { d with jobs := d.jobs + 1 }
  if d.jobs.toNat % devfeeInterval ≠ 0 then (d, false) else ({ d with devJobs := d.devJobs + 1 }, true)

def devfeePoolSkip (d : DevfeePool) : DevfeePool := { d with skipped := d.skipped + 1 }

def devfeePoolCredit (d : DevfeePool) : DevfeePool := { d with shares := d.shares + 1 }

inductive Chain where
  | knots
  | sia
  deriving DecidableEq

inductive Sess where
  | main
  | dev
  deriving DecidableEq

structure WorkCtx where
  ss3 : List Byte
  ss4 : List Byte
  targetTop64 : U64
  valid : Bool
  deriving DecidableEq

def zeroCtx : WorkCtx := ⟨List.replicate stage3Len 0, List.replicate stage4Len 0, 0, false⟩

/-- `g_cur`: what the current work item was built from. -/
structure Cur where
  sess : Option Sess
  jobId : List Byte
  en2 : List Byte
  ntime : List Byte
  target : List Byte
  jobSeq : U64
  isDev : Bool
  valid : Bool
  deriving DecidableEq

def zeroCur : Cur := ⟨none, [], [], List.replicate 8 0, List.replicate 32 0, 0, false, false⟩

structure Worksrc where
  chain : Chain
  main : Stratum
  dev : Stratum
  devConfigured : Bool
  cur : Cur
  en2Counter : U64
  lastPrevhash : Vector Byte 32
  havePushed : Bool
  lastPushAt : U64
  devfee : DevfeePool
  deriving DecidableEq

def Worksrc.session (g : Worksrc) : Sess → Stratum
  | .main => g.main
  | .dev => g.dev

def Worksrc.setSession (g : Worksrc) (x : Sess) (s : Stratum) : Worksrc :=
  match x with
  | .main => { g with main := s }
  | .dev => { g with dev := s }

def en2Bytes (len : Nat) (c : U64) : List Byte :=
  (List.range len).map fun k =>
    let i := len - 1 - k
    if i < 8 then (c >>> (8 * i)).setWidth 8 else 0

theorem en2Bytes_length (len : Nat) (c : U64) : (en2Bytes len c).length = len := by
  simp [en2Bytes]

def buildMessages (chain : Chain) (j : StratumJob) (en1 en2 : List Byte) :
    Option (List Byte × List Byte) :=
  match chain with
  | .sia => (siaBuildHeader j en1 en2).map fun (header, _) => (List.replicate stage3Len 0, header)
  | .knots => (siaBuildStages j en1 en2).bind fun st =>
      if j.branches.length ≠ 0 then none else some (st.ss3, st.ss4)

def en2Len (s : Stratum) : Nat := if s.en2Size ≠ 0 then s.en2Size else 8

def buildFrom (g : Worksrc) (x : Sess) (isDev : Bool) : Worksrc × Option WorkCtx :=
  let s := g.session x
  if en2Len s > stratumMaxEn2 then (g, none)
  else
    let g := { g with en2Counter := g.en2Counter + 1 }
    let en2 := en2Bytes (en2Len s) g.en2Counter
    match buildMessages g.chain s.job s.en1 en2 with
    | none => (g, none)
    | some (ss3, ss4) =>
      ({ g with
          cur := {
            sess := some x
            jobId := s.job.jobId
            en2 := en2
            ntime := s.job.ntime.toList
            target := stratumTargetFull s
            jobSeq := s.job.seq
            isDev := isDev
            valid := true } },
        some ⟨ss3, ss4, stratumTargetTop64 s, true⟩)

def pushMaxAgeS : U64 := 30

def recordPush (g : Worksrc) (now : U64) : Worksrc :=
  { g with lastPrevhash := g.main.job.prevhash, havePushed := true, lastPushAt := now }

def Worksrc.setDevfee (g : Worksrc) (d : DevfeePool) : Worksrc := { g with devfee := d }

def tryDevWork (g : Worksrc) : Worksrc × Option WorkCtx :=
  if g.devConfigured ∧ stratumReady g.dev then buildFrom g .dev true else (g, none)

def getMainWork (g : Worksrc) (now : U64) : Worksrc × Option WorkCtx :=
  match buildFrom g .main false with
  | (g, none) => (g, none)
  | (g, some ctx) => (recordPush g now, some ctx)

/-- `now` is what `time(NULL)` returns. -/
def stGetWork (g : Worksrc) (now : U64) : Worksrc × Option WorkCtx :=
  if !stratumReady g.main then (g, none)
  else
    let newBlock := !g.havePushed ∨ g.lastPrevhash ≠ g.main.job.prevhash
    let stale := g.havePushed ∧ now - g.lastPushAt ≥ pushMaxAgeS
    if ¬ newBlock ∧ ¬ stale then (g, none)
    else
      let (devfee, wantDev) := devfeePoolEpoch g.devfee
      let g := g.setDevfee devfee
      if wantDev then
        match tryDevWork g with
        | (g, some ctx) => (recordPush g now, some ctx)
        | (g, none) => getMainWork (g.setDevfee (devfeePoolSkip g.devfee)) now
      else getMainWork g now

structure Share where
  sess : Sess
  jobId : List Byte
  en2 : List Byte
  ntime : List Byte
  nonce : List Byte
  deriving DecidableEq

inductive Verdict where
  | bad
  | ok
  | solution
  deriving DecidableEq

def expectedTop64 (chain : Chain) (ss4 : List Byte) (nonce : U64) : U64 :=
  match chain with
  | .sia => siaChainExpectedTop64 ss4 nonce
  | .knots => siaExpectedTop64 ss4 nonce

def powCompare (chain : Chain) (ss4 : List Byte) (nonce : U64) : List Byte :=
  match chain with
  | .sia => siaChainPowCompare ss4 nonce
  | .knots => siaPowCompare ss4 nonce

def staleJob (cur : Cur) (s : Stratum) : Bool := cur.jobSeq ≠ s.job.seq ∧ s.job.clean

/-- What a candidate leads to: the globals afterwards, the verdict, and the share
written to the socket, if `stratum_submit` got that far. `sendOk` is whether the
socket takes it. -/
def stOnCandidate (g : Worksrc) (ctx : WorkCtx) (nonce hashTop64 : U64) (sendOk : Bool) :
    Worksrc × Verdict × Option Share :=
  if expectedTop64 g.chain ctx.ss4 nonce ≠ hashTop64 then (g, .bad, none)
  else if !hashMeetsTarget (powCompare g.chain ctx.ss4 nonce) g.cur.target then (g, .ok, none)
  else
    match g.cur.valid, g.cur.sess with
    | true, some x =>
      let s := g.session x
      if staleJob g.cur s then (g, .ok, none)
      else
        let share : Share := ⟨x, g.cur.jobId, g.cur.en2, g.cur.ntime, leBytes 8 nonce⟩
        match stratumSubmit s sendOk with
        | (s', true) =>
          let g := g.setSession x s'
          (if g.cur.isDev then g.setDevfee (devfeePoolCredit g.devfee) else g,
            .solution, some share)
        | (s', false) => (g.setSession x s', .ok, if s.fd < 0 then none else some share)
    | _, _ => (g, .ok, none)

def putTargetLe (v : U64) : List Byte := leBytes 8 v

/-- `none` is the return value 0. -/
def worksrcPackItem (ctx : WorkCtx) (itemLen : Nat) : Option (List Byte) :=
  if itemLen = workItemLen then
    some (ctx.ss3 ++ List.replicate (slots * 8 - stage3Len) 0 ++ ctx.ss4 ++ putTargetLe ctx.targetTop64)
  else if itemLen = stage4Len + 8 then some (ctx.ss4 ++ putTargetLe ctx.targetTop64)
  else none

def Chain.itemLen : Chain → Nat
  | .knots => workItemLen
  | .sia => stage4Len + 8

def refreshS : U64 := 5

def worksrcStratumConfigure (chain : Chain) (main : Stratum) (dev : Option Stratum) : Worksrc where
  chain := chain
  main := main
  dev := dev.getD (stratumInit [] 0 [] [])
  devConfigured := dev.isSome
  cur := zeroCur
  en2Counter := 0
  lastPrevhash := Vector.replicate 32 0
  havePushed := false
  lastPushAt := 0
  devfee := ⟨0, 0, 0, 0⟩

end OspreyBlake2b.Miner
