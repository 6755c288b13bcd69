import OspreyBlake2b.Lib.Fifo
import OspreyBlake2b.Miner.PushLoop

/-! `miner/uio_uart.c`.  The UART Lite behind its registers is hardware: what it does is a
parameter here, and what `uio_uart.h` and the product guide it names say of it are
hypotheses. -/

namespace OspreyBlake2b.Miner.Lite

open OspreyBlake2b.Lib

def statRxValid : BitVec 32 := 1#32 <<< 0
def statTxEmpty : BitVec 32 := 1#32 <<< 2
def statTxFull : BitVec 32 := 1#32 <<< 3
def statOverrun : BitVec 32 := 1#32 <<< 5

def fifoDepth : Nat := 16

/-- What each access to a register shows and does, what may happen between two accesses, and
where the bytes are: `wire` has left the TX FIFO, `queued` and `held` are in the FIFOs. -/
structure Device where
  State : Type
  Event : Type
  react : State → Event → State
  stat : State → BitVec 32
  readStat : State → State
  writeTx : State → Byte → State
  rx : State → BitVec 32
  readRx : State → State
  arrives : Event → Option Byte
  wire : State → List Byte
  queued : State → List Byte
  held : State → List Byte

namespace Device

variable (V : Device)

def bit (s : V.State) (mask : BitVec 32) : Bool := V.stat s &&& mask ≠ 0

def settle (s : V.State) (es : List V.Event) : V.State := Machine.run V.react s es

def out (s : V.State) : List Byte := V.wire s ++ V.queued s

/-- The transmit FIFO is 16 deep and first in, first out; nothing but a write fills it. -/
structure Transmits : Prop where
  full : ∀ s, V.bit s statTxFull = true ↔ fifoDepth ≤ (V.queued s).length
  empty : ∀ s, V.bit s statTxEmpty = true ↔ V.queued s = []
  leaves : ∀ s e, ∃ bs, V.wire (V.react s e) = V.wire s ++ bs ∧
    V.queued s = bs ++ V.queued (V.react s e)
  status : ∀ s, V.wire (V.readStat s) = V.wire s ∧ V.queued (V.readStat s) = V.queued s
  reads : ∀ s, V.wire (V.readRx s) = V.wire s ∧ V.queued (V.readRx s) = V.queued s
  writes : ∀ s b, (V.queued s).length < fifoDepth →
    V.wire (V.writeTx s b) = V.wire s ∧ V.queued (V.writeTx s b) = V.queued s ++ [b]

/-- The receive FIFO is 16 deep and first in, first out; a byte that finds it full is dropped
and sets `STAT_OVERRUN`, which stays at least until the status is read. -/
structure Receives : Prop where
  valid : ∀ s, V.bit s statRxValid = true ↔ V.held s ≠ []
  quiet : ∀ s e, V.arrives e = none → V.held (V.react s e) = V.held s ∧
    V.bit (V.react s e) statOverrun = V.bit s statOverrun
  takes : ∀ s e b, V.arrives e = some b → (V.held s).length < fifoDepth →
    V.held (V.react s e) = V.held s ++ [b] ∧ V.bit (V.react s e) statOverrun = V.bit s statOverrun
  drops : ∀ s e b, V.arrives e = some b → ¬ (V.held s).length < fifoDepth →
    V.held (V.react s e) = V.held s ∧ V.bit (V.react s e) statOverrun = true
  status : ∀ s, V.held (V.readStat s) = V.held s ∧
    (V.bit (V.readStat s) statOverrun = true → V.bit s statOverrun = true)
  reads : ∀ s b bs, V.held s = b :: bs → (V.rx s).setWidth 8 = b ∧ V.held (V.readRx s) = bs ∧
    V.bit (V.readRx s) statOverrun = V.bit s statOverrun

end Device

structure Uart (V : Device) where
  dev : V.State
  txStallUs : U64
  overruns : U64
  rxBytes : U64
  txBytes : U64

/-- One pass of a loop that reads the status: what happens before the reading, and the
time since the loop began when `now_us` is asked. -/
structure Look (V : Device) where
  before : List V.Event
  spun : U64

structure Put (V : Device) where
  looks : List (Look V)
  after : List V.Event

structure Read (V : Device) where
  before : List V.Event
  between : List V.Event

/-- A pass of `uart_wait_quiet`, with the time after a byte or without one, and the time at
its end. -/
structure Wait (V : Device) where
  read : Read V
  now : U64
  atEnd : U64

section Driver

variable {V : Device}

/-- Without a further pass on the list there is no result yet. -/
def uartPutLoop (u : Uart V) (b : Byte) (timeoutUs : Nat) (after : List V.Event) :
    U64 → List (Look V) → Option (Uart V × Bool)
  | _, [] => none
  | spun, l :: ls =>
    let d := V.settle u.dev l.before
    if V.bit d statTxFull then
      if l.spun.toNat > timeoutUs then
        some ({ u with dev := V.readStat d, txStallUs := u.txStallUs + l.spun }, false)
      else uartPutLoop { u with dev := V.readStat d } b timeoutUs after l.spun ls
    else
      some ({ u with
        dev := V.writeTx (V.settle (V.readStat d) after) b
        txStallUs := u.txStallUs + spun
        txBytes := u.txBytes + 1 }, true)

def uartPut (u : Uart V) (b : Byte) (timeoutUs : Nat) (p : Put V) : Option (Uart V × Bool) :=
  uartPutLoop u b timeoutUs p.after 0 p.looks

def uartWrite (u : Uart V) (timeoutUs : Nat) : List Byte → List (Put V) → Option (Uart V × Bool)
  | [], _ => some (u, true)
  | _ :: _, [] => none
  | b :: buf, p :: ps =>
    match uartPut u b timeoutUs p with
    | none => none
    | some (u, false) => some (u, false)
    | some (u, true) => uartWrite u timeoutUs buf ps

def uartDrainTx (u : Uart V) (timeoutUs : Nat) : List (Look V) → Option (Uart V × Bool)
  | [] => none
  | l :: ls =>
    let d := V.settle u.dev l.before
    let u := { u with dev := V.readStat d }
    if V.bit d statTxEmpty then some (u, true)
    else if l.spun.toNat > timeoutUs then some (u, false)
    else uartDrainTx u timeoutUs ls

def uartGetNb (u : Uart V) (r : Read V) : Uart V × Option Byte :=
  let d := V.settle u.dev r.before
  let u := { u with
    dev := V.readStat d
    overruns := if V.bit d statOverrun then u.overruns + 1 else u.overruns }
  if !V.bit d statRxValid then (u, none)
  else
    let d := V.settle u.dev r.between
    ({ u with dev := V.readRx d, rxBytes := u.rxBytes + 1 }, some ((V.rx d).setWidth 8))

def uartWaitQuiet (idleUs timeoutUs : Nat) : Uart V → U64 → List (Wait V) → Option (Uart V × Bool)
  | _, _, [] => none
  | u, lastActivity, w :: ws =>
    match uartGetNb u w.read with
    | (u, some _) =>
      if w.atEnd.toNat > timeoutUs then some (u, false)
      else uartWaitQuiet idleUs timeoutUs u w.now ws
    | (u, none) =>
      if (w.now - lastActivity).toNat ≥ idleUs then some (u, true)
      else if w.atEnd.toNat > timeoutUs then some (u, false)
      else uartWaitQuiet idleUs timeoutUs u lastActivity ws

end Driver

section Out

variable {V : Device} (hV : V.Transmits) {u u' : Uart V} {s : V.State} {ok : Bool}

include hV

theorem settle_out (s : V.State) (es : List V.Event) :
    V.out (V.settle s es) = V.out s ∧ (V.queued (V.settle s es)).length ≤ (V.queued s).length := by
  induction es generalizing s with
  | nil => exact ⟨rfl, Nat.le_refl _⟩
  | cons e es ih =>
    obtain ⟨bs, hwire, hqueued⟩ := hV.leaves s e
    obtain ⟨hout, hroom⟩ := ih (V.react s e)
    refine ⟨hout.trans ?_, hroom.trans ?_⟩
    · rw [Device.out, Device.out, hwire, hqueued, List.append_assoc]
    · rw [hqueued, List.length_append]
      exact Nat.le_add_left _ _

theorem readStat_out (s : V.State) : V.out (V.readStat s) = V.out s := by
  obtain ⟨hwire, hqueued⟩ := hV.status s
  rw [Device.out, Device.out, hwire, hqueued]

theorem look_out (s : V.State) (es : List V.Event) :
    V.out (V.readStat (V.settle s es)) = V.out s :=
  (readStat_out hV _).trans (settle_out hV s es).1

theorem readRx_out (s : V.State) : V.out (V.readRx s) = V.out s := by
  obtain ⟨hwire, hqueued⟩ := hV.reads s
  rw [Device.out, Device.out, hwire, hqueued]

theorem writeTx_out (h : (V.queued s).length < fifoDepth) (b : Byte) :
    V.out (V.writeTx s b) = V.out s ++ [b] := by
  obtain ⟨hwire, hqueued⟩ := hV.writes s b h
  rw [Device.out, Device.out, hwire, hqueued, List.append_assoc]

omit hV in
def stalls (s : V.State) : List (Look V) → List Nat
  | [] => []
  | l :: ls =>
    let d := V.settle s l.before
    if V.bit d statTxFull then l.spun.toNat :: stalls (V.readStat d) ls else []

theorem uartPutLoop_out {b : Byte} {timeoutUs : Nat} {after : List V.Event} {spun : U64}
    {ls : List (Look V)} (h : uartPutLoop u b timeoutUs after spun ls = some (u', ok)) :
    V.out u'.dev = V.out u.dev ++ (if ok then [b] else []) ∧
      Miner.uartPut ⟨V.out u.dev⟩ b timeoutUs (stalls u.dev ls) = (⟨V.out u'.dev⟩, ok) := by
  induction ls generalizing u spun with
  | nil => cases h
  | cons l ls ih =>
    have hsame := look_out hV u.dev l.before
    rw [uartPutLoop] at h
    rw [stalls]
    split at h
    · rename_i hfull
      rw [if_pos hfull, Miner.uartPut]
      split at h
      · rename_i hlate
        obtain ⟨rfl, rfl⟩ := Prod.mk.inj (Option.some.inj h)
        rw [if_pos hlate, hsame]
        exact ⟨(List.append_nil _).symm, rfl⟩
      · rename_i hearly
        have hstep := ih h
        rw [if_neg hearly]
        rw [hsame] at hstep
        exact hstep
    · rename_i hroom
      obtain ⟨rfl, rfl⟩ := Prod.mk.inj (Option.some.inj h)
      obtain ⟨hout, hle⟩ := settle_out hV (V.readStat (V.settle u.dev l.before)) after
      rw [(hV.status _).2] at hle
      have hlt : (V.queued (V.settle u.dev l.before)).length < fifoDepth :=
        Nat.not_le.mp (mt (hV.full _).mpr hroom)
      have hall : V.out (V.writeTx (V.settle (V.readStat (V.settle u.dev l.before)) after) b) =
          V.out u.dev ++ [b] := by
        rw [writeTx_out hV (hle.trans_lt hlt), hout, hsame]
      rw [if_neg hroom, Miner.uartPut, hall]
      exact ⟨rfl, rfl⟩

/-- A write gets a first part of its bytes out, all of them if it says so, and agrees with
the write that only knows the stalls. -/
theorem uartWrite_out {timeoutUs : Nat} {buf : List Byte} {ps : List (Put V)}
    (h : uartWrite u timeoutUs buf ps = some (u', ok)) :
    ∃ st, Miner.uartWrite ⟨V.out u.dev⟩ timeoutUs buf st = (⟨V.out u'.dev⟩, ok) := by
  induction buf generalizing u ps with
  | nil =>
    obtain ⟨rfl, rfl⟩ := Prod.mk.inj (Option.some.inj h)
    exact ⟨[], rfl⟩
  | cons b buf ih =>
    cases ps with
    | nil => cases h
    | cons p ps =>
      rw [uartWrite, uartPut] at h
      split at h
      · cases h
      · rename_i v hput
        obtain ⟨rfl, rfl⟩ := Prod.mk.inj (Option.some.inj h)
        refine ⟨[stalls u.dev p.looks], ?_⟩
        rw [Miner.uartWrite, List.headD_cons, (uartPutLoop_out hV hput).2]
      · rename_i v hput
        obtain ⟨st, hst⟩ := ih h
        refine ⟨stalls u.dev p.looks :: st, ?_⟩
        rw [Miner.uartWrite, List.headD_cons, (uartPutLoop_out hV hput).2, List.tail_cons]
        exact hst

theorem uartDrainTx_out {timeoutUs : Nat} {ls : List (Look V)}
    (h : uartDrainTx u timeoutUs ls = some (u', ok)) :
    V.out u'.dev = V.out u.dev ∧ (ok = true → V.wire u'.dev = V.out u.dev) := by
  induction ls generalizing u with
  | nil => cases h
  | cons l ls ih =>
    have hout := look_out hV u.dev l.before
    rw [uartDrainTx] at h
    split at h
    · rename_i hempty
      obtain ⟨rfl, rfl⟩ := Prod.mk.inj (Option.some.inj h)
      refine ⟨hout, fun _ => ?_⟩
      have hnone : V.queued (V.readStat (V.settle u.dev l.before)) = [] :=
        (hV.status _).2.trans ((hV.empty _).mp hempty)
      rw [← hout, Device.out, hnone, List.append_nil]
    · split at h
      · obtain ⟨rfl, rfl⟩ := Prod.mk.inj (Option.some.inj h)
        exact ⟨hout, nofun⟩
      · obtain ⟨hout', hdone⟩ := ih h
        exact ⟨hout'.trans hout, fun hok => (hdone hok).trans hout⟩

theorem uartGetNb_out (u : Uart V) (r : Read V) : V.out (uartGetNb u r).1.dev = V.out u.dev := by
  have hout := look_out hV u.dev r.before
  rw [uartGetNb]
  split
  · exact hout
  · exact (readRx_out hV _).trans ((settle_out hV _ r.between).1.trans hout)

theorem uartWaitQuiet_out {idleUs timeoutUs : Nat} {lastActivity : U64} {ws : List (Wait V)}
    (h : uartWaitQuiet idleUs timeoutUs u lastActivity ws = some (u', ok)) :
    V.out u'.dev = V.out u.dev := by
  induction ws generalizing u lastActivity with
  | nil => cases h
  | cons w ws ih =>
    have hout := uartGetNb_out hV u w.read
    rw [uartWaitQuiet] at h
    split at h
    · rename_i v b hv
      rw [hv] at hout
      split at h
      · obtain ⟨rfl, -⟩ := Prod.mk.inj (Option.some.inj h)
        exact hout
      · exact (ih h).trans hout
    · rename_i v hv
      rw [hv] at hout
      split at h
      · obtain ⟨rfl, -⟩ := Prod.mk.inj (Option.some.inj h)
        exact hout
      · split at h
        · obtain ⟨rfl, -⟩ := Prod.mk.inj (Option.some.inj h)
          exact hout
        · exact (ih h).trans hout

end Out

def quietIdleUs : Nat := 2000
def quietWaitUs : Nat := 500000
def drainUs : Nat := 500000

structure Loop (V : Device) where
  haveWork : Bool
  lastTemplate : U64
  uart : Uart V

structure Pass (V : Device) where
  t : U64
  work : Option WorkCtx
  waits : List (Wait V)
  puts : List (Put V)
  looks : List (Look V)
  reads : List (Read V)
  sized : ∀ ctx ∈ work, ctx.ss3.length = stage3Len ∧ ctx.ss4.length = stage4Len

section Pushing

variable {V : Device}

def pushItem (u : Uart V) (item : List Byte) (p : Pass V) : Option (Uart V × Bool) :=
  match uartWaitQuiet quietIdleUs quietWaitUs u 0 p.waits with
  | none => none
  | some (u, _) =>
    match uartWrite u txTimeoutUs item p.puts with
    | none => none
    | some (u, false) => some (u, false)
    | some (u, true) => (uartDrainTx u drainUs p.looks).map fun r => (r.1, true)

def readAll (u : Uart V) (rs : List (Read V)) : Uart V :=
  rs.foldl (fun u r => (uartGetNb u r).1) u

def Loop.push (src : Source) (m : Loop V) (p : Pass V) : Option (Loop V) :=
  if !m.haveWork ∨ p.t - m.lastTemplate ≥ src.refresh then
    match p.work with
    | none => some { m with lastTemplate := p.t }
    | some next =>
      match worksrcPackItem next src.itemLen with
      | none => some { m with lastTemplate := p.t }
      | some item =>
        match pushItem m.uart item p with
        | none => none
        | some (u, true) => some ⟨true, p.t, u⟩
        | some (u, false) => some { m with lastTemplate := p.t, uart := u }
  else some m

def Loop.pass (src : Source) (m : Loop V) (p : Pass V) : Option (Loop V) :=
  (m.push src p).map fun m => { m with uart := readAll m.uart p.reads }

def Loop.run (src : Source) : Loop V → List (Pass V) → Option (Loop V)
  | m, [] => some m
  | m, p :: ps => (m.pass src p).bind (Loop.run src · ps)

def Loop.plain (m : Loop V) : Miner.Loop := ⟨m.haveWork, m.lastTemplate, ⟨V.out m.uart.dev⟩⟩

theorem plain_due {src : Source} {m : Loop V} {p : Pass V} (st : List (List Nat))
    (h : !m.haveWork ∨ p.t - m.lastTemplate ≥ src.refresh) :
    m.plain.pass src ⟨p.t, p.work, st, p.sized⟩ =
      match p.work with
      | none => { m.plain with lastTemplate := p.t }
      | some next =>
        match worksrcPackItem next src.itemLen with
        | none => { m.plain with lastTemplate := p.t }
        | some item =>
          match Miner.uartWrite ⟨V.out m.uart.dev⟩ txTimeoutUs item st with
          | (u, true) => ⟨true, p.t, u⟩
          | (u, false) => { m.plain with lastTemplate := p.t, uart := u } := if_pos h

variable (hV : V.Transmits)

include hV

theorem readAll_out (u : Uart V) (rs : List (Read V)) :
    V.out (readAll u rs).dev = V.out u.dev := by
  induction rs generalizing u with
  | nil => rfl
  | cons r rs ih => exact (ih _).trans (uartGetNb_out hV u r)

theorem pushItem_out {u u' : Uart V} {item : List Byte} {p : Pass V} {ok : Bool}
    (h : pushItem u item p = some (u', ok)) :
    ∃ st, Miner.uartWrite ⟨V.out u.dev⟩ txTimeoutUs item st = (⟨V.out u'.dev⟩, ok) := by
  rw [pushItem] at h
  split at h
  · cases h
  · rename_i v q hwait
    rw [← uartWaitQuiet_out hV hwait]
    split at h
    · cases h
    · rename_i w hwrite
      obtain ⟨rfl, rfl⟩ := Prod.mk.inj (Option.some.inj h)
      exact uartWrite_out hV hwrite
    · rename_i w hwrite
      obtain ⟨r, hr, heq⟩ := Option.map_eq_some_iff.mp h
      obtain ⟨rfl, rfl⟩ := Prod.mk.inj heq
      obtain ⟨hdrain, -⟩ :=
        uartDrainTx_out hV (hr.trans (congrArg some (Prod.mk.eta (p := r)).symm))
      rw [hdrain]
      exact uartWrite_out hV hwrite

theorem pass_plain {src : Source} {m m' : Loop V} {p : Pass V} (h : m.pass src p = some m') :
    ∃ st, m.plain.pass src ⟨p.t, p.work, st, p.sized⟩ = m'.plain := by
  rw [Loop.pass, Option.map_eq_some_iff] at h
  obtain ⟨v, hpush, rfl⟩ := h
  have hplain : Loop.plain { v with uart := readAll v.uart p.reads } = v.plain := by
    rw [Loop.plain, Loop.plain, readAll_out hV]
  rw [hplain]
  rw [Loop.push] at hpush
  split at hpush
  · rename_i hdue
    simp only [plain_due _ hdue]
    split at hpush
    · obtain rfl := Option.some.inj hpush
      exact ⟨[], rfl⟩
    · split at hpush
      · obtain rfl := Option.some.inj hpush
        exact ⟨[], rfl⟩
      · split at hpush
        · cases hpush
        · rename_i w hitem
          obtain rfl := Option.some.inj hpush
          obtain ⟨st, hst⟩ := pushItem_out hV hitem
          exact ⟨st, by rw [hst]; rfl⟩
        · rename_i w hitem
          obtain rfl := Option.some.inj hpush
          obtain ⟨st, hst⟩ := pushItem_out hV hitem
          exact ⟨st, by rw [hst]; rfl⟩
  · rename_i hdue
    obtain rfl := Option.some.inj hpush
    exact ⟨[], if_neg hdue⟩

/-- However the device sends and receives in between: a run of the loop puts on the wire
what a run that knows the stalls alone writes, in order, but for what is still in the
FIFO. -/
theorem wire_in_order (src : Source) (ps : List (Pass V)) {m m' : Loop V}
    (h : Loop.run src m ps = some m') :
    ∃ qs : List Miner.Pass, qs.map (fun q => (q.t, q.work)) = ps.map (fun p => (p.t, p.work)) ∧
      Machine.run (Miner.Loop.pass src) m.plain qs = m'.plain ∧
      V.wire m'.uart.dev ++ V.queued m'.uart.dev =
        (Machine.run (Miner.Loop.pass src) m.plain qs).uart.tx := by
  have hrun : ∃ qs : List Miner.Pass,
      qs.map (fun q => (q.t, q.work)) = ps.map (fun p => (p.t, p.work)) ∧
        Machine.run (Miner.Loop.pass src) m.plain qs = m'.plain := by
    induction ps generalizing m with
    | nil =>
      obtain rfl := Option.some.inj h
      exact ⟨[], rfl, rfl⟩
    | cons p ps ih =>
      obtain ⟨v, hpass, hrest⟩ := Option.bind_eq_some_iff.mp h
      obtain ⟨st, hst⟩ := pass_plain hV hpass
      obtain ⟨qs, hqs, hrun⟩ := ih hrest
      refine ⟨⟨p.t, p.work, st, p.sized⟩ :: qs, ?_, ?_⟩
      · rw [List.map_cons, List.map_cons, hqs]
      · rw [← hrun, ← hst]
        rfl
  obtain ⟨qs, hqs, hrun⟩ := hrun
  exact ⟨qs, hqs, hrun, by rw [hrun]; rfl⟩

end Pushing

section In

variable {V : Device}

def Device.arrivals (V : Device) (es : List V.Event) : List Byte := es.filterMap V.arrives

def Device.lost (V : Device) : V.State → List V.Event → List Byte
  | _, [] => []
  | s, e :: es =>
    (if (V.held s).length < fifoDepth then [] else (V.arrives e).toList) ++ V.lost (V.react s e) es

structure Row (V : Device) where
  uart : Uart V
  got : List Byte
  came : List Byte
  lost : List Byte
  calls : Nat

def Read.late (r : Read V) (u : Uart V) : List V.Event :=
  if V.bit (V.settle u.dev r.before) statRxValid then r.between else []

def Row.get (w : Row V) (r : Read V) : Row V where
  uart := (uartGetNb w.uart r).1
  got := w.got ++ (uartGetNb w.uart r).2.toList
  came := w.came ++ V.arrivals r.before ++ V.arrivals (r.late w.uart)
  lost := w.lost ++ V.lost w.uart.dev r.before ++
    V.lost (V.readStat (V.settle w.uart.dev r.before)) (r.late w.uart)
  calls := w.calls + 1

def Uart.row (u : Uart V) (rs : List (Read V)) : Row V :=
  Machine.run Row.get ⟨u, [], [], [], 0⟩ rs

structure Uart.Fresh (u : Uart V) : Prop where
  overruns : u.overruns = 0
  rxBytes : u.rxBytes = 0
  held : V.held u.dev = []
  overrun : V.bit u.dev statOverrun = false

/-- `came` has arrived, `got` has been read and `lost` was dropped; `n` of the calls have seen
the overrun bit, which is set, or was, exactly when something was dropped. -/
structure Accounts (came got lost : List Byte) (n : Nat) (s : V.State) : Prop where
  order : List.Sublist (got ++ V.held s) came
  total : List.Perm came (got ++ V.held s ++ lost)
  noticed : n ≠ 0 ∨ V.bit s statOverrun = true ↔ lost ≠ []

variable (hV : V.Receives) {came got lost : List Byte} {n : Nat} {s : V.State}

include hV

theorem Accounts.react (h : Accounts came got lost n s) (e : V.Event) :
    Accounts (came ++ (V.arrives e).toList) got
      (lost ++ if (V.held s).length < fifoDepth then [] else (V.arrives e).toList) n
      (V.react s e) := by
  obtain ⟨horder, htotal, hnoticed⟩ := h
  cases he : V.arrives e with
  | none =>
    obtain ⟨hheld, hbit⟩ := hV.quiet s e he
    rw [Option.toList_none, ite_self, List.append_nil, List.append_nil]
    exact ⟨by rwa [hheld], by rwa [hheld], by rwa [hbit]⟩
  | some b =>
    rw [Option.toList_some]
    by_cases hroom : (V.held s).length < fifoDepth
    · obtain ⟨hheld, hbit⟩ := hV.takes s e b he hroom
      rw [if_pos hroom, List.append_nil]
      refine ⟨?_, ?_, by rwa [hbit]⟩
      · rw [hheld, ← List.append_assoc]
        exact horder.append (List.Sublist.refl [b])
      · rw [hheld, ← List.append_assoc]
        refine (htotal.append_right [b]).trans ?_
        rw [List.append_assoc, List.append_assoc _ [b] lost]
        exact List.perm_append_comm.append_left _
    · obtain ⟨hheld, hbit⟩ := hV.drops s e b he hroom
      rw [if_neg hroom]
      refine ⟨?_, ?_, ?_⟩
      · rw [hheld]
        exact horder.trans (List.sublist_append_left _ _)
      · rw [hheld, ← List.append_assoc]
        exact htotal.append_right [b]
      · rw [hbit]
        exact iff_of_true (.inr rfl) (List.append_ne_nil_of_right_ne_nil _ (List.cons_ne_nil b []))

theorem Accounts.settle (h : Accounts came got lost n s) (es : List V.Event) :
    Accounts (came ++ V.arrivals es) got (lost ++ V.lost s es) n (V.settle s es) := by
  induction es generalizing came lost s with
  | nil =>
    rw [Device.arrivals, List.filterMap_nil, Device.lost, List.append_nil, List.append_nil]
    exact h
  | cons e es ih =>
    have hsplit : V.arrivals (e :: es) = (V.arrives e).toList ++ V.arrivals es := by
      rw [Device.arrivals, List.filterMap_cons, Device.arrivals]
      cases V.arrives e <;> rfl
    rw [hsplit, Device.lost, ← List.append_assoc, ← List.append_assoc]
    exact ih (h.react hV e)

theorem Accounts.status (h : Accounts came got lost n s) :
    Accounts came got lost (n + (V.bit s statOverrun).toNat) (V.readStat s) := by
  obtain ⟨horder, htotal, hnoticed⟩ := h
  obtain ⟨hheld, hbit⟩ := hV.status s
  refine ⟨by rwa [hheld], by rwa [hheld], ?_⟩
  cases hs : V.bit s statOverrun with
  | true =>
    have hlost : lost ≠ [] := hnoticed.mp (.inr hs)
    exact iff_of_true (.inl (Nat.succ_ne_zero n)) hlost
  | false =>
    have hclear : V.bit (V.readStat s) statOverrun = false := by
      rw [Bool.eq_false_iff]
      intro hset
      exact Bool.false_ne_true (hs.symm.trans (hbit hset))
    rw [hs] at hnoticed
    rw [hclear]
    exact hnoticed

theorem settle_held (h : V.held s ≠ []) (es : List V.Event) : V.held (V.settle s es) ≠ [] := by
  induction es generalizing s with
  | nil => exact h
  | cons e es ih =>
    apply ih (s := V.react s e)
    cases he : V.arrives e with
    | none => rwa [(hV.quiet s e he).1]
    | some b =>
      by_cases hroom : (V.held s).length < fifoDepth
      · rw [(hV.takes s e b he hroom).1]
        exact List.append_ne_nil_of_right_ne_nil _ (List.cons_ne_nil b [])
      · rwa [(hV.drops s e b he hroom).1]

theorem Accounts.read (h : Accounts came got lost n s) (hheld : V.held s ≠ []) :
    Accounts came (got ++ [(V.rx s).setWidth 8]) lost n (V.readRx s) := by
  obtain ⟨b, bs, hitems⟩ := List.exists_cons_of_ne_nil hheld
  obtain ⟨horder, htotal, hnoticed⟩ := h
  obtain ⟨hb, hrest, hbit⟩ := hV.reads s b bs hitems
  have hall : got ++ [b] ++ bs = got ++ V.held s := by
    rw [hitems, List.append_assoc]
    rfl
  refine ⟨?_, ?_, by rwa [hbit]⟩
  · rwa [hb, hrest, hall]
  · rwa [hb, hrest, hall]

structure Row.Kept (w : Row V) : Prop where
  bytes : w.uart.rxBytes = BitVec.ofNat 64 w.got.length
  few : w.got.length ≤ w.calls
  accounts : ∃ n ≤ w.calls, w.uart.overruns = BitVec.ofNat 64 n ∧
    Accounts w.came w.got w.lost n w.uart.dev

omit hV in
theorem Uart.Fresh.kept {u : Uart V} (h : u.Fresh) : Row.Kept ⟨u, [], [], [], 0⟩ := by
  refine ⟨h.rxBytes, Nat.le_refl 0, 0, Nat.le_refl 0, h.overruns, ?_⟩
  refine ⟨?_, ?_, ?_⟩
  · rw [h.held]
    exact List.Sublist.refl []
  · rw [h.held]
    exact List.Perm.refl []
  · rw [h.overrun]
    simp

theorem Row.Kept.get {w : Row V} (h : w.Kept) (r : Read V) : (w.get r).Kept := by
  obtain ⟨hbytes, hfew, n, hn, hoverruns, haccounts⟩ := h
  have hseen := (haccounts.settle hV r.before).status hV
  have hcount : (if V.bit (V.settle w.uart.dev r.before) statOverrun then w.uart.overruns + 1
      else w.uart.overruns) =
        BitVec.ofNat 64 (n + (V.bit (V.settle w.uart.dev r.before) statOverrun).toNat) := by
    rw [hoverruns, BitVec.ofNat_add]
    cases V.bit (V.settle w.uart.dev r.before) statOverrun with
    | true => rfl
    | false => exact (BitVec.add_zero _).symm
  have hle : n + (V.bit (V.settle w.uart.dev r.before) statOverrun).toNat ≤ w.calls + 1 :=
    Nat.add_le_add hn (Bool.toNat_le _)
  cases hvalid : V.bit (V.settle w.uart.dev r.before) statRxValid with
  | false =>
    have hget : uartGetNb w.uart r = ({ w.uart with
        dev := V.readStat (V.settle w.uart.dev r.before)
        overruns := if V.bit (V.settle w.uart.dev r.before) statOverrun then w.uart.overruns + 1
          else w.uart.overruns }, none) := if_pos (by rw [hvalid]; rfl)
    have hlate : r.late w.uart = [] := if_neg (by rw [hvalid]; exact Bool.false_ne_true)
    have hnone : V.arrivals [] = [] := rfl
    rw [Row.get, hget, hlate, hnone, Device.lost, Option.toList_none, List.append_nil,
      List.append_nil, List.append_nil]
    exact ⟨hbytes, Nat.le_succ_of_le hfew, _, hle, hcount, hseen⟩
  | true =>
    have hget : uartGetNb w.uart r = ({ w.uart with
        dev := V.readRx (V.settle (V.readStat (V.settle w.uart.dev r.before)) r.between)
        overruns := if V.bit (V.settle w.uart.dev r.before) statOverrun then w.uart.overruns + 1
          else w.uart.overruns
        rxBytes := w.uart.rxBytes + 1 },
        some ((V.rx (V.settle (V.readStat (V.settle w.uart.dev r.before)) r.between)).setWidth 8)) :=
      if_neg (by rw [hvalid]; exact Bool.false_ne_true)
    have hlate : r.late w.uart = r.between := if_pos hvalid
    have hheld : V.held (V.readStat (V.settle w.uart.dev r.before)) ≠ [] := by
      rw [(hV.status _).1]
      exact (hV.valid _).mp hvalid
    have hread := (hseen.settle hV r.between).read hV (settle_held hV hheld r.between)
    rw [Row.get, hget, hlate, Option.toList_some]
    refine ⟨?_, ?_, _, hle, hcount, hread⟩
    · dsimp only
      rw [hbytes, List.length_append, BitVec.ofNat_add]
      rfl
    · dsimp only
      rw [List.length_append]
      exact Nat.add_le_add_right hfew 1

omit hV in
theorem calls_row (u : Uart V) (rs : List (Read V)) : (u.row rs).calls = rs.length := by
  have hrun (w : Row V) : (Machine.run Row.get w rs).calls = w.calls + rs.length := by
    induction rs generalizing w with
    | nil => rfl
    | cons r rs ih =>
      rw [List.length_cons, Nat.add_comm rs.length, ← Nat.add_assoc]
      exact ih (w.get r)
  exact (hrun _).trans (Nat.zero_add _)

/-- In any row of `uart_get_nb` calls the bytes come in the order of their arrival, those
that never come were dropped by a full FIFO, and `overruns` and the status bit together are
zero exactly when none was. -/
theorem reads_account {u : Uart V} (hfresh : u.Fresh) {rs : List (Read V)}
    (hcalls : rs.length < 2 ^ 64) :
    let w := u.row rs
    List.Sublist (w.got ++ V.held w.uart.dev) w.came ∧
      List.Perm w.came (w.got ++ V.held w.uart.dev ++ w.lost) ∧
      w.uart.rxBytes.toNat = w.got.length ∧
      (w.uart.overruns = 0 ∧ V.bit w.uart.dev statOverrun = false ↔
        w.got ++ V.held w.uart.dev = w.came) := by
  intro w
  have hkept : w.Kept :=
    @Machine.run_invariant _ _ Row.get Row.Kept (fun _ r h => h.get hV r) _ hfresh.kept rs
  obtain ⟨hbytes, hfew, n, hn, hoverruns, horder, htotal, hnoticed⟩ := hkept
  have hall : w.calls = rs.length := calls_row u rs
  refine ⟨horder, htotal, ?_, ?_⟩
  · exact toNat_of_eq_ofNat hbytes (by omega)
  · have hzero : w.uart.overruns = 0 ↔ n = 0 := by
      rw [← BitVec.toNat_inj, toNat_of_eq_ofNat hoverruns (by omega)]
      rfl
    have hnone : w.lost = [] ↔ w.got ++ V.held w.uart.dev = w.came := by
      constructor
      · intro hlost
        rw [hlost, List.append_nil] at htotal
        exact horder.eq_of_length htotal.length_eq.symm
      · intro heq
        rw [heq] at htotal
        have hlen := htotal.length_eq
        rw [List.length_append] at hlen
        exact List.length_eq_zero_iff.mp (by omega)
    rw [hzero, ← hnone, ← Bool.not_eq_true, ← not_iff_not, not_and_or, not_not, ← ne_eq, ← ne_eq]
    exact hnoticed

end In

section Demo

structure Fifos where
  tx : Fifo Byte fifoDepth
  rx : Fifo Byte fifoDepth
  overrun : Bool
  wire : List Byte

inductive Move where
  | sent
  | arrived (b : Byte)

def Fifos.react (d : Fifos) : Move → Fifos
  | .sent =>
    match d.tx.items.head? with
    | none => d
    | some b => { d with tx := d.tx.pop, wire := d.wire ++ [b] }
  | .arrived b => if d.rx.full then { d with overrun := true } else { d with rx := d.rx.push b }

def statWord (rxValid txEmpty txFull overrun : Bool) : BitVec 32 :=
  (if rxValid then statRxValid else 0) ||| (if txEmpty then statTxEmpty else 0) |||
    (if txFull then statTxFull else 0) ||| (if overrun then statOverrun else 0)

/-- The status clears its overrun bit when it is read. -/
def fifos : Device where
  State := Fifos
  Event := Move
  react := Fifos.react
  stat d := statWord (!d.rx.items.isEmpty) d.tx.items.isEmpty d.tx.full d.overrun
  readStat d := { d with overrun := false }
  writeTx d b := { d with tx := d.tx.push b }
  rx d := (d.rx.items.headD 0).setWidth 32
  readRx d := { d with rx := d.rx.pop }
  arrives e := match e with
    | .sent => none
    | .arrived b => some b
  wire := Fifos.wire
  queued d := d.tx.items
  held d := d.rx.items

theorem statWord_bits : ∀ a b c d : Bool,
    decide (statWord a b c d &&& statRxValid ≠ 0) = a ∧
      decide (statWord a b c d &&& statTxEmpty ≠ 0) = b ∧
      decide (statWord a b c d &&& statTxFull ≠ 0) = c ∧
      decide (statWord a b c d &&& statOverrun ≠ 0) = d := by
  decide

theorem fifos_bits (d : Fifos) :
    fifos.bit d statRxValid = !d.rx.items.isEmpty ∧ fifos.bit d statTxEmpty = d.tx.items.isEmpty ∧
      fifos.bit d statTxFull = d.tx.full ∧ fifos.bit d statOverrun = d.overrun :=
  statWord_bits _ _ _ _

theorem Fifos.full_iff (f : Fifo Byte fifoDepth) : f.full = true ↔ fifoDepth ≤ f.items.length := by
  have hfits := f.fits
  rw [Fifo.full, decide_eq_true_iff]
  omega

theorem sent_moves (d : Fifos) : (d.react .sent).rx = d.rx ∧ (d.react .sent).overrun = d.overrun ∧
    ∃ bs, (d.react .sent).wire = d.wire ++ bs ∧ d.tx.items = bs ++ (d.react .sent).tx.items := by
  rw [Fifos.react]
  split
  · exact ⟨rfl, rfl, [], (List.append_nil _).symm, rfl⟩
  · rename_i b hb
    exact ⟨rfl, rfl, [b], rfl, (Fifo.head_pop hb).symm⟩

theorem arrived_moves (d : Fifos) (b : Byte) :
    (d.react (.arrived b)).wire = d.wire ∧ (d.react (.arrived b)).tx = d.tx ∧
      (d.rx.full = false → (d.react (.arrived b)).rx.items = d.rx.items ++ [b] ∧
        (d.react (.arrived b)).overrun = d.overrun) ∧
      (d.rx.full = true → (d.react (.arrived b)).rx = d.rx ∧
        (d.react (.arrived b)).overrun = true) := by
  rw [Fifos.react]
  cases hfull : d.rx.full with
  | true =>
    rw [if_pos rfl]
    exact ⟨rfl, rfl, nofun, fun _ => ⟨rfl, rfl⟩⟩
  | false =>
    rw [if_neg Bool.false_ne_true]
    exact ⟨rfl, rfl, fun _ => ⟨Fifo.items_push hfull b, rfl⟩, nofun⟩

theorem Fifos.not_full (f : Fifo Byte fifoDepth) (h : f.items.length < fifoDepth) : f.full = false := by
  rw [← Bool.not_eq_true, Fifos.full_iff]
  exact Nat.not_le.mpr h

theorem overrun_eq {d d' : Fifos} (h : d.overrun = d'.overrun) :
    fifos.bit d statOverrun = fifos.bit d' statOverrun :=
  (fifos_bits d).2.2.2.trans (h.trans (fifos_bits d').2.2.2.symm)

theorem fifos_transmits : fifos.Transmits where
  full d := by
    rw [(fifos_bits d).2.2.1]
    exact Fifos.full_iff d.tx
  empty d := by
    rw [(fifos_bits d).2.1]
    exact List.isEmpty_iff
  leaves d e := by
    cases e with
    | sent => exact (sent_moves d).2.2
    | arrived b =>
      obtain ⟨hwire, htx, -⟩ := arrived_moves d b
      exact ⟨[], hwire.trans (List.append_nil _).symm, congrArg Fifo.items htx.symm⟩
  status _ := ⟨rfl, rfl⟩
  reads _ := ⟨rfl, rfl⟩
  writes d b hroom := ⟨rfl, Fifo.items_push (Fifos.not_full d.tx hroom) b⟩

theorem fifos_receives : fifos.Receives where
  valid d := by
    rw [(fifos_bits d).1, Bool.not_eq_true', Bool.eq_false_iff, ne_eq, List.isEmpty_iff]
    rfl
  quiet d e he := by
    cases e with
    | sent =>
      obtain ⟨hrx, hoverrun, -⟩ := sent_moves d
      exact ⟨congrArg Fifo.items hrx, overrun_eq hoverrun⟩
    | arrived b => cases he
  takes d e b he hroom := by
    cases e with
    | sent => cases he
    | arrived b' =>
      obtain rfl : b' = b := Option.some.inj he
      obtain ⟨-, -, hroomy, -⟩ := arrived_moves d b'
      obtain ⟨hheld, hoverrun⟩ := hroomy (Fifos.not_full d.rx hroom)
      exact ⟨hheld, overrun_eq hoverrun⟩
  drops d e b he hroom := by
    cases e with
    | sent => cases he
    | arrived b' =>
      obtain ⟨-, -, -, hfull⟩ := arrived_moves d b'
      obtain ⟨hheld, hoverrun⟩ := hfull ((Fifos.full_iff d.rx).mpr (Nat.not_lt.mp hroom))
      exact ⟨congrArg Fifo.items hheld, (fifos_bits _).2.2.2.trans hoverrun⟩
  status d := ⟨rfl, fun h => absurd ((fifos_bits _).2.2.2.symm.trans h) Bool.false_ne_true⟩
  reads d b bs hitems := by
    have hhead : fifos.rx d = b.setWidth 32 := by
      change (d.rx.items.headD 0).setWidth 32 = _
      rw [show d.rx.items = b :: bs from hitems]
      rfl
    refine ⟨?_, congrArg List.tail hitems, overrun_eq rfl⟩
    rw [hhead, BitVec.setWidth_setWidth_of_le b (by decide), BitVec.setWidth_eq]

def freshUart : Uart fifos := ⟨⟨.empty, .empty, false, []⟩, 0, 0, 0, 0⟩

theorem zeroCtx_sized : ∀ ctx ∈ some zeroCtx, ctx.ss3.length = stage3Len ∧ ctx.ss4.length = stage4Len := by
  intro ctx h
  obtain rfl := Option.some.inj h
  exact ⟨rfl, rfl⟩

def freshPass : Pass fifos where
  t := 0
  work := some zeroCtx
  waits := [⟨⟨[], []⟩, 2000, 0⟩]
  puts := List.replicate 88 ⟨[⟨[], 0⟩], [.sent]⟩
  looks := [⟨[.sent], 0⟩]
  reads := []
  sized := zeroCtx_sized

theorem wire_in_order_fresh :
    ∃ m' st, Loop.run ⟨88, 5⟩ ⟨false, 0, freshUart⟩ [freshPass] = some m' ∧
      fifos.wire m'.uart.dev ++ fifos.queued m'.uart.dev =
        (Machine.run (Miner.Loop.pass ⟨88, 5⟩) ⟨false, 0, ⟨[]⟩⟩ st).uart.tx := by
  obtain ⟨m', h⟩ := Option.isSome_iff_exists.mp
    (show (Loop.run ⟨88, 5⟩ ⟨false, 0, freshUart⟩ [freshPass]).isSome = true by decide +kernel)
  obtain ⟨qs, -, -, htx⟩ := wire_in_order fifos_transmits ⟨88, 5⟩ [freshPass] h
  exact ⟨m', qs, h, htx⟩

/-- Seventeen bytes are in before the first call, one more than there is room for, and one
comes between its two readings. -/
def twoReads : List (Read fifos) :=
  [⟨(List.range 17).map fun k => .arrived (BitVec.ofNat 8 k), [.arrived 0x43]⟩, ⟨[], []⟩]

theorem reads_account_two :
    (freshUart.row twoReads).uart.overruns = 2 ∧ (freshUart.row twoReads).lost = [0x10, 0x43] ∧
      (freshUart.row twoReads).got = [0x00, 0x01] ∧
      List.Perm (freshUart.row twoReads).came ((freshUart.row twoReads).got ++
        fifos.held (freshUart.row twoReads).uart.dev ++ (freshUart.row twoReads).lost) ∧
      (freshUart.row twoReads).uart.rxBytes.toNat = (freshUart.row twoReads).got.length := by
  have hrun : (freshUart.row twoReads).uart.overruns = 2 ∧
      (freshUart.row twoReads).lost = [0x10, 0x43] ∧
      (freshUart.row twoReads).got = [0x00, 0x01] := by
    decide +kernel
  obtain ⟨-, hperm, hbytes, -⟩ := reads_account fifos_receives (u := freshUart)
    ⟨rfl, rfl, rfl, rfl⟩ (show twoReads.length < 2 ^ 64 by decide +kernel)
  exact ⟨hrun.1, hrun.2.1, hrun.2.2, hperm, hbytes⟩

end Demo

end OspreyBlake2b.Miner.Lite
