import OspreyBlake2b.Miner.PoolLoop
import OspreyBlake2b.Miner.WorksrcStratumLaws

/-! Work pushes and the FPGA's byte counter.  The push block of `main` in
`miner/miner.c` for any work source, over `uart_put` and `uart_write` of
`miner/uio_uart.c`. -/

namespace OspreyBlake2b.Miner

open OspreyBlake2b.Lib OspreyBlake2b.Lib.Machine

def txTimeoutUs : Nat := 200000

structure Uart where
  tx : List Byte
  deriving DecidableEq

/-- `stalls` are the times spent, one for each look at the status that finds TX_FULL;
the look after them finds room. -/
def uartPut (u : Uart) (b : Byte) (timeoutUs : Nat) : List Nat → Uart × Bool
  | [] => (⟨u.tx ++ [b]⟩, true)
  | spun :: stalls => if spun > timeoutUs then (u, false) else uartPut u b timeoutUs stalls

/-- With the stalls of each byte, none for the bytes beyond the list. -/
def uartWrite (u : Uart) (timeoutUs : Nat) : List Byte → List (List Nat) → Uart × Bool
  | [], _ => (u, true)
  | b :: buf, stalls =>
    match uartPut u b timeoutUs (stalls.headD []) with
    | (u, false) => (u, false)
    | (u, true) => uartWrite u timeoutUs buf stalls.tail

structure Source where
  itemLen : Nat
  refresh : U64

structure Loop where
  haveWork : Bool
  lastTemplate : U64
  uart : Uart
  deriving DecidableEq

/-- One pass at time `t`: what `get_work` gives, if it is asked, with the two messages
in arrays of their size, and the stalls of the push. -/
structure Pass where
  t : U64
  work : Option WorkCtx
  stalls : List (List Nat)
  sized : ∀ ctx ∈ work, ctx.ss3.length = stage3Len ∧ ctx.ss4.length = stage4Len

def pushed (src : Source) (m : Loop) (p : Pass) : Option (List Byte) :=
  if !m.haveWork ∨ p.t - m.lastTemplate ≥ src.refresh then
    p.work.bind (worksrcPackItem · src.itemLen)
  else none

def Loop.pass (src : Source) (m : Loop) (p : Pass) : Loop :=
  if !m.haveWork ∨ p.t - m.lastTemplate ≥ src.refresh then
    match p.work with
    | none => { m with lastTemplate := p.t }
    | some next =>
      match worksrcPackItem next src.itemLen with
      | none => { m with lastTemplate := p.t }
      | some item =>
        match uartWrite m.uart txTimeoutUs item p.stalls with
        | (u, true) => ⟨true, p.t, u⟩
        | (u, false) => { m with lastTemplate := p.t, uart := u }
  else m

def loopInit : Loop := ⟨false, 0, ⟨[]⟩⟩

section Writing

def timesOut (stalls : List Nat) : Bool := stalls.any (· > txTimeoutUs)

theorem uartPut_eq (u : Uart) (b : Byte) (stalls : List Nat) :
    uartPut u b txTimeoutUs stalls = if timesOut stalls then (u, false) else (⟨u.tx ++ [b]⟩, true) := by
  induction stalls with
  | nil => rfl
  | cons spun stalls ih =>
    rw [uartPut, ih, timesOut, timesOut, List.any_cons]
    by_cases h : spun > txTimeoutUs <;> simp [h]

def taken (len : Nat) (stalls : List (List Nat)) : Nat :=
  match stalls.findIdx? timesOut with
  | some k => min k len
  | none => len

theorem taken_nil (len : Nat) : taken len [] = len := rfl

theorem taken_stalled (len : Nat) {st : List Nat} (stalls : List (List Nat)) (h : timesOut st = true) :
    taken len (st :: stalls) = 0 := by
  simp [taken, List.findIdx?_cons, h]

theorem taken_succ (len : Nat) {st : List Nat} (stalls : List (List Nat))
    (h : timesOut st = false) : taken (len + 1) (st :: stalls) = taken len stalls + 1 := by
  simp only [taken, List.findIdx?_cons, h]
  cases stalls.findIdx? timesOut with
  | none => rfl
  | some k => simp

theorem taken_le (len : Nat) (stalls : List (List Nat)) : taken len stalls ≤ len := by
  rw [taken]
  split
  · exact Nat.min_le_right _ _
  · exact Nat.le_refl len

theorem uartWrite_eq (buf : List Byte) (u : Uart) (stalls : List (List Nat)) :
    uartWrite u txTimeoutUs buf stalls =
      (Uart.mk (u.tx ++ buf.take (taken buf.length stalls)),
        decide (taken buf.length stalls = buf.length)) := by
  induction buf generalizing u stalls with
  | nil =>
    have hzero : taken 0 stalls = 0 := Nat.le_zero.mp (taken_le 0 stalls)
    simp [uartWrite, hzero]
  | cons b buf ih =>
    cases stalls with
    | nil =>
      rw [uartWrite, List.headD_nil, uartPut_eq]
      simp [timesOut, ih, taken_nil]
    | cons st stalls =>
      rw [uartWrite, List.headD_cons, uartPut_eq, List.tail_cons, List.length_cons]
      cases h : timesOut st with
      | false => simp [ih, taken_succ _ _ h]
      | true => simp [taken_stalled _ _ h]

end Writing

section Passes

variable {src : Source} {m : Loop} {p : Pass}

theorem worksrcPackItem_length {ctx : WorkCtx} {item : List Byte} {itemLen : Nat}
    (hsized : ctx.ss3.length = stage3Len ∧ ctx.ss4.length = stage4Len)
    (h : worksrcPackItem ctx itemLen = some item) : item.length = itemLen ∧ 0 < itemLen := by
  rw [worksrcPackItem] at h
  split at h
  · rename_i hlen
    obtain rfl := Option.some.inj h
    rw [hlen]
    simp [hsized, putTargetLe, workItemLen, slots, stage3Len, stage4Len]
  · split at h
    · rename_i hlen
      obtain rfl := Option.some.inj h
      rw [hlen]
      simp [hsized, putTargetLe, stage4Len]
    · cases h

theorem pushed_length {item : List Byte} (h : pushed src m p = some item) :
    item.length = src.itemLen ∧ 0 < src.itemLen := by
  rw [pushed] at h
  split at h
  · obtain ⟨ctx, hctx, hpack⟩ := Option.bind_eq_some_iff.mp h
    exact worksrcPackItem_length (p.sized ctx hctx) hpack
  · cases h

theorem pass_uart_of_none (h : pushed src m p = none) : (m.pass src p).uart = m.uart := by
  rw [pushed] at h
  rw [Loop.pass]
  split
  · rename_i hdue
    rw [if_pos hdue] at h
    cases hwork : p.work with
    | none => rfl
    | some next =>
      rw [hwork, Option.bind_some] at h
      simp only [h]
  · rfl

theorem pass_uart_of_some {item : List Byte} (h : pushed src m p = some item) :
    (m.pass src p).uart.tx = m.uart.tx ++ item.take (taken item.length p.stalls) := by
  rw [pushed] at h
  rw [Loop.pass]
  split
  · rename_i hdue
    rw [if_pos hdue] at h
    cases hwork : p.work with
    | none =>
      rw [hwork] at h
      cases h
    | some next =>
      rw [hwork, Option.bind_some] at h
      simp only [h, uartWrite_eq]
      cases decide (taken item.length p.stalls = item.length) <;> rfl
  · rename_i hdue
    rw [if_neg hdue] at h
    cases h

def Aligned (src : Source) (m : Loop) : Prop := m.uart.tx.length % src.itemLen = 0

def PushAligned (src : Source) (m : Loop) (p : Pass) : Prop := (pushed src m p).isSome → Aligned src m

/-- No byte of the item after the first times out, unless the first one does. -/
def WholeOrNothing (src : Source) (m : Loop) (p : Pass) : Prop :=
  (pushed src m p).isSome → ∀ k ∈ p.stalls.findIdx? timesOut, k = 0 ∨ src.itemLen ≤ k

theorem taken_whole_iff {len : Nat} (hlen : 0 < len) (stalls : List (List Nat)) :
    (taken len stalls) % len = 0 ↔ ∀ k ∈ stalls.findIdx? timesOut, k = 0 ∨ len ≤ k := by
  rw [taken]
  cases stalls.findIdx? timesOut with
  | none => simp
  | some k =>
    simp only [Option.mem_some_iff, forall_eq']
    obtain hk | hk := Nat.lt_or_ge k len
    · rw [Nat.min_eq_left hk.le, Nat.mod_eq_of_lt hk]
      omega
    · rw [Nat.min_eq_right hk, Nat.mod_self]
      omega

theorem aligned_pass_iff (h : Aligned src m) : Aligned src (m.pass src p) ↔ WholeOrNothing src m p := by
  rw [WholeOrNothing]
  cases hp : pushed src m p with
  | none =>
    rw [Aligned, pass_uart_of_none hp]
    exact iff_of_true h fun hsome => by cases hsome
  | some item =>
    obtain ⟨hlen, hpos⟩ := pushed_length hp
    have htake := taken_le src.itemLen p.stalls
    rw [Aligned, pass_uart_of_some hp, hlen, List.length_append, List.length_take, hlen,
      Nat.min_eq_left htake, Nat.add_mod, h, Nat.zero_add, Nat.mod_mod, taken_whole_iff hpos]
    simp

theorem worksrcPackItem_isSome_congr {ctx ctx' : WorkCtx} {itemLen : Nat}
    (h : (worksrcPackItem ctx itemLen).isSome) : (worksrcPackItem ctx' itemLen).isSome := by
  rw [worksrcPackItem] at h ⊢
  split
  · rfl
  · rename_i hlen
    rw [if_neg hlen] at h
    split
    · rfl
    · rename_i hlen'
      rw [if_neg hlen'] at h
      cases h

def duePass (src : Source) (m : Loop) : Pass where
  t := m.lastTemplate + src.refresh
  work := some zeroCtx
  stalls := []
  sized := by
    intro ctx hctx
    obtain rfl := Option.some.inj hctx
    simp [zeroCtx]

theorem duePass_pushes (h : (pushed src m p).isSome) (m' : Loop) :
    (pushed src m' (duePass src m')).isSome := by
  have hpack : ∃ ctx, (worksrcPackItem ctx src.itemLen).isSome := by
    rw [pushed] at h
    split at h
    · obtain ⟨item, hitem⟩ := Option.isSome_iff_exists.mp h
      obtain ⟨ctx, -, hpack⟩ := Option.bind_eq_some_iff.mp hitem
      exact ⟨ctx, by rw [hpack]; rfl⟩
    · cases h
  obtain ⟨ctx, hctx⟩ := hpack
  have hdue : src.refresh ≤ m'.lastTemplate + src.refresh - m'.lastTemplate := by
    rw [BitVec.add_comm, BitVec.add_sub_cancel]
    exact BitVec.le_refl _
  rw [pushed, if_pos (.inr hdue)]
  exact worksrcPackItem_isSome_congr hctx

theorem misaligned_run (h : (pushed src m p).isSome) (ps : List Pass) {m' : Loop}
    (hm : ¬ Aligned src m') :
    ¬ ∀ p', Along (Loop.pass src) (PushAligned src) m' (ps ++ [p']) := by
  induction ps generalizing m' with
  | nil =>
    intro hall
    exact hm ((hall (duePass src m')).1 (duePass_pushes h m'))
  | cons q ps ih =>
    intro hall
    cases hq : pushed src m' q with
    | none =>
      refine ih ?_ fun p' => (hall p').2
      rwa [Aligned, pass_uart_of_none hq]
    | some item => exact hm ((hall q).1 (by rw [hq]; rfl))

end Passes

/-- For every source and every sequence of passes, with any stalls: every push so far
and whichever comes next starts on an item boundary exactly when every push so far got
out whole or not at all. -/
theorem push_aligned_iff (src : Source) (ps : List Pass) :
    (∀ p, Along (Loop.pass src) (PushAligned src) loopInit (ps ++ [p])) ↔
      Along (Loop.pass src) (WholeOrNothing src) loopInit ps := by
  have hinit : Aligned src loopInit := Nat.zero_mod _
  generalize loopInit = m at hinit
  induction ps generalizing m with
  | nil => exact iff_of_true (fun p => ⟨fun _ => hinit, trivial⟩) trivial
  | cons q ps ih =>
    constructor
    · intro hall
      have hq : WholeOrNothing src m q := by
        by_contra hbad
        have hpush : (pushed src m q).isSome := by
          by_contra hnone
          exact hbad fun h => absurd h hnone
        exact misaligned_run hpush ps (mt (aligned_pass_iff hinit).mp hbad) fun p => (hall p).2
      exact ⟨hq, (ih _ ((aligned_pass_iff hinit).mpr hq)).mp fun p => (hall p).2⟩
    · intro hall p
      have hnext := (aligned_pass_iff hinit).mpr hall.1
      exact ⟨fun _ => hinit, (ih _ hnext).mpr hall.2 p⟩

def knotsSource : Source := ⟨workItemLen, refreshS⟩

def stalledPass : Pass :=
  { duePass knotsSource loopInit with stalls := List.replicate 100 [] ++ [[200001]] }

theorem stalled_push_rotates :
    ((loopInit.pass knotsSource stalledPass).uart.tx.length = 100) ∧
      ¬ Along (Loop.pass knotsSource) (PushAligned knotsSource) loopInit
        [stalledPass, duePass knotsSource (loopInit.pass knotsSource stalledPass)] := by
  have hbytes : (loopInit.pass knotsSource stalledPass).uart.tx.length = 100 := by decide +kernel
  have hpush : (pushed knotsSource loopInit stalledPass).isSome = true := by decide +kernel
  refine ⟨hbytes, fun hall => ?_⟩
  have haligned := hall.2.1 (duePass_pushes hpush _)
  rw [Aligned, hbytes] at haligned
  exact absurd haligned (by decide)

structure SameLoop (p : Pool) (m : Loop) : Prop where
  haveWork : p.haveWork = m.haveWork
  lastTemplate : p.lastTemplate = m.lastTemplate
  txBytes : p.txBytes = m.uart.tx.length

theorem pushWork_sameLoop {p : Pool} {m : Loop} (h : SameLoop p m) (now : U64) (accepts : Nat)
    (q : Pass) (hwork : q.work = (stGetWork p.src now).2)
    (hstalls : ∀ len, taken len q.stalls = min accepts len) :
    SameLoop (pushWork p q.t now accepts).1 (m.pass ⟨p.src.chain.itemLen, refreshS⟩ q) := by
  have hchain := (stGetWork_spec p.src now).1.chain
  rw [pushWork, Loop.pass, h.haveWork, h.lastTemplate]
  split
  · rw [hwork]
    generalize stGetWork p.src now = r at hchain
    obtain ⟨src, _ | next⟩ := r
    · exact ⟨rfl, rfl, h.txBytes⟩
    · simp only at hchain ⊢
      rw [hchain]
      cases hpack : worksrcPackItem next p.src.chain.itemLen with
      | none => exact ⟨rfl, rfl, h.txBytes⟩
      | some item =>
        simp only [uartWrite_eq, hstalls]
        by_cases hall : accepts ≥ item.length
        · rw [if_pos hall, decide_eq_true (by omega)]
          refine ⟨rfl, rfl, ?_⟩
          simp [h.txBytes, hall]
        · rw [if_neg hall, decide_eq_false (by omega)]
          refine ⟨rfl, rfl, ?_⟩
          simp only [h.txBytes, List.length_append, List.length_take]
          omega
  · exact h

end OspreyBlake2b.Miner
