import OspreyBlake2b.Rtl.UartReceiver
import Mathlib.Data.List.GetD

/-! The receiver against an ideal sender.  Between bytes the baud counter runs
free; a start edge that meets it on its last count makes `bitTime` fire while the
restart is still on its way, and the start bit is sampled as data. -/

namespace OspreyBlake2b.Rtl.Uart

open OspreyBlake2b.Lib OspreyBlake2b.Lib.Clocked

section Edges

variable {w kRxBytes : Nat} {d : DS} {b : BaudGen} {s : Receiver w}

theorem Receiver.step_idle (hs : s.rxState = .Idle) (hf : ¬ (d.rx = false ∧ d.rx_dly = true)) :
    s.step kRxBytes d b = { s with NewWork := false, rxBitCount := 0 } := by
  simp only [Receiver.step, hs, if_neg hf]

theorem Receiver.step_start (hs : s.rxState = .Idle) (hf : d.rx = false ∧ d.rx_dly = true) :
    s.step kRxBytes d b =
      { s with NewWork := false, rxBitCount := 0, rxState := .ShiftByte, restartBaud := true } := by
  simp only [Receiver.step, hs, if_pos hf]

theorem Receiver.step_wait (hs : s.rxState = .ShiftByte) (hk : s.rxBitCount < 8)
    (hb : b.bitTime = false) :
    s.step kRxBytes d b = { s with NewWork := false, restartBaud := false } := by
  simp only [Receiver.step, hs, if_pos hk, hb]
  rfl

theorem Receiver.step_sample (hs : s.rxState = .ShiftByte) (hk : s.rxBitCount < 8)
    (hb : b.bitTime = true) :
    s.step kRxBytes d b =
      { s with
        NewWork := false, restartBaud := false
        workDataLcl := shiftIn s.workDataLcl d.rx, rxBitCount := s.rxBitCount + 1 } := by
  simp only [Receiver.step, hs, if_pos hk, hb]
  rfl

theorem Receiver.step_done (hs : s.rxState = .ShiftByte) (hk : s.rxBitCount = 8) :
    s.step kRxBytes d b =
      { s with
        NewWork := decide (s.rxByteCount = kRxBytes - 1), restartBaud := false, rxState := .Idle
        rxByteCount := if s.rxByteCount = kRxBytes - 1 then 0 else s.rxByteCount + 1 } := by
  simp only [Receiver.step, hs, hk, lt_irrefl, if_false]
  split <;> simp [*]

theorem BaudGen.step_count {K : Nat} {b : BaudGen} (h : b.clkCount ≠ K) :
    b.step K false = ⟨false, b.clkCount + 1⟩ := by
  simp [BaudGen.step, h]

theorem BaudGen.step_tick {K : Nat} {b : BaudGen} (h : b.clkCount = K) :
    b.step K false = ⟨true, 0⟩ := by
  simp [BaudGen.step, h]

end Edges

variable {g : Generics}

/-- Waiting for a start edge with the free-running counter at `c`. -/
structure Idles (s : GetWork g) (c n : Nat) (w : BitVec (g.kRxBytes * 8)) : Prop where
  state : s.recv.rxState = .Idle
  restart : s.recv.restartBaud = false
  count : s.baud.clkCount = c
  bytes : s.recv.rxByteCount = n
  data : s.recv.workDataLcl = w

/-- Inside a byte with `k` bits taken, between two ticks of the baud counter. -/
structure Shifts (s : GetWork g) (c : Int) (k n : Nat) (w : BitVec (g.kRxBytes * 8)) : Prop where
  state : s.recv.rxState = .ShiftByte
  restart : s.recv.restartBaud = false
  tick : s.baud.bitTime = false
  count : s.baud.clkCount = c
  bits : s.recv.rxBitCount = k
  bytes : s.recv.rxByteCount = n
  data : s.recv.workDataLcl = w

def Falls (s : GetWork g) : Prop := s.ds.rx = false ∧ s.ds.rx_dly = true

section Steps

variable {s : GetWork g} {n : Nat} {w : BitVec (g.kRxBytes * 8)}

theorem Idles.step (h : Idles s c n w) (hc : c ≤ g.kBitTimeInClks) (hf : ¬ Falls s) (aRx : Bool) :
    Idles (s.step g aRx) ((c + 1) % (g.kBitTimeInClks + 1)) n w ∧
      (s.step g aRx).NewWork = false := by
  have hrecv : (s.step g aRx).recv = _ := Receiver.step_idle h.state hf
  have hcount : (s.step g aRx).baud.clkCount = ((c + 1) % (g.kBitTimeInClks + 1) : Nat) := by
    obtain hlt | heq := Nat.lt_or_eq_of_le hc
    · rw [Nat.mod_eq_of_lt (by omega), GetWork.step, h.restart,
        BaudGen.step_count (by rw [h.count]; omega), h.count]
      rfl
    · rw [heq, Nat.mod_self, GetWork.step, h.restart, BaudGen.step_tick (by rw [h.count, heq])]
      rfl
  refine ⟨⟨?_, ?_, hcount, ?_, ?_⟩, ?_⟩
  · rw [hrecv]; exact h.state
  · rw [hrecv]; exact h.restart
  · rw [hrecv]; exact h.bytes
  · rw [hrecv]; exact h.data
  · rw [GetWork.NewWork, hrecv]

theorem Idles.start (h : Idles s c n w) (hc : c ≠ g.kBitTimeInClks) (hf : Falls s)
    (aRx aRx' : Bool) :
    Shifts ((s.step g aRx).step g aRx') (-1 * ((g.kBitTimeInClks / 2 : Nat) : Int)) 0 n w ∧
      (s.step g aRx).NewWork = false ∧ ((s.step g aRx).step g aRx').NewWork = false := by
  have hrecv : (s.step g aRx).recv = _ := Receiver.step_start h.state hf
  have hbaud : (s.step g aRx).baud.bitTime = false := by
    rw [GetWork.step, h.restart, BaudGen.step_count (by rw [h.count]; omega)]
  have hrecv' : ((s.step g aRx).step g aRx').recv = _ :=
    Receiver.step_wait (by rw [hrecv]) (by rw [hrecv]; exact Nat.zero_lt_succ 7) hbaud
  have hbaud' : ((s.step g aRx).step g aRx').baud =
      ⟨false, -1 * ((g.kBitTimeInClks / 2 : Nat) : Int)⟩ := by
    rw [GetWork.step, hrecv]
    rfl
  rw [hrecv] at hrecv'
  refine ⟨⟨?_, ?_, ?_, ?_, ?_, ?_, ?_⟩, ?_, ?_⟩
  · rw [hrecv']
  · rw [hrecv']
  · rw [hbaud']
  · rw [hbaud']
  · rw [hrecv']
  · rw [hrecv']; exact h.bytes
  · rw [hrecv']; exact h.data
  · rw [GetWork.NewWork, hrecv]
  · rw [GetWork.NewWork, hrecv']

theorem Shifts.wait (h : Shifts s c k n w) (hk : k < 8) (hc : c ≠ g.kBitTimeInClks) (aRx : Bool) :
    Shifts (s.step g aRx) (c + 1) k n w ∧ (s.step g aRx).NewWork = false := by
  have hrecv : (s.step g aRx).recv = _ :=
    Receiver.step_wait h.state (by rw [h.bits]; exact hk) h.tick
  have hbaud : (s.step g aRx).baud = ⟨false, c + 1⟩ := by
    rw [GetWork.step, h.restart, BaudGen.step_count (by rw [h.count]; exact hc), h.count]
  refine ⟨⟨?_, ?_, ?_, ?_, ?_, ?_, ?_⟩, ?_⟩
  · rw [hrecv]; exact h.state
  · rw [hrecv]
  · rw [hbaud]
  · rw [hbaud]
  · rw [hrecv]; exact h.bits
  · rw [hrecv]; exact h.bytes
  · rw [hrecv]; exact h.data
  · rw [GetWork.NewWork, hrecv]

theorem Shifts.sample (h : Shifts s g.kBitTimeInClks k n w) (hk : k < 8)
    (aRx aRx' : Bool) :
    Shifts ((s.step g aRx).step g aRx') 1 (k + 1) n (shiftIn w s.ds.rx_ms) ∧
      (s.step g aRx).NewWork = false ∧ ((s.step g aRx).step g aRx').NewWork = false := by
  have hrecv : (s.step g aRx).recv = _ :=
    Receiver.step_wait h.state (by rw [h.bits]; exact hk) h.tick
  have hbaud : (s.step g aRx).baud = ⟨true, 0⟩ := by
    rw [GetWork.step, h.restart, BaudGen.step_tick h.count]
  have hrecv' : ((s.step g aRx).step g aRx').recv = _ :=
    Receiver.step_sample (by rw [hrecv]; exact h.state) (by rw [hrecv, h.bits]; exact hk)
      (by rw [hbaud])
  have hbaud' : ((s.step g aRx).step g aRx').baud = ⟨false, 1⟩ := by
    rw [GetWork.step, hrecv, BaudGen.step_count, hbaud]
    · rfl
    · rw [hbaud]
      intro e
      exact g.kBitTimeInClks_pos.ne (Int.ofNat.inj e)
  rw [hrecv] at hrecv'
  refine ⟨⟨?_, ?_, ?_, ?_, ?_, ?_, ?_⟩, ?_, ?_⟩
  · rw [hrecv']; exact h.state
  · rw [hrecv']
  · rw [hbaud']
  · rw [hbaud']
  · rw [hrecv', h.bits]
  · rw [hrecv']; exact h.bytes
  · rw [hrecv', h.data]
    rfl
  · rw [GetWork.NewWork, hrecv]
  · rw [GetWork.NewWork, hrecv']

theorem Shifts.done (h : Shifts s 1 8 (N % g.kRxBytes) w) (hK : 1 < g.kBitTimeInClks)
    (aRx : Bool) :
    Idles (s.step g aRx) 2 ((N + 1) % g.kRxBytes) w ∧
      ((s.step g aRx).NewWork = true ↔ (N + 1) % g.kRxBytes = 0) := by
  have hrecv : (s.step g aRx).recv = _ := Receiver.step_done h.state h.bits
  have hbaud : (s.step g aRx).baud = ⟨false, 2⟩ := by
    rw [GetWork.step, h.restart, BaudGen.step_count (by rw [h.count]; omega), h.count]
    rfl
  rw [h.bytes] at hrecv
  have hpos := g.kRxBytes_pos
  have hmod := Nat.mod_lt N hpos
  have hsucc : (N + 1) % g.kRxBytes =
      if N % g.kRxBytes = g.kRxBytes - 1 then 0 else N % g.kRxBytes + 1 := by
    rw [← Nat.mod_add_mod]
    split
    · rw [show N % g.kRxBytes + 1 = g.kRxBytes by omega, Nat.mod_self]
    · exact Nat.mod_eq_of_lt (by omega)
  refine ⟨⟨?_, ?_, ?_, ?_, ?_⟩, ?_⟩
  · rw [hrecv]
  · rw [hrecv]
  · rw [hbaud]
    rfl
  · rw [hrecv, hsucc]
  · rw [hrecv]; exact h.data
  · rw [GetWork.NewWork, hrecv, decide_eq_true_iff, hsucc]
    split <;> simp [*]

end Steps

section Stretches

variable {aRx : Nat → Bool} {σ : Nat → GetWork g} {n : Nat} {w : BitVec (g.kRxBytes * 8)}

theorem rx_ms_eq (hσ : Trace (GetWork.step g) aRx σ) (t : Nat) :
    (σ (t + 1)).ds.rx_ms = aRx t := by
  rw [hσ t]
  rfl

theorem rx_eq (hσ : Trace (GetWork.step g) aRx σ) (t : Nat) : (σ (t + 2)).ds.rx = aRx t := by
  rw [hσ (t + 1), ← rx_ms_eq hσ t]
  rfl

theorem rx_dly_eq (hσ : Trace (GetWork.step g) aRx σ) (t : Nat) :
    (σ (t + 1)).ds.rx_dly = (σ t).ds.rx := by
  rw [hσ t]
  rfl

theorem ds_eq (hσ : Trace (GetWork.step g) aRx σ) (t : Nat) :
    (σ (t + 3)).ds = ⟨aRx (t + 2), aRx (t + 1), aRx t⟩ := by
  rw [hσ (t + 2), GetWork.step, DS.step, rx_ms_eq hσ, rx_eq hσ]

theorem idle_run (hσ : Trace (GetWork.step g) aRx σ) (h : Idles (σ a) c n w)
    (hc : c ≤ g.kBitTimeInClks) (m : Nat) (hf : ∀ i, i < m → ¬ Falls (σ (a + i))) :
    Idles (σ (a + m)) ((c + m) % (g.kBitTimeInClks + 1)) n w ∧
      Low GetWork.NewWork σ a (a + m) := by
  induction m with
  | zero =>
    rw [Nat.add_zero, Nat.add_zero, Nat.mod_eq_of_lt (by omega)]
    exact ⟨h, Low.refl _ _ _⟩
  | succ m ih =>
    obtain ⟨hi, hl⟩ := ih fun i hm => hf i (by omega)
    have hle : (c + m) % (g.kBitTimeInClks + 1) ≤ g.kBitTimeInClks :=
      Nat.le_of_lt_succ (Nat.mod_lt _ (Nat.succ_pos _))
    obtain ⟨hi', hn⟩ := hi.step hle (hf m (by omega)) (aRx (a + m))
    rw [← hσ (a + m), Nat.mod_add_mod] at hi'
    rw [← hσ (a + m)] at hn
    exact ⟨hi', hl.step hn⟩

theorem shift_run (hσ : Trace (GetWork.step g) aRx σ) (h : Shifts (σ a) c k n w) (hk : k < 8)
    (m : Nat) (hm : c + m ≤ g.kBitTimeInClks) :
    Shifts (σ (a + m)) (c + m) k n w ∧ Low GetWork.NewWork σ a (a + m) := by
  induction m with
  | zero => exact ⟨by simpa using h, Low.refl _ _ _⟩
  | succ m ih =>
    obtain ⟨hs, hl⟩ := ih (by omega)
    obtain ⟨hs', hn⟩ := hs.wait hk (by omega) (aRx (a + m))
    rw [← hσ (a + m)] at hs' hn
    rw [Int.add_assoc] at hs'
    exact ⟨hs', hl.step hn⟩

theorem cell_run (hσ : Trace (GetWork.step g) aRx σ) (h : Shifts (σ (a + 1)) c k n w) (hk : k < 8)
    (m : Nat) (hm : c + m = g.kBitTimeInClks) :
    Shifts (σ (a + m + 3)) 1 (k + 1) n (shiftIn w (aRx (a + m))) ∧
      Low GetWork.NewWork σ (a + 1) (a + m + 3) := by
  obtain ⟨hs, hl⟩ := shift_run hσ h hk m (by omega)
  rw [hm, Nat.add_right_comm] at hs
  rw [Nat.add_right_comm] at hl
  obtain ⟨hs', h1, h2⟩ := hs.sample hk (aRx (a + m + 1)) (aRx (a + m + 2))
  rw [← hσ (a + m + 1), ← hσ (a + m + 2), rx_ms_eq hσ] at hs'
  rw [← hσ (a + m + 1), ← hσ (a + m + 2)] at h2
  rw [← hσ (a + m + 1)] at h1
  exact ⟨hs', (hl.step h1).step h2⟩

def sampleClk (K k : Nat) : Nat := K + K / 2 + k * (K + 1)

theorem byte_run (hσ : Trace (GetWork.step g) aRx σ) (hK : 0 < g.kBitTimeInClks)
    (h : Shifts (σ (a + 1)) (-1 * ((g.kBitTimeInClks / 2 : Nat) : Int)) 0 n w) (k : Nat)
    (hk : k < 8) :
    Shifts (σ (a + sampleClk g.kBitTimeInClks k + 3)) 1 (k + 1) n
        (((List.range (k + 1)).map fun i => aRx (a + sampleClk g.kBitTimeInClks i)).foldl
          shiftIn w) ∧
      Low GetWork.NewWork σ (a + 1) (a + sampleClk g.kBitTimeInClks k + 3) := by
  induction k with
  | zero => exact cell_run hσ h hk (sampleClk g.kBitTimeInClks 0) (by simp [sampleClk])
  | succ k ih =>
    obtain ⟨hs, hl⟩ := ih (by omega)
    obtain ⟨hs', hl'⟩ := cell_run hσ hs hk (g.kBitTimeInClks - 1) (by omega)
    have ht : a + sampleClk g.kBitTimeInClks k + 2 + (g.kBitTimeInClks - 1) =
        a + sampleClk g.kBitTimeInClks (k + 1) := by
      rw [sampleClk, sampleClk, Nat.succ_mul]
      omega
    rw [ht] at hs' hl'
    rw [List.range_succ, List.map_append, List.foldl_append]
    exact ⟨hs', hl.trans hl'⟩

end Stretches

section Line

variable {K : Nat}

theorem line_idle (gap : Nat) (b : Byte) (fs : List (Nat × Byte)) (h : t < gap) :
    line K ((gap, b) :: fs) t = true := by
  simp [line, h]

theorem line_cell (gap : Nat) (b : Byte) (fs : List (Nat × Byte)) (k i : Nat) (hk : k < 10)
    (hi : i < K) : line K ((gap, b) :: fs) (gap + k * K + i) = cell b k := by
  have hlt : k * K + i < 10 * K := by
    have := Nat.mul_le_mul_right K (Nat.succ_le_of_lt hk)
    rw [Nat.succ_mul] at this
    omega
  have hdiv : (k * K + i) / K = k := by
    rw [Nat.mul_comm, Nat.mul_add_div (by omega), Nat.div_eq_of_lt hi, Nat.add_zero]
  rw [line, if_neg (by omega), if_pos (by omega),
    show gap + k * K + i - gap = k * K + i by omega, hdiv]

theorem line_tail (gap : Nat) (b : Byte) (fs : List (Nat × Byte)) (t : Nat) :
    line K ((gap, b) :: fs) (gap + 10 * K + t) = line K fs t := by
  rw [line, if_neg (by omega), if_neg (by omega), Nat.add_sub_cancel_left]

theorem line_no_fall (gap : Nat) (b : Byte) (fs : List (Nat × Byte)) {j : Nat} (h8 : 8 * K ≤ j)
    (hj : j + 1 < 10 * K)
    (hf : line K ((gap, b) :: fs) (gap + (j + 1)) = false ∧
      line K ((gap, b) :: fs) (gap + j) = true) : False := by
  obtain h9 | h9 := Nat.lt_or_ge (j + 1) (9 * K)
  · have e1 := line_cell (K := K) gap b fs 8 (j + 1 - 8 * K) (by omega) (by omega)
    have e0 := line_cell (K := K) gap b fs 8 (j - 8 * K) (by omega) (by omega)
    rw [show gap + 8 * K + (j + 1 - 8 * K) = gap + (j + 1) by omega, hf.1] at e1
    rw [show gap + 8 * K + (j - 8 * K) = gap + j by omega, hf.2] at e0
    rw [← e0] at e1
    exact Bool.false_ne_true e1
  · have e1 := line_cell (K := K) gap b fs 9 (j + 1 - 9 * K) (by omega) (by omega)
    rw [show gap + 9 * K + (j + 1 - 9 * K) = gap + (j + 1) by omega, hf.1] at e1
    exact Bool.false_ne_true e1

end Line

/-- Idle with a line that has been high for three clocks: the state after reset,
and the state at the end of every stop bit. -/
structure Quiet (s : GetWork g) (c n : Nat) (w : BitVec (g.kRxBytes * 8)) : Prop
    extends Idles s c n w where
  high : s.ds = ⟨true, true, true⟩

def bitsOf (b : Byte) : List Bool := (List.range 8).map b.getLsbD

def doneClk (K : Nat) : Nat := 8 * K + K / 2 + 14

def restPhase (K : Nat) : Nat := K - K / 2 - 13

section Frame

variable {σ : Nat → GetWork g} {w : BitVec (g.kRxBytes * 8)} {gap : Nat} {b : Byte}
  {fs : List (Nat × Byte)}

theorem rx_high_before (hσ : Trace (GetWork.step g) (line g.kBitTimeInClks ((gap, b) :: fs)) σ)
    (hq : Quiet (σ 0) c n w) (ht : t < gap + 2) : (σ t).ds.rx = true := by
  match t with
  | 0 => rw [hq.high]
  | 1 =>
    rw [hσ 0, GetWork.step, hq.high]
    rfl
  | t + 2 =>
    rw [rx_eq hσ]
    exact line_idle gap b fs (by omega)

theorem stop_high (hσ : Trace (GetWork.step g) (line g.kBitTimeInClks ((gap, b) :: fs)) σ)
    (hK : 3 ≤ g.kBitTimeInClks) :
    (σ (gap + 10 * g.kBitTimeInClks)).ds = ⟨true, true, true⟩ := by
  have hstop (i : Nat) (hi : i < 3) :
      line g.kBitTimeInClks ((gap, b) :: fs) (gap + 10 * g.kBitTimeInClks - 3 + i) = true := by
    have h := line_cell (K := g.kBitTimeInClks) gap b fs 9 (g.kBitTimeInClks - 3 + i) (by omega)
      (by omega)
    rw [← show gap + 9 * g.kBitTimeInClks + (g.kBitTimeInClks - 3 + i) =
      gap + 10 * g.kBitTimeInClks - 3 + i by omega, h]
    rfl
  have h := ds_eq hσ (gap + 10 * g.kBitTimeInClks - 3)
  have h0 := hstop 0 (by omega)
  rw [Nat.add_zero] at h0
  rw [hstop 2 (by omega), hstop 1 (by omega), h0] at h
  rw [← h]
  congr 2
  omega

theorem sample_eq (hK : 32 ≤ K) (k : Nat) (hk : k < 8) :
    line K ((gap, b) :: fs) (gap + 3 + sampleClk K k) = b.getLsbD k := by
  have h := line_cell (K := K) gap b fs (k + 1) (K / 2 + 3 + k) (by omega) (by omega)
  have ht : gap + 3 + sampleClk K k = gap + (k + 1) * K + (K / 2 + 3 + k) := by
    rw [sampleClk, Nat.mul_succ, Nat.succ_mul]
    omega
  rw [ht, h, cell, if_pos hk]

theorem frame_starts (hσ : Trace (GetWork.step g) (line g.kBitTimeInClks ((gap, b) :: fs)) σ)
    (hq : Quiet (σ 0) c n w) (hc : c ≤ g.kBitTimeInClks)
    (hclear : (c + gap + 2) % (g.kBitTimeInClks + 1) ≠ g.kBitTimeInClks) :
    Shifts (σ (gap + 4)) (-1 * ((g.kBitTimeInClks / 2 : Nat) : Int)) 0 n w ∧
      Low GetWork.NewWork σ 0 (gap + 4) := by
  obtain ⟨hi, hl⟩ := idle_run hσ hq.toIdles hc (gap + 2) fun i hi hf => by
    rw [Nat.zero_add] at hf
    exact Bool.false_ne_true (hf.1.symm.trans (rx_high_before hσ hq hi))
  rw [Nat.zero_add] at hi hl
  have hfall : Falls (σ (gap + 2)) := by
    refine ⟨?_, ?_⟩
    · rw [rx_eq hσ]
      simpa [cell] using line_cell gap b fs 0 0 (by omega) g.kBitTimeInClks_pos
    · rw [rx_dly_eq hσ]
      exact rx_high_before hσ hq (by omega)
  obtain ⟨hs, h1, h2⟩ := hi.start (by rwa [← Nat.add_assoc]) hfall
    (line g.kBitTimeInClks ((gap, b) :: fs) (gap + 2))
    (line g.kBitTimeInClks ((gap, b) :: fs) (gap + 3))
  rw [← hσ (gap + 2), ← hσ (gap + 3)] at hs h2
  rw [← hσ (gap + 2)] at h1
  exact ⟨hs, (hl.step h1).step h2⟩

theorem frame_shifts (hσ : Trace (GetWork.step g) (line g.kBitTimeInClks ((gap, b) :: fs)) σ)
    (hK : 32 ≤ g.kBitTimeInClks) (hq : Quiet (σ 0) c n w) (hc : c ≤ g.kBitTimeInClks)
    (hclear : (c + gap + 2) % (g.kBitTimeInClks + 1) ≠ g.kBitTimeInClks) :
    Shifts (σ (gap + 8 * g.kBitTimeInClks + g.kBitTimeInClks / 2 + 13)) 1 8 n
        ((bitsOf b).foldl shiftIn w) ∧
      Low GetWork.NewWork σ 0 (gap + 8 * g.kBitTimeInClks + g.kBitTimeInClks / 2 + 13) := by
  obtain ⟨hs, hl⟩ := frame_starts hσ hq hc hclear
  obtain ⟨hs', hl'⟩ := byte_run (a := gap + 3) hσ g.kBitTimeInClks_pos hs 7 (by omega)
  have ht : gap + 3 + sampleClk g.kBitTimeInClks 7 + 3 =
      gap + 8 * g.kBitTimeInClks + g.kBitTimeInClks / 2 + 13 := by
    rw [sampleClk]
    omega
  have hbits : ((List.range 8).map fun i => line g.kBitTimeInClks ((gap, b) :: fs)
      (gap + 3 + sampleClk g.kBitTimeInClks i)) = bitsOf b := by
    apply List.map_congr_left
    intro k hk
    exact sample_eq hK k (List.mem_range.mp hk)
  rw [ht, hbits] at hs'
  rw [ht] at hl'
  exact ⟨hs', hl.trans hl'⟩

theorem doneClk_lt (hK : 32 ≤ K) : doneClk K < 10 * K := by
  rw [doneClk]
  omega

theorem no_fall_after_done
    (hσ : Trace (GetWork.step g) (line g.kBitTimeInClks ((gap, b) :: fs)) σ) {i : Nat}
    (hi : i < 10 * g.kBitTimeInClks - doneClk g.kBitTimeInClks) :
    ¬ Falls (σ (gap + doneClk g.kBitTimeInClks + i)) := by
  intro hf
  rw [doneClk] at hi hf
  have e1 := rx_eq hσ (gap + (8 * g.kBitTimeInClks + g.kBitTimeInClks / 2 + 11 + i + 1))
  have e0 := rx_eq hσ (gap + (8 * g.kBitTimeInClks + g.kBitTimeInClks / 2 + 11 + i))
  have e2 := rx_dly_eq hσ (gap + (8 * g.kBitTimeInClks + g.kBitTimeInClks / 2 + 11 + i) + 2)
  rw [e0] at e2
  apply line_no_fall (K := g.kBitTimeInClks) gap b fs
    (j := 8 * g.kBitTimeInClks + g.kBitTimeInClks / 2 + 11 + i) (by omega) (by omega)
  refine ⟨?_, ?_⟩
  · rw [← e1, ← hf.1]
    congr 3
    omega
  · rw [← e2, ← hf.2]
    congr 3
    omega

theorem frame_rests (hσ : Trace (GetWork.step g) (line g.kBitTimeInClks ((gap, b) :: fs)) σ)
    (hK : 32 ≤ g.kBitTimeInClks) (hi : Idles (σ (gap + doneClk g.kBitTimeInClks)) 2 n w) :
    Quiet (σ (gap + 10 * g.kBitTimeInClks)) (restPhase g.kBitTimeInClks) n w ∧
      Low GetWork.NewWork σ (gap + doneClk g.kBitTimeInClks) (gap + 10 * g.kBitTimeInClks) := by
  obtain ⟨hi', hl⟩ := idle_run hσ hi (by omega)
    (10 * g.kBitTimeInClks - doneClk g.kBitTimeInClks) fun i hi => no_fall_after_done hσ hi
  have hlt := doneClk_lt hK
  have hend : gap + doneClk g.kBitTimeInClks +
      (10 * g.kBitTimeInClks - doneClk g.kBitTimeInClks) = gap + 10 * g.kBitTimeInClks := by omega
  have hphase : (2 + (10 * g.kBitTimeInClks - doneClk g.kBitTimeInClks)) %
      (g.kBitTimeInClks + 1) = restPhase g.kBitTimeInClks := by
    have hsub : 2 + (10 * g.kBitTimeInClks - doneClk g.kBitTimeInClks) =
        restPhase g.kBitTimeInClks + (g.kBitTimeInClks + 1) := by
      rw [doneClk, restPhase]
      omega
    rw [hsub, Nat.add_mod_right]
    exact Nat.mod_eq_of_lt (by rw [restPhase]; omega)
  rw [hend] at hi' hl
  rw [hphase] at hi'
  exact ⟨⟨hi', stop_high hσ (by omega)⟩, hl⟩

theorem frame_run (hσ : Trace (GetWork.step g) (line g.kBitTimeInClks ((gap, b) :: fs)) σ)
    (hK : 32 ≤ g.kBitTimeInClks) (hq : Quiet (σ 0) c (N % g.kRxBytes) w)
    (hc : c ≤ g.kBitTimeInClks)
    (hclear : (c + gap + 2) % (g.kBitTimeInClks + 1) ≠ g.kBitTimeInClks) :
    Quiet (σ (gap + 10 * g.kBitTimeInClks)) (restPhase g.kBitTimeInClks) ((N + 1) % g.kRxBytes)
        ((bitsOf b).foldl shiftIn w) ∧
      (σ (gap + doneClk g.kBitTimeInClks)).WorkData = (bitsOf b).foldl shiftIn w ∧
      ∀ t, 0 < t → t ≤ gap + 10 * g.kBitTimeInClks →
        ((σ t).NewWork = true ↔
          (N + 1) % g.kRxBytes = 0 ∧ t = gap + doneClk g.kBitTimeInClks) := by
  obtain ⟨hs, hl⟩ := frame_shifts hσ hK hq hc hclear
  obtain ⟨hi, hnew⟩ := hs.done (by omega)
    (line g.kBitTimeInClks ((gap, b) :: fs)
      (gap + 8 * g.kBitTimeInClks + g.kBitTimeInClks / 2 + 13))
  have hdone : gap + 8 * g.kBitTimeInClks + g.kBitTimeInClks / 2 + 13 + 1 =
      gap + doneClk g.kBitTimeInClks := by
    rw [doneClk]
    omega
  rw [← hσ, hdone] at hi hnew
  obtain ⟨hq', hl'⟩ := frame_rests hσ hK hi
  refine ⟨hq', hi.data, ?_⟩
  intro t h0 hle
  obtain hb | rfl | ha := Nat.lt_trichotomy t (gap + doneClk g.kBitTimeInClks)
  · rw [hl t h0 (by omega)]
    simp [hb.ne]
  · simpa using hnew
  · rw [hl' t ha hle]
    simp [ha.ne']

end Frame

def pulseClk (K : Nat) (frames : List (Nat × Byte)) (i : Nat) : Nat :=
  ((frames.take (i + 1)).map Prod.fst).sum + i * (10 * K) + doneClk K

def bytesBits (frames : List (Nat × Byte)) : List Bool := frames.flatMap fun f => bitsOf f.2

theorem pulseClk_cons_zero (gap : Nat) (b : Byte) (fs : List (Nat × Byte)) :
    pulseClk K ((gap, b) :: fs) 0 = gap + doneClk K := by
  simp [pulseClk]

theorem pulseClk_cons_succ (gap : Nat) (b : Byte) (fs : List (Nat × Byte)) (i : Nat) :
    pulseClk K ((gap, b) :: fs) (i + 1) = gap + 10 * K + pulseClk K fs i := by
  simp only [pulseClk, List.take_succ_cons, List.map_cons, List.sum_cons, Nat.succ_mul]
  omega

theorem pulseClk_pos (fs : List (Nat × Byte)) (i : Nat) : 0 < pulseClk K fs i := by
  rw [pulseClk, doneClk]
  omega

theorem pulse_first {M N t gap : Nat} (b : Byte) (fs : List (Nat × Byte))
    (ht : t ≤ gap + 10 * K) :
    (∃ i, i < ((gap, b) :: fs).length ∧ (N + i + 1) % M = 0 ∧
        t = pulseClk K ((gap, b) :: fs) i) ↔
      (N + 1) % M = 0 ∧ t = gap + doneClk K := by
  constructor
  · rintro ⟨i, hi, hm, rfl⟩
    cases i with
    | zero => exact ⟨hm, pulseClk_cons_zero gap b fs⟩
    | succ i =>
      have hpos := pulseClk_pos (K := K) fs i
      rw [pulseClk_cons_succ] at ht
      omega
  · rintro ⟨hm, rfl⟩
    exact ⟨0, by simp, hm, (pulseClk_cons_zero gap b fs).symm⟩

theorem pulse_later (hK : 32 ≤ K) (M N u gap : Nat) (b : Byte) (fs : List (Nat × Byte)) :
    (∃ i, i < ((gap, b) :: fs).length ∧ (N + i + 1) % M = 0 ∧
        gap + 10 * K + u = pulseClk K ((gap, b) :: fs) i) ↔
      ∃ i, i < fs.length ∧ (N + 1 + i + 1) % M = 0 ∧ u = pulseClk K fs i := by
  constructor
  · rintro ⟨i, hi, hm, he⟩
    cases i with
    | zero =>
      have hlt := doneClk_lt hK
      rw [pulseClk_cons_zero] at he
      omega
    | succ i =>
      rw [pulseClk_cons_succ] at he
      refine ⟨i, by simpa using hi, ?_, Nat.add_left_cancel he⟩
      rwa [Nat.add_right_comm N 1 i, Nat.add_assoc N i 1]
  · rintro ⟨i, hi, hm, rfl⟩
    refine ⟨i + 1, by simpa using hi, ?_, (pulseClk_cons_succ gap b fs i).symm⟩
    rwa [← Nat.add_assoc, Nat.add_right_comm N i 1]

/-- No start edge meets the free-running counter on its last count, given what
the counter holds when the line starts. -/
def ClearFrom (K : Nat) : Nat → List (Nat × Byte) → Prop
  | _, [] => True
  | c, (gap, _) :: fs => (c + gap + 2) % (K + 1) ≠ K ∧ ClearFrom K (restPhase K) fs

theorem silent_run {σ : Nat → GetWork g} (hσ : Trace (GetWork.step g) (fun _ => true) σ)
    (hq : Quiet (σ 0) c n w) (hc : c ≤ g.kBitTimeInClks) (t : Nat) (h0 : 0 < t) :
    (σ t).NewWork = false := by
  have hrx (t : Nat) : (σ t).ds.rx = true := by
    match t with
    | 0 => rw [hq.high]
    | 1 =>
      rw [hσ 0, GetWork.step, hq.high]
      rfl
    | t + 2 => exact rx_eq hσ t
  obtain ⟨-, hl⟩ := idle_run hσ hq.toIdles hc t fun i _ hf => by
    rw [Falls, hrx] at hf
    exact Bool.false_ne_true hf.1.symm
  rw [Nat.zero_add] at hl
  exact hl t h0 (le_refl t)

/-- Every frame of a clear line is taken in: the invariant carried from frame to
frame is `Quiet`, with the bytes so far counted by `N` and shifted into `w`. -/
theorem frames_run (hK : 32 ≤ g.kBitTimeInClks) (frames : List (Nat × Byte))
    {σ : Nat → GetWork g} {c N : Nat} {w : BitVec (g.kRxBytes * 8)}
    (hσ : Trace (GetWork.step g) (line g.kBitTimeInClks frames) σ)
    (hq : Quiet (σ 0) c (N % g.kRxBytes) w) (hc : c ≤ g.kBitTimeInClks)
    (hclear : ClearFrom g.kBitTimeInClks c frames) :
    (∀ t, 0 < t → ((σ t).NewWork = true ↔ ∃ i, i < frames.length ∧ (N + i + 1) % g.kRxBytes = 0 ∧
        t = pulseClk g.kBitTimeInClks frames i)) ∧
      ∀ i, i < frames.length → (σ (pulseClk g.kBitTimeInClks frames i)).WorkData =
        (bytesBits (frames.take (i + 1))).foldl shiftIn w := by
  induction frames generalizing σ c N w with
  | nil =>
    refine ⟨fun t h0 => ?_, fun i hi => absurd hi (Nat.not_lt_zero i)⟩
    rw [silent_run hσ hq hc t h0]
    simp
  | cons f fs ih =>
    obtain ⟨gap, b⟩ := f
    obtain ⟨hq', hdata, hnew⟩ := frame_run hσ hK hq hc hclear.1
    have htail : Trace (GetWork.step g) (line g.kBitTimeInClks fs)
        fun t => σ (gap + 10 * g.kBitTimeInClks + t) := by
      have h := hσ.shift (gap + 10 * g.kBitTimeInClks)
      simp only [line_tail] at h
      exact h
    obtain ⟨ihnew, ihdata⟩ := ih htail hq' (by rw [restPhase]; omega) hclear.2
    constructor
    · intro t h0
      obtain hle | hgt := (Nat.lt_or_ge (gap + 10 * g.kBitTimeInClks) t).symm
      · rw [hnew t h0 hle]
        exact (pulse_first b fs hle).symm
      · obtain ⟨u, rfl⟩ := Nat.exists_eq_add_of_lt hgt
        rw [Nat.add_assoc _ u 1, ihnew (u + 1) (Nat.succ_pos u)]
        exact (pulse_later hK g.kRxBytes N (u + 1) gap b fs).symm
    · intro i hi
      cases i with
      | zero =>
        rw [pulseClk_cons_zero, hdata]
        simp [bytesBits]
      | succ i =>
        rw [pulseClk_cons_succ, ihdata i (by simpa using hi)]
        simp [bytesBits, List.foldl_append]

theorem shiftIn_getLsbD (w : BitVec n) (rx : Bool) (i : Nat) (hi : i < n) :
    (shiftIn w rx).getLsbD i = if i + 1 < n then w.getLsbD (i + 1) else rx := by
  simp only [shiftIn, BitVec.getLsbD_extractLsb', hi, decide_true, Bool.true_and,
    BitVec.getLsbD_cons, Nat.add_comm 1 i]
  obtain h | h := Nat.lt_or_ge (i + 1) n
  · rw [if_neg (by omega), if_pos h]
  · rw [if_pos (by omega), if_neg (by omega)]

theorem foldl_shiftIn_getLsbD (L : List Bool) (w : BitVec n) (i : Nat) (hi : i < n) :
    (L.foldl shiftIn w).getLsbD i =
      if i + L.length < n then w.getLsbD (i + L.length) else L.getD (i + L.length - n) true := by
  induction L generalizing w with
  | nil => simp [hi]
  | cons b L ih =>
    rw [List.foldl_cons, ih, List.length_cons]
    obtain h | h := Nat.lt_or_ge (i + L.length) n
    · rw [if_pos h, shiftIn_getLsbD w b _ h]
      obtain h' | h' := Nat.lt_or_ge (i + L.length + 1) n
      · rw [if_pos h', if_pos (by omega)]
        rfl
      · rw [if_neg (by omega), if_neg (by omega), show i + (L.length + 1) - n = 0 by omega]
        rfl
    · rw [if_neg (by omega), if_neg (by omega),
        show i + (L.length + 1) - n = i + L.length - n + 1 by omega, List.getD_cons_succ]

theorem bytesBits_length (frames : List (Nat × Byte)) :
    (bytesBits frames).length = 8 * frames.length := by
  induction frames with
  | nil => rfl
  | cons f fs ih =>
    rw [bytesBits, List.flatMap_cons, List.length_append, ← bytesBits, ih, List.length_cons]
    simp [bitsOf]
    omega

theorem bytesBits_getD (frames : List (Nat × Byte)) (q j : Nat) (hq : q < frames.length)
    (hj : j < 8) : (bytesBits frames).getD (8 * q + j) true = frames[q].2.getLsbD j := by
  induction frames generalizing q with
  | nil => exact absurd hq (Nat.not_lt_zero q)
  | cons f fs ih =>
    have hlen : (bitsOf f.2).length = 8 := by simp [bitsOf]
    rw [bytesBits, List.flatMap_cons, ← bytesBits]
    cases q with
    | zero =>
      rw [List.getD_append _ _ _ _ (by omega), List.getD_eq_getElem _ _ (by omega)]
      simp [bitsOf]
    | succ q =>
      rw [List.getD_append_right _ _ _ _ (by omega), hlen,
        show 8 * (q + 1) + j - 8 = 8 * q + j by omega, ih q (by simpa using hq)]
      rfl

theorem group_bytes (frames : List (Nat × Byte)) (w : BitVec (R * 8)) (hR : R ≤ frames.length)
    (b : Nat) (hb : b < R) :
    ((bytesBits frames).foldl shiftIn w).extractLsb' (8 * b) 8 =
      (frames.get ⟨frames.length - R + b, by omega⟩).2 := by
  apply BitVec.eq_of_getLsbD_eq
  intro j hj
  rw [BitVec.getLsbD_extractLsb', foldl_shiftIn_getLsbD _ _ _ (by omega), bytesBits_length,
    if_neg (by omega),
    show 8 * b + j + 8 * frames.length - R * 8 = 8 * (frames.length - R + b) + j by omega,
    bytesBits_getD _ _ _ (by omega) hj]
  simp [hj]

theorem leBytes_shifted (frames : List (Nat × Byte)) (w : BitVec (R * 8))
    (hR : R ≤ frames.length) :
    leBytes R ((bytesBits frames).foldl shiftIn w) =
      (frames.map Prod.snd).drop (frames.length - R) := by
  apply List.ext_getElem
  · simp only [leBytes_length, List.length_drop, List.length_map]
    omega
  · intro b hb hb'
    have hbR : b < R := by rwa [leBytes_length] at hb
    have hgroup := group_bytes frames w hR b hbR
    rw [List.get_eq_getElem] at hgroup
    simp only [leBytes, List.getElem_map, List.getElem_range, List.getElem_drop]
    rw [BitVec.setWidth_ushiftRight_eq_extractLsb]
    exact hgroup

/-- The gaps a sender must avoid: an idle time before a byte that lets its start
edge meet the free-running counter on its last count. -/
def ClearGaps (K : Nat) : List (Nat × Byte) → Prop
  | [] => True
  | (gap, _) :: fs => gap % (K + 1) ≠ K - 2 ∧ ∀ f ∈ fs, f.1 % (K + 1) ≠ K / 2 + 11

theorem add_mod_eq_last (K a gap : Nat) (ha : a ≤ K) :
    (a + gap) % (K + 1) = K ↔ gap % (K + 1) = K - a := by
  have hlt : gap % (K + 1) < K + 1 := Nat.mod_lt _ (Nat.succ_pos K)
  rw [← Nat.add_mod_mod]
  obtain h | h := Nat.lt_or_ge (a + gap % (K + 1)) (K + 1)
  · rw [Nat.mod_eq_of_lt h]
    omega
  · rw [Nat.mod_eq_sub_mod h, Nat.mod_eq_of_lt (by omega)]
    omega

theorem clearFrom_rest {K : Nat} (hK : 32 ≤ K) (fs : List (Nat × Byte))
    (h : ∀ f ∈ fs, f.1 % (K + 1) ≠ K / 2 + 11) : ClearFrom K (restPhase K) fs := by
  induction fs with
  | nil => trivial
  | cons f fs ih =>
    refine ⟨fun he => h f List.mem_cons_self ?_, ih fun f' hf => h f' (List.mem_cons_of_mem f hf)⟩
    rw [Nat.add_right_comm, add_mod_eq_last K _ _ (by rw [restPhase]; omega)] at he
    rw [he, restPhase]
    omega

theorem ClearGaps.clearFrom {K : Nat} (hK : 32 ≤ K) {frames : List (Nat × Byte)}
    (h : ClearGaps K frames) : ClearFrom K 0 frames := by
  match frames, h with
  | [], _ => trivial
  | (gap, b) :: fs, h =>
    refine ⟨fun he => h.1 ?_, clearFrom_rest hK fs h.2⟩
    rwa [Nat.add_right_comm, add_mod_eq_last K _ _ (by omega)] at he

theorem reset_quiet (g : Generics) :
    Quiet (GetWork.reset g) 0 (0 % g.kRxBytes) 0 where
  state := rfl
  restart := rfl
  count := rfl
  bytes := (Nat.zero_mod _).symm
  data := rfl
  high := rfl

theorem pulseClk_lt {K i j : Nat} (frames : List (Nat × Byte)) (hK : 0 < K) (h : i < j) :
    pulseClk K frames i < pulseClk K frames j := by
  have hsum : ((frames.take (i + 1)).map Prod.fst).sum ≤
      ((frames.take (j + 1)).map Prod.fst).sum := by
    obtain ⟨d, rfl⟩ := Nat.exists_eq_add_of_lt h
    rw [show i + d + 1 + 1 = i + 1 + (d + 1) by omega, List.take_add (i := i + 1),
      List.map_append, List.sum_append]
    exact Nat.le_add_right _ _
  have hmul : i * (10 * K) < j * (10 * K) := Nat.mul_lt_mul_of_pos_right h (by omega)
  rw [pulseClk, pulseClk]
  omega

theorem receiver_reconstructs (g : Generics) (hK : 32 ≤ g.kBitTimeInClks)
    (frames : List (Nat × Byte)) (hgaps : ClearGaps g.kBitTimeInClks frames) :
    let σ := run (GetWork.step g) (line g.kBitTimeInClks frames) (GetWork.reset g)
    let pulse := pulseClk g.kBitTimeInClks frames
    (∀ t, (σ t).NewWork = true ↔
      ∃ i, i < frames.length ∧ (i + 1) % g.kRxBytes = 0 ∧ t = pulse i) ∧
    (∀ i j, i < j → pulse i < pulse j) ∧
    ∀ i < frames.length, (i + 1) % g.kRxBytes = 0 → ∀ b < g.kRxBytes,
      (σ (pulse i)).WorkData.extractLsb' (8 * b) 8 =
        (frames.getD (i + 1 - g.kRxBytes + b) (0, 0)).2 := by
  intro σ pulse
  have hσ : Trace (GetWork.step g) (line g.kBitTimeInClks frames) σ := trace_run _ _ _
  obtain ⟨hnew, hdata⟩ := frames_run hK frames hσ (reset_quiet g) (Nat.zero_le _)
    (hgaps.clearFrom hK)
  refine ⟨fun t => ?_, fun i j => pulseClk_lt frames (by omega), fun i hi hm b hb => ?_⟩
  · cases t with
    | zero =>
      constructor
      · intro h
        exact absurd h Bool.false_ne_true
      · rintro ⟨i, -, -, h⟩
        simp only [pulse, pulseClk, doneClk] at h
        omega
    | succ t => simpa only [Nat.zero_add] using hnew (t + 1) (Nat.succ_pos t)
  · have hle : g.kRxBytes ≤ i + 1 := Nat.le_of_dvd (Nat.succ_pos i) (Nat.dvd_of_mod_eq_zero hm)
    have hlen : (frames.take (i + 1)).length = i + 1 := by
      rw [List.length_take]
      omega
    rw [hdata i hi, group_bytes _ _ (by omega) b hb, List.getD_eq_getElem _ _ (by omega)]
    simp [hlen]

theorem receiver_reconstructs_two_bytes :
    let g : Generics := ⟨32, 2, by decide, by decide⟩
    let frames : List (Nat × Byte) := [(0, 0x5a), (1, 0xc3)]
    let s := run (GetWork.step g) (line 32 frames) (GetWork.reset g) (pulseClk 32 frames 1)
    32 ≤ g.kBitTimeInClks ∧ ClearGaps g.kBitTimeInClks frames ∧ s.NewWork = true ∧
      s.WorkData.extractLsb' (8 * 0) 8 = 0x5a ∧ s.WorkData.extractLsb' (8 * 1) 8 = 0xc3 := by
  intro g frames s
  have hgaps : ClearGaps g.kBitTimeInClks frames := by
    simp [ClearGaps, frames, g]
  obtain ⟨hnew, -, hdata⟩ := receiver_reconstructs g (le_refl 32) frames hgaps
  exact ⟨le_refl 32, hgaps, (hnew _).mpr ⟨1, by decide, by decide, rfl⟩,
    hdata 1 (by decide) (by decide) 0 (by decide), hdata 1 (by decide) (by decide) 1 (by decide)⟩

/-- 30 idle clocks put the first start edge on the last count of the counter:
the byte 0x01 is taken in as 0x02. -/
theorem receiver_takes_start_bit :
    let g : Generics := ⟨32, 1, by decide, by decide⟩
    let σ := run (GetWork.step g) (line 32 [(30, 0x01)]) (GetWork.reset g)
    (σ 283).NewWork = true ∧ (σ 283).WorkData = 0x02 := by
  decide +kernel

end OspreyBlake2b.Rtl.Uart
