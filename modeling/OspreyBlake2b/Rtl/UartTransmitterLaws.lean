import OspreyBlake2b.Rtl.UartTransmitter
import OspreyBlake2b.Rtl.UartReceiverLaws
import OspreyBlake2b.Miner.WorkItem

/-! The reply path against an 8N1 reader whose cells are as long as the
transmitter's ticks are apart, which is one clock more than `kBitTimeInClks`. -/

namespace OspreyBlake2b.Rtl.Uart

open OspreyBlake2b.Lib OspreyBlake2b.Lib.Clocked

section Reading

variable {P : Nat} {b : Byte} {before : List (Option Byte)} {j i : Nat} {r : Reader}

def sampled (P j i : Nat) : Nat := if i ≤ P / 2 then j - 1 else j

def Reads (P : Nat) (b : Byte) (before : List (Option Byte)) (j i : Nat) (r : Reader) : Prop :=
  if j = 0 ∧ i = 0 then r.pos = none ∧ r.bytes = before
  else if 9 < j ∨ j = 9 ∧ P / 2 < i then r.pos = none ∧ r.bytes = before ++ [some b]
  else r.pos = some (j, i) ∧ r.bits = (List.range (sampled P j i)).map b.getLsbD ∧ r.bytes = before

theorem byteOfBits_range (b : Byte) : byteOfBits ((List.range 8).map b.getLsbD) = b := by
  revert b
  decide +kernel

theorem Reads.start (h : r.pos = none) : Reads P b r.bytes 0 0 r := by
  rw [Reads, if_pos ⟨rfl, rfl⟩]
  exact ⟨h, rfl⟩

theorem Reads.finish (h : Reads P b before 10 0 r) : r.pos = none ∧ r.bytes = before ++ [some b] := by
  rwa [Reads, if_neg (by omega), if_pos (by omega)] at h

theorem Reads.bytes_or (h : Reads P b before j i r) :
    r.bytes = before ∨ r.bytes = before ++ [some b] := by
  rw [Reads] at h
  split at h
  · exact .inl h.2
  · split at h
    · exact .inr h.2
    · exact .inl h.2.2

theorem Reads.of_read (h9 : 9 < j ∨ j = 9 ∧ P / 2 < i) (hpos : r.pos = none)
    (hbytes : r.bytes = before ++ [some b]) : Reads P b before j i r := by
  rw [Reads, if_neg (by omega), if_pos h9]
  exact ⟨hpos, hbytes⟩

theorem Reads.of_open (h0 : ¬ (j = 0 ∧ i = 0)) (h9 : ¬ (9 < j ∨ j = 9 ∧ P / 2 < i))
    (hpos : r.pos = some (j, i)) (hbits : r.bits = (List.range (sampled P j i)).map b.getLsbD)
    (hbytes : r.bytes = before) : Reads P b before j i r := by
  rw [Reads, if_neg h0, if_neg h9]
  exact ⟨hpos, hbits, hbytes⟩

theorem advance_cases (P j i : Nat) :
    i + 1 = P ∧ advance P j i = (j + 1, 0) ∨ i + 1 ≠ P ∧ advance P j i = (j, i + 1) := by
  rw [advance]
  split
  · exact .inl ⟨‹_›, rfl⟩
  · exact .inr ⟨‹_›, rfl⟩

theorem sampled_advance (hP : 2 ≤ P) (hm : i ≠ P / 2) :
    sampled P (advance P j i).1 (advance P j i).2 = sampled P j i := by
  simp only [sampled]
  obtain ⟨h, heq⟩ | ⟨h, heq⟩ := advance_cases P j i <;> rw [heq] <;> grind

theorem sampled_middle (P j : Nat) :
    sampled P (advance P j (P / 2)).1 (advance P j (P / 2)).2 = j := by
  simp only [sampled]
  obtain ⟨h, heq⟩ | ⟨h, heq⟩ := advance_cases P j (P / 2) <;> rw [heq] <;> grind

/-- In the middle of a cell the reader samples it: the start cell is still low there, a data
cell adds its bit, the stop cell ends the byte. -/
theorem Reads.sample (hP : 2 ≤ P) (hj : j ≤ 9) (hpos : r.pos = some (j, P / 2))
    (hbits : r.bits = (List.range (sampled P j (P / 2))).map b.getLsbD) (hbytes : r.bytes = before) :
    Reads P b before (advance P j (P / 2)).1 (advance P j (P / 2)).2 (r.step P (cell b j)) := by
  have hadv := advance_cases P j (P / 2)
  obtain rfl | hj0 := Nat.eq_zero_or_pos j
  · have hstep : r.step P (cell b 0) = { r with pos := some (advance P 0 (P / 2)) } := by
      simp [Reader.step, hpos, cell]
    rw [hstep]
    refine Reads.of_open (by grind) (by grind) rfl ?_ hbytes
    rw [sampled_middle P 0]
    simpa [sampled] using hbits
  obtain hj8 | rfl : j ≤ 8 ∨ j = 9 := by omega
  · have hcell : cell b j = b.getLsbD (j - 1) := by
      obtain ⟨k, rfl⟩ := Nat.exists_eq_add_of_le' hj0
      rw [cell, if_pos (by omega), Nat.add_sub_cancel]
    have hstep : r.step P (cell b j) =
        { r with pos := some (advance P j (P / 2)), bits := r.bits ++ [b.getLsbD (j - 1)] } := by
      simp [Reader.step, hpos, hcell, hj8, Nat.ne_of_gt hj0]
    rw [hstep]
    refine Reads.of_open (by grind) (by grind) rfl ?_ hbytes
    have hone : sampled P j (P / 2) = j - 1 := if_pos (Nat.le_refl _)
    rw [sampled_middle P j]
    conv_rhs => rw [show j = j - 1 + 1 by omega, List.range_succ, List.map_append]
    rw [hbits, hone]
    rfl
  · have hnine : sampled P 9 (P / 2) = 8 := if_pos (Nat.le_refl _)
    have hstep : r.step P (cell b 9) = ⟨none, [], r.bytes ++ [some b]⟩ := by
      simp [Reader.step, hpos, cell, hbits, hnine, byteOfBits_range]
    rw [hstep]
    exact Reads.of_read (by grind) rfl (by rw [hbytes])

theorem Reads.step (h : Reads P b before j i r) (hP : 2 ≤ P) (hj : j ≤ 9) (hi : i < P) :
    Reads P b before (advance P j i).1 (advance P j i).2 (r.step P (cell b j)) := by
  have hadv := advance_cases P j i
  by_cases h0 : j = 0 ∧ i = 0
  · obtain ⟨rfl, rfl⟩ := h0
    obtain ⟨hpos, hbytes⟩ : r.pos = none ∧ r.bytes = before := by
      rwa [Reads, if_pos ⟨rfl, rfl⟩] at h
    have hstep : r.step P (cell b 0) = { r with pos := some (advance P 0 0), bits := [] } := by
      simp [Reader.step, hpos, cell]
    rw [hstep]
    refine Reads.of_open (by grind) (by grind) rfl ?_ hbytes
    rw [sampled_advance hP (by omega), sampled, if_pos (by omega)]
    rfl
  by_cases h9 : 9 < j ∨ j = 9 ∧ P / 2 < i
  · obtain ⟨hpos, hbytes⟩ : r.pos = none ∧ r.bytes = before ++ [some b] := by
      rwa [Reads, if_neg h0, if_pos h9] at h
    have hstep : r.step P (cell b j) = r := by
      rw [show j = 9 by omega]
      simp [Reader.step, hpos, cell]
    rw [hstep]
    exact Reads.of_read (by grind) hpos hbytes
  obtain ⟨hpos, hbits, hbytes⟩ :
      r.pos = some (j, i) ∧ r.bits = (List.range (sampled P j i)).map b.getLsbD ∧
        r.bytes = before := by
    rwa [Reads, if_neg h0, if_neg h9] at h
  by_cases hm : i = P / 2
  · subst hm
    exact Reads.sample hP hj hpos hbits hbytes
  · have hstep : r.step P (cell b j) = { r with pos := some (advance P j i) } := by
      simp [Reader.step, hpos, hm]
    rw [hstep]
    refine Reads.of_open (by grind) (by grind) rfl ?_ hbytes
    rw [sampled_advance hP hm]
    exact hbits

end Reading

section Sending

def baudAt (K i : Nat) : TxBaudGen := if i = K then ⟨true, 0⟩ else ⟨false, i + 1⟩

theorem baudAt_step {K i : Nat} (hK : 0 < K) :
    (baudAt K i).step K = baudAt K (if i = K then 0 else i + 1) := by
  simp only [baudAt, TxBaudGen.step]
  grind

theorem baud_step_of_tick {K : Nat} {baud : TxBaudGen} (hK : 0 < K) (h : baud.txClkCount = 0) : baud.step K = baudAt K 0 := by
  simp [baudAt, TxBaudGen.step, h, hK.ne]

theorem stopDataStart_getLsbD (b : Byte) (i : Fin 10) :
    (stopDataStart b).getLsbD i = cell b i := by
  revert b i
  decide +kernel

theorem cell_stop {b : Byte} {j : Nat} (h : 9 ≤ j) : cell b j = true := by
  obtain ⟨k, rfl⟩ := Nat.exists_eq_add_of_le' (show 1 ≤ j by omega)
  rw [cell, if_neg (by omega)]

/-- The transmitter and the reader of its line when the bytes `F` have been handed
over: what has been read, then what is on the line, then what is still in
`resultLcl`. -/
inductive Link {m : Nat} (K : Nat) (F : List Byte) : TxBaudGen → Transmitter m → Reader → Prop
  | idle {res c} : r.pos = none → r.bytes = F.map some →
      Link K F baud ⟨BitVec.allOnes 10, res, .Idle, c, 0⟩ r
  | load {res c} : c < m → r.pos = none →
      r.bytes ++ (leBytes (m - c) res).map some = F.map some →
      Link K F baud ⟨BitVec.allOnes 10, res, .LoadByte, c, 0⟩ r
  | shift {res c} {out : BitVec 10} {b before j i} : j ≤ 9 → i ≤ K → c ≤ m →
      (∀ k < 10, out.getLsbD k = cell b (j + k)) → Reads (K + 1) b before j i r →
      before ++ some b :: (leBytes (m - c) res).map some = F.map some →
      Link K F (baudAt K i) ⟨out, res, .ShiftOut, c, j + 1⟩ r

variable {K m : Nat} {F : List Byte} {baud : TxBaudGen} {tx : Transmitter m} {r : Reader}

theorem Link.bytes_sent (h : Link K F baud tx r) : r.bytes <+: F.map some := by
  cases h with
  | idle _ hF => rw [hF]
  | load _ _ hF => exact ⟨_, hF⟩
  | shift _ _ _ _ hreads hF =>
    rw [← hF]
    obtain h | h := hreads.bytes_or <;> rw [h]
    · exact List.prefix_append _ _
    · exact ⟨_, by rw [List.append_assoc]; rfl⟩

theorem Link.bytes_eq (h : Link K F baud tx r) (hidle : tx.txState = .Idle) :
    r.bytes = F.map some := by
  cases h with
  | idle _ hF => exact hF
  | load => cases hidle
  | shift => cases hidle

theorem Reader.step_high (hr : r.pos = none) (P : Nat) : r.step P true = r := by
  simp [Reader.step, hr]

theorem shiftIn_cells {out : BitVec 10} {b : Byte} {j : Nat}
    (hout : ∀ k < 10, out.getLsbD k = cell b (j + k)) :
    ∀ k < 10, (shiftIn out true).getLsbD k = cell b (j + 1 + k) := by
  intro k hk
  rw [shiftIn_getLsbD _ _ _ hk]
  split
  · rw [hout _ ‹_›, Nat.add_assoc, Nat.add_comm 1]
  · rw [cell_stop (by omega)]

theorem shiftIn_stop {out : BitVec 10} {b : Byte}
    (hout : ∀ k < 10, out.getLsbD k = cell b (9 + k)) : shiftIn out true = BitVec.allOnes 10 := by
  apply BitVec.eq_of_getLsbD_eq
  intro k hk
  rw [shiftIn_cells hout k hk, cell_stop (by omega), BitVec.getLsbD_allOnes, decide_eq_true hk]

/-- The tick that ends cell `j`: the next cell comes out, and after the stop cell the next
byte or the idle line. -/
theorem Link.next_cell {res : BitVec (m * 8)} {out : BitVec 10} {b : Byte}
    {before : List (Option Byte)} {c j : Nat} (hj : j ≤ 9) (hc : c ≤ m)
    (hout : ∀ k < 10, out.getLsbD k = cell b (j + k)) (hreads : Reads (K + 1) b before (j + 1) 0 r)
    (hF : before ++ some b :: (leBytes (m - c) res).map some = F.map some)
    (success : Bool) (data : BitVec (m * 8)) :
    Link K F (baudAt K 0)
      ((⟨out, res, .ShiftOut, c, j + 1⟩ : Transmitter m).step true success data) r := by
  obtain hj' | rfl : j < 9 ∨ j = 9 := by omega
  · have hshift := Link.shift hj' (Nat.zero_le K) hc (shiftIn_cells hout) hreads hF
    simpa [Transmitter.step, hj'.ne] using hshift
  · obtain ⟨hpos, hbytes⟩ := hreads.finish
    by_cases hmore : c < m
    · have hload : Link K F (baudAt K 0) ⟨BitVec.allOnes 10, res, .LoadByte, c, 0⟩ r :=
        Link.load hmore hpos (by rw [hbytes, ← hF, List.append_assoc, List.singleton_append])
      simpa [Transmitter.step, hmore, shiftIn_stop hout] using hload
    · have hidle : Link K F (baudAt K 0) (⟨BitVec.allOnes 10, res, .Idle, c, 0⟩ : Transmitter m) r :=
        Link.idle hpos (by rw [hbytes, ← hF, show m - c = 0 by omega]; rfl)
      simpa [Transmitter.step, hmore, shiftIn_stop hout] using hidle

theorem Link.step (h : Link K F baud tx r) (hK : 0 < K) (hm : 0 < m)
    (hbaud : baud.txBitTime = true → baud.txClkCount = 0) (success : Bool) (data : BitVec (m * 8)) :
    Link K (F ++ if tx.txState = .Idle ∧ success then leBytes m data else []) (baud.step K)
      (tx.step baud.txBitTime success data) (r.step (K + 1) tx.Tx) := by
  cases h with
  | idle hr hF =>
    have hline : r.step (K + 1) true = r := Reader.step_high hr _
    cases success with
    | false => simpa [Transmitter.step, Transmitter.Tx, hline] using Link.idle hr hF
    | true =>
      have hload : Link K (F ++ leBytes m data) (baud.step K)
          ⟨BitVec.allOnes 10, data, .LoadByte, 0, 0⟩ r :=
        Link.load hm hr (by rw [hF, List.map_append, Nat.sub_zero])
      simpa [Transmitter.step, Transmitter.Tx, hline] using hload
  | load hc hr hF =>
    have hline : r.step (K + 1) true = r := Reader.step_high hr _
    cases htick : baud.txBitTime with
    | false => simpa [Transmitter.step, Transmitter.Tx, hline] using Link.load hc hr hF
    | true =>
      rename_i res c
      have hbytes : r.bytes ++ some (res.setWidth 8) :: (leBytes (m - (c + 1)) (res >>> 8)).map some =
          F.map some := by
        rw [← hF, show m - c = m - (c + 1) + 1 by omega, leBytes_succ, List.map_cons]
      have hshift := Link.shift (m := m) (j := 0) (i := 0) (by omega) (Nat.zero_le K) hc
        (fun k hk => by rw [Nat.zero_add]; exact stopDataStart_getLsbD (res.setWidth 8) ⟨k, hk⟩)
        (Reads.start hr) hbytes
      rw [baud_step_of_tick hK (hbaud htick)]
      simpa [Transmitter.step, Transmitter.Tx, hline] using hshift
  | shift hj hi hc hout hreads hF =>
    rename_i res c out b before j i
    have hTx : out.getLsbD 0 = cell b j := hout 0 (by omega)
    have hnext := hreads.step (by omega) hj (by omega)
    rw [← hTx] at hnext
    rw [baudAt_step hK]
    by_cases hlast : i = K
    · subst hlast
      have hbit : (baudAt i i).txBitTime = true := by rw [baudAt, if_pos rfl]
      have hadv : advance (i + 1) j i = (j + 1, 0) := if_pos rfl
      rw [hadv] at hnext
      rw [if_pos rfl, hbit]
      simpa [Transmitter.Tx] using Link.next_cell hj hc hout hnext hF success data
    · have hbit : (baudAt K i).txBitTime = false := by rw [baudAt, if_neg hlast]
      have hadv : advance (K + 1) j i = (j, i + 1) := if_neg (by omega)
      rw [hadv] at hnext
      rw [if_neg hlast, hbit]
      have hshift := Link.shift hj (show i + 1 ≤ K by omega) hc hout hnext hF
      simpa [Transmitter.step, Transmitter.Tx] using hshift

def TxBaudGen.Runs (K : Nat) (b : TxBaudGen) : Prop :=
  b.txClkCount ≤ K ∧ (b.txBitTime = true → b.txClkCount = 0)

theorem TxBaudGen.Runs.step (h : TxBaudGen.Runs K baud) : TxBaudGen.Runs K (baud.step K) := by
  have hle := h.1
  rw [TxBaudGen.step]
  split
  · exact ⟨Nat.zero_le K, fun _ => rfl⟩
  · exact ⟨by simp only; omega, fun hb => by cases hb⟩

def Transmitter.ticks (s : Transmitter m) : Nat :=
  match s.txState with
  | .Idle => 0
  | .LoadByte => 11 * (m - s.txByteCount)
  | .ShiftOut => 11 * (m - s.txByteCount) + (11 - s.txBitCount)

def TxBaudGen.clks (K : Nat) (b : TxBaudGen) : Nat := if b.txBitTime then 1 else K + 2 - b.txClkCount

theorem TxBaudGen.clks_step (h : TxBaudGen.Runs K baud) (hbit : baud.txBitTime = false) :
    (baud.step K).clks K + 1 = baud.clks K := by
  have hle := h.1
  rw [TxBaudGen.step, TxBaudGen.clks, TxBaudGen.clks, hbit]
  split <;> grind

theorem TxBaudGen.clks_tick (hK : 0 < K) (h : TxBaudGen.Runs K baud)
    (hbit : baud.txBitTime = true) : (baud.step K).clks K = K + 1 ∧ baud.clks K = 1 := by
  have h0 := h.2 hbit
  simp [TxBaudGen.step, TxBaudGen.clks, hbit, h0, hK.ne]

/-- While a frame is out, the wait for the idle state gets shorter every clock. -/
theorem Link.wait_step (h : Link K F baud tx r) (hK : 0 < K) (hbaud : TxBaudGen.Runs K baud)
    (hbusy : tx.txState ≠ .Idle) (success : Bool) (data : BitVec (m * 8)) :
    (tx.step baud.txBitTime success data).ticks * (K + 2) + (baud.step K).clks K <
      tx.ticks * (K + 2) + baud.clks K := by
  cases hbit : baud.txBitTime with
  | false =>
    have hsame : tx.step false success data = tx := by
      cases h with
      | idle => exact absurd rfl hbusy
      | load => rfl
      | shift => rfl
    have hclks := TxBaudGen.clks_step hbaud hbit
    rw [hsame]
    omega
  | true =>
    obtain ⟨hnew, hold⟩ := TxBaudGen.clks_tick hK hbaud hbit
    have hless : (tx.step true success data).ticks + 1 ≤ tx.ticks := by
      cases h with
      | idle => exact absurd rfl hbusy
      | load hc =>
        simp only [Transmitter.step, Transmitter.ticks, if_true]
        omega
      | shift hj _ hc =>
        simp only [Transmitter.step, Transmitter.ticks, if_true]
        grind
    have hmul := Nat.mul_le_mul_right (K + 2) hless
    rw [Nat.add_mul, Nat.one_mul] at hmul
    omega

end Sending

section Alone

variable {K m : Nat} {baud : Nat → TxBaudGen} {tx : Nat → Transmitter m} {R : Nat → Reader}

def taken (tx : Nat → Transmitter m) (Success : Nat → Bool) (ResultData : Nat → BitVec (m * 8))
    (t : Nat) : Option (BitVec (m * 8)) :=
  if (tx t).txState = .Idle ∧ Success t then some (ResultData t) else none

theorem taken_run (hK : 0 < K) (hm : 0 < m) {Success : Nat → Bool}
    {ResultData : Nat → BitVec (m * 8)} (hbaud : ∀ t, baud (t + 1) = (baud t).step K)
    (htx : ∀ t, tx (t + 1) = (tx t).step (baud t).txBitTime (Success t) (ResultData t))
    (hR : Trace (Reader.step (K + 1)) (fun t => (tx t).Tx) R) (h0 : (baud 0).Runs K)
    (hlink : Link K [] (baud 0) (tx 0) (R 0)) (t : Nat) :
    Link K ((history (taken tx Success ResultData) t).flatMap (leBytes m)) (baud t) (tx t)
      (R t) := by
  have hruns (t : Nat) : (baud t).Runs K := by
    induction t with
    | zero => exact h0
    | succ t ih =>
      rw [hbaud t]
      exact ih.step
  induction t with
  | zero => exact hlink
  | succ t ih =>
    have hstep := ih.step hK hm (hruns t).2 (Success t) (ResultData t)
    have hover : (if (tx t).txState = .Idle ∧ Success t then leBytes m (ResultData t) else []) =
        (taken tx Success ResultData t).toList.flatMap (leBytes m) := by
      rw [taken]
      split <;> simp
    rw [hover] at hstep
    rw [history_succ, List.flatMap_append, htx t, hbaud t, hR t]
    exact hstep

end Alone

namespace UartTop

variable {g : Generics} {n : Nat} {s : UartTop g n}

def grant (s : UartTop g n) : Option (U64 × U64) :=
  if s.ArbValid then some (s.ArbNonce, s.ArbHash) else none

def frame (p : U64 × U64) : List Byte := leBytes kTxBytes (resultData p.1 p.2)

theorem idle_of_arbValid (h : s.ArbValid = true) : s.tx.txState = .Idle := by
  rw [ArbValid, ResultArb.GrantValid, ResultArb.select] at h
  split at h
  · rename_i hready
    exact of_decide_eq_true hready
  · cases h

theorem handed_over :
    (if s.tx.txState = .Idle ∧ s.ArbValid then leBytes kTxBytes s.ResultData else []) =
      s.grant.toList.flatMap frame := by
  cases h : s.ArbValid with
  | false => simp [grant, h]
  | true => simp [grant, h, idle_of_arbValid h, frame, ResultData]

theorem tx_step_of_grant {s' : UartTop g n} (htx : s.tx = s'.tx) (hbaud : s.txBaud = s'.txBaud)
    (hgrant : s.grant = s'.grant) :
    s.tx.step s.txBaud.txBitTime s.ArbValid s.ResultData =
      s'.tx.step s'.txBaud.txBitTime s'.ArbValid s'.ResultData := by
  rw [htx, hbaud]
  cases h : s.ArbValid <;> cases h' : s'.ArbValid <;> simp only [grant, h, h'] at hgrant
  · simp [Transmitter.step]
  · cases hgrant
  · cases hgrant
  · have hpair := Option.some.inj hgrant
    rw [ResultData, ResultData, (Prod.mk.inj hpair).1, (Prod.mk.inj hpair).2]

theorem frame_eq (nonce hash : U64) :
    frame (nonce, hash) = 0x01#8 :: (leBytes 8 nonce ++ leBytes 8 hash) := by
  have hflag : leBytes 17 (hash ++ nonce ++ 0x01#8) = leBytes 1 0x01#8 ++ leBytes 16 (hash ++ nonce) :=
    leBytes_append 1 16 (hash ++ nonce) 0x01#8
  have hpair : leBytes 16 (hash ++ nonce) = leBytes 8 nonce ++ leBytes 8 hash :=
    leBytes_append 8 8 hash nonce
  change leBytes 17 (hash ++ nonce ++ 0x01#8) = _
  rw [hflag, hpair]
  rfl

theorem frame_parses (nonce hash : U64) :
    Miner.parseResult (frame (nonce, hash)) = some ⟨true, nonce, hash⟩ := by
  have hn : leWord 64 (leBytes 8 nonce) = nonce := leWord_leBytes 8 nonce
  have hh : leWord 64 (leBytes 8 hash) = hash := leWord_leBytes 8 hash
  have htake : (leBytes 8 hash).take 8 = leBytes 8 hash := List.take_of_length_le (by simp)
  rw [frame_eq]
  simp [Miner.parseResult, List.drop_append, htake, hn, hh]

variable {input input' : Nat → TopIn n} {σ σ' : Nat → UartTop g n} {R : Nat → Reader}

theorem tx_run (hσ : Trace (UartTop.step g) input σ) (hσ' : Trace (UartTop.step g) input' σ')
    (htx : (σ 0).tx = (σ' 0).tx) (hbaud : (σ 0).txBaud = (σ' 0).txBaud)
    (hgrant : ∀ t, (σ t).grant = (σ' t).grant) (t : Nat) :
    (σ t).tx = (σ' t).tx ∧ (σ t).txBaud = (σ' t).txBaud := by
  induction t with
  | zero => exact ⟨htx, hbaud⟩
  | succ t ih =>
    rw [hσ t, hσ' t]
    constructor
    · exact tx_step_of_grant ih.1 ih.2 (hgrant t)
    · simp only [UartTop.step, ih.2]

theorem baud_runs (hσ : Trace (UartTop.step g) input σ)
    (h0 : (σ 0).txBaud.Runs g.kBitTimeInClks) (t : Nat) : (σ t).txBaud.Runs g.kBitTimeInClks := by
  induction t with
  | zero => exact h0
  | succ t ih =>
    rw [hσ t]
    exact ih.step

theorem link_run (hσ : Trace (UartTop.step g) input σ)
    (hR : Trace (Reader.step (g.kBitTimeInClks + 1)) (fun t => (σ t).Tx) R)
    (h0 : (σ 0).txBaud.Runs g.kBitTimeInClks)
    (hlink : Link g.kBitTimeInClks [] (σ 0).txBaud (σ 0).tx (R 0)) (t : Nat) :
    Link g.kBitTimeInClks ((history (fun c => (σ c).grant) t).flatMap frame) (σ t).txBaud (σ t).tx
      (R t) := by
  induction t with
  | zero => exact hlink
  | succ t ih =>
    have hstep := ih.step g.kBitTimeInClks_pos (by decide) (baud_runs hσ h0 t).2 (σ t).ArbValid
      (σ t).ResultData
    rw [handed_over] at hstep
    rw [history_succ, List.flatMap_append, hσ t, hR t]
    exact hstep

theorem idle_again (hσ : Trace (UartTop.step g) input σ)
    (h0 : (σ 0).txBaud.Runs g.kBitTimeInClks)
    (hlink : ∀ t, ∃ F r, Link g.kBitTimeInClks F (σ t).txBaud (σ t).tx r) (t : Nat) :
    ∃ t', t ≤ t' ∧ (σ t').tx.txState = .Idle := by
  -- On the wait, which every clock outside the idle state shortens.
  induction hw : (σ t).tx.ticks * (g.kBitTimeInClks + 2) + (σ t).txBaud.clks g.kBitTimeInClks
    using Nat.strong_induction_on generalizing t with
  | _ w ih =>
    by_cases hidle : (σ t).tx.txState = .Idle
    · exact ⟨t, le_refl t, hidle⟩
    · obtain ⟨F, r, hl⟩ := hlink t
      have hless := hl.wait_step g.kBitTimeInClks_pos (baud_runs hσ h0 t) hidle (σ t).ArbValid
        (σ t).ResultData
      have hnext : (σ (t + 1)).tx.ticks * (g.kBitTimeInClks + 2) +
          (σ (t + 1)).txBaud.clks g.kBitTimeInClks < w := by
        rw [← hw, hσ t]
        exact hless
      obtain ⟨t', hle, hidle'⟩ := ih _ hnext (t + 1) rfl
      exact ⟨t', by omega, hidle'⟩

end UartTop

open UartTop in
/-- At every time the bytes read are a first part of the frames granted, and again
and again they are all of them; each frame is 17 bytes that parse to its pair; and
the line depends on nothing but the grants. -/
theorem reply_path_delivers (g : Generics) (Nonce Hash : Fin (n + 1) → U64)
    (input : Nat → TopIn n) :
    let σ := run (UartTop.step g) input (UartTop.reset g Nonce Hash)
    let R := run (Reader.step (g.kBitTimeInClks + 1)) (fun t => (σ t).Tx) Reader.init
    let sent t := ((history (fun c => (σ c).grant) t).flatMap frame).map some
    (∀ t, (R t).bytes <+: sent t ∧ ∃ t', t ≤ t' ∧ (R t').bytes = sent t') ∧
      (∀ nonce hash, (frame (nonce, hash)).length = 17 ∧
        Miner.parseResult (frame (nonce, hash)) = some ⟨true, nonce, hash⟩) ∧
      ∀ (Nonce' Hash' : Fin (n + 1) → U64) (input' : Nat → TopIn n),
        let σ' := run (UartTop.step g) input' (UartTop.reset g Nonce' Hash')
        (∀ t, (σ t).grant = (σ' t).grant) → ∀ t, (σ t).Tx = (σ' t).Tx := by
  intro σ R sent
  have hσ : Trace (UartTop.step g) input σ := trace_run _ _ _
  have h0 : (σ 0).txBaud.Runs g.kBitTimeInClks := ⟨Nat.zero_le _, fun h => by cases h⟩
  have hlink := link_run hσ (trace_run _ _ _ : Trace _ _ R) h0 (Link.idle rfl rfl)
  refine ⟨fun t => ⟨(hlink t).bytes_sent, ?_⟩, fun nonce hash => ⟨leBytes_length _ _,
    frame_parses nonce hash⟩, ?_⟩
  · obtain ⟨t', hle, hidle⟩ := idle_again hσ h0 (fun t => ⟨_, _, hlink t⟩) t
    exact ⟨t', hle, (hlink t').bytes_eq hidle⟩
  · intro Nonce' Hash' input' σ' hgrant t
    have htx := (tx_run hσ (trace_run _ _ _ : Trace _ input' σ') rfl rfl hgrant t).1
    rw [UartTop.Tx, UartTop.Tx, htx]

end OspreyBlake2b.Rtl.Uart
