import OspreyBlake2b.Rtl.Board
import OspreyBlake2b.Rtl.HeldWork
import OspreyBlake2b.Rtl.ResultArbLaws
import OspreyBlake2b.Rtl.TopLaws
import OspreyBlake2b.Rtl.UartTransmitterLaws
import OspreyBlake2b.Rtl.WorkBroadcastLaws

namespace OspreyBlake2b.Rtl

open OspreyBlake2b.Lib OspreyBlake2b.Hash.Blake2b Clocked

def nonceDigest (B : Fin 10 → U64) (n : U64) : List Byte := blake2bNokey (headerBytes B n) 32

theorem stage4_word (B : Fin 10 → U64) (n : U64) :
    (digestWords B n).get stage4Tap.word = leWord 64 (digestSlice (nonceDigest B n) 24) := by
  rw [nonceDigest, show 24 = 8 * 3 from rfl, digestSlice_header B n 3 (by decide)]
  exact (leWord_leBytes 8 _).symm

theorem stage4_reported (B : Fin 10 → U64) (n : U64) :
    byteReverse ((digestWords B n).get stage4Tap.word) =
      beWord 64 (digestSlice (nonceDigest B n) 24) := by
  rw [byteReverse_eq, nonceDigest, show 24 = 8 * 3 from rfl, digestSlice_header B n 3 (by decide)]
  rfl

/-- A bypassed stage 3 leaves the stage-4 slots as they are, but for the nonce. -/
theorem stage4Msg_bypass (B : Fin 10 → U64) (s : Stage3 false) :
    Stage4Msg B (HashA false B s) = Function.update B 4 0 := by
  funext i
  fin_cases i <;> rfl

theorem nonceDigest_update (B : Fin 10 → U64) (w n : U64) :
    nonceDigest (Function.update B 4 w) n = nonceDigest B n := by
  have hwords : headerWords (Function.update B 4 w) n = headerWords B n := by
    rw [headerWords, headerWords]
    congr 1
    funext i
    by_cases hi : i = 4
    · rw [if_pos hi, if_pos hi]
    · rw [if_neg hi, if_neg hi, Function.update_of_ne hi]
  rw [nonceDigest, headerBytes, hwords, ← headerBytes, ← nonceDigest]

namespace Design

variable {n m : Nat}

theorem cores_le (d : Design n) : n + 1 ≤ 2 ^ 30 := by
  by_contra hlarge
  have hseed := d.seed_eq 0
  rw [no_seed (by omega)] at hseed
  cases hseed

/-- The designs there are: the groups need an even number of cores, the seeds one that the
loop of `ClogB2` can double its way up to. -/
theorem nonempty_iff : Nonempty (Design n) ↔ (n + 1) % 2 = 0 ∧ n + 1 ≤ 2 ^ 30 := by
  have hgroups := groups_in_range_iff n.succPNat
  rw [Nat.succPNat_coe, Nat.succ_eq_add_one] at hgroups
  constructor
  · rintro ⟨d⟩
    refine ⟨hgroups.mp ?_, d.cores_le⟩
    have hgroup := d.group_eq
    rw [elaborate] at hgroup
    split at hgroup
    · assumption
    · cases hgroup
  · rintro ⟨heven, hle⟩
    exact ⟨_, fun k => sliceNonce k (Nat.clog 2 (n + 1)) 0, dif_pos (hgroups.mpr heven),
      fun k => coreNonceSeed_eq hle k⟩

theorem seed_slice (d : Design n) (hn : n + 1 = 2 ^ m) (k : Fin (n + 1)) : d.seed k = sliceNonce k m 0 := by
  have hseed := d.seed_eq k
  have hclog : Nat.clog 2 (n + 1) = m := by rw [hn, Nat.clog_pow 2 m (by decide)]
  rw [coreNonceSeed_eq d.cores_le, hclog] at hseed
  exact (Option.some.inj hseed).symm

theorem slices_le (d : Design n) (hn : n + 1 = 2 ^ m) : m ≤ 30 :=
  (Nat.pow_le_pow_iff_right (by decide)).mp (hn ▸ d.cores_le)

theorem slice_nonce (d : Design n) (hn : n + 1 = 2 ^ m) (k : Fin (n + 1)) (a : Nat) :
    d.seed k + BitVec.ofNat 64 (a + 1) = BitVec.ofNat 64 (k * 2 ^ (64 - m) + a) := by
  rw [← sliceNonce_succ, d.seed_slice hn, sliceNonce, sliceNonce, BitVec.add_zero]

theorem covers (d : Design n) (hn : n + 1 = 2 ^ m) (v : U64) :
    ∃ k : Fin (n + 1), ∃ q, 1 ≤ q ∧ q ≤ 2 ^ (64 - m) ∧ d.seed k + BitVec.ofNat 64 q = v ∧
      ∀ (k' : Fin (n + 1)) (q' : Nat), 1 ≤ q' → q' ≤ 2 ^ (64 - m) →
        d.seed k' + BitVec.ofNat 64 q' = v → k' = k ∧ q' = q := by
  have hm : m ≤ 64 := (d.slices_le hn).trans (by decide)
  have hsplit : 2 ^ m * 2 ^ (64 - m) = 2 ^ 64 := by rw [← Nat.pow_add, Nat.add_sub_cancel' hm]
  have hk : v.toNat / 2 ^ (64 - m) < n + 1 := by
    rw [hn, Nat.div_lt_iff_lt_mul (Nat.two_pow_pos _), hsplit]
    exact v.isLt
  have ha := Nat.mod_lt v.toNat (Nat.two_pow_pos (64 - m))
  refine ⟨⟨v.toNat / 2 ^ (64 - m), hk⟩, v.toNat % 2 ^ (64 - m) + 1, by omega, ha, ?_, ?_⟩
  · rw [d.slice_nonce hn, Nat.div_add_mod', BitVec.ofNat_toNat, BitVec.setWidth_eq]
  · intro k' q' hpos hle hv
    obtain ⟨a, rfl⟩ := Nat.exists_eq_add_of_le' hpos
    have hlt : k' * 2 ^ (64 - m) + a < 2 ^ 64 := slice_lt hm (hn ▸ k'.isLt) hle
    rw [d.slice_nonce hn] at hv
    have hnat : v.toNat = k' * 2 ^ (64 - m) + a := by
      rw [← hv, BitVec.toNat_ofNat, Nat.mod_eq_of_lt hlt]
    constructor
    · apply Fin.ext
      show k'.val = v.toNat / 2 ^ (64 - m)
      rw [hnat, slice_div hle]
    · rw [hnat, Nat.mul_add_mod', Nat.mod_eq_of_lt hle]

end Design

namespace Board

variable {kBitTimeInClks : ℕ+} {n : Nat} {d : Design n} {aRx : Nat → Bool}
  {σ : Nat → Board kBitTimeInClks n}

theorem trace_work (hσ : Trace (Board.step d) aRx σ) :
    Trace (workStep d.group) (fun t => (σ t).workIn) fun t => (σ t).work := by
  intro t
  exact congrArg Board.work (hσ t)

theorem trace_core (hσ : Trace (Board.step d) aRx σ) (k : Fin (n + 1)) :
    Trace (Top.step (d.seed k)) (fun t => (σ t).topIn k) fun t => (σ t).core k := by
  intro t
  exact congrArg (fun s => s.core k) (hσ t)

theorem trace_uart (hσ : Trace (Board.step d) aRx σ) :
    Trace (Uart.UartTop.step _) (fun t => (σ t).uartIn (aRx t)) fun t => (σ t).uart := by
  intro t
  exact congrArg Board.uart (hσ t)

def header (W : BitVec kRxBits) : Fin 10 → U64 := Function.update (unpackStage4 W) 4 0

/-- Three registers lie between the held item and a core, and a fourth in front of
`Enable`. -/
theorem feeds (hσ : Trace (Board.step d) aRx σ) (k : Fin (n + 1)) :
    Feeds 3 (fun t => (σ t).NewWork) (fun t => (σ t).WorkData)
      (fun t => (σ t).work.WorkDataHeld) header unpackTarget
      fun t => ((σ t).core k).coreIn ((σ t).topIn k) := by
  have hwork (t : Nat) : (σ (t + 1)).work = workStep d.group (σ t).workIn (σ t).work :=
    trace_work hσ t
  have hthird (t : Nat) : (σ (t + 3)).work =
      workStep d.group (σ (t + 2)).workIn (workStep d.group (σ (t + 1)).workIn
        (workStep d.group (σ t).workIn (σ t).work)) := by
    rw [hwork (t + 2), hwork (t + 1), hwork t]
  have henable (t : Nat) : (σ (t + 1)).work.Enable = !(σ t).NewWork := by
    rw [hwork t]
    cases h : (σ t).NewWork <;> simp [workStep, Broadcast.step, workIn, h]
  constructor
  · intro t
    rw [hwork t]
    rfl
  · intro t
    rw [Top.coreIn, stage4Msg_bypass, topIn, hthird]
    rfl
  · intro t
    rw [Top.coreIn, topIn, hthird]
    rfl
  · intro t
    rw [← henable, Top.coreIn, topIn, hwork (t + 3), hwork (t + 2), hwork (t + 1)]
    rfl

def report (d : Design n) (W : BitVec kRxBits) (k : Fin (n + 1)) (q : Nat) : U64 × U64 :=
  let nonce := d.seed k + BitVec.ofNat 64 q
  (nonce, beWord 64 (digestSlice (nonceDigest (unpackStage4 W) nonce) 24))

def Solves (d : Design n) (W : BitVec kRxBits) (k : Fin (n + 1)) (q : Nat) : Prop :=
  leWord 64 (digestSlice (nonceDigest (unpackStage4 W) (d.seed k + BitVec.ofNat 64 q)) 24) <
    unpackTarget W

def arbIn (aRx : Nat → Bool) (σ : Nat → Board kBitTimeInClks n) (t : Nat) : ArbIn n :=
  (σ t).uart.arbIn ((σ t).uartIn (aRx t))

def arb (σ : Nat → Board kBitTimeInClks n) (t : Nat) : ResultArb n := (σ t).uart.arb

theorem trace_arb (hσ : Trace (Board.step d) aRx σ) :
    Trace ResultArb.step (arbIn aRx σ) (arb σ) := by
  intro t
  exact congrArg Uart.UartTop.arb (trace_uart hσ t)

/-- From any cycle on: the slot and what is captured are granted, but for the last. -/
theorem slot_history {input : Nat → ArbIn n} {ρ : Nat → ResultArb n} {k : Fin (n + 1)}
    (h : Trace ResultArb.step input ρ) (t : Nat) :
    (ρ 0).slot k ++ history (captured input ρ k) t =
      history (granted input ρ k) t ++ (ρ t).slot k := by
  induction t with
  | zero => rw [history_zero, history_zero, List.append_nil, List.nil_append]
  | succ t ih =>
    rw [history_succ, history_succ, ← List.append_assoc, ih, List.append_assoc, List.append_assoc,
      slot_step h]

theorem success_iff (d : Design n) (W : BitVec kRxBits) (k : Fin (n + 1)) (q : Nat) :
    stage4Tap.compared ((digestWords (header W) (d.seed k + BitVec.ofNat 64 q)).get stage4Tap.word) <
      unpackTarget W ↔ Solves d W k q := by
  rw [Solves, ← nonceDigest_update (unpackStage4 W) 0, ← header, ← stage4_word]
  rfl

theorem shows_iff {W : BitVec kRxBits} {k : Fin (n + 1)} {q : Nat} {s : Board kBitTimeInClks n}
    (h : Shows stage4Tap (header W) (unpackTarget W) (d.seed k + BitVec.ofNat 64 q)
      (s.core k).stage4) :
    ((s.core k).out.Success = true ↔ Solves d W k q) ∧
      ((s.core k).out.Success = true →
        ((s.core k).out.Nonce, (s.core k).out.HashTop64) = report d W k q) := by
  refine ⟨h.success.trans (success_iff d W k q), fun hs => (h.pair hs).trans ?_⟩
  rw [stage4_reported, header, nonceDigest_update]
  rfl

/-- From pulse `p` to clock `b` no later item has reached the cores. -/
abbrev ItemWorks (σ : Nat → Board kBitTimeInClks n) : Nat → Nat → Prop :=
  Works (fun t => (σ t).NewWork) 3

theorem shows (hσ : Trace (Board.step d) aRx σ) (k : Fin (n + 1)) {p q : Nat}
    (h : ItemWorks σ p (settledClk 3 p + q)) :
    let o := ((σ (settledClk 3 p + q)).core k).out
    (o.Success = true ↔ Solves d (σ p).WorkData k q) ∧
      (o.Success = true → (o.Nonce, o.HashTop64) = report d (σ p).WorkData k q) := by
  intro o
  apply shows_iff
  rw [← outcomeClk_eq] at h ⊢
  exact h.shows (feeds hσ k) (trace_stage4 (trace_core hσ k)) stage4Tap_wired

theorem captured_report (hσ : Trace (Board.step d) aRx σ) (k : Fin (n + 1)) {p q : Nat}
    (h : ItemWorks σ p (settledClk 3 p + q)) :
    captured (arbIn aRx σ) (arb σ) k (settledClk 3 p + q) =
      if (arb σ (settledClk 3 p + q)).captures (arbIn aRx σ (settledClk 3 p + q)) k then
        some (report d (σ p).WorkData k q) else none := by
  rw [captured]
  split
  · rename_i hcap
    exact congrArg some ((shows hσ k h).2 (of_decide_eq_true hcap).1)
  · rfl

/-- What core `k` gets granted in the `t` cycles after the pipelines have settled: first
what its slot held, then genuine reports, every one of them once and in order; and a
solution that is not among them found the slot full. -/
theorem grants (hσ : Trace (Board.step d) aRx σ) (k : Fin (n + 1)) {p t : Nat}
    (h : ItemWorks σ p (settledClk 3 p + t)) :
    let from_ := settledClk 3 p
    ∃ qs : List Nat, qs.Pairwise (· < ·) ∧ (∀ q ∈ qs, q < t ∧ Solves d (σ p).WorkData k q) ∧
      history (granted (fun c => arbIn aRx σ (from_ + c)) (fun c => arb σ (from_ + c)) k) t <+:
        (arb σ from_).slot k ++ qs.map (report d (σ p).WorkData k) ∧
      ∀ q < t, Solves d (σ p).WorkData k q → q ∈ qs ∨ (arb σ (from_ + q)).Vld k = true := by
  intro from_
  let caps (q : Nat) : Bool := (arb σ (from_ + q)).captures (arbIn aRx σ (from_ + q)) k
  have hworks (q : Nat) (hq : q ≤ t) : ItemWorks σ p (from_ + q) :=
    h.mono (Nat.add_le_add_left hq _)
  have hsucc (q : Nat) (hq : q ≤ t) : (arbIn aRx σ (from_ + q)).CoreSuccess k = true ↔
      Solves d (σ p).WorkData k q := (shows hσ k (hworks q hq)).1
  refine ⟨(List.range t).filter caps, List.Pairwise.filter _ List.pairwise_lt_range, ?_, ?_, ?_⟩
  · intro q hq
    obtain ⟨hlt, hcap⟩ := List.mem_filter.mp hq
    rw [List.mem_range] at hlt
    exact ⟨hlt, (hsucc q (Nat.le_of_lt hlt)).mp (of_decide_eq_true hcap).1⟩
  · have hslots := slot_history (k := k) ((trace_arb hσ).shift from_) t
    have hcaps : history (captured (fun c => arbIn aRx σ (from_ + c))
        (fun c => arb σ (from_ + c)) k) t =
        ((List.range t).filter caps).map (report d (σ p).WorkData k) := by
      rw [history, ← List.filterMap_eq_map, List.filterMap_filter]
      apply List.filterMap_congr
      intro q hq
      rw [List.mem_range] at hq
      exact captured_report hσ k (hworks q (Nat.le_of_lt hq))
    rw [hcaps] at hslots
    exact ⟨_, hslots.symm⟩
  · intro q hq hsolves
    by_cases hvld : (arb σ (from_ + q)).Vld k = true
    · exact .inr hvld
    · left
      rw [List.mem_filter, List.mem_range]
      refine ⟨hq, decide_eq_true ⟨(hsucc q (Nat.le_of_lt hq)).mpr hsolves, .inl ?_⟩⟩
      exact Bool.not_eq_true _ ▸ hvld

/-- Whatever the line carries: from the fourth clock after reset on, a core is silent for
want of an item, or still filling up with the last one, or shows how the next nonce of its
slice does on it. -/
theorem success_exact (hσ : Trace (Board.step d) aRx σ) (h0 : (σ 0).IsReset) (k : Fin (n + 1))
    (t : Nat) :
    let o := ((σ (t + 4)).core k).out
    ((∀ u < t, (σ u).NewWork = false) ∧ o.Success = false) ∨
      ∃ p < t, ItemWorks σ p (t + 4) ∧
        (t + 4 < settledClk 3 p ∨ ∃ q, t + 4 = settledClk 3 p + q ∧
          (o.Success = true ↔ Solves d (σ p).WorkData k q) ∧
          (o.Success = true → (o.Nonce, o.HashTop64) = report d (σ p).WorkData k q)) := by
  intro o
  have hzero : unpackTarget (σ 0).work.WorkDataHeld = 0 := by
    rw [h0.held]
    exact BitVec.extractLsb'_zero
  obtain hsilent | ⟨p, hp, hworks, hlt | ⟨q, hq, hshows⟩⟩ := (feeds hσ k).outcomes
    (trace_stage4 (trace_core hσ k)) stage4Tap_wired hzero t
  · exact .inl hsilent
  · exact .inr ⟨p, hp, hworks, .inl hlt⟩
  · exact .inr ⟨p, hp, hworks, .inr ⟨q, hq, shows_iff hshows⟩⟩

end Board

end OspreyBlake2b.Rtl
