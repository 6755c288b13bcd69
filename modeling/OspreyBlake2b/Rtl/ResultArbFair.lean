import OspreyBlake2b.Rtl.ResultArbLaws
import Mathlib.Algebra.Group.Fin.Basic
import Mathlib.Tactic.Abel

/-! No core waits for more than one grant of every other: the pointer walks round, and
a slot that stays full is never passed. -/

namespace OspreyBlake2b.Rtl

open OspreyBlake2b.Lib OspreyBlake2b.Lib.Clocked

namespace ResultArb

def ahead (s : ResultArb n) (k : Fin (n + 1)) : Nat := (k - s.RrPtr).val

theorem ahead_lt (s : ResultArb n) (k : Fin (n + 1)) : s.ahead k < n + 1 := (k - s.RrPtr).isLt

theorem val_sub_succ (r i : Fin (n + 1)) :
    (r - (i + 1)).val = if i.val < r.val then r.val - i.val - 1 else r.val + n - i.val := by
  have hr := r.isLt
  have hi := i.isLt
  have hsucc : (i + 1).val = if i.val = n then 0 else i.val + 1 := by
    rw [Fin.val_add_one]
    simp [Fin.ext_iff]
  rw [Fin.sub_def, hsucc]
  dsimp only
  split_ifs with hlast hlt hlt
  · omega
  · rw [Nat.mod_eq_sub_mod (by omega), Nat.mod_eq_of_lt (by omega)]
    omega
  · rw [Nat.mod_eq_sub_mod (by omega), Nat.mod_eq_of_lt (by omega)]
    omega
  · rw [Nat.mod_eq_of_lt (by omega)]
    omega

@[simp] theorem ahead_walk (s : ResultArb n) (i : Fin (n + 1)) : s.ahead (s.RrPtr + i) = i.val := by
  rw [ahead, add_sub_cancel_left]

theorem walk_ahead (s : ResultArb n) (k : Fin (n + 1)) : s.RrPtr + (k - s.RrPtr) = k :=
  add_sub_cancel s.RrPtr k

theorem ahead_inj {s : ResultArb n} {j k : Fin (n + 1)} (h : s.ahead j = s.ahead k) : j = k := by
  have hsub : j - s.RrPtr = k - s.RrPtr := Fin.ext h
  rw [← walk_ahead s j, hsub, walk_ahead]

theorem select_eq_some_iff {s : ResultArb n} {ready : Bool} {g : Fin (n + 1)} :
    s.select ready = some g ↔
      ready = true ∧ s.Vld g = true ∧ ∀ k, s.ahead k < s.ahead g → s.Vld k = false := by
  rw [select]
  cases ready with
  | false => simp
  | true =>
    simp only [if_true, Option.map_eq_some_iff, List.find?_eq_some_iff_getElem, true_and]
    constructor
    · rintro ⟨i, ⟨hvld, idx, hlen, rfl, hbefore⟩, rfl⟩
      refine ⟨hvld, fun k hk => ?_⟩
      rw [ahead_walk, List.getElem_finRange] at hk
      have hpassed := hbefore (s.ahead k) hk
      rw [List.getElem_finRange] at hpassed
      have hwalk := walk_ahead s k
      simpa [ahead, hwalk] using hpassed
    · rintro ⟨hvld, hbefore⟩
      refine ⟨g - s.RrPtr, ⟨by rwa [walk_ahead], s.ahead g, ?_, ?_, ?_⟩,
        walk_ahead s g⟩
      · rw [List.length_finRange]
        exact s.ahead_lt g
      · simp [ahead]
      · intro j hj
        have hpassed := hbefore (s.RrPtr + ⟨j, hj.trans (s.ahead_lt g)⟩) (by rwa [ahead_walk])
        simpa using hpassed

theorem ahead_le_of_grant {s : ResultArb n} {ready : Bool} {g k : Fin (n + 1)}
    (h : s.Grant ready g = true) (hk : s.Vld k = true) : s.ahead g ≤ s.ahead k := by
  obtain ⟨-, -, hbefore⟩ := select_eq_some_iff.mp (grant_iff.mp h)
  rw [← Nat.not_lt]
  intro hlt
  rw [hbefore k hlt] at hk
  cases hk

theorem ahead_step {s : ResultArb n} {i : ArbIn n} {g : Fin (n + 1)}
    (h : s.Grant i.ResultReady g = true) (k : Fin (n + 1)) :
    (step i s).ahead k =
      if s.ahead g < s.ahead k then s.ahead k - s.ahead g - 1 else s.ahead k + n - s.ahead g := by
  have hvalid : s.GrantValid i.ResultReady = true := (of_decide_eq_true h).1
  have hptr : (step i s).RrPtr = g + 1 := by
    rw [step, hvalid, grantIdx_of_grant h]
    rfl
  have hshift : k - (g + 1) = (k - s.RrPtr) - ((g - s.RrPtr) + 1) := by
    abel
  rw [ahead, hptr, hshift, val_sub_succ]
  rfl

theorem ahead_step_idle {s : ResultArb n} {i : ArbIn n} (h : s.GrantValid i.ResultReady = false)
    (k : Fin (n + 1)) : (step i s).ahead k = s.ahead k := by
  rw [ahead, ahead, step, h]
  rfl

theorem vld_step {s : ResultArb n} {i : ArbIn n} {k : Fin (n + 1)} (hk : s.Vld k = true)
    (h : s.Grant i.ResultReady k = false) : (step i s).Vld k = true := by
  simp [step, captures, hk, h]

theorem grant_exists {s : ResultArb n} {k : Fin (n + 1)} (hk : s.Vld k = true) :
    ∃ g, s.Vld g = true ∧ s.Grant true g = true ∧ ∀ j, s.Grant true j = true → j = g := by
  have hsome : (s.select true).isSome = true := by
    rw [select, if_pos rfl, Option.isSome_map, List.find?_isSome]
    exact ⟨k - s.RrPtr, List.mem_finRange _, by rwa [walk_ahead]⟩
  obtain ⟨g, hg⟩ := Option.isSome_iff_exists.mp hsome
  refine ⟨g, vld_of_select hg, grant_iff.mpr hg, fun j hj => ?_⟩
  rw [grant_iff, hg] at hj
  exact (Option.some_inj.mp hj).symm

end ResultArb

section Windows

variable (input : Nat → ArbIn n) (σ : Nat → ResultArb n)

def grantsTo (j : Fin (n + 1)) (len : Nat) : Nat :=
  (List.range len).countP fun c => (σ c).Grant (input c).ResultReady j

def grantsIn (len : Nat) : Nat :=
  (List.range len).countP fun c => (σ c).GrantValid (input c).ResultReady

theorem grantsTo_succ (j : Fin (n + 1)) (len : Nat) :
    grantsTo input σ j (len + 1) =
      grantsTo input σ j len + if (σ len).Grant (input len).ResultReady j then 1 else 0 := by
  simp [grantsTo, List.range_succ, List.countP_singleton]

theorem grantsIn_succ (len : Nat) :
    grantsIn input σ (len + 1) =
      grantsIn input σ len + if (σ len).GrantValid (input len).ResultReady then 1 else 0 := by
  simp [grantsIn, List.range_succ, List.countP_singleton]

/-- Core `k` has had a result in its slot for `len` cycles: every grant brings the pointer
nearer, and a core that has had one is behind `k`. -/
structure Waiting (k : Fin (n + 1)) (len : Nat) : Prop where
  full : (σ len).Vld k = true
  nearer : grantsIn input σ len + (σ len).ahead k ≤ (σ 0).ahead k
  once : ∀ j, grantsTo input σ j len ≤ 1
  behind : ∀ j, (σ len).ahead j < (σ len).ahead k → grantsTo input σ j len = 0

variable {input σ}

theorem Waiting.idle (h : Trace ResultArb.step input σ) {k : Fin (n + 1)} {len : Nat}
    (hwait : Waiting input σ k len) (hfull : (σ (len + 1)).Vld k = true)
    (hvalid : (σ len).GrantValid (input len).ResultReady = false) :
    Waiting input σ k (len + 1) := by
  have hahead (j : Fin (n + 1)) : (σ (len + 1)).ahead j = (σ len).ahead j := by
    rw [h len]
    exact ResultArb.ahead_step_idle hvalid j
  have hsame (j : Fin (n + 1)) : grantsTo input σ j (len + 1) = grantsTo input σ j len := by
    simp [grantsTo_succ, ResultArb.Grant, hvalid]
  refine ⟨hfull, ?_, fun j => ?_, fun j hj => ?_⟩
  · simpa [grantsIn_succ, hvalid, hahead] using hwait.nearer
  · rw [hsame]
    exact hwait.once j
  · rw [hahead, hahead] at hj
    rw [hsame]
    exact hwait.behind j hj

theorem Waiting.granted (h : Trace ResultArb.step input σ) {k g : Fin (n + 1)} {len : Nat}
    (hwait : Waiting input σ k len) (hfull : (σ (len + 1)).Vld k = true) (hne : g ≠ k)
    (hg : (σ len).Grant (input len).ResultReady g = true) : Waiting input σ k (len + 1) := by
  have hvalid : (σ len).GrantValid (input len).ResultReady = true := (of_decide_eq_true hg).1
  have hgrant (j : Fin (n + 1)) : (σ len).Grant (input len).ResultReady j = true ↔ j = g :=
    ⟨fun hj => (ResultArb.grantIdx_of_grant hj).symm.trans (ResultArb.grantIdx_of_grant hg),
      fun hj => hj ▸ hg⟩
  have hlt : (σ len).ahead g < (σ len).ahead k :=
    Nat.lt_of_le_of_ne (ResultArb.ahead_le_of_grant hg hwait.full)
      fun heq => hne (ResultArb.ahead_inj heq)
  have hahead (j : Fin (n + 1)) := ResultArb.ahead_step hg j
  rw [← h len] at hahead
  have hkn := (σ len).ahead_lt k
  have hnearer := hwait.nearer
  refine ⟨hfull, ?_, fun j => ?_, fun j hj => ?_⟩
  · rw [grantsIn_succ, if_pos hvalid, hahead, if_pos hlt]
    omega
  · rw [grantsTo_succ]
    split_ifs with hj
    · rw [(hgrant j).mp hj, hwait.behind g hlt]
    · exact hwait.once j
  · rw [hahead, hahead, if_pos hlt] at hj
    have hjn := (σ len).ahead_lt j
    have hjk : (σ len).ahead j < (σ len).ahead k ∧ (σ len).ahead j ≠ (σ len).ahead g := by
      split_ifs at hj <;> omega
    have hjg : j ≠ g := fun heq => hjk.2 (heq ▸ rfl)
    rw [grantsTo_succ, if_neg (mt (hgrant j).mp hjg), hwait.behind j hjk.1]

theorem Waiting.step (h : Trace ResultArb.step input σ) {k : Fin (n + 1)} {len : Nat}
    (hwait : Waiting input σ k len) (hno : (σ len).Grant (input len).ResultReady k = false) :
    Waiting input σ k (len + 1) := by
  have hfull : (σ (len + 1)).Vld k = true := by
    rw [h len]
    exact ResultArb.vld_step hwait.full hno
  cases hvalid : (σ len).GrantValid (input len).ResultReady with
  | false => exact hwait.idle h hfull hvalid
  | true =>
    obtain ⟨g, hg⟩ : ∃ g, (σ len).Grant (input len).ResultReady g = true :=
      ⟨_, decide_eq_true ⟨hvalid, rfl⟩⟩
    have hne : g ≠ k := by
      rintro rfl
      rw [hno] at hg
      cases hg
    exact hwait.granted h hfull hne hg

theorem waiting (h : Trace ResultArb.step input σ) {k : Fin (n + 1)} (hk : (σ 0).Vld k = true)
    {len : Nat} (hno : ∀ c < len, (σ c).Grant (input c).ResultReady k = false) :
    Waiting input σ k len := by
  induction len with
  | zero => exact ⟨hk, by simp [grantsIn], by simp [grantsTo], by simp [grantsTo]⟩
  | succ len ih =>
    exact (ih fun c hc => hno c (by omega)).step h (hno len (by omega))

end Windows

/-- For any number of cores and any inputs after reset: in a window of `len` cycles from `t`
that starts with core `k`'s slot full and never grants it, no core is granted twice and at
most `n` of the other `n` are granted at all. -/
theorem arbiter_fair (Nonce Hash : Fin (n + 1) → U64) (input : Nat → ArbIn n) (t : Nat) :
    let σ := run ResultArb.step input (ResultArb.reset Nonce Hash)
    (∀ k len, (σ t).Vld k = true →
        (∀ c < len, (σ (t + c)).Grant (input (t + c)).ResultReady k = false) →
        (∀ j, grantsTo (fun c => input (t + c)) (fun c => σ (t + c)) j len ≤ 1) ∧
          grantsIn (fun c => input (t + c)) (fun c => σ (t + c)) len ≤ n) ∧
      ((input t).ResultReady = true → (∃ k, (σ t).Vld k = true) →
        ∃ g, (σ t).Vld g = true ∧ (σ t).Grant (input t).ResultReady g = true ∧
          ∀ j, (σ t).Grant (input t).ResultReady j = true → j = g) := by
  intro σ
  have hσ : Trace ResultArb.step input σ := trace_run _ _ _
  constructor
  · intro k len hk hno
    have hwait := waiting (hσ.shift t) hk hno
    have hnearer := hwait.nearer
    have hlt := (σ (t + 0)).ahead_lt k
    exact ⟨hwait.once, by omega⟩
  · rintro hready ⟨k, hk⟩
    rw [hready]
    exact ResultArb.grant_exists hk

def busyPair : Nat → ArbIn 1 := fun _ => ⟨fun _ => true, fun _ => 0, fun _ => 0, true⟩

theorem arbiter_fair_pair :
    let σ := run ResultArb.step busyPair (ResultArb.reset (fun _ => 0) fun _ => 0)
    (∀ j, grantsTo (fun c => busyPair (1 + c)) (fun c => σ (1 + c)) j 1 ≤ 1) ∧
      grantsIn (fun c => busyPair (1 + c)) (fun c => σ (1 + c)) 1 ≤ 1 ∧
      ∃ g, (σ 1).Vld g = true ∧ (σ 1).Grant true g = true ∧
        ∀ j, (σ 1).Grant true j = true → j = g := by
  intro σ
  have hfair := arbiter_fair (fun _ => 0) (fun _ => 0) busyPair 1
  have hwindow := hfair.1 1 1 (by decide) (by decide)
  exact ⟨hwindow.1, hwindow.2, hfair.2 rfl ⟨0, by decide⟩⟩

end OspreyBlake2b.Rtl
