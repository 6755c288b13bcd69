import OspreyBlake2b.Rtl.WorkBroadcast

namespace OspreyBlake2b.Rtl

open OspreyBlake2b.Lib

variable {kNumCores : ℕ+} {W S T : Type}

/-- A value with the cycle in which the item it comes from was on `WorkData`; none for
what the registers held before the first item. -/
abbrev Tagged (A : Type) := Option Nat × A

def tagIn (input : Nat → WorkIn W) (t : Nat) : WorkIn (Tagged W) :=
  ⟨(input t).NewWork, (some t, (input t).WorkData)⟩

def untag (s : Broadcast kNumCores (Tagged W) (Tagged S) (Tagged T)) : Broadcast kNumCores W S T where
  WorkDataHeld := s.WorkDataHeld.2
  Enable := s.Enable
  BcS4Tx g := (s.BcS4Tx g).2
  BcS4Rx g := (s.BcS4Rx g).2
  BcTgtTx g := (s.BcTgtTx g).2
  BcTgtRx g := (s.BcTgtRx g).2
  BcEnTx := s.BcEnTx
  BcEnRx := s.BcEnRx
  S4Reg k := (s.S4Reg k).2
  TgtReg k := (s.TgtReg k).2
  EnReg := s.EnReg

def tagInit (s : Broadcast kNumCores W S T) : Broadcast kNumCores (Tagged W) (Tagged S) (Tagged T) where
  WorkDataHeld := (none, s.WorkDataHeld)
  Enable := s.Enable
  BcS4Tx g := (none, s.BcS4Tx g)
  BcS4Rx g := (none, s.BcS4Rx g)
  BcTgtTx g := (none, s.BcTgtTx g)
  BcTgtRx g := (none, s.BcTgtRx g)
  BcEnTx := s.BcEnTx
  BcEnRx := s.BcEnRx
  S4Reg k := (none, s.S4Reg k)
  TgtReg k := (none, s.TgtReg k)
  EnReg := s.EnReg

section Run

variable (group : Fin kNumCores → Fin kNumGroups) (Stage4In : W → S) (TargetTop64 : W → T)
  (input : Nat → WorkIn W) (s₀ : Broadcast kNumCores W S T)

def tagged : Nat → Broadcast kNumCores (Tagged W) (Tagged S) (Tagged T) :=
  Clocked.run (Broadcast.step group (Prod.map id Stage4In) (Prod.map id TargetTop64)) (tagIn input)
    (tagInit s₀)

theorem untag_tagged (t : Nat) :
    untag (tagged group Stage4In TargetTop64 input s₀ t) =
      Clocked.run (Broadcast.step group Stage4In TargetTop64) input s₀ t := by
  induction t with
  | zero => rfl
  | succ t ih =>
    rw [Clocked.run_succ, ← ih, tagged, Clocked.run_succ]
    cases hpulse : (input t).NewWork <;> simp [untag, Broadcast.step, tagIn, hpulse]

def latched (input : Nat → WorkIn W) : Nat → Option Nat
  | 0 => none
  | t + 1 => if (input t).NewWork then some t else latched input t

theorem held_tag (t : Nat) :
    (tagged group Stage4In TargetTop64 input s₀ t).WorkDataHeld.1 = latched input t := by
  induction t with
  | zero => rfl
  | succ t ih =>
    rw [tagged, Clocked.run_succ, ← tagged]
    cases hpulse : (input t).NewWork <;> simp [Broadcast.step, tagIn, latched, hpulse, ih]

theorem latched_pulse {p t : Nat} (h : latched input t = some p) :
    p < t ∧ (input p).NewWork = true := by
  induction t with
  | zero => cases h
  | succ t ih =>
    rw [latched] at h
    split at h
    · rename_i hpulse
      obtain rfl := Option.some.inj h
      exact ⟨Nat.lt_succ_self t, hpulse⟩
    · exact ⟨Nat.lt_succ_of_lt (ih h).1, (ih h).2⟩

theorem core_regs (k : Fin kNumCores) (t : Nat) :
    let σ := Clocked.run (Broadcast.step group Stage4In TargetTop64) input s₀
    (σ (t + 3)).S4Reg k = Stage4In (σ t).WorkDataHeld ∧
      (σ (t + 3)).TgtReg k = TargetTop64 (σ t).WorkDataHeld ∧
      (σ (t + 3)).EnReg k = (σ t).Enable := ⟨rfl, rfl, rfl⟩

theorem core_tags (k : Fin kNumCores) (t : Nat) :
    ((tagged group Stage4In TargetTop64 input s₀ (t + 3)).S4Reg k).1 = latched input t ∧
      ((tagged group Stage4In TargetTop64 input s₀ (t + 3)).TgtReg k).1 = latched input t := by
  have hheld := held_tag group Stage4In TargetTop64 input s₀ t
  obtain ⟨hs, ht, -⟩ := core_regs group (Prod.map id Stage4In) (Prod.map id TargetTop64)
    (tagIn input) (tagInit s₀) k t
  exact ⟨(congrArg Prod.fst hs).trans hheld, (congrArg Prod.fst ht).trans hheld⟩

theorem core_tags_early (k : Fin kNumCores) {t : Nat} (ht : t < 3) :
    ((tagged group Stage4In TargetTop64 input s₀ t).S4Reg k).1 = none ∧
      ((tagged group Stage4In TargetTop64 input s₀ t).TgtReg k).1 = none := by
  match t with
  | 0 | 1 | 2 => exact ⟨rfl, rfl⟩

theorem enReg_eq (k : Fin kNumCores) (t : Nat) :
    (Clocked.run (Broadcast.step group Stage4In TargetTop64) input s₀ (t + 4)).EnReg k =
      !(input t).NewWork := by
  obtain ⟨-, -, he⟩ := core_regs group Stage4In TargetTop64 input s₀ k (t + 1)
  rw [he, Clocked.run_succ, Broadcast.step]
  cases (input t).NewWork <;> rfl

/-- Cycle `t` is the first in which core `k` has the item of pulse `p`, in either
register, and it has it in both. -/
structure FirstCarries (k : Fin kNumCores) (p t : Nat) : Prop where
  pulse : (input p).NewWork = true
  S4Reg : ((tagged group Stage4In TargetTop64 input s₀ t).S4Reg k).1 = some p
  TgtReg : ((tagged group Stage4In TargetTop64 input s₀ t).TgtReg k).1 = some p
  first : ∀ u < t, ((tagged group Stage4In TargetTop64 input s₀ u).S4Reg k).1 ≠ some p ∧
    ((tagged group Stage4In TargetTop64 input s₀ u).TgtReg k).1 ≠ some p

variable {group Stage4In TargetTop64 input s₀}

theorem FirstCarries.eq {k : Fin kNumCores} {p t : Nat}
    (h : FirstCarries group Stage4In TargetTop64 input s₀ k p t) : t = p + 4 := by
  have hlate : 3 ≤ t := by
    by_contra hearly
    have hnone := (core_tags_early group Stage4In TargetTop64 input s₀ k (t := t) (by omega)).1
    rw [h.S4Reg] at hnone
    cases hnone
  obtain ⟨t, rfl⟩ := Nat.exists_eq_add_of_le' hlate
  have htag := h.S4Reg
  rw [(core_tags group Stage4In TargetTop64 input s₀ k t).1] at htag
  obtain ⟨hlt, -⟩ := latched_pulse input htag
  obtain ⟨t, rfl⟩ := Nat.exists_eq_add_of_le' (Nat.one_le_of_lt hlt)
  rw [latched] at htag
  split at htag
  · rw [Option.some.inj htag]
  · have hbefore := (h.first (t + 3) (by omega)).1
    rw [(core_tags group Stage4In TargetTop64 input s₀ k t).1] at hbefore
    exact absurd htag hbefore

theorem firstCarries_of_pulse (k : Fin kNumCores) {p : Nat} (hp : (input p).NewWork = true) :
    FirstCarries group Stage4In TargetTop64 input s₀ k p (p + 4) := by
  have hlatched : latched input (p + 1) = some p := if_pos hp
  have htags := core_tags group Stage4In TargetTop64 input s₀ k (p + 1)
  refine ⟨hp, htags.1.trans hlatched, htags.2.trans hlatched, fun u hu => ?_⟩
  obtain hearly | hlate := Nat.lt_or_ge u 3
  · have hnone := core_tags_early group Stage4In TargetTop64 input s₀ k hearly
    rw [hnone.1, hnone.2]
    exact ⟨nofun, nofun⟩
  · obtain ⟨u, rfl⟩ := Nat.exists_eq_add_of_le' hlate
    have hnot : latched input u ≠ some p := fun h => by
      have := (latched_pulse input h).1
      omega
    have htags := core_tags group Stage4In TargetTop64 input s₀ k u
    rw [htags.1, htags.2]
    exact ⟨hnot, hnot⟩

/-- From the fourth cycle on a reset before the first has left the registers. -/
theorem enReg_low_iff (k : Fin kNumCores) {t : Nat} (ht : 4 ≤ t) :
    (Clocked.run (Broadcast.step group Stage4In TargetTop64) input s₀ t).EnReg k = false ↔
      ∃ p, FirstCarries group Stage4In TargetTop64 input s₀ k p t := by
  obtain ⟨t, rfl⟩ := Nat.exists_eq_add_of_le' ht
  rw [enReg_eq, Bool.not_eq_false']
  constructor
  · intro hp
    exact ⟨t, firstCarries_of_pulse k hp⟩
  · rintro ⟨p, h⟩
    obtain rfl : t = p := Nat.add_right_cancel h.eq
    exact h.pulse

theorem held_item {p t : Nat}
    (h : (tagged group Stage4In TargetTop64 input s₀ t).WorkDataHeld.1 = some p) :
    (tagged group Stage4In TargetTop64 input s₀ t).WorkDataHeld.2 = (input p).WorkData := by
  induction t with
  | zero => cases h
  | succ t ih =>
    rw [tagged, Clocked.run_succ, ← tagged] at h ⊢
    cases hpulse : (input t).NewWork with
    | false =>
      simp only [Broadcast.step, tagIn, hpulse] at h ⊢
      exact ih h
    | true =>
      simp only [Broadcast.step, tagIn, hpulse, if_true, Option.some.injEq] at h ⊢
      rw [h]

/-- The tag tells the truth: what a core has under the tag `p` is item `p`. -/
theorem core_item (k : Fin kNumCores) {p t : Nat}
    (h : ((tagged group Stage4In TargetTop64 input s₀ t).S4Reg k).1 = some p) :
    (Clocked.run (Broadcast.step group Stage4In TargetTop64) input s₀ t).S4Reg k =
        Stage4In (input p).WorkData ∧
      (Clocked.run (Broadcast.step group Stage4In TargetTop64) input s₀ t).TgtReg k =
        TargetTop64 (input p).WorkData := by
  obtain hearly | hlate := Nat.lt_or_ge t 3
  · rw [(core_tags_early group Stage4In TargetTop64 input s₀ k hearly).1] at h
    cases h
  · obtain ⟨t, rfl⟩ := Nat.exists_eq_add_of_le' hlate
    rw [(core_tags group Stage4In TargetTop64 input s₀ k t).1,
      ← held_tag group Stage4In TargetTop64 input s₀ t] at h
    have hitem := held_item h
    have huntag := congrArg Broadcast.WorkDataHeld
      (untag_tagged group Stage4In TargetTop64 input s₀ t)
    obtain ⟨hs, ht, -⟩ := core_regs group Stage4In TargetTop64 input s₀ k t
    rw [hs, ht, ← huntag, ← hitem]
    exact ⟨rfl, rfl⟩

theorem core_steady (k : Fin kNumCores) {t : Nat} (ht : 3 ≤ t)
    (hen : (Clocked.run (Broadcast.step group Stage4In TargetTop64) input s₀ (t + 1)).EnReg k = true) :
    (Clocked.run (Broadcast.step group Stage4In TargetTop64) input s₀ (t + 1)).S4Reg k =
        (Clocked.run (Broadcast.step group Stage4In TargetTop64) input s₀ t).S4Reg k ∧
      (Clocked.run (Broadcast.step group Stage4In TargetTop64) input s₀ (t + 1)).TgtReg k =
        (Clocked.run (Broadcast.step group Stage4In TargetTop64) input s₀ t).TgtReg k := by
  obtain ⟨t, rfl⟩ := Nat.exists_eq_add_of_le' ht
  rw [enReg_eq, Bool.not_eq_true'] at hen
  obtain ⟨hs, hg, -⟩ := core_regs group Stage4In TargetTop64 input s₀ k t
  obtain ⟨hs', hg', -⟩ := core_regs group Stage4In TargetTop64 input s₀ k (t + 1)
  have hheld : (Clocked.run (Broadcast.step group Stage4In TargetTop64) input s₀ (t + 1)).WorkDataHeld =
      (Clocked.run (Broadcast.step group Stage4In TargetTop64) input s₀ t).WorkDataHeld := by
    simp [Clocked.run_succ, Broadcast.step, hen]
  rw [hs, hg, ← hheld]
  exact ⟨hs', hg'⟩

def SamePulses (input input' : Nat → WorkIn W) : Prop :=
  ∀ t, (input' t).NewWork = (input t).NewWork ∧
    ((input t).NewWork = true → (input' t).WorkData = (input t).WorkData)

theorem run_samePulses {input' : Nat → WorkIn W} (h : SamePulses input input') (t : Nat) :
    Clocked.run (Broadcast.step group Stage4In TargetTop64) input' s₀ t =
      Clocked.run (Broadcast.step group Stage4In TargetTop64) input s₀ t := by
  induction t with
  | zero => rfl
  | succ t ih =>
    obtain ⟨hpulse, hdata⟩ := h t
    rw [Clocked.run_succ, Clocked.run_succ, ih]
    cases hp : (input t).NewWork with
    | false => simp only [Broadcast.step, hpulse, hp, Bool.false_eq_true, if_false]
    | true => simp only [Broadcast.step, hpulse, hp, hdata hp, if_true]

end Run

/-- For every start, every sequence of pulses and everything on `WorkData`: a core is
disabled exactly in the cycle in which a new item reaches it, what reaches it is the
item of a pulse, an enabled core keeps its item, and `WorkData` between pulses does
not matter. -/
structure ArrivesWhole (group : Fin kNumCores → Fin kNumGroups) : Prop where
  enable : ∀ s₀ input k t, 4 ≤ t →
    ((Clocked.run (workStep group) input s₀ t).EnReg k = false ↔
      ∃ p, FirstCarries group unpackStage4 unpackTarget input s₀ k p t)
  item : ∀ s₀ input k p t, FirstCarries group unpackStage4 unpackTarget input s₀ k p t →
    (Clocked.run (workStep group) input s₀ t).S4Reg k = unpackStage4 (input p).WorkData ∧
      (Clocked.run (workStep group) input s₀ t).TgtReg k = unpackTarget (input p).WorkData
  steady : ∀ s₀ input k t, 3 ≤ t → (Clocked.run (workStep group) input s₀ (t + 1)).EnReg k = true →
    (Clocked.run (workStep group) input s₀ (t + 1)).S4Reg k =
        (Clocked.run (workStep group) input s₀ t).S4Reg k ∧
      (Clocked.run (workStep group) input s₀ (t + 1)).TgtReg k =
        (Clocked.run (workStep group) input s₀ t).TgtReg k
  held : ∀ s₀ input input' k t, SamePulses input input' →
    (Clocked.run (workStep group) input' s₀ t).S4Reg k =
        (Clocked.run (workStep group) input s₀ t).S4Reg k ∧
      (Clocked.run (workStep group) input' s₀ t).TgtReg k =
        (Clocked.run (workStep group) input s₀ t).TgtReg k

theorem arrivesWhole (group : Fin kNumCores → Fin kNumGroups) : ArrivesWhole group where
  enable _ _ k _ ht := enReg_low_iff k ht
  item _ _ k _ _ h := core_item k h.S4Reg
  steady _ _ k _ ht hen := core_steady k ht hen
  held s₀ input input' _ t h := by
    have hrun : Clocked.run (workStep group) input' s₀ t = Clocked.run (workStep group) input s₀ t :=
      run_samePulses h t
    rw [hrun]
    exact ⟨rfl, rfl⟩

def NewWorkWhole (kNumCores : ℕ+) : Prop :=
  ∃ group, elaborate kNumCores = some group ∧
    (∀ k, (group k).val = k / kCoresPerGrp kNumCores) ∧ ArrivesWhole group

theorem groups_in_range_iff (kNumCores : ℕ+) :
    (0 < kCoresPerGrp kNumCores ∧ ∀ k : Fin kNumCores, k / kCoresPerGrp kNumCores < kNumGroups) ↔
      (kNumCores : Nat) % 2 = 0 := by
  have hpos := kNumCores.pos
  simp only [kCoresPerGrp, kNumGroups]
  generalize (kNumCores : Nat) = n at hpos
  constructor
  · rintro ⟨hgrp, hk⟩
    have hlast := hk ⟨n - 1, by omega⟩
    rw [Nat.div_lt_iff_lt_mul hgrp] at hlast
    simp only at hlast
    omega
  · intro heven
    refine ⟨by omega, fun k => ?_⟩
    have hk := k.isLt
    rw [Nat.div_lt_iff_lt_mul (by omega)]
    omega

theorem new_work_whole_iff (kNumCores : ℕ+) :
    NewWorkWhole kNumCores ↔ (kNumCores : Nat) % 2 = 0 := by
  rw [← groups_in_range_iff, NewWorkWhole, elaborate]
  constructor
  · rintro ⟨group, helab, -⟩
    split at helab
    · assumption
    · cases helab
  · intro hrange
    rw [dif_pos hrange]
    exact ⟨_, rfl, fun _ => rfl, arrivesWhole _⟩

/-- With one core a group would have none; with three, the third core would be fed
from a third group. -/
theorem odd_cores_do_not_elaborate : ¬NewWorkWhole 1 ∧ ¬NewWorkWhole 3 := by
  have h1 : elaborate 1 = none := by decide
  have h3 : elaborate 3 = none := by decide
  refine ⟨?_, ?_⟩
  · rintro ⟨group, helab, -⟩
    rw [h1] at helab
    cases helab
  · rintro ⟨group, helab, -⟩
    rw [h3] at helab
    cases helab

end OspreyBlake2b.Rtl
