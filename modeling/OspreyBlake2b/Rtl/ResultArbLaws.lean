import OspreyBlake2b.Rtl.ResultArb

namespace OspreyBlake2b.Rtl

open OspreyBlake2b.Lib OspreyBlake2b.Lib.Clocked

namespace ResultArb

theorem vld_of_select {s : ResultArb n} {ready : Bool} {k : Fin (n + 1)}
    (h : s.select ready = some k) : s.Vld k = true := by
  rw [select] at h
  split at h
  · obtain ⟨i, hi, rfl⟩ := Option.map_eq_some_iff.mp h
    have hvld := List.find?_some hi
    exact hvld
  · cases h

theorem grant_iff {s : ResultArb n} {ready : Bool} {k : Fin (n + 1)} :
    s.Grant ready k = true ↔ s.select ready = some k := by
  rw [Grant, GrantValid, GrantIdx, decide_eq_true_iff]
  cases s.select ready <;> simp

theorem vld_of_grant {s : ResultArb n} {ready : Bool} {k : Fin (n + 1)}
    (h : s.Grant ready k = true) : s.Vld k = true := vld_of_select (grant_iff.mp h)

theorem grantIdx_of_grant {s : ResultArb n} {ready : Bool} {k : Fin (n + 1)}
    (h : s.Grant ready k = true) : s.GrantIdx ready = k := (of_decide_eq_true h).2

end ResultArb

section Histories

variable (input : Nat → ArbIn n) (σ : Nat → ResultArb n) (k : Fin (n + 1))

def reported (c : Nat) : Option (U64 × U64) :=
  if (input c).CoreSuccess k then some ((input c).CoreNonce k, (input c).CoreHash k) else none

def granted (c : Nat) : Option (U64 × U64) :=
  let ready := (input c).ResultReady
  if (σ c).Grant ready k then some ((σ c).ResultNonce ready, (σ c).ResultHash ready) else none

def captured (c : Nat) : Option (U64 × U64) :=
  if (σ c).captures (input c) k then some ((input c).CoreNonce k, (input c).CoreHash k) else none

/-- A success that finds the slot full and not just being emptied. -/
def refused (c : Nat) : Option Unit :=
  if (input c).CoreSuccess k ∧ (σ c).Vld k ∧ (σ c).Grant (input c).ResultReady k = false then some ()
  else none

def ResultArb.slot (s : ResultArb n) : List (U64 × U64) :=
  if s.Vld k then [(s.Nonce k, s.Hash k)] else []

variable {input σ k}

theorem slot_step (h : Trace ResultArb.step input σ) (c : Nat) :
    (σ c).slot k ++ (captured input σ k c).toList =
      (granted input σ k c).toList ++ (σ (c + 1)).slot k := by
  rw [h c]
  cases hgrant : (σ c).Grant (input c).ResultReady k with
  | true =>
    have hvld := ResultArb.vld_of_grant hgrant
    have hidx := ResultArb.grantIdx_of_grant hgrant
    cases hsucc : (input c).CoreSuccess k <;>
      simp [captured, granted, ResultArb.slot, ResultArb.step, ResultArb.captures,
        ResultArb.ResultNonce, ResultArb.ResultHash, hgrant, hvld, hidx, hsucc]
  | false =>
    cases hsucc : (input c).CoreSuccess k <;> cases hvld : (σ c).Vld k <;>
      simp [captured, granted, ResultArb.slot, ResultArb.step, ResultArb.captures, hgrant, hvld,
        hsucc]

theorem reported_split (c : Nat) :
    (reported input k c).toList.length =
      (captured input σ k c).toList.length + (refused input σ k c).toList.length := by
  cases hsucc : (input c).CoreSuccess k <;> cases hvld : (σ c).Vld k <;>
    cases hgrant : (σ c).Grant (input c).ResultReady k <;>
      simp [reported, captured, refused, ResultArb.captures, hsucc, hvld, hgrant]

theorem drop_step (h : Trace ResultArb.step input σ) (c : Nat) :
    ((σ (c + 1)).Drop k).toNat =
      min (((σ c).Drop k).toNat + (refused input σ k c).toList.length) 65535 := by
  have hlt := ((σ c).Drop k).isLt
  have hmax : (σ c).Drop k = 0xffff#16 ↔ ((σ c).Drop k).toNat = 65535 := by
    rw [← BitVec.toNat_inj]
    rfl
  rw [h c]
  cases hsucc : (input c).CoreSuccess k <;> cases hvld : (σ c).Vld k <;>
    cases hgrant : (σ c).Grant (input c).ResultReady k <;>
      simp only [ResultArb.step, ResultArb.captures, refused, hsucc, hvld, hgrant] <;>
      grind

theorem captured_history (h : Trace ResultArb.step input σ) (h0 : (σ 0).Vld k = false) (t : Nat) :
    history (captured input σ k) t = history (granted input σ k) t ++ (σ t).slot k := by
  induction t with
  | zero => simp [ResultArb.slot, h0]
  | succ t ih =>
    rw [history_succ, history_succ, ih, List.append_assoc, List.append_assoc, slot_step h]

theorem reported_history (t : Nat) :
    (history (reported input k) t).length =
      (history (captured input σ k) t).length + (history (refused input σ k) t).length := by
  induction t with
  | zero => rfl
  | succ t ih =>
    have hsplit := @reported_split n input σ k t
    simp only [history_succ, List.length_append]
    omega

theorem drop_history (h : Trace ResultArb.step input σ) (h0 : (σ 0).Drop k = 0) (t : Nat) :
    ((σ t).Drop k).toNat = min (history (refused input σ k) t).length 65535 := by
  induction t with
  | zero => simp [h0]
  | succ t ih =>
    rw [drop_step h, ih, history_succ, List.length_append]
    omega

end Histories

/-- For any number of cores, any inputs after reset, any core and any time. -/
theorem arbiter_conserves (Nonce Hash : Fin (n + 1) → U64) (input : Nat → ArbIn n)
    (k : Fin (n + 1)) (t : Nat) :
    let σ := run ResultArb.step input (ResultArb.reset Nonce Hash)
    (history (reported input k) t).length =
        (history (granted input σ k) t).length + (history (refused input σ k) t).length +
          (if (σ t).Vld k then 1 else 0) ∧
      ((σ t).Drop k).toNat = min (history (refused input σ k) t).length 65535 ∧
      history (captured input σ k) t = history (granted input σ k) t ++ (σ t).slot k := by
  intro σ
  have hσ : Trace ResultArb.step input σ := trace_run _ _ _
  have hcap := captured_history (k := k) hσ rfl t
  refine ⟨?_, drop_history hσ rfl t, hcap⟩
  have hslot : ((σ t).slot k).length = if (σ t).Vld k then 1 else 0 := by
    rw [ResultArb.slot]
    split <;> rfl
  rw [reported_history (σ := σ), hcap, List.length_append, hslot]
  omega

end OspreyBlake2b.Rtl
