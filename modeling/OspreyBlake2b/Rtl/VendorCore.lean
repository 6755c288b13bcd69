import OspreyBlake2b.Rtl.CoreLaws

/-! `vendor/sia-fpga/Blake2bMinerCore.vhd`, the core that `src/sia/OspreySiaCore.vhd` was made
from.  It counts 48 bits of nonce and takes the target from the nonce's place in the header. -/

namespace OspreyBlake2b.Rtl

open OspreyBlake2b.Lib OspreyBlake2b.Hash.Blake2b

structure VendorIn where
  Enable : Bool
  BlockHeader : Fin 10 → U64

structure VendorCore where
  Nonce : Fin 12 → BitVec 48
  mixer1 : Fin 12 → Fin 4 → MixG
  mixer2 : Fin 12 → Fin 4 → MixG
  A2OutDly : U64
  Success : Bool
  NonceOut : U64

namespace VendorCore

def Target (i : VendorIn) : U64 := i.BlockHeader 4

def feed (i : VendorIn) (s : VendorCore) (r : Fin 12) (p : Fin 16) : U64 :=
  let k := kSigma (Fin.ofNat 10 r.val) p
  if k ≠ 4 then Msg ⟨i.Enable, i.BlockHeader, Target i⟩ k else 0x0000#16 ++ s.Nonce r

def hash0 (s : VendorCore) : U64 := kHin 0 ^^^ s.A2OutDly ^^^ (s.mixer2 11 2).C3

def step (kNonceSeed : BitVec 48) (i : VendorIn) (s : VendorCore) : VendorCore :=
  let pass := byteReverse (hash0 s) < Target i
  { Nonce := fun r =>
      if i.Enable then s.Nonce r + 1 else kNonceSeed - BitVec.ofNat 48 (nonceLag r)
    mixer1 := fun r j => (s.mixer1 r j).step (mixIn (lanesInto1 initLanes s.mixer2 r j)
      (feed i s r ⟨2 * j.val, x1_lt j⟩) (feed i s r ⟨2 * j.val + 1, y1_lt j⟩))
    mixer2 := fun r j => (s.mixer2 r j).step (mixIn (lanesInto2 s.mixer1 r j)
      (feed i s r ⟨2 * j.val + 8, x2_lt j⟩) (feed i s r ⟨2 * j.val + 9, y2_lt j⟩))
    A2OutDly := (s.mixer2 11 0).A3
    Success := decide pass
    NonceOut := if pass then 0x0000#16 ++ (s.Nonce 0 - BitVec.ofNat 48 (kPipeLength + 1)) else 0 }

/-- The same inputs on the ports of `OspreySiaCore`, the target taken from word 4. -/
def wired (i : VendorIn) : CoreIn := ⟨i.Enable, i.BlockHeader, Target i⟩

section Agree

variable {kNonceSeed : U64} {input : Nat → VendorIn} {σ : Nat → VendorCore} {τ : Nat → Core}

theorem nonces_agree (hσ : Clocked.Trace (step (kNonceSeed.setWidth 48)) input σ)
    (hτ : Clocked.Trace (siaCoreStep kNonceSeed) (fun t => wired (input t)) τ) {p : Nat}
    (hp : (input p).Enable = false) {t : Nat} (ht : p < t) (r : Fin 12) :
    (σ t).Nonce r = ((τ t).Nonce r).setWidth 48 := by
  have hload : kNonceSeed.setWidth 48 - BitVec.ofNat 48 (nonceLag r) =
      (kNonceSeed - BitVec.ofNat 64 (nonceLag r)).setWidth 48 := by
    bv_omega
  have hstep (u : Nat) : σ (u + 1) = step (kNonceSeed.setWidth 48) (input u) (σ u) := hσ u
  have hstep' (u : Nat) : τ (u + 1) = siaCoreStep kNonceSeed (wired (input u)) (τ u) := hτ u
  induction t, ht using Nat.le_induction with
  | base =>
    rw [hstep, hstep']
    simp only [step, siaCoreStep, Core.step, wired, hp, Bool.false_eq_true, if_false]
    exact hload
  | succ t ht ih =>
    rw [hstep, hstep']
    simp only [step, siaCoreStep, Core.step]
    by_cases hen : (input t).Enable = true
    · have hen' : (wired (input t)).Enable = true := hen
      rw [if_pos hen, if_pos hen', ih]
      bv_omega
    · have hen' : ¬ (wired (input t)).Enable = true := hen
      rw [if_neg hen, if_neg hen']
      exact hload

theorem widen_narrow {n : U64} (h : n < 0x1000000000000#64) : 0x0000#16 ++ n.setWidth 48 = n := by
  have hlt : n.toNat < 2 ^ 48 := h
  apply BitVec.eq_of_toNat_eq
  rw [BitVec.toNat_append, BitVec.toNat_setWidth, Nat.mod_eq_of_lt hlt]
  simp

theorem piped (hσ : Clocked.Trace (step (kNonceSeed.setWidth 48)) input σ) :
    Piped initLanes (fun t => (σ t).mixer1) (fun t => (σ t).mixer2) fun t => feed (input t) (σ t) where
  mixer1 t r j := by rw [hσ t]; rfl
  mixer2 t r j := by rw [hσ t]; rfl

theorem feeds_agree (hσ : Clocked.Trace (step (kNonceSeed.setWidth 48)) input σ)
    (hτ : Clocked.Trace (siaCoreStep kNonceSeed) (fun t => wired (input t)) τ) {p a : Nat}
    (hp : (input p).Enable = false) (ha : p < a)
    (hnonce : ∀ r, (τ (a + nonceLag r)).Nonce r < 0x1000000000000#64) (r : Fin 12) (q : Fin 16) :
    feed (input (a + 8 * r.val + operandDelay q)) (σ (a + 8 * r.val + operandDelay q)) r q =
      Rtl.feed (wired (input (a + 8 * r.val + operandDelay q)))
        (τ (a + 8 * r.val + operandDelay q)) r q := by
  rw [feed, Rtl.feed]
  by_cases hk : kSigma (Fin.ofNat 10 r.val) q = 4
  · have ht : a + 8 * r.val + operandDelay q = a + nonceLag r := by
      rw [nonceLag_eq r q hk, Nat.add_assoc]
    have hk' : ¬ kSigma (Fin.ofNat 10 r.val) q ≠ kNonceSigmaIdx := not_not_intro hk
    rw [if_neg (not_not_intro hk), if_neg hk', ht,
      nonces_agree hσ hτ hp (Nat.lt_of_lt_of_le ha (Nat.le_add_right _ _)) r]
    exact widen_narrow (hnonce r)
  · have hk' : kSigma (Fin.ofNat 10 r.val) q ≠ kNonceSigmaIdx := hk
    rw [if_pos hk, if_pos hk']
    rfl

theorem hash0_agree (hσ : Clocked.Trace (step (kNonceSeed.setWidth 48)) input σ)
    (hτ : Clocked.Trace (siaCoreStep kNonceSeed) (fun t => wired (input t)) τ) {p a : Nat}
    (hp : (input p).Enable = false) (ha : p < a)
    (hnonce : ∀ r, (τ (a + nonceLag r)).Nonce r < 0x1000000000000#64) :
    hash0 (σ (a + kPipeLength + 1)) = Rtl.hash0 siaTap (τ (a + kPipeLength + 1)) := by
  have hvendor := (piped hσ).leaves (feeds_agree hσ hτ hp ha hnonce) 0
  have hsia := (piped_core siaTap kNonceSeed hτ).leaves (a := a) (fun _ _ => rfl) 0
  obtain ⟨hA, -, -, hC⟩ := hvendor
  obtain ⟨hA', -, -, hC'⟩ := hsia
  have hlane : ((0 : Fin 4) + 2) = 2 := rfl
  simp only [undiagonal, outLanes, hlane] at hA hC hA' hC'
  have hdly : (σ (a + kPipeLength + 1)).A2OutDly = ((σ (a + kPipeLength)).mixer2 11 0).A3 := by
    rw [hσ (a + kPipeLength)]
    rfl
  have hdly' : (τ (a + kPipeLength + 1)).A2OutDly = ((τ (a + kPipeLength)).mixer2 11 0).A3 := by
    rw [hτ (a + kPipeLength)]
    rfl
  rw [hash0, Rtl.hash0, hdly, hdly', hA, hA', hC]
  exact congrArg _ hC'.symm

end Agree

/-- On any waveform of `Enable` and header words and from any two states: once the nonces have
been loaded the vendor's counters stay the low 48 bits of ours, and what enters the pipelines
from then on and meets nonces below 2^48 leaves both as the same hash word, with the same
verdict and the same nonce up to the width. -/
theorem vendor_agrees (kNonceSeed : U64) (input : Nat → VendorIn) (s₀ : VendorCore) (s₁ : Core)
    {p : Nat} (hp : (input p).Enable = false) :
    let σ := Clocked.run (step (kNonceSeed.setWidth 48)) input s₀
    let τ := Clocked.run (siaCoreStep kNonceSeed) (fun t => wired (input t)) s₁
    (∀ t, p < t → ∀ r, (σ t).Nonce r = ((τ t).Nonce r).setWidth 48) ∧
      ∀ a, p < a → (∀ r, (τ (a + nonceLag r)).Nonce r < 0x1000000000000#64) →
        let c := a + kPipeLength + 1
        hash0 (σ c) = Rtl.hash0 siaTap (τ c) ∧ (σ (c + 1)).Success = (τ (c + 1)).Success ∧
          (σ (c + 1)).NonceOut = 0x0000#16 ++ (τ (c + 1)).NonceOut.setWidth 48 := by
  intro σ τ
  have hσ := Clocked.trace_run (step (kNonceSeed.setWidth 48)) input s₀
  have hτ := Clocked.trace_run (siaCoreStep kNonceSeed) (fun t => wired (input t)) s₁
  refine ⟨fun t ht r => nonces_agree hσ hτ hp ht r, fun a ha hnonce => ?_⟩
  intro c
  have hhash : hash0 (σ c) = Rtl.hash0 siaTap (τ c) := hash0_agree hσ hτ hp ha hnonce
  have hfirst : (σ c).Nonce 0 = ((τ c).Nonce 0).setWidth 48 :=
    nonces_agree hσ hτ hp (by omega) 0
  have hnext : σ (c + 1) = step (kNonceSeed.setWidth 48) (input c) (σ c) := hσ c
  have hnext' : τ (c + 1) = siaCoreStep kNonceSeed (wired (input c)) (τ c) := hτ c
  refine ⟨hhash, ?_, ?_⟩
  · rw [hnext, hnext']
    simp only [step, siaCoreStep, Core.step, hhash]
    rfl
  · rw [hnext, hnext']
    simp only [step, siaCoreStep, Core.step, hhash, hfirst]
    by_cases hpass : byteReverse (Rtl.hash0 siaTap (τ c)) < Target (input c)
    · rw [if_pos hpass]
      have hpass' : siaTap.compared (Rtl.hash0 siaTap (τ c)) < (wired (input c)).TargetTop64 := hpass
      rw [if_pos hpass']
      congr 1
      bv_omega
    · rw [if_neg hpass]
      have hpass' : ¬ siaTap.compared (Rtl.hash0 siaTap (τ c)) < (wired (input c)).TargetTop64 := hpass
      rw [if_neg hpass']
      rfl

def zeroMix : Fin 12 → Fin 4 → MixG := fun _ _ => ⟨0, 0, 0, 0, 0, 0, 0, 0, 0, 0, 0, 0, 0, 0, 0, 0⟩

theorem vendor_agrees_zero :
    let σ := Clocked.run (step 0) (fun t => ⟨t != 0, fun _ => 0⟩)
      ⟨fun _ => 0, zeroMix, zeroMix, 0, false, 0⟩
    let τ := Clocked.run (siaCoreStep 0) (fun t => wired ⟨t != 0, fun _ => 0⟩)
      ⟨fun _ => 0, zeroMix, zeroMix, 0, false, 0, 0⟩
    hash0 (σ (6 + kPipeLength + 1)) = Rtl.hash0 siaTap (τ (6 + kPipeLength + 1)) ∧
      (σ (6 + kPipeLength + 2)).Success = (τ (6 + kPipeLength + 2)).Success := by
  intro σ τ
  have hgrinds := grinds_run siaTap 0 (fun _ => 0) 0 ⟨fun _ => 0, zeroMix, zeroMix, 0, false, 0, 0⟩
  have hnonce (r : Fin 12) : (τ (6 + nonceLag r)).Nonce r < 0x1000000000000#64 := by
    have hr : (τ (5 + nonceLag r + 1)).Nonce r = _ := hgrinds.nonce r (5 + nonceLag r)
    rw [show 6 + nonceLag r = 5 + nonceLag r + 1 by omega, hr, BitVec.ofNat_add]
    bv_omega
  obtain ⟨hhash, hsucc, -⟩ := (vendor_agrees 0 (fun t => ⟨t != 0, fun _ => 0⟩)
    ⟨fun _ => 0, zeroMix, zeroMix, 0, false, 0⟩ ⟨fun _ => 0, zeroMix, zeroMix, 0, false, 0, 0⟩
    (p := 0) rfl).2 6 (by decide) hnonce
  exact ⟨hhash, hsucc⟩

end VendorCore

end OspreyBlake2b.Rtl
