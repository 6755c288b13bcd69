import OspreyBlake2b.Rtl.CoreLaws

/-! A register holds the last work item, and some registers further on are the ports of a
core: what the core shows, for any number of registers and whatever the pulses. -/

namespace OspreyBlake2b.Rtl

open OspreyBlake2b.Lib OspreyBlake2b.Hash.Blake2b Clocked

theorem coreIn_eq {i : CoreIn} (he : i.Enable = e) (hb : i.BlockHeader = B)
    (ht : i.TargetTop64 = T) : i = ⟨e, B, T⟩ := by
  rw [← he, ← hb, ← ht]

/-- What a core's ports see of one work item: a reload at edge `a`, then the item alone. -/
structure Held (input : Nat → CoreIn) (B : Fin 10 → U64) (T : U64) (a b : Nat) : Prop where
  load : input a = ⟨false, B, T⟩
  keep : ∀ t, a < t → t < b → input t = ⟨true, B, T⟩

section HeldCore

variable {tap : Tap} {kNonceSeed : U64} {input : Nat → CoreIn} {σ : Nat → Core}
  {B : Fin 10 → U64} {T : U64} {a b : Nat}

theorem Held.grinds (h : Held input B T a b) (hσ : Trace (Core.step tap kNonceSeed) input σ)
    {t : Nat} (ht : a + t ≤ b) :
    σ (a + t) = run (Core.step tap kNonceSeed) (grindInput B T) (σ a) t := by
  apply (hσ.shift a).agree (trace_run _ _ _) rfl
  intro u hu
  cases u with
  | zero => exact h.load
  | succ u => exact h.keep (a + (u + 1)) (by omega) (by omega)

structure Shows (tap : Tap) (B : Fin 10 → U64) (T n : U64) (o : Core) : Prop where
  success : o.Success = true ↔ tap.compared ((digestWords B n).get tap.word) < T
  pair : o.Success = true →
    (o.NonceOut, o.HashTop64Out) = (n, byteReverse ((digestWords B n).get tap.word))

theorem Held.shows (h : Held input B T a b) (hσ : Trace (Core.step tap kNonceSeed) input σ)
    (hw : tap.Wired) {q : Nat} (hq : a + (q + kPipeLength + 3) ≤ b) :
    Shows tap B T (kNonceSeed + BitVec.ofNat 64 q) (σ (a + (q + kPipeLength + 3))) := by
  rw [h.grinds hσ hq]
  obtain ⟨hs, hout⟩ := (grinds_run tap kNonceSeed B T (σ a)).output hw q
  exact ⟨hs, fun h => Prod.ext (hout h).1 (hout h).2⟩

end HeldCore

/-- A hold register for the items of the pulses; the item it holds reaches the ports `lag`
clocks later, and a pulse disables the core in the clock after the first of them. -/
structure Feeds (lag : Nat) (NewWork : Nat → Bool) (WorkData WorkDataHeld : Nat → W) (header : W → Fin 10 → U64)
    (target : W → U64) (port : Nat → CoreIn) : Prop where
  hold : ∀ t, WorkDataHeld (t + 1) = if NewWork t then WorkData t else WorkDataHeld t
  header : ∀ t, (port (t + lag)).BlockHeader = header (WorkDataHeld t)
  target : ∀ t, (port (t + lag)).TargetTop64 = target (WorkDataHeld t)
  enable : ∀ t, (port (t + lag + 1)).Enable = !NewWork t

structure Works (NewWork : Nat → Bool) (lag p b : Nat) : Prop where
  arrived : NewWork p = true
  quiet : ∀ u, p < u → u + lag + 1 < b → NewWork u = false

def outcomeClk (lag p q : Nat) : Nat := p + lag + 1 + (q + kPipeLength + 3)

def settledClk (lag p : Nat) : Nat := outcomeClk lag p 0

theorem outcomeClk_eq (lag p q : Nat) : outcomeClk lag p q = settledClk lag p + q := by
  rw [settledClk, outcomeClk, outcomeClk]
  omega

section Feeding

variable {lag : Nat} {NewWork : Nat → Bool} {WorkData WorkDataHeld : Nat → W} {header : W → Fin 10 → U64}
  {target : W → U64} {port : Nat → CoreIn} {tap : Tap} {kNonceSeed : U64} {σ : Nat → Core}
  {p b : Nat}

theorem Works.mono {c : Nat} (h : Works NewWork lag p b) (hc : c ≤ b) : Works NewWork lag p c :=
  ⟨h.arrived, fun u hu hlt => h.quiet u hu (by omega)⟩

theorem Feeds.held_since (hf : Feeds lag NewWork WorkData WorkDataHeld header target port)
    (hp : NewWork p = true) (m : Nat) (hquiet : ∀ u, p < u → u < p + 1 + m → NewWork u = false) :
    WorkDataHeld (p + 1 + m) = WorkData p := by
  induction m with
  | zero => rw [Nat.add_zero, hf.hold p, if_pos hp]
  | succ m ih =>
    have hno := hquiet (p + 1 + m) (by omega) (by omega)
    rw [← Nat.add_assoc, hf.hold, hno, ← ih fun u hu hlt => hquiet u hu (by omega)]
    rfl

theorem Works.held (h : Works NewWork lag p b)
    (hf : Feeds lag NewWork WorkData WorkDataHeld header target port) :
    Held port (header (WorkData p)) (target (WorkData p)) (p + lag + 1) b := by
  have hport (m : Nat) (hm : p + lag + 1 + m < b ∨ m = 0) :
      (port (p + lag + 1 + m)).BlockHeader = header (WorkData p) ∧
        (port (p + lag + 1 + m)).TargetTop64 = target (WorkData p) := by
    have hheld := hf.held_since h.arrived m fun u hu hlt => h.quiet u hu (by omega)
    rw [show p + lag + 1 + m = p + 1 + m + lag by omega, hf.header, hf.target, hheld]
    exact ⟨rfl, rfl⟩
  constructor
  · obtain ⟨hb, ht⟩ := hport 0 (.inr rfl)
    have he := hf.enable p
    rw [h.arrived] at he
    exact coreIn_eq he hb ht
  · intro t hlow hhigh
    obtain ⟨m, rfl⟩ := Nat.exists_eq_add_of_lt hlow
    obtain ⟨hb, ht⟩ := hport (m + 1) (.inl hhigh)
    have he := hf.enable (p + 1 + m)
    rw [h.quiet (p + 1 + m) (by omega) (by omega),
      show p + 1 + m + lag + 1 = p + lag + 1 + m + 1 by omega] at he
    exact coreIn_eq he hb ht

theorem Works.shows (hf : Feeds lag NewWork WorkData WorkDataHeld header target port)
    (hσ : Trace (Core.step tap kNonceSeed) port σ) (hw : tap.Wired) {q : Nat}
    (h : Works NewWork lag p (outcomeClk lag p q)) :
    Shows tap (header (WorkData p)) (target (WorkData p)) (kNonceSeed + BitVec.ofNat 64 q)
      (σ (outcomeClk lag p q)) :=
  (h.held hf).shows hσ hw (Nat.le_refl _)

theorem Feeds.held_zero (hf : Feeds lag NewWork WorkData WorkDataHeld header target port) {t : Nat}
    (hquiet : ∀ u < t, NewWork u = false) : WorkDataHeld t = WorkDataHeld 0 := by
  induction t with
  | zero => rfl
  | succ t ih =>
    rw [hf.hold, hquiet t (Nat.lt_succ_self t), ← ih fun u hu => hquiet u (Nat.lt_succ_of_lt hu)]
    rfl

theorem Feeds.silent (hf : Feeds lag NewWork WorkData WorkDataHeld header target port)
    (hσ : Trace (Core.step tap kNonceSeed) port σ) (h0 : target (WorkDataHeld 0) = 0) {t : Nat}
    (hquiet : ∀ u < t, NewWork u = false) : (σ (t + lag + 1)).Success = false := by
  have hzero := hf.target t
  rw [hf.held_zero hquiet, h0] at hzero
  rw [hσ (t + lag), Core.step]
  dsimp only
  rw [hzero, decide_eq_false_iff_not]
  exact BitVec.not_lt_zero

theorem exists_works {t : Nat} (h : ∃ u, u + lag + 1 < t ∧ NewWork u = true) :
    ∃ p, p + lag + 1 < t ∧ Works NewWork lag p t := by
  induction t with
  | zero =>
    obtain ⟨u, hu, -⟩ := h
    omega
  | succ t ih =>
    by_cases hlast : lag + 1 ≤ t ∧ NewWork (t - (lag + 1)) = true
    · exact ⟨t - (lag + 1), by omega, hlast.2, fun u _ _ => by omega⟩
    · obtain ⟨u, hu, hpulse⟩ := h
      have hne : u ≠ t - (lag + 1) ∨ ¬ lag + 1 ≤ t := by
        by_contra hcon
        push Not at hcon
        exact hlast ⟨hcon.2, hcon.1 ▸ hpulse⟩
      obtain ⟨p, hp, hworks⟩ := ih ⟨u, by omega, hpulse⟩
      refine ⟨p, by omega, hworks.arrived, fun v hv hvt => ?_⟩
      by_cases hvlast : v = t - (lag + 1)
      · rw [← Bool.not_eq_true]
        intro hp
        exact hlast ⟨by omega, hvlast ▸ hp⟩
      · exact hworks.quiet v hv (by omega)

/-- A core is silent for want of an item, or still filling up with the last one, or shows
how the next nonce of its slice does on it. -/
theorem Feeds.outcomes (hf : Feeds lag NewWork WorkData WorkDataHeld header target port)
    (hσ : Trace (Core.step tap kNonceSeed) port σ) (hw : tap.Wired) (h0 : target (WorkDataHeld 0) = 0)
    (t : Nat) :
    ((∀ u < t, NewWork u = false) ∧ (σ (t + lag + 1)).Success = false) ∨
      ∃ p < t, Works NewWork lag p (t + lag + 1) ∧
        (t + lag + 1 < settledClk lag p ∨ ∃ q, t + lag + 1 = settledClk lag p + q ∧
          Shows tap (header (WorkData p)) (target (WorkData p)) (kNonceSeed + BitVec.ofNat 64 q)
            (σ (t + lag + 1))) := by
  by_cases hpulse : ∃ u, u + lag + 1 < t + lag + 1 ∧ NewWork u = true
  · obtain ⟨p, hp, hworks⟩ := exists_works hpulse
    refine .inr ⟨p, by omega, hworks, ?_⟩
    obtain hlt | hle := Nat.lt_or_ge (t + lag + 1) (settledClk lag p)
    · exact .inl hlt
    · obtain ⟨q, hq⟩ := Nat.exists_eq_add_of_le hle
      have hclk : t + lag + 1 = outcomeClk lag p q := hq.trans (outcomeClk_eq lag p q).symm
      rw [hclk] at hworks ⊢
      exact .inr ⟨q, outcomeClk_eq lag p q, hworks.shows hf hσ hw⟩
  · push Not at hpulse
    have hquiet (u : Nat) (hu : u < t) : NewWork u = false :=
      Bool.not_eq_true _ ▸ hpulse u (by omega)
    exact .inl ⟨hquiet, hf.silent hσ h0 hquiet⟩

end Feeding

end OspreyBlake2b.Rtl
