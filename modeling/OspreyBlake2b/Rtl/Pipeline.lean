import OspreyBlake2b.Rtl.Core
import OspreyBlake2b.Hash.Blake2bLaws

/-! The unrolled pipeline that every core is built around: twelve rounds of two
mixer rows, each row four clocks deep, fed a round's operands as the lanes
arrive. -/

namespace OspreyBlake2b.Rtl

open OspreyBlake2b.Lib OspreyBlake2b.Hash.Blake2b

/-- Four lanes that carry `L` from clock `t` on, C one clock behind the rest. -/
def Carries (q : Nat → Fin 4 → Quad) (t : Nat) (L : Fin 4 → Quad) : Prop :=
  ∀ j, (q t j).a = (L j).a ∧ (q t j).b = (L j).b ∧ (q t j).d = (L j).d ∧
    (q (t + 1) j).c = (L j).c

theorem Carries.row {m : Nat → Fin 4 → MixG} {q : Nat → Fin 4 → Quad}
    {X Y : Nat → Fin 4 → U64} {x : Fin 16 → U64} {k t : Nat} {L : Fin 4 → Quad} (hk : k ≤ 8)
    (hm : ∀ t j, m (t + 1) j = (m t j).step (mixIn (q t j) (X t j) (Y t j)))
    (hX : ∀ j : Fin 4, X t j = x ⟨k + 2 * j.val, rowX_lt hk j⟩)
    (hY : ∀ j : Fin 4, Y (t + 2) j = x ⟨k + 2 * j.val + 1, rowY_lt hk j⟩)
    (h : Carries q t L) : Carries (fun t => outLanes (m t)) (t + 4) (mixRow x k hk L) := by
  intro j
  obtain ⟨ha, hb, hd, hc⟩ := h j
  obtain ⟨hA, hB, hD, hC⟩ := MixG.latency (fun t => m t j)
    (fun t => mixIn (q t j) (X t j) (Y t j)) (fun t => hm t j) t
  have hs : skewed (fun t => mixIn (q t j) (X t j) (Y t j)) t = mixRow x k hk L j := by
    simp only [skewed, mixIn, mixRow, ha, hb, hc, hd, hX, hY]
  rw [hs] at hA hB hC hD
  exact ⟨hA, hB, hD, hC⟩

theorem Carries.diag {q : Nat → Fin 4 → Quad} {t : Nat} {L : Fin 4 → Quad}
    (h : Carries q t L) : Carries (fun t => diagonal (q t)) t (diagonal L) := by
  intro j
  exact ⟨(h j).1, (h (j + 1)).2.1, (h (j + 3)).2.2.1, (h (j + 2)).2.2.2⟩

theorem Carries.undiag {q : Nat → Fin 4 → Quad} {t : Nat} {L : Fin 4 → Quad}
    (h : Carries q t L) : Carries (fun t => undiagonal (q t)) t (undiagonal L) := by
  intro j
  exact ⟨(h j).1, (h (j + 3)).2.1, (h (j + 1)).2.2.1, (h (j + 2)).2.2.2⟩

/-- Clocks between A entering a round and operand `p` being read: the second
mixer is four behind the first, and Y two behind X. -/
def operandDelay (p : Fin 16) : Nat := (if p.val < 8 then 0 else 4) + 2 * (p.val % 2)

theorem lanesInto1_succ (init : Fin 4 → Quad) (m : Fin 12 → Fin 4 → MixG) (r : Nat)
    (h : r + 1 < 12) : lanesInto1 init m ⟨r + 1, h⟩ = undiagonal (outLanes (m ⟨r, by omega⟩)) := by
  funext j
  fin_cases j <;> rfl

theorem lanesInto2_eq (m : Fin 12 → Fin 4 → MixG) (r : Fin 12) :
    lanesInto2 m r = diagonal (outLanes (m r)) := by
  funext j
  fin_cases j <;> rfl

def lanesThrough (x : Fin 12 → Fin 16 → U64) (q : Fin 4 → Quad) : Nat → Fin 4 → Quad
  | 0 => q
  | n + 1 => if h : n < 12 then roundLanes (x ⟨n, h⟩) (lanesThrough x q n) else lanesThrough x q n

theorem lanesThrough_succ (x : Fin 12 → Fin 16 → U64) (q : Fin 4 → Quad) (n : Nat) (h : n < 12) :
    lanesThrough x q (n + 1) = roundLanes (x ⟨n, h⟩) (lanesThrough x q n) := dif_pos h

theorem lanesThrough_operands (m v : Vector U64 16) (n : Nat) (h : n ≤ 12) :
    lanesThrough (operands m) (lanes v) n = lanesAfter m v n := by
  induction n with
  | zero => rw [lanesAfter_zero, lanesThrough]
  | succ n ih => rw [lanesThrough_succ _ _ _ h, lanesAfter_succ _ _ _ h, ih (by omega)]

/-- Two banks of mixers wired as the round generators wire them; at clock `t` those of
round `r` read the operands `feed t r`. -/
structure Piped (init : Fin 4 → Quad) (m₁ m₂ : Nat → Fin 12 → Fin 4 → MixG)
    (feed : Nat → Fin 12 → Fin 16 → U64) : Prop where
  mixer1 : ∀ t r j, m₁ (t + 1) r j = (m₁ t r j).step
    (mixIn (lanesInto1 init (m₂ t) r j) (feed t r ⟨2 * j.val, x1_lt j⟩)
      (feed t r ⟨2 * j.val + 1, y1_lt j⟩))
  mixer2 : ∀ t r j, m₂ (t + 1) r j = (m₂ t r j).step
    (mixIn (lanesInto2 (m₁ t) r j) (feed t r ⟨2 * j.val + 8, x2_lt j⟩)
      (feed t r ⟨2 * j.val + 9, y2_lt j⟩))

section Piped

variable {init : Fin 4 → Quad} {m₁ m₂ : Nat → Fin 12 → Fin 4 → MixG}
  {feed : Nat → Fin 12 → Fin 16 → U64} {x : Fin 12 → Fin 16 → U64} {a : Nat}

/-- Lanes that enter round `r` leave it eight clocks later as one BLAKE2b round
on the operands read on the way. -/
theorem Piped.round (h : Piped init m₁ m₂ feed) (r : Fin 12)
    (hx : ∀ p t, t = a + operandDelay p → feed t r p = x r p) {L : Fin 4 → Quad}
    (hL : Carries (fun t => lanesInto1 init (m₂ t) r) a L) :
    Carries (fun t => undiagonal (outLanes (m₂ t r))) (a + 8) (roundLanes (x r) L) := by
  have first := hL.row (m := fun t => m₁ t r)
    (X := fun t j => feed t r ⟨2 * j.val, x1_lt j⟩)
    (Y := fun t j => feed t r ⟨2 * j.val + 1, y1_lt j⟩)
    (x := x r) (k := 0) (by omega)
    (fun t j => h.mixer1 t r j)
    (fun j => by
      rw [hx _ _ (by simp only [operandDelay]; split <;> omega)]
      simp)
    (fun j => by
      rw [hx _ _ (by simp only [operandDelay]; split <;> omega)]
      simp)
  have second := first.diag.row (m := fun t => m₂ t r)
    (X := fun t j => feed t r ⟨2 * j.val + 8, x2_lt j⟩)
    (Y := fun t j => feed t r ⟨2 * j.val + 9, y2_lt j⟩)
    (x := x r) (k := 8) (by omega)
    (fun t j => by
      rw [← lanesInto2_eq]
      exact h.mixer2 t r j)
    (fun j => by
      rw [hx _ _ (by simp only [operandDelay]; split <;> omega)]
      simp only [Nat.add_comm 8])
    (fun j => by
      rw [hx _ _ (by simp only [operandDelay]; split <;> omega)]
      congr 2
      omega)
  exact second.undiag

theorem Piped.enters (h : Piped init m₁ m₂ feed)
    (hx : ∀ r p, feed (a + 8 * r.val + operandDelay p) r p = x r p) (r : Nat) (hr : r < 12) :
    Carries (fun t => lanesInto1 init (m₂ t) ⟨r, hr⟩) (a + 8 * r) (lanesThrough x init r) := by
  induction r with
  | zero =>
    intro j
    exact ⟨rfl, rfl, rfl, rfl⟩
  | succ r ih =>
    simp only [lanesInto1_succ _ _ r hr]
    rw [lanesThrough_succ _ _ _ (by omega)]
    apply h.round ⟨r, by omega⟩ _ (ih (by omega))
    intro p t ht
    rw [ht]
    exact hx ⟨r, by omega⟩ p

theorem Piped.leaves (h : Piped init m₁ m₂ feed)
    (hx : ∀ r p, feed (a + 8 * r.val + operandDelay p) r p = x r p) :
    Carries (fun t => undiagonal (outLanes (m₂ t 11))) (a + kPipeLength)
      (lanesThrough x init 12) := by
  rw [lanesThrough_succ _ _ _ (by omega)]
  apply h.round 11 _ (h.enters hx 11 (by omega))
  intro p t ht
  rw [ht]
  exact hx 11 p

theorem Piped.leaves_rounds {m v : Vector U64 16} (h : Piped (lanes v) m₁ m₂ feed)
    (hx : ∀ r p, feed (a + 8 * r.val + operandDelay p) r p = operands m r p) :
    Carries (fun t => undiagonal (outLanes (m₂ t 11))) (a + kPipeLength) (lanes (rounds m v)) := by
  rw [lanes_rounds, ← lanesThrough_operands _ _ _ (by omega)]
  exact h.leaves hx

end Piped

end OspreyBlake2b.Rtl
