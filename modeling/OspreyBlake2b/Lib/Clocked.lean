import Mathlib.Data.Nat.Init

/-! Synchronous circuits: a register file, a next-state function and the
sequence of states the clock drives it through. -/

namespace OspreyBlake2b.Lib.Clocked

/-- The registers before edge `t`, when edge `k` sees the inputs `input k`. -/
def run (step : I → S → S) (input : Nat → I) (s : S) : Nat → S
  | 0 => s
  | t + 1 => step (input t) (run step input s t)

@[simp] theorem run_zero (step : I → S → S) (input : Nat → I) (s : S) :
    run step input s 0 = s := rfl

theorem run_succ (step : I → S → S) (input : Nat → I) (s : S) (t : Nat) :
    run step input s (t + 1) = step (input t) (run step input s t) := rfl

/-- The states of a circuit from some edge on, whatever came before. -/
def Trace (step : I → S → S) (input : Nat → I) (σ : Nat → S) : Prop :=
  ∀ t, σ (t + 1) = step (input t) (σ t)

theorem trace_run (step : I → S → S) (input : Nat → I) (s : S) :
    Trace step input (run step input s) := fun _ => rfl

theorem Trace.shift {step : I → S → S} {input : Nat → I} {σ : Nat → S}
    (h : Trace step input σ) (a : Nat) :
    Trace step (fun t => input (a + t)) fun t => σ (a + t) := fun t => h (a + t)

theorem Trace.agree {step : I → S → S} {input input' : Nat → I} {σ σ' : Nat → S}
    (h : Trace step input σ) (h' : Trace step input' σ') (h0 : σ 0 = σ' 0) {t : Nat}
    (hin : ∀ u, u < t → input u = input' u) : σ t = σ' t := by
  induction t with
  | zero => exact h0
  | succ t ih =>
    rw [h t, h' t, hin t (Nat.lt_succ_self t), ih fun u hu => hin u (Nat.lt_succ_of_lt hu)]

def history (shown : Nat → Option A) (t : Nat) : List A := (List.range t).filterMap shown

@[simp] theorem history_zero (shown : Nat → Option A) : history shown 0 = [] := rfl

theorem history_succ (shown : Nat → Option A) (t : Nat) :
    history shown (t + 1) = history shown t ++ (shown t).toList := by
  cases h : shown t <;> simp [history, List.range_succ, h]

theorem history_flatMap {shown : Nat → Option A} {shown' : Nat → Option B} {f : A → List C}
    {g : B → List C} (h : ∀ t, (shown t).toList.flatMap f = (shown' t).toList.flatMap g) (t : Nat) :
    (history shown t).flatMap f = (history shown' t).flatMap g := by
  induction t with
  | zero => rfl
  | succ t ih => rw [history_succ, history_succ, List.flatMap_append, List.flatMap_append, ih, h t]

def Low (out : S → Bool) (σ : Nat → S) (a b : Nat) : Prop :=
  ∀ t, a < t → t ≤ b → out (σ t) = false

theorem Low.refl (out : S → Bool) (σ : Nat → S) (a : Nat) : Low out σ a a := by
  intro t ht hle
  omega

theorem Low.trans {out : S → Bool} {σ : Nat → S} {a b c : Nat} (hab : Low out σ a b)
    (hbc : Low out σ b c) : Low out σ a c := by
  intro t ht hle
  obtain h | h := Nat.lt_or_ge b t
  · exact hbc t h hle
  · exact hab t ht h

theorem Low.step {out : S → Bool} {σ : Nat → S} {a b : Nat} (hab : Low out σ a b)
    (h : out (σ (b + 1)) = false) : Low out σ a (b + 1) := by
  intro t ht hle
  obtain h' | h' := Nat.lt_or_ge b t
  · rw [show t = b + 1 by omega, h]
  · exact hab t ht h'

end OspreyBlake2b.Lib.Clocked
