import Mathlib.Logic.Basic

/-! Event-driven machines: a step function, the runs it has, and predicates on
every step of a run. -/

namespace OspreyBlake2b.Lib.Machine

variable {S E S' E' : Type}

def run (step : S → E → S) (s : S) (es : List E) : S := es.foldl step s

theorem run_append (step : S → E → S) (s : S) (as bs : List E) :
    run step s (as ++ bs) = run step (run step s as) bs := List.foldl_append

theorem run_invariant {step : S → E → S} {Inv : S → Prop}
    (hstep : ∀ s e, Inv s → Inv (step s e)) {s : S} (hs : Inv s) (es : List E) :
    Inv (run step s es) := by
  induction es generalizing s with
  | nil => exact hs
  | cons e es ih => exact ih (hstep s e hs)

section Simulation

variable {step : S → E → S} {step' : S' → E' → S'} {f : S → S'} {g : E → E'}
  (h : ∀ s e, f (step s e) = step' (f s) (g e))

include h

theorem run_simulates (s : S) (es : List E) : f (run step s es) = run step' (f s) (es.map g) := by
  induction es generalizing s with
  | nil => rfl
  | cons e es ih =>
    rw [List.map_cons]
    change f (run step (step s e) es) = run step' (step' (f s) (g e)) (es.map g)
    rw [ih, h]

end Simulation

/-- Every step of the run from `s` satisfies `P` in the state it is taken in. -/
def Along (step : S → E → S) (P : S → E → Prop) : S → List E → Prop
  | _, [] => True
  | s, e :: es => P s e ∧ Along step P (step s e) es

instance Along.decidable {step : S → E → S} {P : S → E → Prop} [∀ s e, Decidable (P s e)] :
    (s : S) → (es : List E) → Decidable (Along step P s es)
  | _, [] => isTrue trivial
  | s, e :: es =>
    have : Decidable (Along step P (step s e) es) := Along.decidable (step s e) es
    inferInstanceAs (Decidable (P s e ∧ Along step P (step s e) es))

/-- What an invariant and an assumption on single steps give at every step, they
give along every run whose steps all meet the assumption. -/
theorem Along.of_invariant {step : S → E → S} (Inv : S → Prop) {A P : S → E → Prop}
    (hstep : ∀ s e, Inv s → A s e → Inv (step s e) ∧ P s e) {es : List E} {s : S}
    (hs : Inv s) (h : Along step A s es) : Along step P s es := by
  induction es generalizing s with
  | nil => trivial
  | cons e es ih =>
    obtain ⟨hinv, hP⟩ := hstep s e hs h.1
    exact ⟨hP, ih hinv h.2⟩

theorem Along.run_invariant {step : S → E → S} {Inv : S → Prop} {A : S → E → Prop}
    (hstep : ∀ s e, Inv s → A s e → Inv (step s e)) {es : List E} {s : S} (hs : Inv s)
    (h : Along step A s es) : Inv (run step s es) := by
  induction es generalizing s with
  | nil => exact hs
  | cons e es ih => exact ih (hstep s e hs h.1) h.2

theorem Along.of_simulates {step : S → E → S} {step' : S' → E' → S'} {f : S → S'} {g : E → E'}
    (h : ∀ s e, f (step s e) = step' (f s) (g e)) {P : S' → E' → Prop} {es : List E} {s : S}
    (hes : Along step' P (f s) (es.map g)) : Along step (fun s e => P (f s) (g e)) s es := by
  induction es generalizing s with
  | nil => trivial
  | cons e es ih =>
    obtain ⟨he, hes⟩ := hes
    rw [← h] at hes
    exact ⟨he, ih hes⟩

theorem along_append {step : S → E → S} {P : S → E → Prop} {as bs : List E} {s : S} :
    Along step P s (as ++ bs) ↔ Along step P s as ∧ Along step P (run step s as) bs := by
  induction as generalizing s with
  | nil => exact (and_iff_right trivial).symm
  | cons a as ih => exact (and_congr_right fun _ => ih).trans and_assoc.symm

/-- When one bad step is seen in the state right after it, a property holds after
every part of a run exactly when no step of the run is bad. -/
theorem Along.iff_holds {step : S → E → S} (Inv : S → Prop) {A : S → E → Prop} {P : S → Prop}
    (hP : ∀ s, Inv s → P s) (hstep : ∀ s e, Inv s → A s e → Inv (step s e))
    (hbad : ∀ s e, Inv s → P (step s e) → A s e) {es : List E} {s : S} (hs : Inv s) :
    (∀ k, P (run step s (es.take k))) ↔ Along step A s es := by
  induction es generalizing s with
  | nil =>
    constructor
    · intro _
      trivial
    · intro _ k
      rw [List.take_nil]
      exact hP s hs
  | cons e es ih =>
    constructor
    · intro h
      have hA : A s e := hbad s e hs (h 1)
      exact ⟨hA, (ih (hstep s e hs hA)).mp fun k => h (k + 1)⟩
    · intro h k
      cases k with
      | zero => exact hP s hs
      | succ k => exact (ih (hstep s e hs h.1)).mpr h.2 k

end OspreyBlake2b.Lib.Machine
