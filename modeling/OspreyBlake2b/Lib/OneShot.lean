import Mathlib.Data.List.Basic

/-! Attempts that go home, but for the one after a redirect. -/

namespace OspreyBlake2b.Lib

variable {T : Type}

/-- A redirect names a place to go once, or revokes the last. -/
inductive Move (T : Type) where
  | redirect (place : Option T)
  | attempt (place : T)
  deriving DecidableEq

namespace Move

def owed : Option T → List (Move T) → Option T
  | p, [] => p
  | _, .redirect p :: ms => owed p ms
  | _, .attempt _ :: ms => owed none ms

/-- Every attempt goes where one is owed, and home otherwise. -/
def Once (home : T) : Option T → List (Move T) → Prop
  | _, [] => True
  | _, .redirect p :: ms => Once home p ms
  | p, .attempt u :: ms => u = p.getD home ∧ Once home none ms

def isAttempt : Move T → Bool
  | .attempt _ => true
  | .redirect _ => false

def strays [DecidableEq T] (home : T) : Move T → Bool
  | .attempt u => u ≠ home
  | .redirect _ => false

variable {home : T}

theorem owed_append (p : Option T) (as bs : List (Move T)) :
    owed p (as ++ bs) = owed (owed p as) bs := by
  induction as generalizing p with
  | nil => rfl
  | cons m as ih => cases m <;> exact ih _

theorem once_append (p : Option T) (as bs : List (Move T)) :
    Once home p (as ++ bs) ↔ Once home p as ∧ Once home (owed p as) bs := by
  induction as generalizing p with
  | nil => simp [Once, owed]
  | cons m as ih =>
    cases m with
    | redirect q => exact ih q
    | attempt u => simp only [List.cons_append, Once, owed, ih, and_assoc]

theorem Once.home_after {ms : List (Move T)} (h : Once home none ms)
    (hms : ms.all isAttempt = true) : ∀ u, .attempt u ∈ ms → u = home := by
  induction ms with
  | nil => simp
  | cons m ms ih =>
    cases m with
    | redirect q => simp [isAttempt] at hms
    | attempt v =>
      intro u hu
      obtain hu | hu := List.mem_cons.mp hu
      · cases hu
        exact h.1
      · exact ih h.2 (by simpa [isAttempt] using hms) u hu

/-- Between two redirects all attempts but at most the first go home, and that one goes
where the redirect said. -/
theorem Once.between [DecidableEq T] {p : Option T} {ms : List (Move T)} (h : Once home p ms)
    (hms : ms.all isAttempt = true) :
    (ms.filter (strays home)).length ≤ 1 ∧ ∀ u, .attempt u ∈ ms → u = home ∨ p = some u := by
  cases ms with
  | nil => simp
  | cons m ms =>
    cases m with
    | redirect q => simp [isAttempt] at hms
    | attempt v =>
      have hafter := Once.home_after h.2 (by simpa [isAttempt] using hms)
      have hrest : ms.filter (strays home) = [] := by
        rw [List.filter_eq_nil_iff]
        intro m hm
        cases m with
        | redirect q => simp [strays]
        | attempt u => simp [strays, hafter u hm]
      refine ⟨?_, fun u hu => ?_⟩
      · rw [List.filter_cons, hrest]
        split <;> simp
      · obtain hu | hu := List.mem_cons.mp hu
        · cases hu
          cases p with
          | none => exact .inl h.1
          | some q => exact .inr (congrArg some h.1.symm)
        · exact .inl (hafter u hu)

end Move

end OspreyBlake2b.Lib
