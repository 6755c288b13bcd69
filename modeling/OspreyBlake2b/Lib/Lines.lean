import Mathlib.Data.List.Basic

namespace OspreyBlake2b.Lib

variable {A : Type}

section Separated

variable [DecidableEq A]

/-- The non-empty lines that end in the stream, after the beginning `line` of the first,
and what is left after the last separator. -/
def lines (sep : A) (line : List A) : List A → List (List A) × List A
  | [] => ([], line)
  | c :: cs =>
    if c = sep then
      let r := lines sep [] cs
      (if line = [] then r.1 else line :: r.1, r.2)
    else lines sep (line ++ [c]) cs

variable {sep : A} {line : List A}

theorem lines_append (as bs : List A) :
    lines sep line (as ++ bs) =
      ((lines sep line as).1 ++ (lines sep (lines sep line as).2 bs).1,
        (lines sep (lines sep line as).2 bs).2) := by
  induction as generalizing line with
  | nil => rfl
  | cons c as ih =>
    simp only [List.cons_append, lines]
    split
    · rw [ih]
      split <;> rfl
    · exact ih

theorem lines_of_not_mem {cs : List A} (h : sep ∉ cs) : lines sep line cs = ([], line ++ cs) := by
  induction cs generalizing line with
  | nil => simp [lines]
  | cons c cs ih =>
    rw [List.mem_cons, not_or] at h
    rw [lines, if_neg (Ne.symm h.1), ih h.2, List.append_assoc]
    rfl

theorem lines_begin {cs : List A} (h : sep ∉ line) :
    lines sep [] (line ++ cs) = lines sep line cs := by
  rw [lines_append, lines_of_not_mem h]
  simp

theorem not_mem_lines {cs : List A} (h : sep ∉ line) : sep ∉ (lines sep line cs).2 := by
  induction cs generalizing line with
  | nil => exact h
  | cons c cs ih =>
    rw [lines]
    split
    · exact ih List.not_mem_nil
    · rename_i hc
      apply ih
      simp only [List.mem_append, List.mem_singleton, not_or]
      exact ⟨h, Ne.symm hc⟩

end Separated

def upTo (p : A → Bool) : List A → List A
  | [] => []
  | a :: as => if p a then [a] else a :: upTo p as

theorem upTo_append (p : A → Bool) (as bs : List A) :
    upTo p (as ++ bs) = if as.any p then upTo p as else as ++ upTo p bs := by
  induction as with
  | nil => rfl
  | cons a as ih =>
    rw [List.cons_append, upTo, upTo, List.any_cons, ih]
    cases p a with
    | true => rfl
    | false =>
      simp only [Bool.false_or, Bool.false_eq_true, if_false]
      split <;> rfl

theorem upTo_of_any {p : A → Bool} {as : List A} (h : as.any p = true) (bs : List A) :
    upTo p (as ++ bs) = upTo p as := by
  rw [upTo_append, if_pos h]

theorem upTo_of_not_any {p : A → Bool} {as : List A} (h : ¬ as.any p = true) (bs : List A) :
    upTo p (as ++ bs) = as ++ upTo p bs := by
  rw [upTo_append, if_neg h]

end OspreyBlake2b.Lib
