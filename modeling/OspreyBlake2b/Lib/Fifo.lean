import OspreyBlake2b.Lib.Machine

namespace OspreyBlake2b.Lib

structure Fifo (α : Type) (depth : Nat) where
  items : List α
  fits : items.length ≤ depth

namespace Fifo

variable {α : Type} {depth : Nat}

def empty : Fifo α depth := ⟨[], Nat.zero_le depth⟩

def full (f : Fifo α depth) : Bool := f.items.length = depth

theorem fits_push {f : Fifo α depth} (h : ¬ f.full = true) (a : α) :
    (f.items ++ [a]).length ≤ depth := by
  have hfits := f.fits
  rw [full, decide_eq_true_iff] at h
  rw [List.length_append, List.length_singleton]
  omega

/-- A full queue drops the item. -/
def push (f : Fifo α depth) (a : α) : Fifo α depth :=
  if h : f.full = true then f else ⟨f.items ++ [a], fits_push h a⟩

theorem fits_tail (f : Fifo α depth) : f.items.tail.length ≤ depth := by
  have hfits := f.fits
  rw [List.length_tail]
  omega

def pop (f : Fifo α depth) : Fifo α depth := ⟨f.items.tail, f.fits_tail⟩

theorem items_push {f : Fifo α depth} (h : f.full = false) (a : α) :
    (f.push a).items = f.items ++ [a] := by
  rw [push, dif_neg (by rw [h]; exact Bool.false_ne_true)]

theorem head_pop {f : Fifo α depth} {a : α} (h : f.items.head? = some a) :
    a :: f.pop.items = f.items := by
  obtain ⟨as, has⟩ := List.head?_eq_some_iff.mp h
  have hpop : f.pop.items = f.items.tail := rfl
  rw [hpop, has, List.tail_cons]

theorem full_pop {f : Fifo α depth} (hd : 0 < depth) : f.pop.full = false := by
  have hfits := f.fits
  rw [full, decide_eq_false_iff_not, pop, List.length_tail]
  omega

end Fifo

end OspreyBlake2b.Lib
