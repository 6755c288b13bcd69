import Mathlib.Data.List.Basic
import Mathlib.Data.List.GetD

/-! Merkle trees in which an odd row pairs its last element with itself, and the loop
that builds them row by row in the array that holds the leaves. -/

namespace OspreyBlake2b.Lib.Merkle

variable (node : α → α → α)

def pairRow : List α → List α
  | a :: b :: xs => node a b :: pairRow xs
  | [a] => [node a a]
  | [] => []

@[simp] theorem pairRow_length (xs : List α) : (pairRow node xs).length = (xs.length + 1) / 2 := by
  fun_induction pairRow node xs with
  | case1 a b xs ih =>
    simp only [List.length_cons, ih]
    omega
  | case2 a => simp
  | case3 => simp

def root : List α → Option α
  | [] => none
  | [a] => some a
  | a :: b :: xs => root (pairRow node (a :: b :: xs))
termination_by xs => xs.length
decreasing_by
  rw [pairRow_length]
  simp only [List.length_cons]
  omega

theorem root_pairRow {xs : List α} (h : 1 < xs.length) : root node xs = root node (pairRow node xs) := by
  obtain _ | ⟨a, _ | ⟨b, xs⟩⟩ := xs
  · simp at h
  · simp at h
  · rw [root]

theorem pairRow_getD (d : α) (xs : List α) {i : Nat} (hi : 2 * i < xs.length) :
    (pairRow node xs).getD i d =
      node (xs.getD (2 * i) d)
        (if 2 * i + 1 < xs.length then xs.getD (2 * i + 1) d else xs.getD (2 * i) d) := by
  fun_induction pairRow node xs generalizing i with
  | case1 a b xs ih =>
    obtain _ | i := i
    · simp
    · have hi' : 2 * i < xs.length := by
        simp only [List.length_cons] at hi
        omega
      have hpos : 2 * (i + 1) = 2 * i + 1 + 1 := by omega
      simp only [List.length_cons, hpos, List.getD_cons_succ, ih hi', Nat.add_lt_add_iff_right]
  | case2 a =>
    have hi : i = 0 := by
      simp only [List.length_singleton] at hi
      omega
    simp [hi]
  | case3 => simp at hi

/-- `buf[i] = node (buf[2 i], buf[2 i + 1])` in a row of `count` elements. -/
def writeSlot (d : α) (count : Nat) (buf : List α) (i : Nat) : List α :=
  let left := buf.getD (2 * i) d
  let right := if 2 * i + 1 < count then buf.getD (2 * i + 1) d else left
  buf.set i (node left right)

def rowInPlace (d : α) (count : Nat) (buf : List α) : List α :=
  (List.range ((count + 1) / 2)).foldl (writeSlot node d count) buf

def loopInPlace (d : α) : Nat → Nat → List α → List α
  | 0, _, buf => buf
  | fuel + 1, count, buf =>
    if count > 1 then loopInPlace d fuel ((count + 1) / 2) (rowInPlace node d count buf) else buf

variable {node} {d : α} {count : Nat} {buf : List α}

/-- Slot `k` is written when the slots from `k` on still hold the row below: `2 k` and
`2 k + 1` are among them. -/
theorem writeSlot_next (hcount : count ≤ buf.length) {k : Nat} (hk : 2 * k < count) :
    writeSlot node d count ((pairRow node (buf.take count)).take k ++ buf.drop k) k =
      (pairRow node (buf.take count)).take (k + 1) ++ buf.drop (k + 1) := by
  have hrow : (buf.take count).length = count := by rw [List.length_take, Nat.min_eq_left hcount]
  have hlen : k < (pairRow node (buf.take count)).length := by
    rw [pairRow_length, hrow]
    omega
  have hfront : ((pairRow node (buf.take count)).take k).length = k := by
    rw [List.length_take, Nat.min_eq_left (Nat.le_of_lt hlen)]
  have hread {i : Nat} (hi : k ≤ i) (hcount : i < count) :
      ((pairRow node (buf.take count)).take k ++ buf.drop k).getD i d =
        (buf.take count).getD i d := by
    rw [List.getD_append_right _ _ _ _ (by omega), hfront, List.getD_eq_getElem?_getD,
      List.getElem?_drop, Nat.add_sub_cancel' hi, List.getD_eq_getElem?_getD,
      List.getElem?_take_of_lt hcount]
  have hnode := pairRow_getD node d (buf.take count) (i := k) (by omega)
  rw [hrow] at hnode
  have hright : (if 2 * k + 1 < count then
      ((pairRow node (buf.take count)).take k ++ buf.drop k).getD (2 * k + 1) d
      else ((pairRow node (buf.take count)).take k ++ buf.drop k).getD (2 * k) d) =
      if 2 * k + 1 < count then (buf.take count).getD (2 * k + 1) d
      else (buf.take count).getD (2 * k) d := by
    split
    · exact hread (by omega) ‹_›
    · exact hread (by omega) hk
  simp only [writeSlot]
  rw [hright, hread (by omega) hk, ← hnode, List.set_append_right _ _ (Nat.le_of_eq hfront), hfront,
    Nat.sub_self, List.drop_eq_getElem_cons (show k < buf.length by omega), List.set_cons_zero,
    List.take_succ_eq_append_getElem hlen, List.getD_eq_getElem _ _ hlen, List.append_assoc]
  rfl

theorem rowInPlace_eq (hcount : count ≤ buf.length) :
    rowInPlace node d count buf =
      pairRow node (buf.take count) ++ buf.drop ((count + 1) / 2) := by
  have hrow : (buf.take count).length = count := by rw [List.length_take, Nat.min_eq_left hcount]
  have hprefix (k : Nat) (hk : k ≤ (count + 1) / 2) :
      (List.range k).foldl (writeSlot node d count) buf =
        (pairRow node (buf.take count)).take k ++ buf.drop k := by
    induction k with
    | zero => simp
    | succ k ih =>
      rw [List.range_succ, List.foldl_append, ih (by omega)]
      exact writeSlot_next hcount (by omega)
  have hall : (pairRow node (buf.take count)).length ≤ (count + 1) / 2 :=
    Nat.le_of_eq (by rw [pairRow_length, hrow])
  rw [rowInPlace, hprefix _ (Nat.le_refl _), List.take_of_length_le hall]

theorem loopInPlace_head {fuel : Nat} (hfuel : count ≤ fuel) (hpos : 0 < count)
    (hcount : count ≤ buf.length) :
    (loopInPlace node d fuel count buf).head? = root node (buf.take count) := by
  induction fuel generalizing count buf with
  | zero => omega
  | succ fuel ih =>
    have hrow : (buf.take count).length = count := by
      rw [List.length_take, Nat.min_eq_left hcount]
    rw [loopInPlace]
    split
    · have hpairs : (pairRow node (buf.take count)).length = (count + 1) / 2 := by
        rw [pairRow_length, hrow]
      rw [ih (by omega) (by omega)
          (by rw [rowInPlace_eq hcount, List.length_append, hpairs]; exact Nat.le_add_right _ _),
        rowInPlace_eq hcount, List.take_left' hpairs, ← root_pairRow]
      rwa [hrow]
    · obtain ⟨a, buf, rfl⟩ := List.exists_cons_of_length_pos (Nat.lt_of_lt_of_le hpos hcount)
      have hone : count = 1 := by omega
      rw [hone, List.take_succ_cons, List.take_zero, root]
      rfl

theorem loopInPlace_root {xs : List α} (h : xs ≠ []) :
    (loopInPlace node d xs.length xs.length xs).head? = root node xs := by
  rw [loopInPlace_head (Nat.le_refl _) (List.length_pos_of_ne_nil h) (Nat.le_refl _), List.take_length]

end OspreyBlake2b.Lib.Merkle
