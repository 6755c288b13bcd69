import Mathlib.Data.List.Basic
import Mathlib.Data.List.Induction
import Mathlib.Tactic.Ring

namespace OspreyBlake2b.Lib.Blocks

variable {n : Nat} {bs : List (List α)}

theorem length_flatten (h : ∀ b ∈ bs, b.length = n) : bs.flatten.length = n * bs.length := by
  induction bs with
  | nil => rfl
  | cons b bs ih =>
    rw [List.forall_mem_cons] at h
    rw [List.flatten_cons, List.length_append, h.1, ih h.2, List.length_cons, Nat.mul_succ,
      Nat.add_comm]

theorem drop_flatten (h : ∀ b ∈ bs, b.length = n) (i : Nat) :
    bs.flatten.drop (n * i) = (bs.drop i).flatten := by
  induction i generalizing bs with
  | zero => rfl
  | succ i ih =>
    cases bs with
    | nil => simp
    | cons b bs =>
      rw [List.forall_mem_cons] at h
      rw [List.flatten_cons, Nat.mul_succ, Nat.add_comm, ← List.drop_drop, List.drop_left' h.1,
        ih h.2, List.drop_succ_cons]

theorem take_flatten (h : ∀ b ∈ bs, b.length = n) (i : Nat) :
    bs.flatten.take (n * i) = (bs.take i).flatten := by
  induction i generalizing bs with
  | zero => simp
  | succ i ih =>
    cases bs with
    | nil => simp
    | cons b bs =>
      rw [List.forall_mem_cons] at h
      rw [List.flatten_cons, Nat.mul_succ, Nat.add_comm, ← h.1, List.take_length_add_append, h.1,
        ih h.2, List.take_succ_cons, List.flatten_cons]

def blocks (n : Nat) (xs : List α) : List (List α) :=
  (List.range (xs.length / n)).map fun i => (xs.drop (n * i)).take n

def rest (n : Nat) (xs : List α) : List α := xs.drop (n * (xs.length / n))

theorem flatten_split {r : List α} (h : ∀ b ∈ bs, b.length = n) (hr : r.length < n) :
    (bs.flatten ++ r).length / n = bs.length := by
  rw [List.length_append, length_flatten h, Nat.mul_add_div (Nat.zero_lt_of_lt hr),
    Nat.div_eq_of_lt hr, Nat.add_zero]

/-- There is only one way to cut a list into full blocks and a shorter rest. -/
theorem blocks_split {r : List α} (h : ∀ b ∈ bs, b.length = n) (hr : r.length < n) :
    blocks n (bs.flatten ++ r) = bs := by
  rw [blocks, flatten_split h hr]
  apply List.ext_getElem
  · rw [List.length_map, List.length_range]
  · intro i _ hi
    have hlen := length_flatten h
    have hle : n * i ≤ bs.flatten.length := hlen ▸ Nat.mul_le_mul_left n (Nat.le_of_lt hi)
    rw [List.getElem_map, List.getElem_range, List.drop_append_of_le_length hle, drop_flatten h,
      List.drop_eq_getElem_cons hi, List.flatten_cons, List.append_assoc,
      List.take_left' (h _ (List.getElem_mem hi))]

theorem rest_split {r : List α} (h : ∀ b ∈ bs, b.length = n) (hr : r.length < n) :
    rest n (bs.flatten ++ r) = r := by
  rw [rest, flatten_split h hr]
  exact List.drop_left' (length_flatten h)

theorem blocks_flatten (hn : 0 < n) (h : ∀ b ∈ bs, b.length = n) : blocks n bs.flatten = bs := by
  have hsplit : blocks n (bs.flatten ++ []) = bs := blocks_split h hn
  rwa [List.append_nil] at hsplit

theorem length_of_mem_blocks {xs b : List α} (h : b ∈ blocks n xs) : b.length = n := by
  obtain ⟨i, hi, rfl⟩ := List.mem_map.mp h
  have hlt := List.mem_range.mp hi
  have hle : n * (i + 1) ≤ xs.length :=
    Nat.le_trans (Nat.mul_le_mul_left n hlt) (Nat.mul_div_le _ _)
  rw [List.length_take, List.length_drop]
  rw [Nat.mul_succ] at hle
  omega

theorem length_blocks (n : Nat) (xs : List α) : (blocks n xs).length = xs.length / n := by
  rw [blocks, List.length_map, List.length_range]

theorem length_rest (n : Nat) (xs : List α) : (rest n xs).length = xs.length % n := by
  rw [rest, List.length_drop, Nat.mod_eq_sub_mul_div]

theorem flatten_blocks (n : Nat) (xs : List α) :
    (blocks n xs).flatten = xs.take (n * (xs.length / n)) := by
  rw [blocks]
  induction xs.length / n with
  | zero => simp
  | succ k ih =>
    rw [List.range_succ, List.map_append, List.flatten_append, ih, Nat.mul_succ, List.take_add]
    simp

theorem blocks_append_rest (n : Nat) (xs : List α) : (blocks n xs).flatten ++ rest n xs = xs := by
  rw [flatten_blocks, rest, List.take_append_drop]

theorem append_split (hn : 0 < n) (xs ys : List α) :
    blocks n (xs ++ ys) = blocks n xs ++ blocks n (rest n xs ++ ys) ∧
      rest n (xs ++ ys) = rest n (rest n xs ++ ys) := by
  have hall : ∀ b ∈ blocks n xs ++ blocks n (rest n xs ++ ys), b.length = n := by
    intro b hb
    obtain hb | hb := List.mem_append.mp hb
    · exact length_of_mem_blocks hb
    · exact length_of_mem_blocks hb
  have hsplit : (blocks n xs ++ blocks n (rest n xs ++ ys)).flatten ++ rest n (rest n xs ++ ys) =
      xs ++ ys := by
    rw [List.flatten_append, List.append_assoc, blocks_append_rest, ← List.append_assoc,
      blocks_append_rest]
  have hlt : (rest n (rest n xs ++ ys)).length < n := by
    rw [length_rest]
    exact Nat.mod_lt _ hn
  have hblocks := blocks_split hall hlt
  have hrest := rest_split hall hlt
  rw [hsplit] at hblocks hrest
  exact ⟨hblocks, hrest⟩

theorem blocks_short {xs : List α} (h : xs.length < n) : blocks n xs = [] := by
  rw [blocks, Nat.div_eq_of_lt h]
  rfl

theorem rest_short {xs : List α} (h : xs.length < n) : rest n xs = xs := by
  rw [rest, Nat.div_eq_of_lt h]
  rfl

theorem rest_full {xs : List α} (h : xs.length = n) : rest n xs = [] := by
  apply List.eq_nil_of_length_eq_zero
  rw [length_rest, h, Nat.mod_self]

theorem blocks_one {xs : List α} (hn : 0 < n) (h : xs.length = n) : blocks n xs = [xs] := by
  rw [blocks, h, Nat.div_self hn]
  simp [List.take_of_length_le (Nat.le_of_eq h)]

/-- A buffer that is handed on and emptied when it holds `n`. -/
def feed (n : Nat) (f : σ → List α → σ) (c : σ × List α) (x : α) : σ × List α :=
  let buf := c.2 ++ [x]
  if buf.length = n then (f c.1 buf, []) else (c.1, buf)

theorem feed_full {f : σ → List α → σ} {c : σ × List α} {x : α} (h : (c.2 ++ [x]).length = n) :
    feed n f c x = (f c.1 (c.2 ++ [x]), []) := if_pos h

theorem feed_open {f : σ → List α → σ} {c : σ × List α} {x : α} (h : (c.2 ++ [x]).length ≠ n) :
    feed n f c x = (c.1, c.2 ++ [x]) := if_neg h

theorem foldl_feed (hn : 0 < n) (f : σ → List α → σ) (s : σ) (xs : List α) :
    xs.foldl (feed n f) (s, []) = ((blocks n xs).foldl f s, rest n xs) := by
  induction xs using List.reverseRecOn with
  | nil => rw [blocks_short hn, rest_short hn]; rfl
  | append_singleton xs x ih =>
    obtain ⟨hblocks, hrest⟩ := append_split hn xs [x]
    have hlen : (rest n xs ++ [x]).length = xs.length % n + 1 := by
      rw [List.length_append, length_rest, List.length_singleton]
    have hlt := Nat.mod_lt xs.length hn
    rw [List.foldl_append, ih, List.foldl_cons, List.foldl_nil, hblocks, hrest, List.foldl_append]
    by_cases hfull : (rest n xs ++ [x]).length = n
    · rw [feed_full hfull, blocks_one hn hfull, rest_full hfull]
      rfl
    · have hshort : (rest n xs ++ [x]).length < n := by omega
      rw [feed_open hfull, blocks_short hshort, rest_short hshort]
      rfl

end OspreyBlake2b.Lib.Blocks
