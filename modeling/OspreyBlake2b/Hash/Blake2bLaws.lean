import OspreyBlake2b.Hash.Blake2b
import Mathlib.Data.List.FinRange
import Mathlib.Data.List.GetD
import Mathlib.Tactic.FinCases

/-! The shape of BLAKE2b that hardware uses: the sixteen working words as four
lanes, a round as two rows of four independent mixers, and the digest of a
message that fits one block. -/

namespace OspreyBlake2b.Hash.Blake2b

open OspreyBlake2b.Lib

def lanes (v : Vector U64 16) (j : Fin 4) : Quad :=
  ⟨v[j.val], v[j.val + 4], v[j.val + 8], v[j.val + 12]⟩

def diagonal (q : Fin 4 → Quad) (j : Fin 4) : Quad :=
  ⟨(q j).a, (q (j + 1)).b, (q (j + 2)).c, (q (j + 3)).d⟩

def undiagonal (q : Fin 4 → Quad) (j : Fin 4) : Quad :=
  ⟨(q j).a, (q (j + 3)).b, (q (j + 2)).c, (q (j + 1)).d⟩

theorem rowX_lt {k : Nat} (h : k ≤ 8) (j : Fin 4) : k + 2 * j.val < 16 := by omega

theorem rowY_lt {k : Nat} (h : k ≤ 8) (j : Fin 4) : k + 2 * j.val + 1 < 16 := by omega

def mixRow (x : Fin 16 → U64) (k : Nat) (h : k ≤ 8) (q : Fin 4 → Quad) (j : Fin 4) : Quad :=
  mix (q j) (x ⟨k + 2 * j.val, rowX_lt h j⟩) (x ⟨k + 2 * j.val + 1, rowY_lt h j⟩)

def roundLanes (x : Fin 16 → U64) (q : Fin 4 → Quad) : Fin 4 → Quad :=
  undiagonal (mixRow x 8 (by omega) (diagonal (mixRow x 0 (by omega) q)))

def operands (m : Vector U64 16) (r : Fin 12) (p : Fin 16) : U64 :=
  m.get ((sigma.get r).get p)

def columns (m : Vector U64 16) (r : Fin 12) (v : Vector U64 16) : Vector U64 16 :=
  G m r 3 (G m r 2 (G m r 1 (G m r 0 v 0 4 8 12) 1 5 9 13) 2 6 10 14) 3 7 11 15

def diagonals (m : Vector U64 16) (r : Fin 12) (v : Vector U64 16) : Vector U64 16 :=
  G m r 7 (G m r 6 (G m r 5 (G m r 4 v 0 5 10 15) 1 6 11 12) 2 7 8 13) 3 4 9 14

theorem round_eq (m v : Vector U64 16) (r : Fin 12) :
    round m v r = diagonals m r (columns m r v) := rfl

theorem lanes_columns (m v : Vector U64 16) (r : Fin 12) :
    lanes (columns m r v) = mixRow (operands m r) 0 (by omega) (lanes v) := by
  funext j
  fin_cases j <;> simp [lanes, columns, G, mixRow, operands, get_getElem]

theorem diagonal_diagonals (m v : Vector U64 16) (r : Fin 12) :
    diagonal (lanes (diagonals m r v)) =
      mixRow (operands m r) 8 (by omega) (diagonal (lanes v)) := by
  funext j
  fin_cases j <;> simp [lanes, diagonals, G, mixRow, operands, diagonal, get_getElem]

theorem undiagonal_diagonal (q : Fin 4 → Quad) : undiagonal (diagonal q) = q := by
  funext j
  fin_cases j <;> rfl

theorem lanes_round (m v : Vector U64 16) (r : Fin 12) :
    lanes (round m v r) = roundLanes (operands m r) (lanes v) := by
  rw [roundLanes, ← lanes_columns, ← diagonal_diagonals, undiagonal_diagonal, round_eq]

def lanesAfter (m v : Vector U64 16) (n : Nat) : Fin 4 → Quad :=
  lanes (((List.finRange 12).take n).foldl (round m) v)

theorem lanesAfter_zero (m v : Vector U64 16) : lanesAfter m v 0 = lanes v := by
  simp [lanesAfter]

theorem lanesAfter_succ (m v : Vector U64 16) (n : Nat) (h : n < 12) :
    lanesAfter m v (n + 1) = roundLanes (operands m ⟨n, h⟩) (lanesAfter m v n) := by
  have ht : (List.finRange 12).take (n + 1) = (List.finRange 12).take n ++ [⟨n, h⟩] := by
    rw [List.take_succ_eq_append_getElem (by simpa using h), List.getElem_finRange]
    rfl
  rw [lanesAfter, ht, List.foldl_append, List.foldl_cons, List.foldl_nil, lanes_round, lanesAfter]

theorem lanes_rounds (m v : Vector U64 16) : lanes (rounds m v) = lanesAfter m v 12 := by
  rw [lanesAfter, rounds, List.take_of_length_le (by simp)]

theorem absorb_short (fuel : Nat) (h : Vector U64 8) (counter : U64) (rest : List Byte)
    (hl : rest.length ≤ 128) : absorb fuel h counter rest = (h, counter, rest) := by
  cases fuel with
  | zero => rfl
  | succ fuel => rw [absorb, if_neg (by omega)]

theorem blake2bNokey_short (inp : List Byte) (outlen : Nat) (hl : inp.length ≤ 128) :
    blake2bNokey inp outlen =
      emit (compress (paramBlock outlen) (inp ++ List.replicate (128 - inp.length) 0)
        (BitVec.ofNat 64 inp.length) true) outlen := by
  simp [blake2bNokey, absorb_short _ _ _ _ hl]

theorem emit_length (h : Vector U64 8) (outlen : Nat) : (emit h outlen).length = outlen := by
  simp [emit]

@[simp] theorem blake2bNokey_length (inp : List Byte) (outlen : Nat) :
    (blake2bNokey inp outlen).length = outlen := by
  simp [blake2bNokey, emit_length]

theorem emit_word (h : Vector U64 8) (outlen k : Nat) (hk : k < 8) (hl : 8 * k + 8 ≤ outlen) :
    ((emit h outlen).drop (8 * k)).take 8 = leBytes 8 h[k] := by
  apply List.ext_getElem
  · simp [emit_length]
    omega
  · intro i h1 h2
    have hi : i < 8 := by simpa using h2
    have hd : (8 * k + i) / 8 = k := by omega
    have hm : (8 * k + i) % 8 = i := by omega
    simp [emit, leBytes, hd, hm, hk]

theorem drop_words (ws : List U64) (k : Nat) :
    (ws.flatMap (leBytes 8)).drop (8 * k) = (ws.drop k).flatMap (leBytes 8) := by
  induction k generalizing ws with
  | zero => simp
  | succ k ih =>
    cases ws with
    | nil => simp
    | cons w ws =>
      rw [List.flatMap_cons, List.drop_succ_cons, ← ih, Nat.mul_succ, Nat.add_comm,
        ← List.drop_drop, List.drop_left' (by simp)]

theorem load64_leBytes (w : U64) (rest : List Byte) : load64 (leBytes 8 w ++ rest) = w := by
  rw [load64, List.take_left' (by simp)]
  exact leWord_leBytes 8 w

theorem load64_append_zeros (bs : List Byte) (n : Nat) :
    load64 (bs ++ List.replicate n 0) = load64 bs := by
  rw [load64, List.take_append, List.take_replicate, leWord_append_zeros]
  rfl

theorem loadBlock_words (ws : List U64) (n : Nat) (i : Fin 16) :
    (loadBlock (ws.flatMap (leBytes 8) ++ List.replicate n 0)).get i = ws.getD i.val 0 := by
  have hlen : (ws.flatMap (leBytes 8)).length = 8 * ws.length := by
    simp [List.length_flatMap, Nat.mul_comm]
  simp only [loadBlock, get_getElem, Vector.getElem_ofFn, Nat.mul_comm i.val]
  by_cases hi : i.val < ws.length
  · rw [List.drop_append_of_le_length (by omega), drop_words, List.drop_eq_getElem_cons hi,
      List.flatMap_cons, List.append_assoc, load64_leBytes, List.getD_eq_getElem _ _ hi]
  · rw [List.drop_append, List.drop_eq_nil_of_le (by omega), List.nil_append,
      List.drop_replicate, load64, List.take_replicate, leWord_zeros,
      List.getD_eq_default _ _ (by omega)]

end OspreyBlake2b.Hash.Blake2b
