import Mathlib.Analysis.SpecialFunctions.Pow.NthRootLemmas
import Mathlib.Data.List.Forall2
import Mathlib.Data.List.GetD
import Mathlib.Data.Nat.Nth
import Mathlib.Data.Nat.Prime.Defs

namespace OspreyBlake2b.Lib

/-- The first `w` bits of the fractional part of the `k`-th root of `a`. -/
def rootBits (k w a : Nat) : BitVec w := BitVec.ofNat w (Nat.nthRoot k (a * 2 ^ (k * w)))

noncomputable def prime (i : Nat) : Nat := Nat.nth Nat.Prime i

def IsRootBits (k w a : Nat) (v : BitVec w) : Prop :=
  ∃ c < a, (c * 2 ^ w + v.toNat) ^ k ≤ a * 2 ^ (k * w) ∧
    a * 2 ^ (k * w) < (c * 2 ^ w + v.toNat + 1) ^ k

instance (k w a : Nat) (v : BitVec w) : Decidable (IsRootBits k w a v) :=
  inferInstanceAs (Decidable (∃ c < a, _ ∧ _))

theorem IsRootBits.eq {k w a : Nat} {v : BitVec w} (h : IsRootBits k w a v) :
    rootBits k w a = v := by
  obtain ⟨c, -, hle, hlt⟩ := h
  apply BitVec.eq_of_toNat_eq
  rw [rootBits, Nat.nthRoot_eq_of_le_of_lt hle hlt, BitVec.toNat_ofNat, Nat.mul_comm,
    Nat.mul_add_mod, Nat.mod_eq_of_lt v.isLt]

theorem map_rootBits {k w : Nat} {as : List Nat} {vs : List (BitVec w)}
    (h : List.Forall₂ (IsRootBits k w) as vs) : as.map (rootBits k w) = vs := by
  induction h with
  | nil => rfl
  | cons h _ ih => rw [List.map_cons, h.eq, ih]

theorem filter_range_eq_nth (p : Nat → Prop) [DecidablePred p] (n : Nat) :
    (List.range n).filter p = (List.range (Nat.count p n)).map (Nat.nth p) := by
  induction n with
  | zero => simp
  | succ n ih =>
    rw [List.range_succ, List.filter_append, ih, Nat.count_succ]
    by_cases hp : p n
    · rw [if_pos hp, List.range_succ, List.map_append, List.map_singleton, Nat.nth_count hp,
        List.filter_singleton]
      simp [hp]
    · rw [if_neg hp, Nat.add_zero, List.filter_singleton]
      simp [hp]

def primes : List Nat := [
  2, 3, 5, 7, 11, 13, 17, 19, 23, 29, 31, 37, 41, 43, 47, 53,
  59, 61, 67, 71, 73, 79, 83, 89, 97, 101, 103, 107, 109, 113, 127, 131,
  137, 139, 149, 151, 157, 163, 167, 173, 179, 181, 191, 193, 197, 199, 211, 223,
  227, 229, 233, 239, 241, 251, 257, 263, 269, 271, 277, 281, 283, 293, 307, 311]

theorem filter_prime_range : (List.range 312).filter Nat.Prime = primes := by
  decide +kernel

theorem map_prime_range : (List.range 64).map prime = primes := by
  have h := filter_range_eq_nth Nat.Prime 312
  rw [filter_prime_range] at h
  have hcount : Nat.count Nat.Prime 312 = 64 := by
    have hlen := congrArg List.length h
    rw [List.length_map, List.length_range] at hlen
    exact hlen.symm
  rw [hcount] at h
  exact h.symm

theorem map_rootBits_prime {k w n : Nat} {vs : List (BitVec w)} (hn : n ≤ 64)
    (h : List.Forall₂ (IsRootBits k w) (primes.take n) vs) :
    (List.range n).map (fun i => rootBits k w (prime i)) = vs := by
  rw [← map_rootBits h, ← map_prime_range, ← List.map_take, List.take_range, Nat.min_eq_left hn,
    List.map_map]
  rfl

theorem rootBits_prime {k w n : Nat} {vs : List (BitVec w)} (hn : n ≤ 64)
    (h : List.Forall₂ (IsRootBits k w) (primes.take n) vs) {i : Nat} (hi : i < n) :
    rootBits k w (prime i) = vs.getD i 0 := by
  rw [← map_rootBits_prime hn h, List.getD_eq_getElem _ _ (by simpa using hi), List.getElem_map,
    List.getElem_range]

end OspreyBlake2b.Lib
