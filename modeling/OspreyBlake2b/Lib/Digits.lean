import Mathlib.Data.Nat.Digits.Lemmas

namespace OspreyBlake2b.Lib

def bigVal (b : Nat) (ds : List Nat) : Nat := Nat.ofDigits b ds.reverse

def bigDigits (b n v : Nat) : List Nat := ((List.range n).map fun i => v / b ^ i % b).reverse

variable {b n v : Nat} {ds : List Nat}

@[simp] theorem bigVal_nil : bigVal b [] = 0 := rfl

theorem bigVal_append (as bs : List Nat) :
    bigVal b (as ++ bs) = bigVal b as * b ^ bs.length + bigVal b bs := by
  rw [bigVal, List.reverse_append, Nat.ofDigits_append, List.length_reverse, Nat.add_comm,
    Nat.mul_comm]
  rfl

@[simp] theorem bigVal_singleton (d : Nat) : bigVal b [d] = d := by
  simp [bigVal]

theorem bigVal_cons (d : Nat) (ds : List Nat) :
    bigVal b (d :: ds) = d * b ^ ds.length + bigVal b ds := by
  simpa using bigVal_append (b := b) [d] ds

theorem bigVal_lt (hb : 1 < b) (hds : ∀ d ∈ ds, d < b) : bigVal b ds < b ^ ds.length := by
  have h := Nat.ofDigits_lt_base_pow_length hb
    (show ∀ d ∈ ds.reverse, d < b from fun d hd => hds d (List.mem_reverse.mp hd))
  rwa [List.length_reverse] at h

@[simp] theorem bigDigits_length : (bigDigits b n v).length = n := by
  simp [bigDigits]

theorem bigDigits_lt (hb : 0 < b) : ∀ d ∈ bigDigits b n v, d < b := by
  intro d hd
  obtain ⟨i, -, rfl⟩ := List.mem_map.mp (List.mem_reverse.mp hd)
  exact Nat.mod_lt _ hb

theorem bigVal_bigDigits : bigVal b (bigDigits b n v) = v % b ^ n := by
  rw [bigVal, bigDigits, List.reverse_reverse]
  induction n with
  | zero => simp [Nat.mod_one]
  | succ n ih =>
    rw [List.range_succ, List.map_append, Nat.ofDigits_append, ih, List.length_map,
      List.length_range, List.map_singleton, Nat.ofDigits_singleton, Nat.mod_pow_succ]

theorem bigVal_eq_iff (hb : 1 < b) (hds : ∀ d ∈ ds, d < b) (hlen : ds.length = n)
    (hv : v < b ^ n) : bigVal b ds = v ↔ ds = bigDigits b n v := by
  constructor
  · intro h
    apply List.reverse_injective
    apply Nat.ofDigits_inj_of_len_eq hb
    · simp [hlen]
    · exact fun d hd => hds d (List.mem_reverse.mp hd)
    · exact fun d hd => bigDigits_lt (by omega) d (List.mem_reverse.mp hd)
    · rw [← bigVal, ← bigVal, h, bigVal_bigDigits, Nat.mod_eq_of_lt hv]
  · rintro rfl
    rw [bigVal_bigDigits, Nat.mod_eq_of_lt hv]

end OspreyBlake2b.Lib
