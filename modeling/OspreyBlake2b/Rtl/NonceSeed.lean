import OspreyBlake2b.Lib.Bytes
import Mathlib.Data.Nat.Log

/-! `ClogB2` and `CoreNonceSeed` of `PkgOspreyBlake2b.vhd`: every core's slice of the
nonces. -/

namespace OspreyBlake2b.Rtl

open OspreyBlake2b.Lib

/-- `integer'high`: a value past it is a range error, here `none`. -/
def integerHigh : Nat := 2 ^ 31 - 1

/-- The loop of `ClogB2`; `v` can be doubled 31 times at most. -/
def clogLoop (n : Nat) : Nat → Nat → Nat → Option Nat
  | 0, _, _ => none
  | fuel + 1, v, r =>
    if v < n then if v * 2 ≤ integerHigh then clogLoop n fuel (v * 2) (r + 1) else none
    else some r

def ClogB2 (n : Nat) : Option Nat := clogLoop n 32 1 0

/-- Shifting by the full width gives zeros. -/
def CoreNonceSeed (idx n : Nat) : Option U64 :=
  (ClogB2 n).map fun m => (BitVec.ofNat 64 idx <<< (64 - m)) - 1

theorem clogLoop_eq {n : Nat} (hn : n ≤ 2 ^ 30) (d r : Nat) (hr : r + d = Nat.clog 2 n)
    (fuel : Nat) (hfuel : d < fuel) : clogLoop n fuel (2 ^ r) r = some (Nat.clog 2 n) := by
  induction d generalizing r fuel with
  | zero =>
    obtain ⟨fuel, rfl⟩ := Nat.exists_eq_succ_of_ne_zero (Nat.ne_of_gt hfuel)
    have hdone : ¬ 2 ^ r < n := by
      rw [show r = Nat.clog 2 n from hr, Nat.not_lt]
      exact Nat.le_pow_clog (by decide) n
    rw [clogLoop, if_neg hdone, ← hr, Nat.add_zero]
  | succ d ih =>
    obtain ⟨fuel, rfl⟩ := Nat.exists_eq_succ_of_ne_zero (Nat.ne_zero_of_lt hfuel)
    have hmore : 2 ^ r < n := (Nat.lt_clog_iff_pow_lt (by decide)).mp (by omega)
    have hlt : r < 30 := (Nat.pow_lt_pow_iff_right (by decide)).mp (hmore.trans_le hn)
    have hrange : 2 ^ r * 2 ≤ integerHigh := by
      rw [← Nat.pow_succ]
      exact (Nat.pow_le_pow_right (by decide) hlt).trans (by decide)
    rw [clogLoop, if_pos hmore, if_pos hrange, ← Nat.pow_succ]
    exact ih (r + 1) (by omega) fuel (by omega)

theorem clogB2_eq {n : Nat} (hn : n ≤ 2 ^ 30) : ClogB2 n = some (Nat.clog 2 n) := by
  have hclog : Nat.clog 2 n ≤ 30 := Nat.clog_le_of_le_pow hn
  exact clogLoop_eq hn (Nat.clog 2 n) 0 (Nat.zero_add _) 32 (by omega)

section Slice

variable {k m a : Nat}

def sliceNonce (k m a : Nat) : U64 :=
  (BitVec.ofNat 64 k <<< (64 - m)) - 1 + BitVec.ofNat 64 a

theorem ofNat_shiftLeft (k s : Nat) :
    BitVec.ofNat 64 k <<< s = BitVec.ofNat 64 (k * 2 ^ s) := by
  apply BitVec.eq_of_toNat_eq
  rw [BitVec.toNat_shiftLeft, Nat.shiftLeft_eq, BitVec.toNat_ofNat, BitVec.toNat_ofNat,
    Nat.mod_mul_mod]

/-- The seed is one below its slice. -/
theorem sliceNonce_succ (k m a : Nat) :
    sliceNonce k m (a + 1) = BitVec.ofNat 64 (k * 2 ^ (64 - m) + a) := by
  have hone : BitVec.ofNat 64 1 = (1 : U64) := rfl
  rw [sliceNonce, ofNat_shiftLeft, BitVec.ofNat_add, BitVec.ofNat_add, hone]
  grind

theorem slice_lt (hm : m ≤ 64) (hk : k < 2 ^ m) (ha : a < 2 ^ (64 - m)) :
    k * 2 ^ (64 - m) + a < 2 ^ 64 := by
  have hslices : (k + 1) * 2 ^ (64 - m) ≤ 2 ^ m * 2 ^ (64 - m) := Nat.mul_le_mul_right _ hk
  rw [← Nat.pow_add, Nat.add_sub_cancel' hm, Nat.succ_mul] at hslices
  omega

theorem slice_div (ha : a < 2 ^ (64 - m)) : (k * 2 ^ (64 - m) + a) / 2 ^ (64 - m) = k := by
  rw [Nat.mul_comm, Nat.mul_add_div (Nat.two_pow_pos _), Nat.div_eq_of_lt ha, Nat.add_zero]

theorem toNat_sliceNonce (hm : m ≤ 64) (hk : k < 2 ^ m) (ha : a < 2 ^ (64 - m)) :
    (sliceNonce k m (a + 1)).toNat = k * 2 ^ (64 - m) + a := by
  rw [sliceNonce_succ, BitVec.toNat_ofNat, Nat.mod_eq_of_lt (slice_lt hm hk ha)]

theorem sliceNonce_inj {j b : Nat} (hm : m ≤ 64) (hj : j < 2 ^ m) (hk : k < 2 ^ m)
    (ha : a < 2 ^ (64 - m)) (hb : b < 2 ^ (64 - m)) (h : sliceNonce j m a = sliceNonce k m b) :
    j = k := by
  have hsucc : sliceNonce j m (a + 1) = sliceNonce k m (b + 1) := by
    rw [sliceNonce, sliceNonce] at h ⊢
    rw [BitVec.ofNat_add, BitVec.ofNat_add, ← BitVec.add_assoc, ← BitVec.add_assoc, h]
  have hnat := congrArg BitVec.toNat hsucc
  rw [toNat_sliceNonce hm hj ha, toNat_sliceNonce hm hk hb] at hnat
  rw [← slice_div (k := j) ha, hnat, slice_div hb]

end Slice

theorem coreNonceSeed_eq {n : Nat} (hn : n ≤ 2 ^ 30) (k : Nat) :
    CoreNonceSeed k n = some (sliceNonce k (Nat.clog 2 n) 0) := by
  rw [CoreNonceSeed, clogB2_eq hn, Option.map_some, sliceNonce, BitVec.add_zero]

theorem nonce_ranges_disjoint (n : Nat) (hn : n ≤ 2 ^ 30) :
    ∃ m, ClogB2 n = some m ∧ n ≤ 2 ^ m ∧ (∀ m', n ≤ 2 ^ m' → m ≤ m') ∧
      ∃ seed : Nat → U64, (∀ k < n, CoreNonceSeed k n = some (seed k)) ∧
        seed 0 = BitVec.allOnes 64 ∧
        (∀ j < n, ∀ k < n, j ≠ k → ∀ a < 2 ^ (64 - m), ∀ b < 2 ^ (64 - m),
          seed j + BitVec.ofNat 64 a ≠ seed k + BitVec.ofNat 64 b) ∧
        ∀ k < n, ∀ a, 1 ≤ a → a ≤ 2 ^ (64 - m) →
          (seed k + BitVec.ofNat 64 a).toNat / 2 ^ (64 - m) = k := by
  have hle : n ≤ 2 ^ Nat.clog 2 n := Nat.le_pow_clog (by decide) n
  have hm : Nat.clog 2 n ≤ 64 := (Nat.clog_le_of_le_pow hn).trans (by decide)
  have hseed (k a : Nat) : sliceNonce k (Nat.clog 2 n) 0 + BitVec.ofNat 64 a =
      sliceNonce k (Nat.clog 2 n) a := by
    rw [sliceNonce, sliceNonce, BitVec.add_zero]
  refine ⟨Nat.clog 2 n, clogB2_eq hn, hle, fun _ => Nat.clog_le_of_le_pow,
    fun k => sliceNonce k (Nat.clog 2 n) 0, fun k _ => coreNonceSeed_eq hn k, ?_, ?_, ?_⟩
  · change sliceNonce 0 (Nat.clog 2 n) 0 = _
    rw [sliceNonce, ofNat_shiftLeft, Nat.zero_mul]
    decide
  · intro j hj k hk hne a ha b hb heq
    rw [hseed, hseed] at heq
    exact hne (sliceNonce_inj hm (hj.trans_le hle) (hk.trans_le hle) ha hb heq)
  · intro k hk a ha hlast
    obtain ⟨a, rfl⟩ := Nat.exists_eq_succ_of_ne_zero (Nat.ne_of_gt ha)
    rw [hseed, toNat_sliceNonce hm (hk.trans_le hle) hlast, slice_div hlast]

theorem nonce_ranges_disjoint_three :
    ∃ seed : Nat → U64, (∀ k < 3, CoreNonceSeed k 3 = some (seed k)) ∧
      ∀ k < 3, ∀ a, 1 ≤ a → a ≤ 2 ^ 62 → (seed k + BitVec.ofNat 64 a).toNat / 2 ^ 62 = k := by
  obtain ⟨m, hm, -, -, seed, hseed, -, -, htop⟩ := nonce_ranges_disjoint 3 (by decide)
  have htwo : ClogB2 3 = some 2 := by decide
  obtain rfl : m = 2 := Option.some.inj (hm.symm.trans htwo)
  exact ⟨seed, hseed, htop⟩

theorem clogLoop_none {n : Nat} (hn : 2 ^ 30 < n) (d r : Nat) (hr : r + d = 30) (fuel : Nat) :
    clogLoop n fuel (2 ^ r) r = none := by
  induction d generalizing r fuel with
  | zero =>
    obtain rfl : r = 30 := hr
    cases fuel with
    | zero => rfl
    | succ fuel => rw [clogLoop, if_pos hn, if_neg (by decide)]
  | succ d ih =>
    cases fuel with
    | zero => rfl
    | succ fuel =>
      have hmore : 2 ^ r < n := (Nat.pow_le_pow_right (by decide) (by omega)).trans_lt hn
      rw [clogLoop, if_pos hmore]
      split
      · rw [← Nat.pow_succ]
        exact ih (r + 1) (by omega) fuel
      · rfl

/-- From `2 ^ 30 + 1` cores on, doubling leaves the range and there are no seeds. -/
theorem no_seed {n : Nat} (hn : 2 ^ 30 < n) (k : Nat) : CoreNonceSeed k n = none := by
  rw [CoreNonceSeed, ClogB2, ← Nat.pow_zero 2, clogLoop_none hn 30 0 rfl 32]
  rfl

theorem no_seed_of_zero : CoreNonceSeed 0 (2 ^ 30 + 1) ≠ some (BitVec.allOnes 64) := by
  rw [no_seed (Nat.lt_succ_self _)]
  exact nofun

end OspreyBlake2b.Rtl
