import Mathlib.Data.Nat.Digits.Lemmas
import Mathlib.Data.List.Basic
import Mathlib.Tactic.Ring
import Mathlib.Tactic.Linarith

/-! Byte strings and the words they carry, in either byte order.  Nothing here
depends on a particular program: words are `BitVec`s of any width, strings are
lists, and the numbers behind them are Mathlib's `Nat.ofDigits`. -/

namespace OspreyBlake2b.Lib

abbrev Byte := BitVec 8
abbrev U32 := BitVec 32
abbrev U64 := BitVec 64

theorem toNat_of_eq_ofNat {c : U64} {n : Nat} (h : c = BitVec.ofNat 64 n) (hn : n < 2 ^ 64) :
    c.toNat = n := by
  rw [h, BitVec.toNat_ofNat, Nat.mod_eq_of_lt hn]

theorem toNat_succ {n : U64} (h : n.toNat + 1 < 2 ^ 64) : (n + 1).toNat = n.toNat + 1 := by
  rw [BitVec.toNat_add]
  exact Nat.mod_eq_of_lt h

instance neZero_four : NeZero 4 := ⟨by decide⟩
instance neZero_eight : NeZero 8 := ⟨by decide⟩
instance neZero_ten : NeZero 10 := ⟨by decide⟩
instance neZero_twelve : NeZero 12 := ⟨by decide⟩
instance neZero_sixteen : NeZero 16 := ⟨by decide⟩

theorem get_getElem (v : Vector α n) (i : Fin n) : v.get i = v[i.val] := rfl

def leBytes (n : Nat) (v : BitVec w) : List Byte :=
  (List.range n).map fun i => (v >>> (8 * i)).setWidth 8

def leWord (w : Nat) (bs : List Byte) : BitVec w :=
  bs.foldr (fun b v => v <<< 8 ||| b.setWidth w) 0

def beWord (w : Nat) (bs : List Byte) : BitVec w :=
  bs.foldl (fun v b => v <<< 8 ||| b.setWidth w) 0

def leVal (bs : List Byte) : Nat := Nat.ofDigits 256 (bs.map BitVec.toNat)

def beVal (bs : List Byte) : Nat := leVal bs.reverse

@[simp] theorem leVal_nil : leVal [] = 0 := rfl

@[simp] theorem leVal_cons (b : Byte) (bs : List Byte) :
    leVal (b :: bs) = b.toNat + 256 * leVal bs := by
  simp [leVal, Nat.ofDigits_cons]

theorem leVal_append (as bs : List Byte) :
    leVal (as ++ bs) = leVal as + 256 ^ as.length * leVal bs := by
  simp [leVal, Nat.ofDigits_append]

theorem leVal_lt (bs : List Byte) : leVal bs < 256 ^ bs.length := by
  have h := Nat.ofDigits_lt_base_pow_length (b := 256) (l := bs.map BitVec.toNat) (by omega)
    (by
      intro x hx
      obtain ⟨b, -, rfl⟩ := List.mem_map.mp hx
      exact b.isLt)
  simpa [leVal] using h

theorem testBit_leVal (bs : List Byte) (i : Nat) :
    (leVal bs).testBit i = (bs.getD (i / 8) 0).getLsbD (i % 8) := by
  induction bs generalizing i with
  | nil => simp
  | cons b bs ih =>
    rw [leVal_cons, Nat.add_comm, show 256 = 2 ^ 8 by rfl,
      Nat.testBit_two_pow_mul_add _ b.isLt]
    by_cases hi : i < 8
    · rw [if_pos hi, Nat.div_eq_of_lt hi, Nat.mod_eq_of_lt hi]
      rfl
    · obtain ⟨k, rfl⟩ := Nat.exists_eq_add_of_le (Nat.not_lt.mp hi)
      rw [if_neg hi, Nat.add_sub_cancel_left, ih, Nat.add_div_left _ (by omega),
        Nat.add_mod_left, List.getD_cons_succ]

theorem beVal_lt (bs : List Byte) : beVal bs < 256 ^ bs.length := by
  simpa [beVal] using leVal_lt bs.reverse

@[simp] theorem beVal_nil : beVal [] = 0 := rfl

theorem beVal_cons (b : Byte) (bs : List Byte) :
    beVal (b :: bs) = b.toNat * 256 ^ bs.length + beVal bs := by
  simp only [beVal, List.reverse_cons, leVal_append, List.length_reverse, leVal_cons, leVal_nil]
  ring

theorem beVal_append (as bs : List Byte) :
    beVal (as ++ bs) = beVal as * 256 ^ bs.length + beVal bs := by
  simp only [beVal, List.reverse_append, leVal_append, List.length_reverse]
  ring

theorem leVal_inj {as bs : List Byte} (hl : as.length = bs.length)
    (h : leVal as = leVal bs) : as = bs := by
  induction as generalizing bs with
  | nil => exact (List.length_eq_zero_iff.mp hl.symm).symm
  | cons a as ih =>
    obtain _ | ⟨b, bs⟩ := bs
    · simp at hl
    · simp only [leVal_cons] at h
      have ha := a.isLt
      have hb := b.isLt
      have hab : a = b := BitVec.eq_of_toNat_eq (by omega)
      rw [hab, ih (by simpa using hl) (by omega)]

theorem leWord_toNat (w : Nat) (bs : List Byte) (h : 8 * bs.length ≤ w) :
    (leWord w bs).toNat = leVal bs := by
  induction bs with
  | nil => simp [leWord]
  | cons b bs ih =>
    simp only [List.length_cons] at h
    have ih := ih (by omega)
    have hlt : leVal bs < 2 ^ (8 * bs.length) := by
      simpa [Nat.pow_mul] using leVal_lt bs
    have hb := b.isLt
    have hshift : leVal bs * 2 ^ 8 < 2 ^ w := by
      calc leVal bs * 2 ^ 8 < 2 ^ (8 * bs.length) * 2 ^ 8 := by omega
        _ = 2 ^ (8 * (bs.length + 1)) := by rw [← Nat.pow_add]; congr 1
        _ ≤ 2 ^ w := Nat.pow_le_pow_right (by omega) h
    have hbw : b.toNat < 2 ^ w :=
      lt_of_lt_of_le hb (Nat.pow_le_pow_right (by omega) (by omega))
    change (leWord w bs <<< 8 ||| b.setWidth w).toNat = leVal (b :: bs)
    rw [BitVec.toNat_or, BitVec.toNat_shiftLeft, BitVec.toNat_setWidth, ih,
      Nat.shiftLeft_eq, Nat.mod_eq_of_lt hshift, Nat.mod_eq_of_lt hbw, leVal_cons,
      mul_comm (leVal bs), ← Nat.two_pow_add_eq_or_of_lt hb]
    omega

theorem beWord_eq_leWord_reverse (w : Nat) (bs : List Byte) :
    beWord w bs = leWord w bs.reverse := by
  simp [beWord, leWord]

theorem beWord_toNat (w : Nat) (bs : List Byte) (h : 8 * bs.length ≤ w) :
    (beWord w bs).toNat = beVal bs := by
  rw [beWord_eq_leWord_reverse, leWord_toNat _ _ (by simpa using h), beVal]

@[simp] theorem leBytes_length (n : Nat) (v : BitVec w) : (leBytes n v).length = n := by
  simp [leBytes]

theorem leBytes_succ (n : Nat) (v : BitVec w) :
    leBytes (n + 1) v = v.setWidth 8 :: leBytes n (v >>> 8) := by
  simp only [leBytes, List.range_succ_eq_map, List.map_cons, List.map_map]
  congr 1
  apply List.map_congr_left
  intro i _
  simp only [Function.comp_apply, BitVec.shiftRight_add, Nat.mul_succ, Nat.add_comm (8 * i)]

theorem leBytes_add (a b : Nat) (v : BitVec w) :
    leBytes (a + b) v = leBytes a v ++ leBytes b (v >>> (8 * a)) := by
  simp only [leBytes, List.range_add, List.map_append, List.map_map]
  congr 1
  apply List.map_congr_left
  intro i _
  simp only [Function.comp_apply, BitVec.shiftRight_add, Nat.mul_add]

theorem leBytes_setWidth (n : Nat) (v : BitVec w) (h : 8 * n ≤ u) :
    leBytes n (v.setWidth u) = leBytes n v := by
  apply List.map_congr_left
  intro i hi
  have hlt := List.mem_range.mp hi
  apply BitVec.eq_of_getLsbD_eq
  intro k hk
  simp [show 8 * i + k < u by omega]

theorem leVal_leBytes (n : Nat) (v : BitVec w) :
    leVal (leBytes n v) = v.toNat % 256 ^ n := by
  induction n generalizing v with
  | zero => simp [leBytes, Nat.mod_one]
  | succ n ih =>
    rw [leBytes_succ, leVal_cons, ih, BitVec.toNat_setWidth, BitVec.toNat_ushiftRight,
      Nat.shiftRight_eq_div_pow]
    change v.toNat % 256 + 256 * (v.toNat / 256 % 256 ^ n) = _
    rw [Nat.pow_succ', Nat.mod_mul]

theorem leBytes_append (a b : Nat) (hi : BitVec w) (lo : BitVec (8 * a)) :
    leBytes (a + b) (hi ++ lo) = leBytes a lo ++ leBytes b hi := by
  apply leVal_inj (by simp)
  have hlo : lo.toNat < 256 ^ a := by simpa [Nat.pow_mul] using lo.isLt
  have hpow : 2 ^ (8 * a) = 256 ^ a := by rw [Nat.pow_mul]
  rw [leVal_append, leVal_leBytes, leVal_leBytes, leVal_leBytes, leBytes_length,
    BitVec.toNat_append, ← Nat.shiftLeft_add_eq_or_of_lt lo.isLt, Nat.shiftLeft_eq, hpow,
    Nat.pow_add, Nat.mod_mul, Nat.mod_eq_of_lt hlo, Nat.mul_comm hi.toNat, Nat.mul_add_mod,
    Nat.mod_eq_of_lt hlo, Nat.mul_add_div (by positivity), Nat.div_eq_of_lt hlo, Nat.add_zero]

theorem leWord_leBytes (n : Nat) (v : BitVec (8 * n)) : leWord (8 * n) (leBytes n v) = v := by
  apply BitVec.eq_of_toNat_eq
  rw [leWord_toNat _ _ (by simp), leVal_leBytes]
  apply Nat.mod_eq_of_lt
  simpa [Nat.pow_mul] using v.isLt

theorem leWord_leBytes_of_width (hw : w = 8 * n) (v : BitVec w) : leWord w (leBytes n v) = v := by
  subst hw
  exact leWord_leBytes n v

theorem leBytes_leWord (n : Nat) (bs : List Byte) (h : bs.length = n) :
    leBytes n (leWord (8 * n) bs) = bs := by
  apply leVal_inj (by simp [h])
  rw [leVal_leBytes, leWord_toNat _ _ (by omega), ← h]
  exact Nat.mod_eq_of_lt (leVal_lt bs)

theorem leVal_drop (n : Nat) (bs : List Byte) (h : n ≤ bs.length) :
    leVal (bs.drop n) = leVal bs / 256 ^ n := by
  have hlen : (bs.take n).length = n := by simpa using h
  have hlt := leVal_lt (bs.take n)
  have ha := leVal_append (bs.take n) (bs.drop n)
  rw [List.take_append_drop] at ha
  rw [hlen] at ha hlt
  rw [ha, Nat.add_mul_div_left _ _ (by positivity), Nat.div_eq_of_lt hlt, Nat.zero_add]

theorem leVal_take (n : Nat) (bs : List Byte) : leVal (bs.take n) = leVal bs % 256 ^ n := by
  by_cases h : n ≤ bs.length
  · have hlen : (bs.take n).length = n := by simpa using h
    have hlt := leVal_lt (bs.take n)
    have ha := leVal_append (bs.take n) (bs.drop n)
    rw [List.take_append_drop] at ha
    rw [hlen] at ha hlt
    rw [ha, Nat.add_mul_mod_self_left, Nat.mod_eq_of_lt hlt]
  · have hlt : leVal bs < 256 ^ n :=
      lt_of_lt_of_le (leVal_lt bs) (Nat.pow_le_pow_right (by omega) (by omega))
    rw [List.take_of_length_le (by omega), Nat.mod_eq_of_lt hlt]

/-- A slice of a word at byte bounds is the word of a slice of its bytes. -/
theorem extract_leWord (n k : Nat) (bs : List Byte) (h : 8 * bs.length ≤ w) (hn : n ≤ bs.length) :
    (leWord w bs).extractLsb' (8 * n) (8 * k) = leWord (8 * k) ((bs.drop n).take k) := by
  apply BitVec.eq_of_toNat_eq
  rw [BitVec.extractLsb'_toNat, leWord_toNat _ _ h, leWord_toNat _ _ (by simp),
    leVal_take, leVal_drop _ _ hn, Nat.shiftRight_eq_div_pow, Nat.pow_mul, Nat.pow_mul]

theorem leWord_zeros (w n : Nat) : leWord w (List.replicate n 0) = 0 := by
  induction n with
  | zero => rfl
  | succ n ih =>
    change leWord w (List.replicate n 0) <<< 8 ||| BitVec.setWidth w 0#8 = 0
    rw [ih]
    simp

theorem leWord_append_zeros (w n : Nat) (bs : List Byte) :
    leWord w (bs ++ List.replicate n 0) = leWord w bs := by
  induction bs with
  | nil => exact leWord_zeros w n
  | cons b bs ih =>
    change leWord w (bs ++ List.replicate n 0) <<< 8 ||| b.setWidth w = _
    rw [ih]
    rfl

/-- The C library's `memcmp` on two strings of equal length. -/
def memcmp : List Byte → List Byte → Int
  | a :: as, b :: bs => if a = b then memcmp as bs else (a.toNat : Int) - b.toNat
  | _, _ => 0

theorem memcmp_nonpos_iff {as bs : List Byte} (h : as.length = bs.length) :
    memcmp as bs ≤ 0 ↔ beVal as ≤ beVal bs := by
  induction as generalizing bs with
  | nil =>
    have hb : bs = [] := List.length_eq_zero_iff.mp h.symm
    simp [hb, memcmp]
  | cons a as ih =>
    obtain _ | ⟨b, bs⟩ := bs
    · simp at h
    · have hl : as.length = bs.length := by simpa using h
      have hA := beVal_lt as
      have hB := beVal_lt bs
      rw [beVal_cons, beVal_cons, hl]
      rw [hl] at hA
      by_cases hab : a = b
      · simp [memcmp, hab, ih hl]
      · have hne : a.toNat ≠ b.toNat := fun e => hab (BitVec.eq_of_toNat_eq e)
        simp only [memcmp, hab, if_false]
        generalize 256 ^ bs.length = p at *
        constructor
        · intro hle
          have hlt : a.toNat + 1 ≤ b.toNat := by omega
          have hmul := Nat.mul_le_mul_right p hlt
          rw [Nat.add_mul, Nat.one_mul] at hmul
          omega
        · intro hle
          by_contra hgt
          have hlt : b.toNat + 1 ≤ a.toNat := by omega
          have hmul := Nat.mul_le_mul_right p hlt
          rw [Nat.add_mul, Nat.one_mul] at hmul
          omega

theorem beVal_take_le {as bs : List Byte} (n : Nat) (hl : as.length = bs.length)
    (h : beVal as ≤ beVal bs) : beVal (as.take n) ≤ beVal (bs.take n) := by
  have ha := beVal_append (as.take n) (as.drop n)
  have hb := beVal_append (bs.take n) (bs.drop n)
  rw [List.take_append_drop] at ha hb
  have hlt := beVal_lt (bs.drop n)
  have hd : (as.drop n).length = (bs.drop n).length := by simp [hl]
  rw [hd] at ha
  generalize 256 ^ (bs.drop n).length = p at *
  by_contra hgt
  have hmul := Nat.mul_le_mul_right p (show beVal (bs.take n) + 1 ≤ beVal (as.take n) by omega)
  rw [Nat.add_mul, Nat.one_mul] at hmul
  omega

end OspreyBlake2b.Lib
