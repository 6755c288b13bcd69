import OspreyBlake2b.Lib.JsonText

namespace OspreyBlake2b.Lib

open OspreyBlake2b.Lib.JsonText

theorem ascii_toString (n : Nat) :
    ascii (toString n) = (Nat.toDigits 10 n).map fun c => BitVec.ofNat 8 c.toNat := by
  change List.map _ n.repr.toList = _
  rw [Nat.toList_repr]

theorem ascii_toString_small : ∀ n < 10,
    ascii (toString n) = [BitVec.ofNat 8 (48 + n)] := by decide

theorem ascii_toString_big {n : Nat} (h : 10 ≤ n) :
    ascii (toString n) = ascii (toString (n / 10)) ++ ascii (toString (n % 10)) := by
  have hlt : n % 10 < 10 := Nat.mod_lt _ (by decide)
  rw [ascii_toString, ascii_toString, ascii_toString, Nat.toDigits_of_base_le (by decide) h,
    Nat.toDigits_of_lt_base hlt, List.map_append]

theorem digit_char : ∀ d < 10, isDigit (BitVec.ofNat 8 (48 + d)) = true ∧
    hexval (BitVec.ofNat 8 (48 + d)) = some d ∧ (BitVec.ofNat 8 (48 + d) = char '0' ↔ d = 0) := by
  decide

theorem digitsVal_append (base : Nat) (as : List Byte) (d : Byte) :
    digitsVal base (as ++ [d]) = digitsVal base as * base + (hexval d).getD 0 := by
  rw [digitsVal, List.foldl_append]
  rfl

theorem decimal_digits (n : Nat) : isDigits (ascii (toString n)) = true := by
  induction n using Nat.strong_induction_on with
  | h n ih =>
    obtain hlt | hge := Nat.lt_or_ge n 10
    · rw [ascii_toString_small n hlt]
      exact decide_eq_true ⟨by simp, by simpa using (digit_char n hlt).1⟩
    · have hrest := of_decide_eq_true (ih (n / 10) (by omega))
      have hlast : n % 10 < 10 := Nat.mod_lt _ (by decide)
      rw [ascii_toString_big hge, ascii_toString_small _ hlast]
      refine decide_eq_true ⟨by simp, ?_⟩
      rw [List.all_append, hrest.2, Bool.true_and]
      simpa using (digit_char _ hlast).1

theorem decimal_head (n : Nat) (h : n ≠ 0) : deref (ascii (toString n)) ≠ char '0' := by
  induction n using Nat.strong_induction_on with
  | h n ih =>
    obtain hlt | hge := Nat.lt_or_ge n 10
    · rw [ascii_toString_small n hlt]
      exact fun hzero => h ((digit_char n hlt).2.2.mp hzero)
    · have hne := (of_decide_eq_true (decimal_digits (n / 10))).1
      obtain ⟨c, cs, hcs⟩ := List.exists_cons_of_ne_nil hne
      have hhead := ih (n / 10) (by omega) (by omega)
      rw [ascii_toString_big hge, hcs]
      rwa [hcs] at hhead

theorem decimal_isInt (n : Nat) : isInt (ascii (toString n)) = true := by
  refine decide_eq_true ⟨decimal_digits n, ?_⟩
  obtain rfl | hne := eq_or_ne n 0
  · exact .inl rfl
  · exact .inr (decimal_head n hne)

theorem digitsVal_decimal (n : Nat) : digitsVal 10 (ascii (toString n)) = n := by
  induction n using Nat.strong_induction_on with
  | h n ih =>
    obtain hlt | hge := Nat.lt_or_ge n 10
    · rw [ascii_toString_small n hlt, digitsVal, List.foldl_cons, List.foldl_nil,
        (digit_char n hlt).2.1]
      simp
    · have hlast : n % 10 < 10 := Nat.mod_lt _ (by decide)
      rw [ascii_toString_big hge, ascii_toString_small _ hlast, digitsVal_append,
        ih (n / 10) (by omega), (digit_char _ hlast).2.1, Option.getD_some]
      omega

end OspreyBlake2b.Lib
