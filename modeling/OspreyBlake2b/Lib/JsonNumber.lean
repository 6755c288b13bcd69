import OspreyBlake2b.Lib.Decimal
import OspreyBlake2b.Lib.JsonParse
import Mathlib.Algebra.Order.Field.Rat

namespace OspreyBlake2b.Lib.JsonText

structure Number where
  sign : List Byte
  int : List Byte
  frac : List Byte
  exp : List Byte
  isSign : isSign sign = true
  isInt : isInt int = true
  isFrac : isFrac frac = true
  isExp : isExp exp = true

namespace Number

def text (n : Number) : List Byte := n.sign ++ n.int ++ n.frac ++ n.exp

theorem derives (n : Number) : Derives .value n.text :=
  .number n.isSign n.isInt n.isFrac n.isExp

def exponent (n : Number) : Int :=
  let ds := n.exp.drop 1
  if deref ds = char '-' then -(digitsVal 10 (ds.drop 1) : Int)
  else if deref ds = char '+' then digitsVal 10 (ds.drop 1)
  else digitsVal 10 ds

def val (n : Number) : Rat :=
  let digits := n.frac.drop 1
  let v : Rat := digitsVal 10 (n.int ++ digits) * 10 ^ (n.exponent - digits.length)
  if n.sign = [] then v else -v

/-- A number as `%llu` writes it. -/
def ofNat (k : Nat) : Number where
  sign := []
  int := ascii (toString k)
  frac := []
  exp := []
  isSign := rfl
  isInt := decimal_isInt k
  isFrac := rfl
  isExp := rfl

theorem val_ofNat (k : Nat) : (ofNat k).val = k := by
  have hval := digitsVal_decimal k
  have hexp : (ofNat k).exponent = 0 := rfl
  rw [val, hexp]
  simp only [ofNat, List.drop_nil, List.append_nil, hval]
  simp

end Number

def isNumeric (c : Byte) : Bool := isDigit c || (ascii "-+.eE").contains c

theorem isNumeric_digits {ds : List Byte} (h : isDigits ds = true) :
    ∀ c ∈ ds, isNumeric c = true := fun c hc => by
  rw [isNumeric, List.all_eq_true.mp (of_decide_eq_true h).2 c hc, Bool.true_or]

theorem isNumeric_behind {t : List Byte} {c : Byte} (h : deref t = c) (hc : c ∈ ascii "-+.eE")
    (ht : ∀ c ∈ t.drop 1, isNumeric c = true) : ∀ c ∈ t, isNumeric c = true := by
  cases t with
  | nil => simp
  | cons b t =>
    intro a ha
    obtain rfl | ha := List.mem_cons.mp ha
    · rw [show a = c from h, isNumeric, List.contains_iff_mem.mpr hc, Bool.or_true]
    · exact ht a ha

theorem Number.isNumeric (n : Number) : ∀ c ∈ n.text, isNumeric c = true := by
  have hsign : ∀ c ∈ n.sign, JsonText.isNumeric c = true := by
    obtain h | h := of_decide_eq_true n.isSign <;> rw [h] <;> decide
  have hfrac : ∀ c ∈ n.frac, JsonText.isNumeric c = true := by
    obtain h | ⟨h, hds⟩ := of_decide_eq_true n.isFrac
    · simp [h]
    · exact isNumeric_behind h (by decide) (isNumeric_digits hds)
  have hexp : ∀ c ∈ n.exp, JsonText.isNumeric c = true := by
    obtain h | ⟨h, hrest⟩ := of_decide_eq_true n.isExp
    · simp [h]
    · have hbehind : ∀ c ∈ n.exp.drop 1, JsonText.isNumeric c = true := by
        obtain hds | ⟨hs | hs, hds⟩ := hrest
        · exact isNumeric_digits hds
        · exact isNumeric_behind hs (by decide) (by simpa using isNumeric_digits hds)
        · exact isNumeric_behind hs (by decide) (by simpa using isNumeric_digits hds)
      obtain h | h := h
      · exact isNumeric_behind h (by decide) hbehind
      · exact isNumeric_behind h (by decide) hbehind
  intro c hc
  simp only [text, List.mem_append] at hc
  obtain ((hc | hc) | hc) | hc := hc
  · exact hsign c hc
  · exact isNumeric_digits (of_decide_eq_true n.isInt).1 c hc
  · exact hfrac c hc
  · exact hexp c hc

def EndsNumber (c : Byte) : Prop := Json.EndsInt c ∧ c ≠ char 'x' ∧ c ≠ char 'X'

instance : DecidablePred EndsNumber := fun c =>
  inferInstanceAs (Decidable ((isDigit c = false ∧ c ≠ char '.' ∧ c ≠ char 'e' ∧ c ≠ char 'E') ∧
    c ≠ char 'x' ∧ c ≠ char 'X'))

def lower (c : Byte) : Byte := if char 'A' ≤ c ∧ c ≤ char 'Z' then c + 32 else c

theorem not_startsCI {w : String} {d : Byte} {ws : List Byte} (hw : ascii w = d :: ws)
    {p : List Byte} (hp : lower (deref p) ≠ d) : startsCI w p = false := by
  have hlen : w.length = ws.length + 1 := by
    rw [← String.length_toList, ← List.length_map, ← ascii, hw, List.length_cons]
  rw [startsCI, decide_eq_false_iff_not, hw, hlen]
  intro h
  cases p with
  | nil => simp at h
  | cons b p =>
    rw [List.take_succ_cons, List.map_cons] at h
    exact hp (List.cons.inj h).1

section Strtod

variable {r : List Byte}

theorem not_isDigit_iff {p : List Byte} (h : isDigit (deref p) = false) :
    p.takeWhile isDigit = [] ∧ p.dropWhile isDigit = p := by
  cases p with
  | nil => exact ⟨rfl, rfl⟩
  | cons c p =>
    change isDigit c = false at h
    simp [h]

theorem span_digits {ds : List Byte} (hds : isDigits ds = true) (hr : isDigit (deref r) = false) :
    (ds ++ r).takeWhile isDigit = ds ∧ (ds ++ r).dropWhile isDigit = r := by
  have hall : ∀ c ∈ ds, isDigit c = true := List.all_eq_true.mp (of_decide_eq_true hds).2
  obtain ⟨htake, hdrop⟩ := not_isDigit_iff hr
  rw [List.takeWhile_append_of_pos hall, List.dropWhile_append_of_pos hall, htake, hdrop,
    List.append_nil]
  exact ⟨rfl, rfl⟩

theorem deref_digits {ds : List Byte} (hds : isDigits ds = true) :
    isDigit (deref (ds ++ r)) = true := by
  obtain ⟨hne, hall⟩ := of_decide_eq_true hds
  obtain ⟨c, cs, rfl⟩ := List.exists_cons_of_ne_nil hne
  exact List.all_eq_true.mp hall c List.mem_cons_self

theorem digit_plain {c : Byte} (h : isDigit c = true) : isspace c = false ∧ c ≠ char '-' ∧
    c ≠ char '+' ∧ lower c ≠ char 'n' ∧ lower c ≠ char 'i' := by
  revert c
  decide +kernel

theorem signed_digit {p : List Byte} (h : isDigit (deref p) = true) : signed p = (false, p) := by
  obtain ⟨-, hminus, hplus, -⟩ := digit_plain h
  rw [signed, if_neg hminus, if_neg hplus]

theorem strtodExp_exp (n : Number) (hr : EndsNumber (deref r)) :
    strtodExp "e" (n.exp ++ r) = n.exponent := by
  obtain ⟨⟨hdigit, -, he, hE⟩, -⟩ := hr
  have hexp := n.isExp
  rw [strtodExp, Number.exponent]
  simp only [JsonText.isExp, decide_eq_true_eq] at hexp
  obtain hnil | ⟨hmark, hrest⟩ := hexp
  · have hno : startsCI "e" r = false := by
      refine not_startsCI (w := "e") rfl ?_
      revert he hE
      generalize deref r = c
      revert c
      decide
    rw [hnil, List.nil_append, hno]
    rfl
  · obtain ⟨c, ds, hc⟩ : ∃ c ds, n.exp = c :: ds := by
      cases h : n.exp with
      | nil =>
        rw [h] at hmark
        exact absurd hmark (by decide)
      | cons c ds => exact ⟨c, ds, rfl⟩
    rw [hc] at hmark hrest ⊢
    simp only [List.drop_succ_cons, List.drop_zero, List.drop_one, deref] at hmark hrest
    have hyes : startsCI "e" (c :: ds ++ r) = true := by
      obtain rfl | rfl := hmark <;> rfl
    rw [hyes]
    simp only [if_true, List.cons_append, List.drop_succ_cons, List.drop_zero]
    obtain hds | ⟨hsign, hds⟩ := hrest
    · have hhead : isDigit (deref ds) = true := by simpa using deref_digits (r := []) hds
      obtain ⟨-, hminus, hplus, -⟩ := digit_plain hhead
      rw [signed_digit (deref_digits hds), if_neg hminus, if_neg hplus]
      simp only [(span_digits hds hdigit).1]
      rfl
    · obtain ⟨b, ds', hb⟩ : ∃ b ds', ds = b :: ds' := by
        cases ds with
        | nil => cases hds
        | cons b ds' => exact ⟨b, ds', rfl⟩
      subst hb
      simp only [List.tail_cons, List.headD_cons] at hsign hds
      have hspan := (span_digits hds hdigit).1
      obtain rfl | rfl := hsign
      · rw [show signed (char '+' :: ds' ++ r) = (false, ds' ++ r) from rfl]
        simp only [hspan]
        rfl
      · rw [show signed (char '-' :: ds' ++ r) = (true, ds' ++ r) from rfl]
        simp only [hspan]
        rfl

theorem exp_head (n : Number) (hr : EndsNumber (deref r)) : isDigit (deref (n.exp ++ r)) = false ∧
    deref (n.exp ++ r) ≠ char '.' ∧ lower (deref (n.exp ++ r)) ≠ char 'x' := by
  have hexp := n.isExp
  simp only [JsonText.isExp, decide_eq_true_eq] at hexp
  obtain hnil | ⟨hmark, -⟩ := hexp
  · rw [hnil, List.nil_append]
    revert hr
    generalize deref r = c
    revert c
    decide +kernel
  · cases h : n.exp with
    | nil =>
      rw [h] at hmark
      exact absurd hmark (by decide)
    | cons c ds =>
      rw [h] at hmark
      change c = _ ∨ c = _ at hmark
      change isDigit c = false ∧ c ≠ _ ∧ lower c ≠ _
      obtain rfl | rfl := hmark <;> decide

theorem frac_cases (n : Number) :
    n.frac = [] ∨ ∃ ds, n.frac = char '.' :: ds ∧ isDigits ds = true := by
  have hfrac := n.isFrac
  simp only [JsonText.isFrac, decide_eq_true_eq] at hfrac
  obtain hnil | ⟨hpoint, hds⟩ := hfrac
  · exact .inl hnil
  · cases h : n.frac with
    | nil =>
      rw [h] at hpoint
      exact absurd hpoint (by decide)
    | cons c ds =>
      rw [h] at hpoint hds
      exact .inr ⟨ds, congrArg (· :: ds) hpoint, hds⟩

theorem strtodMant_digits (n : Number) (hr : EndsNumber (deref r)) :
    strtodMant 10 isDigit (n.int ++ (n.frac ++ (n.exp ++ r))) =
      some (digitsVal 10 (n.int ++ n.frac.drop 1), (n.frac.drop 1).length, n.exp ++ r) := by
  have hint := (of_decide_eq_true n.isInt).1
  have hne := (of_decide_eq_true hint).1
  obtain ⟨hdigit, hdot, -⟩ := exp_head n hr
  rw [strtodMant]
  obtain hnil | ⟨ds, hc, hds⟩ := frac_cases n
  · obtain ⟨htake, hdrop⟩ := span_digits hint hdigit
    rw [hnil, List.nil_append]
    simp only [htake, hdrop, if_neg hdot, hne, false_and, if_false, List.drop_nil]
  · have hafter : isDigit (deref (char '.' :: (ds ++ (n.exp ++ r)))) = false := rfl
    have hpoint : deref (char '.' :: (ds ++ (n.exp ++ r))) = char '.' := rfl
    obtain ⟨htake, hdrop⟩ := span_digits hint hafter
    obtain ⟨htake', hdrop'⟩ := span_digits hds hdigit
    rw [hc, List.cons_append]
    simp only [htake, hdrop, if_pos hpoint, hne, false_and, if_false, List.drop_succ_cons,
      List.drop_zero, htake', hdrop']

theorem not_hex (n : Number) (hr : EndsNumber (deref r)) :
    startsCI "0x" (n.int ++ (n.frac ++ (n.exp ++ r))) = false := by
  have hnext : lower (deref (n.frac ++ (n.exp ++ r))) ≠ char 'x' := by
    obtain hnil | ⟨ds, hc, -⟩ := frac_cases n
    · rw [hnil]
      exact (exp_head n hr).2.2
    · have hpoint : lower (char '.') ≠ char 'x' := by decide
      rw [hc]
      exact hpoint
  obtain ⟨hds, hone | hzero⟩ := of_decide_eq_true n.isInt
  · obtain ⟨c, hc⟩ := List.length_eq_one_iff.mp hone
    rw [hc, List.singleton_append, startsCI, decide_eq_false_iff_not]
    intro h
    cases hrest : n.frac ++ (n.exp ++ r) with
    | nil =>
      rw [hrest] at h
      cases congrArg List.length h
    | cons d t =>
      rw [hrest] at h hnext
      exact hnext (List.cons.inj (List.cons.inj h).2).1
  · refine not_startsCI (w := "0x") rfl ?_
    obtain ⟨c, cs, hc⟩ := List.exists_cons_of_ne_nil (of_decide_eq_true hds).1
    rw [hc] at hzero ⊢
    have hlow : ∀ c : Byte, lower c = char '0' → c = char '0' := by decide +kernel
    exact fun h => hzero (hlow c h)

theorem scale10 (m : Rat) (e : Int) :
    (if e ≥ 0 then m * 10 ^ e.toNat else m / 10 ^ (-e).toNat) = m * 10 ^ e := by
  split_ifs with h
  · rw [← zpow_natCast, Int.toNat_of_nonneg h]
  · rw [← zpow_natCast, Int.toNat_of_nonneg (by omega), zpow_neg, div_inv_eq_mul]

theorem signed_number (n : Number) :
    signed ((n.text ++ r).dropWhile isspace) =
      (decide (n.sign ≠ []), n.int ++ (n.frac ++ (n.exp ++ r))) := by
  have hhead : isDigit (deref (n.int ++ (n.frac ++ (n.exp ++ r)))) = true := isInt_head _ n.isInt
  have htext : n.text ++ r = n.sign ++ (n.int ++ (n.frac ++ (n.exp ++ r))) := by
    simp [Number.text]
  rw [htext]
  obtain hs | hs := of_decide_eq_true n.isSign
  · have hspace : ∀ p : List Byte, isspace (deref p) = false → p.dropWhile isspace = p := by
      intro p hp
      cases p with
      | nil => rfl
      | cons c p => exact List.dropWhile_cons_of_neg (ne_true_of_eq_false hp)
    rw [hs, List.nil_append, hspace _ (digit_plain hhead).1, signed_digit hhead]
    rfl
  · rw [hs]
    rfl

theorem strtod_number (n : Number) (hr : EndsNumber (deref r)) :
    strtod (n.text ++ r) = .round n.val := by
  obtain ⟨-, -, -, hn, hi⟩ := digit_plain (isInt_head (n.frac ++ (n.exp ++ r)) n.isInt)
  rw [strtod, signed_number]
  simp only [not_startsCI (w := "nan") rfl hn, not_startsCI (w := "inf") rfl hi, not_hex n hr,
    Bool.false_eq_true, if_false, strtodMant_digits n hr, strtodExp_exp n hr, scale10]
  rw [Number.val]
  by_cases hs : n.sign = []
  · simp [hs]
  · simp [hs]

end Strtod

end OspreyBlake2b.Lib.JsonText
