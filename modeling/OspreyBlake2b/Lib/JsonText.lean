import OspreyBlake2b.Lib.Double

/-! The grammar of JSON texts (RFC 8259) over bytes. -/

namespace OspreyBlake2b.Lib.JsonText

def isWhite (c : Byte) : Bool := c = char ' ' ∨ c = char '\t' ∨ c = char '\n' ∨ c = char '\r'

abbrev White := { w : List Byte // w.all isWhite = true }

abbrev noWhite : White := ⟨[], rfl⟩

def isBody : List Byte → Bool
  | [] => true
  | c :: t =>
    if c = char '\\' then
      match t with
      | [] => false
      | e :: t =>
        if e = char 'u' then
          match t with
          | d₁ :: d₂ :: d₃ :: d₄ :: t => [d₁, d₂, d₃, d₄].all isHexDigit && isBody t
          | _ => false
        else (ascii "\"\\/bfnrt").contains e && isBody t
    else c ≥ 0x20#8 && c ≠ char '"' && isBody t

def isDigits (ds : List Byte) : Bool := ds ≠ [] ∧ ds.all isDigit

def isInt (ds : List Byte) : Bool := isDigits ds ∧ (ds.length = 1 ∨ deref ds ≠ char '0')

def isSign (s : List Byte) : Bool := s = [] ∨ s = ascii "-"

def isFrac (f : List Byte) : Bool := f = [] ∨ deref f = char '.' ∧ isDigits (f.drop 1)

def isExp (e : List Byte) : Bool :=
  e = [] ∨ (deref e = char 'e' ∨ deref e = char 'E') ∧
    (isDigits (e.drop 1) ∨
      (deref (e.drop 1) = char '+' ∨ deref (e.drop 1) = char '-') ∧ isDigits (e.drop 2))

inductive Nonterminal where
  | value
  | elements
  | members

inductive Derives : Nonterminal → List Byte → Prop where
  | null : Derives .value (ascii "null")
  | bool (b : Bool) : Derives .value (ascii (if b then "true" else "false"))
  | number {s n f e : List Byte} (hs : isSign s) (hn : isInt n) (hf : isFrac f) (he : isExp e) :
      Derives .value (s ++ n ++ f ++ e)
  | string {t : List Byte} (h : isBody t) : Derives .value (char '"' :: t ++ [char '"'])
  | emptyArray (w : White) : Derives .value (char '[' :: w.val ++ [char ']'])
  | array {t : List Byte} (h : Derives .elements t) : Derives .value (char '[' :: t ++ [char ']'])
  | emptyObject (w : White) : Derives .value (char '{' :: w.val ++ [char '}'])
  | object {t : List Byte} (h : Derives .members t) : Derives .value (char '{' :: t ++ [char '}'])
  | element {t : List Byte} (w₁ w₂ : White) (h : Derives .value t) :
      Derives .elements (w₁.val ++ t ++ w₂.val)
  | elements {t ts : List Byte} (h : Derives .elements t) (hs : Derives .elements ts) :
      Derives .elements (t ++ char ',' :: ts)
  | member {k t : List Byte} (w₁ w₂ w₃ w₄ : White) (hk : isBody k) (h : Derives .value t) :
      Derives .members (w₁.val ++ (char '"' :: k ++ [char '"']) ++ w₂.val ++ [char ':'] ++
        w₃.val ++ t ++ w₄.val)
  | members {t ts : List Byte} (h : Derives .members t) (hs : Derives .members ts) :
      Derives .members (t ++ char ',' :: ts)

abbrev Value := { t : List Byte // Derives .value t }

def Value.null : Value := ⟨ascii "null", .null⟩

theorem isWhite_ne_zero {c : Byte} (h : isWhite c = true) : c ≠ 0#8 := by
  rintro rfl
  revert h
  decide

theorem White.no_nul (w : White) : 0#8 ∉ w.val := fun h =>
  isWhite_ne_zero (List.all_eq_true.mp w.property _ h) rfl

theorem isHexDigit_ne_zero {c : Byte} (h : isHexDigit c = true) : c ≠ 0#8 := by
  rintro rfl
  revert h
  decide

theorem isBody_no_nul {t : List Byte} (h : isBody t = true) : 0#8 ∉ t := by
  fun_induction isBody t with
  | case1 => simp
  | case2 => cases h
  | case3 d₁ d₂ d₃ d₄ t ih =>
    simp only [Bool.and_eq_true, List.all_cons, List.all_nil, and_true] at h
    obtain ⟨⟨h₁, h₂, h₃, h₄⟩, ht⟩ := h
    have := isHexDigit_ne_zero h₁
    have := isHexDigit_ne_zero h₂
    have := isHexDigit_ne_zero h₃
    have := isHexDigit_ne_zero h₄
    simp +decide only [List.mem_cons, not_or]
    exact ⟨trivial, trivial, Ne.symm ‹d₁ ≠ _›, Ne.symm ‹d₂ ≠ _›, Ne.symm ‹d₃ ≠ _›,
      Ne.symm ‹d₄ ≠ _›, ih ht⟩
  | case4 => cases h
  | case5 e t he ih =>
    simp only [Bool.and_eq_true] at h
    have hne : e ≠ 0#8 := by
      rintro rfl
      exact absurd h.1 (by decide)
    simp +decide only [List.mem_cons, not_or]
    exact ⟨trivial, Ne.symm hne, ih h.2⟩
  | case6 c t hc ih =>
    simp only [Bool.and_eq_true, decide_eq_true_eq] at h
    have hne : c ≠ 0#8 := by
      rintro rfl
      exact absurd h.1.1 (by decide)
    simp only [List.mem_cons, not_or]
    exact ⟨Ne.symm hne, ih h.2⟩

theorem isDigits_no_nul {ds : List Byte} (h : isDigits ds = true) : 0#8 ∉ ds := by
  simp only [isDigits, decide_eq_true_eq, List.all_eq_true] at h
  intro h0
  exact absurd (h.2 _ h0) (by decide)

theorem no_nul_of_tail {t : List Byte} {c : Byte} (hc : c ≠ 0#8) (h : deref t = c)
    (ht : 0#8 ∉ t.drop 1) : 0#8 ∉ t := by
  cases t with
  | nil => exact absurd h (Ne.symm hc)
  | cons b t =>
    simp only [List.mem_cons, not_or]
    exact ⟨fun h0 => hc (h.symm.trans h0.symm), ht⟩

theorem isSign_no_nul {s : List Byte} (h : isSign s = true) : 0#8 ∉ s := by
  simp only [isSign, decide_eq_true_eq] at h
  obtain rfl | rfl := h <;> decide

theorem isFrac_no_nul {f : List Byte} (h : isFrac f = true) : 0#8 ∉ f := by
  simp only [isFrac, decide_eq_true_eq] at h
  obtain rfl | ⟨hd, hds⟩ := h
  · simp
  · exact no_nul_of_tail (by decide) hd (isDigits_no_nul hds)

theorem isExp_no_nul {e : List Byte} (h : isExp e = true) : 0#8 ∉ e := by
  simp only [isExp, decide_eq_true_eq] at h
  obtain rfl | ⟨hd, hrest⟩ := h
  · simp
  · have htail : 0#8 ∉ e.drop 1 := by
      obtain hds | ⟨hs | hs, hds⟩ := hrest
      · exact isDigits_no_nul hds
      · exact no_nul_of_tail (by decide) hs (by simpa using isDigits_no_nul hds)
      · exact no_nul_of_tail (by decide) hs (by simpa using isDigits_no_nul hds)
    obtain hd | hd := hd
    · exact no_nul_of_tail (by decide) hd htail
    · exact no_nul_of_tail (by decide) hd htail

theorem Derives.no_nul {s : Nonterminal} {t : List Byte} (h : Derives s t) : 0#8 ∉ t := by
  induction h with
  | null => decide
  | bool b => cases b <;> decide
  | number hs hn hf he =>
    have hint : 0#8 ∉ _ := isDigits_no_nul (of_decide_eq_true hn).1
    simp only [List.mem_append, not_or]
    exact ⟨⟨⟨isSign_no_nul hs, hint⟩, isFrac_no_nul hf⟩, isExp_no_nul he⟩
  | string h => simp +decide [isBody_no_nul h]
  | emptyArray w => simp +decide [w.no_nul]
  | array _ ih => simp +decide [ih]
  | emptyObject w => simp +decide [w.no_nul]
  | object _ ih => simp +decide [ih]
  | element w₁ w₂ _ ih => simp [w₁.no_nul, w₂.no_nul, ih]
  | elements _ _ ih ihs => simp +decide [ih, ihs]
  | member w₁ w₂ w₃ w₄ hk _ ih =>
    simp +decide [w₁.no_nul, w₂.no_nul, w₃.no_nul, w₄.no_nul, isBody_no_nul hk, ih]
  | members _ _ ih ihs => simp +decide [ih, ihs]

theorem isInt_head {n : List Byte} (r : List Byte) (h : isInt n = true) :
    isDigit (deref (n ++ r)) = true := by
  have hds := (of_decide_eq_true h).1
  simp only [isDigits, decide_eq_true_eq] at hds
  cases n with
  | nil => exact absurd rfl hds.1
  | cons d n => exact (List.all_eq_true.mp hds.2) d List.mem_cons_self

theorem number_head {s n : List Byte} (hs : isSign s = true) (hn : isInt n = true) (r : List Byte)
    {c : Byte} (hminus : c ≠ char '-') (hdigit : isDigit c = false) : deref (s ++ n ++ r) ≠ c := by
  obtain rfl | rfl := of_decide_eq_true hs
  · intro h
    have hd := isInt_head r hn
    rw [List.nil_append] at h
    rw [h, hdigit] at hd
    cases hd
  · exact hminus.symm

theorem eq_null_of_head {t r : List Byte} (h : Derives .value t) (hn : deref (t ++ r) = char 'n') :
    t = ascii "null" := by
  cases h with
  | null => rfl
  | bool b => cases b <;> cases hn
  | @number s n f e hs hint hf he =>
    rw [List.append_assoc (s ++ n), List.append_assoc (s ++ n)] at hn
    exact absurd hn (number_head hs hint _ (by decide) (by decide))
  | string h => cases hn
  | emptyArray w => cases hn
  | array h => cases hn
  | emptyObject w => cases hn
  | object h => cases hn

end OspreyBlake2b.Lib.JsonText
