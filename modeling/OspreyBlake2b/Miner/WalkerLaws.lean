import OspreyBlake2b.Lib.JsonNumber
import OspreyBlake2b.Lib.JsonObject
import OspreyBlake2b.Miner.Json

/-! The value walker on well-formed texts: it steps over every value as a whole, and
`js_get` finds the first member whose key is spelled as asked for. -/

namespace OspreyBlake2b.Miner

open OspreyBlake2b.Lib OspreyBlake2b.Lib.JsonText

theorem isWs_of_isWhite {c : Byte} (h : isWhite c = true) : isWs c = true := by
  simp only [isWhite, isWs, decide_eq_true_eq] at h ⊢
  tauto

variable {r : List Byte}

theorem jsWs_white (w : White) : jsWs (w.val ++ r) = jsWs r :=
  List.dropWhile_append_of_pos fun _ hc => isWs_of_isWhite (List.all_eq_true.mp w.property _ hc)

theorem jsWs_head (h : isWs (deref r) = false) : jsWs r = r := by
  cases r with
  | nil => rfl
  | cons c r => exact List.dropWhile_cons_of_neg (ne_true_of_eq_false h)

theorem jsWs_jsWs (p : List Byte) : jsWs (jsWs p) = jsWs p := by
  refine jsWs_head ?_
  induction p with
  | nil => rfl
  | cons c p ih =>
    rw [jsWs, List.dropWhile_cons]
    split
    · exact ih
    · exact eq_false_of_ne_true ‹_›

theorem isHexDigit_plain' {c : Byte} (h : isHexDigit c = true) :
    c ≠ 0 ∧ c ≠ char '"' ∧ c ≠ char '\\' := by
  refine ⟨?_, ?_, ?_⟩
  all_goals
    rintro rfl
    exact absurd h (by decide)

/-- A scanner sees a string as plain characters and pairs that begin with a backslash. -/
theorem isBody_induction {P : List Byte → Prop} (nil : P [])
    (plain : ∀ c t, c ≠ 0 → c ≠ char '"' → c ≠ char '\\' → P t → P (c :: t))
    (pair : ∀ e t, e ≠ 0 → P t → P (char '\\' :: e :: t)) {k : List Byte}
    (h : isBody k = true) : P k := by
  fun_induction isBody k with
  | case1 => exact nil
  | case2 => cases h
  | case3 d₁ d₂ d₃ d₄ t ih =>
    simp only [Bool.and_eq_true, List.all_cons, List.all_nil, and_true] at h
    have hplain {d : Byte} {t : List Byte} (hd : isHexDigit d = true) (ht : P t) : P (d :: t) := by
      obtain ⟨hzero, hquote, hback⟩ := isHexDigit_plain' hd
      exact plain d t hzero hquote hback ht
    refine pair _ _ (by decide) ?_
    exact hplain h.1.1 (hplain h.1.2.1 (hplain h.1.2.2.1 (hplain h.1.2.2.2 (ih h.2))))
  | case4 => cases h
  | case5 e t he ih =>
    simp only [Bool.and_eq_true] at h
    refine pair e t ?_ (ih h.2)
    rintro rfl
    exact absurd h.1 (by decide)
  | case6 c t hc ih =>
    simp only [Bool.and_eq_true, decide_eq_true_eq] at h
    refine plain c t ?_ h.1.2 hc (ih h.2)
    rintro rfl
    exact absurd h.1.1 (by decide)

theorem toQuote_cons (c : Byte) (p : List Byte) :
    toQuote (c :: p) =
      if c = 0 ∨ c = char '"' then c :: p
      else if c = char '\\' then
        match p with
        | [] => []
        | d :: q => if d = 0 then d :: q else toQuote q
      else toQuote p :=
  (toQuote.eq_def _).trans rfl

theorem toQuote_body {k : List Byte} (h : isBody k = true) :
    toQuote (k ++ char '"' :: r) = char '"' :: r := by
  refine isBody_induction (P := fun k => toQuote (k ++ char '"' :: r) = char '"' :: r) ?_ ?_ ?_ h
  · rw [List.nil_append, toQuote_cons]
    exact if_pos (.inr rfl)
  · intro c t hzero hquote hback ih
    rw [List.cons_append, toQuote_cons]
    simp only [hzero, hquote, or_self, if_false, if_neg hback, ih]
  · intro e t hzero ih
    have hback : ¬ (char '\\' = 0 ∨ char '\\' = char '"') := by decide
    rw [List.cons_append, List.cons_append, toQuote_cons]
    simp only [if_neg hback, if_true, if_neg hzero, ih]

section Nest

variable {opn cls : Byte} {depth : Nat}

theorem skipNest_cons (inStr : Bool) (c : Byte) (p : List Byte) :
    skipNest opn cls inStr depth (c :: p) =
      if c = 0 then none
      else if inStr then
        if c = char '"' then skipNest opn cls false depth p
        else if c = char '\\' then
          match p with
          | [] => none
          | d :: q => if d = 0 then none else skipNest opn cls true depth q
        else skipNest opn cls true depth p
      else if c = char '"' then skipNest opn cls true depth p
      else
        let depth := if c = opn then depth + 1 else depth
        if c = cls then if depth - 1 = 0 then some p else skipNest opn cls false (depth - 1) p
        else skipNest opn cls false depth p :=
  (skipNest.eq_def _ _ _ _ _).trans rfl

theorem skipNest_body {k : List Byte} (h : isBody k = true) :
    skipNest opn cls true depth (k ++ char '"' :: r) = skipNest opn cls false depth r := by
  refine isBody_induction (P := fun k =>
    skipNest opn cls true depth (k ++ char '"' :: r) = skipNest opn cls false depth r) ?_ ?_ ?_ h
  · rw [List.nil_append, skipNest_cons]
    rfl
  · intro c t hzero hquote hback ih
    rw [List.cons_append, skipNest_cons]
    simp only [if_neg hzero, if_true, if_neg hquote, if_neg hback, ih]
  · intro e t hzero ih
    have hnul : ¬ char '\\' = 0 := by decide
    have hquote : ¬ char '\\' = char '"' := by decide
    rw [List.cons_append, List.cons_append, skipNest_cons]
    simp only [if_neg hnul, if_true, if_neg hquote, if_neg hzero, ih]

theorem skipNest_quoted {k : List Byte} (h : isBody k = true) :
    skipNest opn cls false depth (char '"' :: (k ++ char '"' :: r)) =
      skipNest opn cls false depth r := by
  have hnul : ¬ char '"' = 0 := by decide
  rw [skipNest_cons]
  simp only [if_neg hnul, Bool.false_eq_true, if_false, if_true, skipNest_body h]

def Bracket (opn cls : Byte) : Prop :=
  opn = char '[' ∧ cls = char ']' ∨ opn = char '{' ∧ cls = char '}'

def isStructural (c : Byte) : Bool :=
  c = 0 ∨ c = char '"' ∨ c = char '[' ∨ c = char ']' ∨ c = char '{' ∨ c = char '}'

theorem skipNest_other (hb : Bracket opn cls) {t : List Byte}
    (ht : ∀ c ∈ t, isStructural c = false) :
    skipNest opn cls false depth (t ++ r) = skipNest opn cls false depth r := by
  induction t with
  | nil => rfl
  | cons c t ih =>
    have hc := ht c List.mem_cons_self
    simp only [isStructural, decide_eq_false_iff_not, not_or] at hc
    obtain ⟨hzero, hquote, ho, hcl, ho', hcl'⟩ := hc
    have hopn : c ≠ opn ∧ c ≠ cls := by
      obtain ⟨rfl, rfl⟩ | ⟨rfl, rfl⟩ := hb
      · exact ⟨ho, hcl⟩
      · exact ⟨ho', hcl'⟩
    rw [List.cons_append, skipNest_cons]
    simp only [if_neg hzero, Bool.false_eq_true, if_false, if_neg hquote, if_neg hopn.1,
      if_neg hopn.2]
    exact ih fun c hc => ht c (List.mem_cons_of_mem _ hc)

theorem skipNest_opn (hb : Bracket opn cls) (p : List Byte) :
    skipNest opn cls false depth (opn :: p) = skipNest opn cls false (depth + 1) p := by
  rw [skipNest_cons]
  obtain ⟨rfl, rfl⟩ | ⟨rfl, rfl⟩ := hb <;> rfl

theorem skipNest_cls (hb : Bracket opn cls) (p : List Byte) :
    skipNest opn cls false depth (cls :: p) =
      if depth - 1 = 0 then some p else skipNest opn cls false (depth - 1) p := by
  rw [skipNest_cons]
  obtain ⟨rfl, rfl⟩ | ⟨rfl, rfl⟩ := hb <;> rfl

theorem skipNest_cross {c : Byte} (hc : c = char '[' ∨ c = char ']' ∨ c = char '{' ∨ c = char '}')
    (ho : c ≠ opn) (hcl : c ≠ cls) (p : List Byte) :
    skipNest opn cls false depth (c :: p) = skipNest opn cls false depth p := by
  have hplain : c ≠ 0 ∧ c ≠ char '"' := by
    obtain rfl | rfl | rfl | rfl := hc <;> decide
  rw [skipNest_cons]
  simp only [if_neg hplain.1, Bool.false_eq_true, if_false, if_neg hplain.2, if_neg ho, if_neg hcl]

theorem skipNest_bracketed (hb : Bracket opn cls) (hdepth : 0 < depth) {o c : Byte}
    (hoc : Bracket o c) {t : List Byte}
    (ht : ∀ d, 0 < d → ∀ r, skipNest opn cls false d (t ++ r) = skipNest opn cls false d r) :
    skipNest opn cls false depth (o :: (t ++ c :: r)) = skipNest opn cls false depth r := by
  by_cases hsame : o = opn
  · have hcls : c = cls := by
      obtain ⟨rfl, rfl⟩ | ⟨rfl, rfl⟩ := hb <;> obtain ⟨ho, rfl⟩ | ⟨ho, rfl⟩ := hoc
      · rfl
      · exact absurd (ho.symm.trans hsame) (by decide)
      · exact absurd (ho.symm.trans hsame) (by decide)
      · rfl
    rw [hsame, hcls, skipNest_opn hb, ht (depth + 1) (Nat.succ_pos _), skipNest_cls hb,
      Nat.add_sub_cancel, if_neg (by omega)]
  · have hother : (o = char '[' ∨ o = char ']' ∨ o = char '{' ∨ o = char '}') ∧
        (c = char '[' ∨ c = char ']' ∨ c = char '{' ∨ c = char '}') ∧ o ≠ cls ∧ c ≠ opn ∧
        c ≠ cls := by
      revert hsame
      obtain ⟨rfl, rfl⟩ | ⟨rfl, rfl⟩ := hb <;> obtain ⟨rfl, rfl⟩ | ⟨rfl, rfl⟩ := hoc <;> decide
    obtain ⟨ho, hc, hocls, hcopn, hccls⟩ := hother
    rw [skipNest_cross ho hsame hocls, ht _ hdepth, skipNest_cross hc hcopn hccls]

theorem isWhite_plain {c : Byte} (h : isWhite c = true) : isStructural c = false := by
  rw [isWhite, decide_eq_true_eq] at h
  obtain rfl | rfl | rfl | rfl := h
  all_goals rfl

theorem isNumeric_plain {c : Byte} (h : isNumeric c = true) :
    isStructural c = false ∧ isDelim c = false := by
  simp only [isStructural, isDelim, isWs, decide_eq_false_iff_not, decide_eq_true_eq, not_or]
  refine ⟨⟨?_, ?_, ?_, ?_, ?_, ?_⟩, ?_, ?_, ?_, ?_, ?_, ?_, ?_, ?_⟩
  all_goals
    rintro rfl
    exact absurd h (by decide)

/-- Inside a bracket the walker passes over every text of the grammar. -/
theorem skipNest_derives (hb : Bracket opn cls) {s : Nonterminal} {t : List Byte}
    (h : Derives s t) (d : Nat) (hd : 0 < d) (r : List Byte) :
    skipNest opn cls false d (t ++ r) = skipNest opn cls false d r := by
  have hwhite (w : White) (d : Nat) (r : List Byte) :
      skipNest opn cls false d (w.val ++ r) = skipNest opn cls false d r :=
    skipNest_other hb fun c hc => isWhite_plain (List.all_eq_true.mp w.property c hc)
  have hcross {c : Byte} (h : isStructural c = false) (d : Nat) (r : List Byte) :
      skipNest opn cls false d (c :: r) = skipNest opn cls false d r :=
    skipNest_other hb (t := [c]) (by simpa using h)
  have harray : Bracket (char '[') (char ']') := .inl ⟨rfl, rfl⟩
  have hobject : Bracket (char '{') (char '}') := .inr ⟨rfl, rfl⟩
  induction h generalizing d r with
  | null => exact skipNest_other hb (by decide)
  | bool b => exact skipNest_other hb (by cases b <;> decide)
  | number hs hn hf he =>
    have hnum := Number.isNumeric ⟨_, _, _, _, hs, hn, hf, he⟩
    exact skipNest_other hb fun c hc => (isNumeric_plain (hnum c hc)).1
  | string h =>
    rw [List.append_assoc, List.cons_append, List.singleton_append]
    exact skipNest_quoted h
  | emptyArray w =>
    rw [List.append_assoc, List.cons_append, List.singleton_append]
    exact skipNest_bracketed hb hd harray fun d _ r => hwhite w d r
  | array h ih =>
    rw [List.append_assoc, List.cons_append, List.singleton_append]
    exact skipNest_bracketed hb hd harray ih
  | emptyObject w =>
    rw [List.append_assoc, List.cons_append, List.singleton_append]
    exact skipNest_bracketed hb hd hobject fun d _ r => hwhite w d r
  | object h ih =>
    rw [List.append_assoc, List.cons_append, List.singleton_append]
    exact skipNest_bracketed hb hd hobject ih
  | element w₁ w₂ h ih =>
    rw [List.append_assoc, List.append_assoc, hwhite, ih d hd, hwhite]
  | elements h hs ih ihs =>
    rw [List.append_assoc, List.cons_append, ih d hd, hcross rfl, ihs d hd]
  | member w₁ w₂ w₃ w₄ hk h ih =>
    simp only [List.append_assoc, List.cons_append, List.nil_append]
    rw [hwhite, skipNest_quoted hk, hwhite, hcross rfl, hwhite, ih d hd, hwhite]
  | members h hs ih ihs =>
    rw [List.append_assoc, List.cons_append, ih d hd, hcross rfl, ihs d hd]

end Nest

def IsAtom (t : List Byte) : Prop :=
  t ≠ [] ∧ ∀ c ∈ t, isStructural c = false ∧ isDelim c = false

instance : DecidablePred IsAtom := fun t =>
  inferInstanceAs (Decidable (t ≠ [] ∧ ∀ c ∈ t, isStructural c = false ∧ isDelim c = false))

theorem value_cases {t : List Byte} (h : Derives .value t) :
    IsAtom t ∨ (∃ k, isBody k = true ∧ t = char '"' :: k ++ [char '"']) ∨
      ∃ opn cls u, Bracket opn cls ∧ t = opn :: u ++ [cls] ∧ ∀ d, 0 < d → ∀ r,
        skipNest opn cls false d (u ++ r) = skipNest opn cls false d r := by
  have harray : Bracket (char '[') (char ']') := .inl ⟨rfl, rfl⟩
  have hobject : Bracket (char '{') (char '}') := .inr ⟨rfl, rfl⟩
  have hwhite {opn cls : Byte} (hb : Bracket opn cls) (w : White) (d : Nat) (r : List Byte) :
      skipNest opn cls false d (w.val ++ r) = skipNest opn cls false d r :=
    skipNest_other hb fun c hc => isWhite_plain (List.all_eq_true.mp w.property c hc)
  cases h with
  | null => exact .inl (by decide)
  | bool b => exact .inl (by cases b <;> decide)
  | @number s n f e hs hn hf he =>
    have hnum := Number.isNumeric ⟨s, n, f, e, hs, hn, hf, he⟩
    have hne := (of_decide_eq_true (of_decide_eq_true hn).1).1
    exact .inl ⟨by simp [hne], fun c hc => isNumeric_plain (hnum c hc)⟩
  | @string k h => exact .inr (.inl ⟨k, h, rfl⟩)
  | emptyArray w => exact .inr (.inr ⟨_, _, w.val, harray, rfl, fun d _ r => hwhite harray w d r⟩)
  | @array u h => exact .inr (.inr ⟨_, _, u, harray, rfl, skipNest_derives harray h⟩)
  | emptyObject w =>
    exact .inr (.inr ⟨_, _, w.val, hobject, rfl, fun d _ r => hwhite hobject w d r⟩)
  | @object u h => exact .inr (.inr ⟨_, _, u, hobject, rfl, skipNest_derives hobject h⟩)

theorem isWs_of_not_isDelim {c : Byte} (h : isDelim c = false) : isWs c = false := by
  simp only [isDelim, decide_eq_false_iff_not, not_or] at h
  exact eq_false_of_ne_true h.2.2.2.2

theorem value_head {t : List Byte} (h : Derives .value t) (r : List Byte) :
    isWs (deref (t ++ r)) = false := by
  obtain ⟨hne, hall⟩ | ⟨k, -, rfl⟩ | ⟨opn, cls, u, hb, rfl, -⟩ := value_cases h
  · obtain ⟨c, t, rfl⟩ := List.exists_cons_of_ne_nil hne
    exact isWs_of_not_isDelim (hall c List.mem_cons_self).2
  · rfl
  · obtain ⟨rfl, rfl⟩ | ⟨rfl, rfl⟩ := hb <;> rfl

theorem jsSkip_atom {t : List Byte} (ht : IsAtom t) (hr : isDelim (deref r) = true) :
    jsSkip (t ++ r) = some r := by
  obtain ⟨hne, hall⟩ := ht
  obtain ⟨c, t, rfl⟩ := List.exists_cons_of_ne_nil hne
  obtain ⟨hc, hdelim⟩ := hall c List.mem_cons_self
  have hws : jsWs (c :: t ++ r) = c :: t ++ r := jsWs_head (isWs_of_not_isDelim hdelim)
  have hhead : deref (c :: t ++ r) = c := rfl
  simp only [isStructural, decide_eq_false_iff_not, not_or] at hc
  have hdrop : (c :: t ++ r).dropWhile (fun c => !isDelim c) = r := by
    rw [List.dropWhile_append_of_pos fun c hc => by simp [(hall c hc).2]]
    cases r with
    | nil => rfl
    | cons d r =>
      change isDelim d = true at hr
      exact List.dropWhile_cons_of_neg (by simp [hr])
  rw [jsSkip, hws]
  dsimp only
  rw [hhead, if_neg hc.2.1, if_neg hc.2.2.1, if_neg hc.2.2.2.2.1, hdrop, if_pos (by simp)]

theorem jsSkip_value {t : List Byte} (h : Derives .value t) (hr : isDelim (deref r) = true) :
    jsSkip (t ++ r) = some r := by
  have hws : jsWs (t ++ r) = t ++ r := jsWs_head (value_head h r)
  obtain hatom | ⟨k, hk, rfl⟩ | ⟨opn, cls, u, hb, rfl, hu⟩ := value_cases h
  · exact jsSkip_atom hatom hr
  · have hquote : toQuote ((char '"' :: k ++ [char '"'] ++ r).drop 1) = char '"' :: r := by
      rw [List.append_assoc]
      exact toQuote_body hk
    rw [jsSkip, hws]
    dsimp only
    rw [hquote]
    rfl
  · have hnest : skipNest opn cls false 0 (opn :: u ++ [cls] ++ r) = some r := by
      rw [List.append_assoc, List.cons_append, skipNest_opn hb, hu _ (Nat.succ_pos _),
        List.singleton_append, skipNest_cls hb]
      rfl
    rw [jsSkip, hws]
    obtain ⟨rfl, rfl⟩ | ⟨rfl, rfl⟩ := hb
    · exact hnest
    · exact hnest

theorem eq_true_of_head {t : List Byte} (h : Derives .value t) (hd : deref (t ++ r) = char 't') :
    t = ascii "true" := by
  cases h with
  | null => cases hd
  | bool b =>
    cases b with
    | true => rfl
    | false => cases hd
  | @number s n f e hs hn hf he =>
    rw [List.append_assoc (s ++ n), List.append_assoc (s ++ n)] at hd
    exact absurd hd (number_head hs hn _ (by decide) (by decide))
  | string h => cases hd
  | emptyArray w => cases hd
  | array h => cases hd
  | emptyObject w => cases hd
  | object h => cases hd

theorem jsTrue_value {t : List Byte} (h : Derives .value t) (r : List Byte) :
    jsTrue (t ++ r) = decide (t = ascii "true") := by
  rw [jsTrue, jsWs_head (value_head h r), decide_eq_decide]
  constructor
  · intro htake
    refine eq_true_of_head h (r := r) ?_
    cases hp : t ++ r with
    | nil =>
      rw [hp] at htake
      cases htake
    | cons c p =>
      rw [hp] at htake
      exact (List.cons.inj htake).1
  · rintro rfl
    rfl

theorem jsNum_number (n : Number) (hr : isDelim (deref r) = true) :
    jsNum (n.text ++ r) = .round n.val := by
  have hends : EndsNumber (deref r) := by
    revert hr
    generalize deref r = c
    simp only [isDelim, isWs, decide_eq_true_eq]
    rintro (rfl | rfl | rfl | rfl | rfl | rfl | rfl | rfl)
    all_goals decide
  rw [jsNum, jsWs_head (value_head n.derives r), strtod_number n hends]

theorem isDelim_white (w : White) (hr : isDelim (deref r) = true) :
    isDelim (deref (w.val ++ r)) = true := by
  obtain ⟨w, hw⟩ := w
  cases w with
  | nil => exact hr
  | cons c w =>
    have hws := isWs_of_isWhite (List.all_eq_true.mp hw c List.mem_cons_self)
    change isDelim c = true
    simp [isDelim, hws]

theorem jsGetLoop_member (key : List Byte) (fuel : Nat) (m : Member) (hr : isDelim (deref r) = true)
    (hws : isWs (deref r) = false) :
    jsGetLoop key (fuel + 1) (m.text ++ r) =
      if m.key.val = key then some (m.value.val ++ (m.after.val ++ r))
      else if deref r = char ',' then jsGetLoop key fuel (r.drop 1) else none := by
  have hvalue : jsWs (m.value.val ++ (m.after.val ++ r)) = m.value.val ++ (m.after.val ++ r) :=
    jsWs_head (value_head m.value.property _)
  have hskip : jsSkip (m.value.val ++ (m.after.val ++ r)) = some (m.after.val ++ r) :=
    jsSkip_value m.value.property (isDelim_white m.after hr)
  have htext : m.text ++ r = m.before.val ++ (char '"' :: (m.key.val ++ char '"' ::
      (m.behind.val ++ char ':' :: (m.ahead.val ++ (m.value.val ++ (m.after.val ++ r)))))) := by
    simp [Member.text]
  have hquote (p : List Byte) : jsWs (char '"' :: p) = char '"' :: p := jsWs_head rfl
  have hcolon (p : List Byte) : jsWs (char ':' :: p) = char ':' :: p := jsWs_head rfl
  have htake (t : List Byte) : (m.key.val ++ t).take ((m.key.val ++ t).length - t.length) =
      m.key.val := by
    rw [List.length_append, Nat.add_sub_cancel, List.take_left]
  have hnul : ¬ char '"' = 0 := by decide
  rw [htext, jsGetLoop, jsWs_white, hquote]
  simp only [List.drop_succ_cons, List.drop_zero, toQuote_body m.key.property, Json.deref_cons,
    ne_eq, not_true_eq_false, if_false, if_neg hnul, htake, jsWs_white, hcolon, hvalue, hskip,
    jsWs_head hws]

theorem jsGetLoop_succ (key : List Byte) (fuel : Nat) (m : Member) (ms : List Member)
    (r : List Byte) :
    jsGetLoop key (fuel + 1) (joinMembers (m :: ms) ++ char '}' :: r) =
      if m.key.val = key then some (m.value.val ++ (m.after.val ++ closeMembers ms r))
      else if ms = [] then none else jsGetLoop key fuel (joinMembers ms ++ char '}' :: r) := by
  rw [joinMembers_close]
  cases ms with
  | nil => exact jsGetLoop_member key fuel m rfl rfl
  | cons m' ms => exact jsGetLoop_member key fuel m rfl rfl

theorem jsGetLoop_first {key : List Byte} {before : List Member} {m : Member}
    {behind : List Member} (hkey : m.key.val = key) (hbefore : ∀ b ∈ before, b.key.val ≠ key)
    {fuel : Nat} (hfuel : before.length < fuel) (r : List Byte) :
    jsGetLoop key fuel (joinMembers (before ++ m :: behind) ++ char '}' :: r) =
      some (m.value.val ++ (m.after.val ++ closeMembers behind r)) := by
  induction before generalizing fuel with
  | nil =>
    obtain ⟨fuel, rfl⟩ := Nat.exists_eq_succ_of_ne_zero (Nat.ne_zero_of_lt hfuel)
    rw [List.nil_append, jsGetLoop_succ, if_pos hkey]
  | cons b before ih =>
    obtain ⟨fuel, rfl⟩ := Nat.exists_eq_succ_of_ne_zero (Nat.ne_zero_of_lt hfuel)
    rw [List.cons_append, jsGetLoop_succ, if_neg (hbefore b List.mem_cons_self), if_neg (by simp)]
    exact ih (fun b hb => hbefore b (List.mem_cons_of_mem _ hb)) (Nat.lt_of_succ_lt_succ hfuel)

theorem jsGetLoop_none {key : List Byte} {ms : List Member} (hne : ms ≠ [])
    (hkey : ∀ m ∈ ms, m.key.val ≠ key) (fuel : Nat) (r : List Byte) :
    jsGetLoop key fuel (joinMembers ms ++ char '}' :: r) = none := by
  induction ms generalizing fuel with
  | nil => exact absurd rfl hne
  | cons m ms ih =>
    cases fuel with
    | zero => rfl
    | succ fuel =>
      rw [jsGetLoop_succ, if_neg (hkey m List.mem_cons_self)]
      split
      · rfl
      · exact ih ‹_› (fun m hm => hkey m (List.mem_cons_of_mem _ hm)) fuel

theorem length_joinMembers (ms : List Member) : ms.length ≤ (joinMembers ms).length := by
  have htext (m : Member) : 1 ≤ m.text.length := by
    simp [Member.text]
    omega
  induction ms with
  | nil => exact Nat.zero_le _
  | cons m ms ih =>
    obtain rfl | hne := eq_or_ne ms []
    · exact htext m
    · rw [joinMembers_cons hne, List.length_append, List.length_cons, List.length_cons]
      have := htext m
      omega

theorem deref_joinMembers {ms : List Member} (hne : ms ≠ []) (r : List Byte) :
    deref (jsWs (joinMembers ms ++ r)) = char '"' := by
  obtain ⟨m, ms, rfl⟩ := List.exists_cons_of_ne_nil hne
  have htext (t : List Byte) : deref (jsWs (m.text ++ t)) = char '"' := by
    simp only [Member.text, List.append_assoc, List.cons_append, jsWs_white]
    exact congrArg deref (jsWs_head rfl)
  cases ms with
  | nil => exact htext r
  | cons m' ms =>
    rw [joinMembers_cons (by simp), List.append_assoc]
    exact htext _

theorem jsGet_object (o : Object) (r : List Byte) (key : String) :
    ∃ fuel, o.members.length ≤ fuel ∧ jsGet (o.text ++ r) key =
      if o.members = [] then none
      else jsGetLoop (ascii key) fuel (joinMembers o.members ++ char '}' :: (o.trail.val ++ r)) := by
  have htext : o.text ++ r = o.lead.val ++ char '{' :: (o.inner.val ++ (joinMembers o.members ++
      char '}' :: (o.trail.val ++ r))) := by
    simp [Object.text]
  have hopn (p : List Byte) : jsWs (char '{' :: p) = char '{' :: p := jsWs_head rfl
  have hlen := length_joinMembers o.members
  refine ⟨(o.inner.val ++ (joinMembers o.members ++ char '}' :: (o.trail.val ++ r))).length + 1,
    by simp only [List.length_append]; omega, ?_⟩
  rw [htext, jsGet, jsWs_white, hopn]
  simp only [Json.deref_cons, ne_eq, not_true_eq_false, if_false, List.drop_succ_cons,
    List.drop_zero, jsWs_white]
  by_cases hne : o.members = []
  · rw [hne, joinMembers, List.nil_append, jsWs_head rfl]
    rfl
  · have hbrace : ¬ char '"' = char '}' := by decide
    have hagain (fuel : Nat) (p : List Byte) :
        jsGetLoop (ascii key) (fuel + 1) (jsWs p) = jsGetLoop (ascii key) (fuel + 1) p := by
      rw [jsGetLoop, jsGetLoop, jsWs_jsWs]
    rw [deref_joinMembers hne, if_neg hbrace, List.length_cons, hagain, if_neg hne]

theorem jsGet_first {o : Object} {key : String} {before : List Member} {m : Member}
    {behind : List Member} (h : o.members = before ++ m :: behind) (hkey : m.key.val = ascii key)
    (hbefore : ∀ b ∈ before, b.key.val ≠ ascii key) (r : List Byte) :
    jsGet (o.text ++ r) key =
      some (m.value.val ++ (m.after.val ++ closeMembers behind (o.trail.val ++ r))) := by
  obtain ⟨fuel, hfuel, hget⟩ := jsGet_object o r key
  have hlt : before.length < fuel := by
    rw [h, List.length_append, List.length_cons] at hfuel
    omega
  rw [hget, if_neg (by simp [h]), h, jsGetLoop_first hkey hbefore hlt]

theorem jsGet_none {o : Object} {key : String} (h : ∀ m ∈ o.members, m.key.val ≠ ascii key)
    (r : List Byte) : jsGet (o.text ++ r) key = none := by
  obtain ⟨fuel, -, hget⟩ := jsGet_object o r key
  rw [hget]
  split
  · rfl
  · exact jsGetLoop_none ‹_› h fuel _

/-- What `js_get` finds: the value of the first member whose key has these bytes, with
the text behind it. -/
def Finds (key : List Byte) (ms : List Member) (p : Option (List Byte)) : Prop :=
  (∃ m r, ms.find? (fun m => m.key.val = key) = some m ∧ p = some (m.value.val ++ r) ∧
    isDelim (deref r) = true) ∨ ms.find? (fun m => m.key.val = key) = none ∧ p = none

theorem closeMembers_delim (ms : List Member) (r : List Byte) :
    isDelim (deref (closeMembers ms r)) = true := by
  cases ms <;> rfl

theorem jsGet_finds (o : Object) (key : String) :
    Finds (ascii key) o.members (jsGet o.text key) := by
  rw [← List.append_nil o.text]
  cases hfind : o.members.find? fun m => m.key.val = ascii key with
  | none =>
    have hkey : ∀ m ∈ o.members, m.key.val ≠ ascii key := by simpa using hfind
    exact .inr ⟨hfind, jsGet_none hkey []⟩
  | some m =>
    obtain ⟨hkey, before, behind, hmembers, hbefore⟩ := List.find?_eq_some_iff_append.mp hfind
    refine .inl ⟨m, _, hfind, jsGet_first hmembers (of_decide_eq_true hkey) ?_ [],
      isDelim_white m.after (closeMembers_delim behind _)⟩
    simpa using hbefore

end OspreyBlake2b.Miner
