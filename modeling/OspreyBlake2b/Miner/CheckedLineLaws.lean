import OspreyBlake2b.Miner.CheckedLine
import OspreyBlake2b.Miner.JsonLaws
import OspreyBlake2b.Miner.WalkerLaws

/-! The checked walker never faults: on every line it returns what the walker over
suffixes returns, at the position of that suffix. -/

namespace OspreyBlake2b.Miner

open OspreyBlake2b.Lib

def Behind (q p : List Byte) : Prop := q <:+ p ∧ q.length < p.length

theorem behind_cons {q p : List Byte} (c : Byte) (h : q <:+ p) : Behind q (c :: p) :=
  ⟨h.trans (List.suffix_cons c p), Nat.lt_succ_of_le h.length_le⟩

theorem Behind.of_suffix {q r p : List Byte} (h : Behind q r) (hr : r <:+ p) : Behind q p :=
  ⟨h.1.trans hr, h.2.trans_le hr.length_le⟩

theorem jsWs_suffix (p : List Byte) : jsWs p <:+ p := List.dropWhile_suffix _

theorem toQuote_suffix (p : List Byte) : toQuote p <:+ p := by
  fun_induction toQuote p with
  | case1 => exact List.suffix_rfl
  | case2 c p h => exact List.suffix_rfl
  | case3 => exact List.nil_suffix
  | case4 => exact List.suffix_cons _ _
  | case5 d q hd _ ih => exact ih.trans ((List.suffix_cons _ _).trans (List.suffix_cons _ _))
  | case6 c p h hc ih => exact ih.trans (List.suffix_cons _ _)

theorem skipNest_string (opn cls : Byte) (depth : Nat) (p : List Byte) :
    skipNest opn cls true depth p =
      if deref (toQuote p) = 0 then none
      else skipNest opn cls false depth ((toQuote p).drop 1) := by
  have hnul : ¬ char '\\' = 0 := by decide
  have hquote : ¬ char '\\' = char '"' := by decide
  fun_induction toQuote p with
  | case1 => rfl
  | case2 c p h =>
    rw [skipNest_cons]
    obtain rfl | rfl := h
    · rfl
    · rfl
  | case3 => rfl
  | case4 => rfl
  | case5 d q hd _ ih =>
    rw [skipNest_cons]
    simp only [if_neg hnul, if_true, if_neg hquote, if_neg hd, ih]
  | case6 c p h hc ih =>
    rw [not_or] at h
    rw [skipNest_cons]
    simp only [if_neg h.1, if_true, if_neg h.2, if_neg hc, ih]

theorem skipNest_behind {opn cls : Byte} {inStr : Bool} {depth : Nat} {p q : List Byte}
    (h : skipNest opn cls inStr depth p = some q) : Behind q p := by
  fun_induction skipNest opn cls inStr depth p with
  | case1 => cases h
  | case2 => cases h
  | case3 depth r hn ih => exact (ih h).of_suffix (List.suffix_cons _ _)
  | case4 => cases h
  | case5 => cases h
  | case6 depth d r _ _ _ ih =>
    exact (ih h).of_suffix ((List.suffix_cons _ _).trans (List.suffix_cons _ _))
  | case7 depth d r _ _ _ ih => exact (ih h).of_suffix (List.suffix_cons _ _)
  | case8 inStr depth r _ _ ih => exact (ih h).of_suffix (List.suffix_cons _ _)
  | case9 inStr depth r _ _ _ _ hzero =>
    cases h
    exact behind_cons _ List.suffix_rfl
  | case10 inStr depth r _ _ _ _ _ ih => exact (ih h).of_suffix (List.suffix_cons _ _)
  | case11 inStr depth d r _ _ _ _ _ ih => exact (ih h).of_suffix (List.suffix_cons _ _)

theorem jsSkip_behind {p q : List Byte} (h : jsSkip p = some q) : Behind q p := by
  refine Behind.of_suffix (r := jsWs p) ?_ (jsWs_suffix p)
  rw [jsSkip] at h
  generalize jsWs p = p at h
  dsimp only at h
  split_ifs at h with hquote hend hsq hbr hlt
  · obtain _ | ⟨c, p⟩ := p
    · cases hquote
    · cases h
      exact behind_cons c ((List.drop_suffix 1 _).trans (toQuote_suffix p))
  · exact skipNest_behind h
  · exact skipNest_behind h
  · cases h
    exact ⟨List.dropWhile_suffix _, hlt⟩

theorem jsGetLoop_suffix {key : List Byte} {fuel : Nat} {p q : List Byte}
    (h : jsGetLoop key fuel p = some q) : q <:+ p := by
  induction fuel generalizing p with
  | zero => cases h
  | succ fuel ih =>
    rw [jsGetLoop] at h
    refine List.IsSuffix.trans ?_ (jsWs_suffix p)
    generalize jsWs p = p at h
    dsimp only at h
    have hvalue : jsWs ((jsWs ((toQuote (p.drop 1)).drop 1)).drop 1) <:+ p :=
      (jsWs_suffix _).trans ((List.drop_suffix 1 _).trans ((jsWs_suffix _).trans
        ((List.drop_suffix 1 _).trans ((toQuote_suffix _).trans (List.drop_suffix 1 p)))))
    split_ifs at h with hquote hend hcolon hmatch
    · cases h
      exact hvalue
    · refine List.IsSuffix.trans ?_ hvalue
      cases hskip : jsSkip (jsWs ((jsWs ((toQuote (p.drop 1)).drop 1)).drop 1)) with
      | none =>
        rw [hskip] at h
        cases h
      | some r =>
        simp only [hskip] at h
        split_ifs at h
        exact (ih h).trans ((List.drop_suffix 1 _).trans
          ((jsWs_suffix r).trans (jsSkip_behind hskip).1))

theorem jsGet_suffix {p q : List Byte} {key : String} (h : jsGet p key = some q) : q <:+ p := by
  simp only [jsGet] at h
  split_ifs at h
  exact (jsGetLoop_suffix h).trans
    ((jsWs_suffix _).trans ((List.drop_suffix 1 _).trans (jsWs_suffix p)))

theorem jsElemLoop_suffix {idx : Nat} {p q : List Byte} (h : jsElemLoop idx p = some q) :
    q <:+ p := by
  induction idx generalizing p with
  | zero =>
    cases h
    exact List.suffix_rfl
  | succ idx ih =>
    rw [jsElemLoop] at h
    cases hskip : jsSkip p with
    | none =>
      rw [hskip] at h
      cases h
    | some r =>
      simp only [hskip] at h
      split_ifs at h
      exact (ih h).trans ((jsWs_suffix _).trans ((List.drop_suffix 1 _).trans
        ((jsWs_suffix r).trans (jsSkip_behind hskip).1)))

theorem jsElem_suffix {p q : List Byte} {idx : Nat} (h : jsElem p idx = some q) : q <:+ p := by
  simp only [jsElem] at h
  split_ifs at h
  exact (jsElemLoop_suffix h).trans
    ((jsWs_suffix _).trans ((List.drop_suffix 1 _).trans (jsWs_suffix p)))

namespace Checked

variable {t : CString} {s : List Byte}

theorem jsWs_eq (hs : s <:+ t.text) : jsWs t (t.pos s) = .ok (t.pos (Miner.jsWs s)) :=
  CString.skipWhile_eq (by decide) hs

theorem jsWs_read (hs : s <:+ t.text) (f : Nat → Byte → Except Fault A) :
    (jsWs t (t.pos s) >>= fun p => t.read p >>= fun c => f p c) =
      f (t.pos (Miner.jsWs s)) (deref (Miner.jsWs s)) := by
  rw [jsWs_eq hs, Fault.ok_bind, CString.read_pos ((jsWs_suffix s).trans hs), Fault.ok_bind]

theorem toQuoteLoop_eq {fuel : Nat} (hs : s <:+ t.text) (hfuel : s.length < fuel) :
    toQuoteLoop t fuel (t.pos s) = .ok (t.pos (Miner.toQuote s)) := by
  induction fuel generalizing s with
  | zero => cases hfuel
  | succ fuel ih =>
    rw [toQuoteLoop, Miner.toQuote.eq_def]
    cases s with
    | nil =>
      rw [CString.read_nil]
      rfl
    | cons c s =>
      have hs' := CString.tail_suffix hs
      have hlt : s.length < fuel := Nat.lt_of_succ_lt_succ hfuel
      simp only [CString.read_cons hs, Fault.ok_bind, CString.pos_tail hs]
      split_ifs with hstop hback
      · rfl
      · cases s with
        | nil =>
          rw [CString.read_nil]
          exact ih hs' hlt
        | cons d s =>
          have hd := CString.head_ne_zero hs'
          have hpos : t.pos (c :: d :: s) + 2 = t.pos s := by
            rw [← CString.pos_tail hs', ← CString.pos_tail hs]
          simp only [CString.read_cons hs', Fault.ok_bind, ne_eq, hd, not_false_eq_true, if_true,
            if_false, hpos]
          exact ih (CString.tail_suffix hs') (Nat.lt_of_succ_lt hlt)
      · exact ih hs' hlt

theorem toQuote_eq (hs : s <:+ t.text) : toQuote t (t.pos s) = .ok (t.pos (Miner.toQuote s)) :=
  toQuoteLoop_eq hs (CString.length_lt_bound hs)

/-- `depth` is 0 only at the opening bracket. -/
theorem skipNestLoop_eq {opn cls : Byte} (hb : Bracket opn cls) {fuel depth : Nat}
    (hs : s <:+ t.text) (hfuel : s.length < fuel) (hdepth : 0 < depth ∨ deref s = opn) :
    skipNestLoop t opn cls fuel depth (t.pos s) =
      .ok ((Miner.skipNest opn cls false depth s).map t.pos) := by
  induction fuel generalizing s depth with
  | zero => cases hfuel
  | succ fuel ih =>
    rw [skipNestLoop, Miner.skipNest.eq_def]
    cases s with
    | nil =>
      rw [CString.read_nil]
      rfl
    | cons c s =>
      have hs' := CString.tail_suffix hs
      have hlt : s.length < fuel := Nat.lt_of_succ_lt_succ hfuel
      have hc := CString.head_ne_zero hs
      simp only [CString.read_cons hs, Fault.ok_bind, CString.pos_tail hs, if_neg hc,
        Bool.false_eq_true, if_false]
      have hopn : opn ≠ char '"' := by
        obtain ⟨rfl, -⟩ | ⟨rfl, -⟩ := hb <;> decide
      by_cases hquote : c = char '"'
      · have hq := (toQuote_suffix s).trans hs'
        have hdepth : 0 < depth := hdepth.resolve_right fun h => hopn (h ▸ hquote)
        rw [if_pos hquote, if_pos hquote, toQuote_eq hs', Fault.ok_bind, CString.read_pos hq,
          Fault.ok_bind, skipNest_string]
        split_ifs with hend
        · rfl
        · have hne : Miner.toQuote s ≠ [] := fun h => hend (by rw [h]; rfl)
          have hdrop := List.drop_suffix 1 (Miner.toQuote s)
          rw [CString.pos_succ hq hne]
          exact ih (hdrop.trans hq)
            ((hdrop.trans (toQuote_suffix s)).length_le.trans_lt hlt) (.inl hdepth)
      · have hpos : 0 < if c = opn then depth + 1 else depth := by
          split_ifs with h
          · exact Nat.succ_pos _
          · exact hdepth.resolve_right h
        have hcast : (if c = opn then (depth : Int) + 1 else depth) =
            ((if c = opn then depth + 1 else depth : Nat) : Int) := by
          split_ifs <;> rfl
        rw [if_neg hquote, if_neg hquote, hcast]
        generalize (if c = opn then depth + 1 else depth) = depth at hpos
        obtain ⟨d, rfl⟩ := Nat.exists_eq_add_of_lt hpos
        have hd : ((0 + d + 1 : Nat) : Int) - 1 = d := by omega
        have hd' : 0 + d + 1 - 1 = d := by omega
        simp only [hd, hd', Int.natCast_eq_zero]
        split_ifs with hcls hzero
        · rfl
        · exact ih hs' hlt (.inl (Nat.pos_of_ne_zero hzero))
        · exact ih hs' hlt (.inl (Nat.succ_pos _))

theorem skipNest_eq {opn cls : Byte} (hb : Bracket opn cls) (hs : s <:+ t.text)
    (hopn : deref s = opn) :
    skipNest t opn cls (t.pos s) = .ok ((Miner.skipNest opn cls false 0 s).map t.pos) :=
  skipNestLoop_eq hb hs (CString.length_lt_bound hs) (.inr hopn)

theorem pos_behind {c : Byte} (hs : s <:+ t.text) (h : deref s = c) (hc : c ≠ 0) :
    t.pos s + 1 = t.pos (s.drop 1) :=
  CString.pos_succ hs (CString.ne_nil_of_deref h hc)

theorem jsSkip_eq (hs : s <:+ t.text) :
    jsSkip t (t.pos s) = .ok ((Miner.jsSkip s).map t.pos) := by
  rw [jsSkip, jsWs_read hs, Miner.jsSkip]
  replace hs := (jsWs_suffix s).trans hs
  generalize Miner.jsWs s = s at hs
  dsimp only
  by_cases hquote : deref s = char '"'
  · have hdrop := (List.drop_suffix 1 s).trans hs
    have hq := (toQuote_suffix (s.drop 1)).trans hdrop
    rw [if_pos hquote, if_pos hquote, pos_behind hs hquote (by decide), toQuote_eq hdrop,
      Fault.ok_bind, CString.read_pos hq, Fault.ok_bind]
    split_ifs with hend
    · rfl
    · rw [CString.pos_succ hq fun h => hend (by rw [h]; rfl)]
      rfl
  rw [if_neg hquote, if_neg hquote]
  split_ifs with hsq hbr hlt
  · exact skipNest_eq (.inl ⟨rfl, rfl⟩) hs hsq
  · exact skipNest_eq (.inr ⟨rfl, rfl⟩) hs hbr
  · rw [CString.skipWhile_eq (by decide) hs, Fault.ok_bind, if_pos ((CString.pos_lt_iff hs).mpr hlt)]
    rfl
  · rw [CString.skipWhile_eq (by decide) hs, Fault.ok_bind,
      if_neg (mt (CString.pos_lt_iff hs).mp hlt)]
    rfl

theorem separator_behind {v q : List Byte} (hv : v <:+ t.text) (h : Miner.jsSkip v = some q) :
    q <:+ t.text ∧ Miner.jsWs q <:+ t.text ∧ ((Miner.jsWs q).drop 1).length < v.length := by
  have hq := jsSkip_behind h
  have hrest := hq.1.trans hv
  exact ⟨hrest, (jsWs_suffix q).trans hrest,
    ((List.drop_suffix 1 _).trans (jsWs_suffix q)).length_le.trans_lt hq.2⟩

theorem keyMatches_eq (hs : s <:+ t.text) (key : List Byte) :
    keyMatches t key (t.pos s) (t.pos (Miner.toQuote s)) =
      .ok (s.take (s.length - (Miner.toQuote s).length) = key) := by
  have hle := (toQuote_suffix s).length_le
  have hlen := hs.length_le
  have hpos : t.pos (Miner.toQuote s) - t.pos s = s.length - (Miner.toQuote s).length := by
    simp only [CString.pos]
    omega
  rw [keyMatches, hpos]
  split_ifs with h
  · rw [CString.memEq_eq hs (h ▸ Nat.sub_le _ _), h]
  · have hne : s.take (s.length - (Miner.toQuote s).length) ≠ key := by
      rintro rfl
      rw [List.length_take] at h
      omega
    simp [hne]

/-- `fuel` and `fuel'` only have to reach the length of what is left. -/
theorem jsGetLoop_eq (key : List Byte) {fuel fuel' : Nat} (hs : s <:+ t.text)
    (hfuel : s.length < fuel) (hfuel' : s.length < fuel') :
    jsGetLoop t key fuel (t.pos s) = .ok ((Miner.jsGetLoop key fuel' s).map t.pos) := by
  induction fuel generalizing s fuel' with
  | zero => cases hfuel
  | succ fuel ih =>
    obtain _ | fuel' := fuel'
    · cases hfuel'
    rw [jsGetLoop, jsWs_read hs, Miner.jsGetLoop]
    have hlen := (jsWs_suffix s).length_le
    replace hs := (jsWs_suffix s).trans hs
    generalize Miner.jsWs s = s at hs hlen
    dsimp only
    by_cases hquote : deref s = char '"'
    swap
    · rw [if_pos hquote, if_pos hquote]
      rfl
    have hks := (List.drop_suffix 1 s).trans hs
    have hke := (toQuote_suffix (s.drop 1)).trans hks
    rw [if_neg (not_not.mpr hquote), if_neg (not_not.mpr hquote), pos_behind hs hquote (by decide),
      toQuote_eq hks, Fault.ok_bind, CString.read_pos hke, Fault.ok_bind]
    by_cases hend : deref (Miner.toQuote (s.drop 1)) = 0
    · rw [if_pos hend, if_pos hend]
      rfl
    have hbehind := (List.drop_suffix 1 _).trans hke
    rw [if_neg hend, if_neg hend, keyMatches_eq hks, Fault.ok_bind,
      CString.pos_succ hke fun h => hend (by rw [h]; rfl), jsWs_read hbehind]
    have hlen : (Miner.jsWs ((Miner.toQuote (s.drop 1)).drop 1)).length ≤ s.length :=
      ((jsWs_suffix _).trans ((List.drop_suffix 1 _).trans
        ((toQuote_suffix _).trans (List.drop_suffix 1 s)))).length_le
    replace hbehind := (jsWs_suffix _).trans hbehind
    generalize Miner.jsWs ((Miner.toQuote (s.drop 1)).drop 1) = p at hbehind hlen
    by_cases hcolon : deref p = char ':'
    swap
    · rw [if_pos hcolon, if_pos hcolon]
      rfl
    have hvalue := (List.drop_suffix 1 p).trans hbehind
    rw [if_neg (not_not.mpr hcolon), if_neg (not_not.mpr hcolon),
      pos_behind hbehind hcolon (by decide), jsWs_eq hvalue, Fault.ok_bind]
    have hlen : (Miner.jsWs (p.drop 1)).length ≤ s.length :=
      (((jsWs_suffix _).trans (List.drop_suffix 1 p)).length_le).trans hlen
    replace hvalue := (jsWs_suffix _).trans hvalue
    generalize Miner.jsWs (p.drop 1) = v at hvalue hlen
    simp only [decide_eq_true_eq]
    split_ifs with hmatch
    · rfl
    rw [jsSkip_eq hvalue, Fault.ok_bind]
    cases hskip : Miner.jsSkip v with
    | none => rfl
    | some q =>
      obtain ⟨hq, hws, hlt⟩ := separator_behind hvalue hskip
      simp only [Option.map_some]
      rw [jsWs_read hq]
      split_ifs with hcomma
      · rw [pos_behind hws hcomma (by decide)]
        exact ih ((List.drop_suffix 1 _).trans hws) (by omega) (by omega)
      · rfl

theorem element_behind {c : Byte} (hs : s <:+ t.text) (h : deref s = c) (hc : c ≠ 0) :
    s.drop 1 <:+ t.text ∧ Miner.jsWs (s.drop 1) <:+ t.text ∧
      (Miner.jsWs (s.drop 1)).length < s.length := by
  have hdrop := (List.drop_suffix 1 s).trans hs
  refine ⟨hdrop, (jsWs_suffix _).trans hdrop, ?_⟩
  obtain ⟨d, p, rfl⟩ := List.exists_cons_of_ne_nil (CString.ne_nil_of_deref h hc)
  exact Nat.lt_succ_of_le (jsWs_suffix p).length_le

theorem jsGet_eq (hs : s <:+ t.text) (key : String) :
    jsGet t (t.pos s) key = .ok ((Miner.jsGet s key).map t.pos) := by
  rw [jsGet, jsWs_read hs, Miner.jsGet]
  replace hs := (jsWs_suffix s).trans hs
  generalize Miner.jsWs s = s at hs
  dsimp only
  by_cases hopen : deref s = char '{'
  swap
  · rw [if_pos hopen, if_pos hopen]
    rfl
  obtain ⟨hdrop, hfirst, hlt⟩ := element_behind hs hopen (by decide)
  rw [if_neg (not_not.mpr hopen), if_neg (not_not.mpr hopen), pos_behind hs hopen (by decide),
    jsWs_read hdrop]
  split_ifs with hclose
  · rfl
  · exact jsGetLoop_eq _ hfirst (CString.length_lt_bound hfirst) hlt

theorem jsElemLoop_eq {idx : Int} {fuel : Nat} (k : Nat) (hs : s <:+ t.text)
    (hfuel : s.length < fuel) :
    jsElemLoop t idx fuel (idx - k) (t.pos s) = .ok ((Miner.jsElemLoop k s).map t.pos) := by
  induction k generalizing s fuel with
  | zero =>
    obtain _ | fuel := fuel
    · cases hfuel
    rw [jsElemLoop, if_pos (show idx - (0 : Nat) = idx by omega)]
    rfl
  | succ k ih =>
    obtain _ | fuel := fuel
    · cases hfuel
    rw [jsElemLoop, if_neg (by omega), jsSkip_eq hs, Fault.ok_bind, Miner.jsElemLoop]
    cases hskip : Miner.jsSkip s with
    | none => rfl
    | some q =>
      obtain ⟨hq, hws, hlt⟩ := separator_behind hs hskip
      simp only [Option.map_some]
      rw [jsWs_read hq]
      by_cases hcomma : deref (Miner.jsWs q) = char ','
      · have hdrop := (List.drop_suffix 1 _).trans hws
        have hle := (jsWs_suffix ((Miner.jsWs q).drop 1)).length_le
        have hi : idx - (k + 1 : Nat) + 1 = idx - k := by omega
        rw [if_neg (not_not.mpr hcomma), if_neg (not_not.mpr hcomma),
          pos_behind hws hcomma (by decide), jsWs_eq hdrop, Fault.ok_bind, hi]
        exact ih ((jsWs_suffix _).trans hdrop) (by omega)
      · rw [if_pos hcomma, if_pos hcomma]
        rfl

theorem jsElemLoop_passed {idx i : Int} (hi : idx < i) {fuel : Nat} (hs : s <:+ t.text)
    (hfuel : s.length < fuel) : jsElemLoop t idx fuel i (t.pos s) = .ok none := by
  induction fuel generalizing s i with
  | zero => cases hfuel
  | succ fuel ih =>
    rw [jsElemLoop, if_neg hi.ne', jsSkip_eq hs, Fault.ok_bind]
    cases hskip : Miner.jsSkip s with
    | none => rfl
    | some q =>
      obtain ⟨hq, hws, hlt⟩ := separator_behind hs hskip
      simp only [Option.map_some]
      rw [jsWs_read hq]
      split_ifs with hcomma
      · rfl
      · have hdrop := (List.drop_suffix 1 _).trans hws
        have hle := (jsWs_suffix ((Miner.jsWs q).drop 1)).length_le
        rw [pos_behind hws (not_not.mp hcomma) (by decide), jsWs_eq hdrop, Fault.ok_bind]
        exact ih (by omega) ((jsWs_suffix _).trans hdrop) (by omega)

theorem jsElem_eq (hs : s <:+ t.text) (idx : Int) :
    jsElem t (t.pos s) idx =
      .ok (if idx < 0 then none else (Miner.jsElem s idx.toNat).map t.pos) := by
  rw [jsElem, jsWs_read hs, Miner.jsElem]
  replace hs := (jsWs_suffix s).trans hs
  generalize Miner.jsWs s = s at hs
  dsimp only
  by_cases hopen : deref s = char '['
  swap
  · rw [if_pos hopen, if_pos hopen]
    split_ifs <;> rfl
  obtain ⟨hdrop, hfirst, hlt⟩ := element_behind hs hopen (by decide)
  rw [if_neg (not_not.mpr hopen), if_neg (not_not.mpr hopen), pos_behind hs hopen (by decide),
    jsWs_read hdrop]
  by_cases hclose : deref (Miner.jsWs (s.drop 1)) = char ']'
  · rw [if_pos hclose, if_pos hclose]
    split_ifs <;> rfl
  rw [if_neg hclose, if_neg hclose]
  have hbound := CString.length_lt_bound hfirst
  split_ifs with hneg
  · exact jsElemLoop_passed hneg hfirst hbound
  · have h0 : (0 : Int) = idx - idx.toNat := by omega
    rw [h0]
    exact jsElemLoop_eq _ hfirst hbound

theorem jsElem_at (hs : s <:+ t.text) (i : Int) (k : Nat) (h : i = k) :
    jsElem t (t.pos s) i = .ok ((Miner.jsElem s k).map t.pos) := by
  rw [jsElem_eq hs, if_neg (by omega), h, Int.toNat_natCast]

theorem jsCountLoop_eq {fuel fuel' : Nat} (n : Int) (hs : s <:+ t.text)
    (hfuel : s.length < fuel) (hfuel' : s.length < fuel') :
    jsCountLoop t fuel n (t.pos s) = .ok (Miner.jsCountLoop fuel' n s) := by
  induction fuel generalizing s fuel' n with
  | zero => cases hfuel
  | succ fuel ih =>
    obtain _ | fuel' := fuel'
    · cases hfuel'
    rw [jsCountLoop, jsSkip_eq hs, Fault.ok_bind, Miner.jsCountLoop]
    cases hskip : Miner.jsSkip s with
    | none => rfl
    | some q =>
      obtain ⟨hq, hws, hlt⟩ := separator_behind hs hskip
      simp only [Option.map_some]
      rw [jsWs_read hq]
      by_cases hcomma : deref (Miner.jsWs q) = char ','
      · have hdrop := (List.drop_suffix 1 _).trans hws
        have hle := (jsWs_suffix ((Miner.jsWs q).drop 1)).length_le
        rw [if_pos hcomma, if_pos hcomma, pos_behind hws hcomma (by decide), jsWs_eq hdrop,
          Fault.ok_bind]
        exact ih _ ((jsWs_suffix _).trans hdrop) (by omega) (by omega)
      · rw [if_neg hcomma, if_neg hcomma]
        split_ifs <;> rfl

theorem jsCount_eq (hs : s <:+ t.text) : jsCount t (t.pos s) = .ok (Miner.jsCount s) := by
  rw [jsCount, jsWs_read hs, Miner.jsCount]
  replace hs := (jsWs_suffix s).trans hs
  generalize Miner.jsWs s = s at hs
  dsimp only
  by_cases hopen : deref s = char '['
  swap
  · rw [if_pos hopen, if_pos hopen]
    rfl
  obtain ⟨hdrop, hfirst, hlt⟩ := element_behind hs hopen (by decide)
  rw [if_neg (not_not.mpr hopen), if_neg (not_not.mpr hopen), pos_behind hs hopen (by decide),
    jsWs_read hdrop]
  split_ifs with hclose
  · rfl
  · exact jsCountLoop_eq 0 hfirst (CString.length_lt_bound hfirst) hlt

theorem jsStrLoop_eq {outlen fuel : Nat} (hs : s <:+ t.text) (hfuel : s.length < fuel)
    {out : List Byte} (hroom : out.length < outlen ∨ deref s ≠ char '"') :
    jsStrLoop t outlen fuel (t.pos s) out =
      .ok (out ++ (Miner.jsStrLoop (outlen - out.length) s).1,
        (Miner.jsStrLoop (outlen - out.length) s).2) := by
  induction fuel generalizing s out with
  | zero => cases hfuel
  | succ fuel ih =>
    rw [jsStrLoop]
    cases s with
    | nil =>
      rw [CString.read_nil, Fault.ok_bind, if_neg (by decide), if_pos (.inl rfl)]
      simp [Miner.jsStrLoop]
    | cons c s =>
      have hc := CString.head_ne_zero hs
      rw [CString.read_cons hs, Fault.ok_bind, Miner.jsStrLoop]
      by_cases hquote : c = char '"'
      · have hroom : out.length < outlen := hroom.resolve_right (not_not.mpr hquote)
        rw [if_pos hquote, if_pos hquote, store_ok hroom]
        simp
      have hfull : out.length + 1 ≥ outlen ↔ outlen - out.length ≤ 1 := by omega
      rw [if_neg hquote, if_neg hquote]
      simp only [hfull]
      by_cases hstop : c = 0 ∨ outlen - out.length ≤ 1
      · rw [if_pos hstop, if_pos hstop]
        simp
      rw [if_neg hstop, if_neg hstop, store_ok (by omega), Fault.ok_bind, CString.pos_tail hs,
        ih (CString.tail_suffix hs) (Nat.lt_of_succ_lt_succ hfuel)
          (.inl (by simp only [List.length_append, List.length_singleton]; omega))]
      simp [Nat.sub_sub]

def emptyString (v : List Byte) : Bool := starts (ascii "\"\"") (Miner.jsWs v)

theorem emptyString_iff (v : List Byte) : emptyString v = true ↔
    deref (Miner.jsWs v) = char '"' ∧ deref ((Miner.jsWs v).drop 1) = char '"' := by
  have hascii : ascii "\"\"" = [char '"', char '"'] := rfl
  have hnul : (0#8 : Byte) ≠ char '"' := by decide
  rw [emptyString, starts, hascii, decide_eq_true_eq]
  obtain _ | ⟨c, _ | ⟨d, s⟩⟩ := Miner.jsWs v
  · simp [deref, hnul]
  · simp [deref, hnul]
  · simp [deref]

theorem jsStr_eq {outlen : Nat} (hs : s <:+ t.text)
    (hroom : 0 < outlen ∨ emptyString s = false) :
    jsStr t (t.pos s) outlen = .ok (Miner.jsStr s outlen) := by
  rw [← Bool.not_eq_true, emptyString_iff, not_and'] at hroom
  rw [jsStr, jsWs_read hs, Miner.jsStr]
  replace hs := (jsWs_suffix s).trans hs
  generalize Miner.jsWs s = s at hs hroom
  by_cases hquote : deref s = char '"'
  swap
  · rw [if_pos hquote, if_pos hquote]
    rfl
  have hroom : 0 < outlen ∨ deref (s.drop 1) ≠ char '"' :=
    hroom.imp_right fun h hclose => h hclose hquote
  have hdrop := (List.drop_suffix 1 s).trans hs
  rw [if_neg (not_not.mpr hquote), if_neg (not_not.mpr hquote), pos_behind hs hquote (by decide),
    jsStrLoop_eq hdrop (CString.length_lt_bound hdrop) hroom]
  rfl

/-- With no room at all the NUL of an empty string is written all the same. -/
theorem jsStr_overrun (hs : s <:+ t.text) (h : emptyString s = true) :
    jsStr t (t.pos s) 0 = .error (.write 0) := by
  obtain ⟨hquote, hclose⟩ := (emptyString_iff s).mp h
  rw [jsStr, jsWs_read hs]
  replace hs := (jsWs_suffix s).trans hs
  generalize Miner.jsWs s = s at hs hquote hclose
  have hdrop := (List.drop_suffix 1 s).trans hs
  rw [if_neg (not_not.mpr hquote), pos_behind hs hquote (by decide), CString.bound, jsStrLoop,
    CString.read_pos hdrop, Fault.ok_bind, if_pos hclose]
  rfl

theorem hexLoop_eq {buf : List Byte} {maxlen n i : Nat} {out : List Byte}
    (hlen : 2 * (i + n) ≤ buf.length) (hout : out.length + n ≤ maxlen) :
    hexLoop buf maxlen n i out =
      .ok (out ++ (hexPairs ((buf.drop (2 * i)).take (2 * n))).1,
        (hexPairs ((buf.drop (2 * i)).take (2 * n))).2) := by
  induction n generalizing i out with
  | zero => simp [hexLoop, hexPairs]
  | succ n ih =>
    have hhi : 2 * i < buf.length := by omega
    have hlo : 2 * i + 1 < buf.length := by omega
    have htake : (buf.drop (2 * i)).take (2 * (n + 1)) =
        buf[2 * i] :: buf[2 * i + 1] :: (buf.drop (2 * (i + 1))).take (2 * n) := by
      rw [List.drop_eq_getElem_cons hhi, List.drop_eq_getElem_cons hlo]
      rfl
    rw [hexLoop, readAt_ok hhi, Fault.ok_bind, readAt_ok hlo, Fault.ok_bind, htake, hexPairs]
    cases hexval buf[2 * i] with
    | none => simp
    | some h =>
      cases hexval buf[2 * i + 1] with
      | none => simp
      | some l =>
        simp only [store_ok (show out.length < maxlen by omega), Fault.ok_bind]
        rw [ih (by omega) (by simp only [List.length_append, List.length_singleton]; omega)]
        simp

/-- What `js_str` has copied has no NUL in it, so `strlen` is its length. -/
theorem jsHex_eq (hs : s <:+ t.text) (maxlen : Nat) :
    jsHex t (t.pos s) maxlen = .ok (Miner.jsHex s maxlen) := by
  have hnul := (jsStr_spec (v := s) (show 0 < 2 * 512 + 4 by decide)).2
  rw [jsHex, jsStr_eq hs (.inl (by decide)), Fault.ok_bind, Miner.jsHex]
  generalize Miner.jsStr s (2 * 512 + 4) = r at hnul
  obtain ⟨buf, ok⟩ := r
  have hstr : cstr (buf ++ [0]) = buf := by
    have hne : ∀ c ∈ buf, decide (c ≠ 0) = true := fun c hc =>
      decide_eq_true fun h => hnul (h ▸ hc)
    rw [cstr, List.takeWhile_append_of_pos hne]
    simp
  dsimp only
  rw [hstr]
  split_ifs with hok hodd hlong
  · rfl
  · rfl
  · rfl
  · rw [hexLoop_eq (by simp only [List.length_append, List.length_singleton]; omega)
      (by simpa using hlong)]
    have heven : 2 * (buf.length / 2) = buf.length := by omega
    simp [heven]

theorem jsNum_eq (hs : s <:+ t.text) : jsNum t (t.pos s) = .ok (Miner.jsNum s) := by
  rw [jsNum, jsWs_eq hs, Fault.ok_bind, CString.rest_pos ((jsWs_suffix s).trans hs)]
  rfl

theorem jsTrue_eq (hs : s <:+ t.text) : jsTrue t (t.pos s) = .ok (Miner.jsTrue s) := by
  rw [jsTrue, jsWs_eq hs, Fault.ok_bind,
    CString.startsAt_eq (by decide) ((jsWs_suffix s).trans hs)]
  rfl

theorem bin2hex_eq {b : List Byte} {cap : Nat} (h : 2 * b.length < cap) :
    bin2hex b cap = .ok (Miner.bin2hex b) := by
  have hlen : (Miner.bin2hex b).length = 2 * b.length := by
    simp [Miner.bin2hex, List.length_flatMap, Nat.mul_comm]
  rw [bin2hex, foldlM_store _ (by simp only [List.length_nil]; omega), Fault.ok_bind,
    List.nil_append, store_ok (by omega)]
  rfl

end Checked

end OspreyBlake2b.Miner
