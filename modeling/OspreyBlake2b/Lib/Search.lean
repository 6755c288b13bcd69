import OspreyBlake2b.Lib.CText

/-! First occurrences of a word in a byte string, and `strstr` as the search for
them in memory. -/

namespace OspreyBlake2b.Lib

def OccursAt (w t : List Byte) (i : Nat) : Prop := (t.drop i).take w.length = w

instance (w t : List Byte) (i : Nat) : Decidable (OccursAt w t i) :=
  inferInstanceAs (Decidable (_ = _))

def find (w : List Byte) : List Byte → Option Nat
  | [] => none
  | b :: t => if OccursAt w (b :: t) 0 then some 0 else (find w t).map (· + 1)

section

variable {w t as bs : List Byte} {i : Nat}

theorem occursAt_zero : OccursAt w t 0 ↔ starts w t = true := by
  simp [OccursAt, starts]

theorem occursAt_succ (b : Byte) : OccursAt w (b :: t) (i + 1) ↔ OccursAt w t i := Iff.rfl

theorem OccursAt.le (h : OccursAt w t i) (hw : w ≠ []) : i + w.length ≤ t.length := by
  have hlen := congrArg List.length h
  have hpos := List.length_pos_iff.mpr hw
  simp only [List.length_take, List.length_drop] at hlen
  omega

theorem occursAt_append_left (h : i + w.length ≤ as.length) :
    OccursAt w (as ++ bs) i ↔ OccursAt w as i := by
  have hi : i ≤ as.length := by omega
  rw [OccursAt, OccursAt, List.drop_append_of_le_length hi,
    List.take_append_of_le_length (by simp; omega)]

theorem occursAt_append_right : OccursAt w (as ++ bs) (as.length + i) ↔ OccursAt w bs i := by
  rw [OccursAt, OccursAt, List.drop_append, List.drop_eq_nil_of_le (by omega)]
  simp

theorem occursAt_take {n : Nat} (hw : w ≠ []) :
    OccursAt w (t.take n) i ↔ OccursAt w t i ∧ i + w.length ≤ n := by
  constructor
  · intro h
    have hle := h.le hw
    simp only [List.length_take] at hle
    refine ⟨?_, by omega⟩
    rw [← List.take_append_drop n t]
    exact (occursAt_append_left (by simp; omega)).mpr h
  · rintro ⟨h, hn⟩
    have hle := h.le hw
    rw [← List.take_append_drop n t] at h
    exact (occursAt_append_left (by simp; omega)).mp h

theorem find_eq_some_iff (hw : w ≠ []) :
    find w t = some i ↔ OccursAt w t i ∧ ∀ j < i, ¬OccursAt w t j := by
  induction t generalizing i with
  | nil =>
    simp only [find, reduceCtorEq, false_iff, not_and]
    intro h
    have hpos := List.length_pos_iff.mpr hw
    have hle := h.le hw
    simp at hle
    exact absurd hle.2 hw
  | cons b t ih =>
    rw [find]
    split
    case isTrue h0 =>
      cases i with
      | zero => simp [h0]
      | succ i =>
        simp only [Option.some.injEq, reduceCtorEq, false_iff, not_and, not_forall, not_not]
        exact fun _ => ⟨0, by omega, h0⟩
    case isFalse h0 =>
      cases i with
      | zero => simp [h0]
      | succ i =>
        simp only [Option.map_eq_some_iff, Nat.add_right_cancel_iff, exists_eq_right, ih,
          occursAt_succ]
        refine and_congr_right fun _ => ⟨fun h j hj => ?_, fun h j hj => ?_⟩
        · cases j with
          | zero => exact h0
          | succ j => exact h j (by omega)
        · exact h (j + 1) (by omega)

theorem find_eq_none_iff (hw : w ≠ []) : find w t = none ↔ ∀ i, ¬OccursAt w t i := by
  constructor
  · intro h i hi
    classical
    have hex : ∃ i, OccursAt w t i := ⟨i, hi⟩
    have hfirst := (find_eq_some_iff hw).mpr
      ⟨Nat.find_spec hex, fun j hj => Nat.find_min hex hj⟩
    rw [h] at hfirst
    cases hfirst
  · intro h
    cases hf : find w t with
    | none => rfl
    | some i => exact absurd ((find_eq_some_iff hw).mp hf).1 (h i)

theorem find_append_of_some (hw : w ≠ []) (h : find w as = some i) : find w (as ++ bs) = some i := by
  obtain ⟨hi, hfirst⟩ := (find_eq_some_iff hw).mp h
  have hle := hi.le hw
  refine (find_eq_some_iff hw).mpr ⟨(occursAt_append_left hle).mpr hi, fun j hj => ?_⟩
  rw [occursAt_append_left (by omega)]
  exact hfirst j hj

theorem find_take {n : Nat} (hw : w ≠ []) :
    find w (t.take n) = some i ↔ find w t = some i ∧ i + w.length ≤ n := by
  constructor
  · intro h
    refine ⟨?_, ((occursAt_take hw).mp ((find_eq_some_iff hw).mp h).1).2⟩
    rw [← List.take_append_drop n t]
    exact find_append_of_some hw h
  · rintro ⟨h, hn⟩
    obtain ⟨hi, hfirst⟩ := (find_eq_some_iff hw).mp h
    refine (find_eq_some_iff hw).mpr ⟨(occursAt_take hw).mpr ⟨hi, hn⟩, fun j hj hoc => ?_⟩
    exact hfirst j hj ((occursAt_take hw).mp hoc).1

/-- A word that no proper part of it can begin again inside. -/
def Unbordered (w : List Byte) : Prop :=
  ∀ k < w.length, k ≠ 0 → w.drop k ≠ w.take (w.length - k)

instance (w : List Byte) : Decidable (Unbordered w) :=
  inferInstanceAs (Decidable (∀ k < w.length, _))

theorem find_append_self (hw : w ≠ []) (hborder : Unbordered w) (h : find w as = none) :
    find w (as ++ (w ++ bs)) = some as.length := by
  have hnone := (find_eq_none_iff hw).mp h
  have hself : OccursAt w (as ++ (w ++ bs)) as.length := by simp [OccursAt]
  refine (find_eq_some_iff hw).mpr ⟨hself, fun j hj hoc => ?_⟩
  by_cases hfit : j + w.length ≤ as.length
  · exact hnone j ((occursAt_append_left hfit).mp hoc)
  · -- an occurrence across the seam makes the rest of `w` a beginning of `w`
    refine hborder (as.length - j) (by omega) (by omega) ?_
    have hd := congrArg (List.drop (as.length - j)) hoc
    rw [List.drop_take, List.drop_drop, show j + (as.length - j) = as.length by omega,
      List.drop_left, List.take_append_of_le_length (by omega)] at hd
    exact hd.symm

theorem starts_nul {m : List Byte} (hw : 0#8 ∉ w) :
    starts w (t ++ 0#8 :: m) = starts w t := by
  induction w generalizing t with
  | nil => simp [starts]
  | cons c w ih =>
    have hc : 0#8 ≠ c := fun h => hw (by simp [h])
    cases t with
    | nil => simp [starts, hc]
    | cons b t =>
      have hih := @ih t fun h => hw (List.mem_cons_of_mem _ h)
      simp only [starts, List.length_cons, List.cons_append, List.take_succ_cons, List.cons.injEq,
        decide_eq_decide] at hih ⊢
      rw [hih]

theorem starts_drop_nul {m : List Byte} (hw : 0#8 ∉ w) (hi : i ≤ t.length) :
    starts w ((t ++ 0#8 :: m).drop i) = true ↔ OccursAt w t i := by
  rw [List.drop_append_of_le_length hi, starts_nul hw, OccursAt, starts, decide_eq_true_iff]

theorem strstr_nul {m : List Byte} (hw : w ≠ []) (hw0 : 0#8 ∉ w) (ht : 0#8 ∉ t) :
    strstr w (t ++ 0#8 :: m) = (find w t).map fun i => (t ++ 0#8 :: m).drop i := by
  induction t with
  | nil =>
    have hno : starts w (0#8 :: m) = false := by
      have h := @starts_nul w [] m hw0
      rw [List.nil_append] at h
      rw [h]
      simpa [starts] using hw
    simp [strstr, find, hno]
  | cons b t ih =>
    have hb : b ≠ 0 := fun h => ht (by simp [h])
    have hs := @starts_nul w (b :: t) m hw0
    rw [List.cons_append] at hs
    rw [List.cons_append, strstr, hs, find]
    simp only [occursAt_zero, hb, if_false]
    split
    · simp
    · rw [ih fun h => ht (List.mem_cons_of_mem _ h), Option.map_map]
      rfl

end

/-- Where in `t` the word could begin, whatever comes behind `t`. -/
def begins (w : List Byte) : List Byte → List Nat
  | [] => []
  | b :: t =>
    if (b :: t).take w.length <+: w then 0 :: (begins w t).map (· + 1)
    else (begins w t).map (· + 1)

section

variable {w t p b : List Byte} {i : Nat}

theorem mem_begins (hi : i < t.length) (h : OccursAt w (t ++ b) i) : i ∈ begins w t := by
  induction t generalizing i with
  | nil => simp at hi
  | cons c t ih =>
    cases i with
    | zero =>
      have hpre : (c :: t).take w.length <+: w := by
        rw [OccursAt, List.drop_zero, List.take_append] at h
        exact ⟨_, h⟩
      rw [begins, if_pos hpre]
      exact List.mem_cons_self
    | succ i =>
      have hmem : i + 1 ∈ (begins w t).map (· + 1) :=
        List.mem_map_of_mem (ih (by simpa using hi) h)
      rw [begins]
      split
      · exact List.mem_cons_of_mem _ hmem
      · exact hmem

theorem starts_append (h : w.length ≤ t.length) : starts w (t ++ b) = starts w t := by
  rw [starts, starts, List.take_append_of_le_length h]

theorem length_le_of_strstr (h : strstr w t = some p) : w.length ≤ t.length := by
  induction t with
  | nil => cases h
  | cons c t ih =>
    rw [strstr] at h
    split at h
    case isTrue hs =>
      have hlen := congrArg List.length (of_decide_eq_true hs)
      rw [List.length_take] at hlen
      omega
    case isFalse =>
      split at h
      · cases h
      · exact Nat.le_succ_of_le (ih h)

theorem strstr_append (h : strstr w t = some p) : strstr w (t ++ b) = some (p ++ b) := by
  induction t with
  | nil => cases h
  | cons c t ih =>
    have hlen := length_le_of_strstr h
    have hs := starts_append (b := b) hlen
    rw [List.cons_append] at hs
    rw [strstr] at h
    rw [List.cons_append, strstr, hs]
    split at h
    case isTrue h0 =>
      cases h
      rw [if_pos h0]
      rfl
    case isFalse h0 =>
      rw [if_neg h0]
      split at h
      · cases h
      · rename_i hc
        rw [if_neg hc]
        exact ih h

theorem strchr_append_some {c : Byte} (h : strchr c t = some p) :
    strchr c (t ++ b) = some (p ++ b) := by
  induction t with
  | nil => cases h
  | cons d t ih =>
    rw [strchr] at h
    rw [List.cons_append, strchr]
    split at h
    case isTrue hd =>
      cases h
      rw [if_pos hd]
      rfl
    case isFalse hd =>
      rw [if_neg hd]
      split at h
      · cases h
      · rename_i h0
        rw [if_neg h0]
        exact ih h

end

/-! A text of which a buffer holds the first `c` bytes, with a NUL behind them and
then `m`. -/

def clipped (c : Nat) (m t : List Byte) : List Byte := t.take c ++ 0#8 :: m

section

variable {c : Nat} {w m t : List Byte}

theorem clipped_drop {k : Nat} (hc : k ≤ c) (ht : k ≤ t.length) :
    (clipped c m t).drop k = clipped (c - k) m (t.drop k) := by
  rw [clipped, clipped, List.drop_append_of_le_length (by simp; omega), List.drop_take]

theorem clipped_length : (clipped c m t).length = min c t.length + (m.length + 1) := by
  rw [clipped, List.length_append, List.length_take, List.length_cons]

theorem clipped_append {ds : List Byte} (h : ds.length ≤ c) :
    clipped c m (ds ++ t) = ds ++ clipped (c - ds.length) m t := by
  rw [clipped, clipped, List.take_append, List.take_of_length_le h, List.append_assoc]

theorem clipped_short {ds : List Byte} (h : c ≤ ds.length) :
    clipped c m (ds ++ t) = ds.take c ++ 0#8 :: m := by
  rw [clipped, List.take_append_of_le_length h]

theorem strstr_clipped (hw : w ≠ []) (hw0 : 0#8 ∉ w) (ht : 0#8 ∉ t) :
    strstr w (clipped c m t) = (find w t).bind fun i =>
      if i + w.length ≤ c then some ((clipped c m t).drop i) else none := by
  have ht' : 0#8 ∉ t.take c := fun h => ht (List.mem_of_mem_take h)
  rw [clipped, strstr_nul hw hw0 ht']
  cases hfind : find w (t.take c) with
  | none =>
    rw [Option.map_none]
    cases hf : find w t with
    | none => rfl
    | some i =>
      rw [Option.bind_some, if_neg]
      intro hi
      rw [(find_take hw).mpr ⟨hf, hi⟩] at hfind
      cases hfind
  | some i =>
    obtain ⟨hf, hi⟩ := (find_take hw).mp hfind
    rw [hf, Option.map_some, Option.bind_some, if_pos hi]

theorem strchr_append {q : Byte} {ds r : List Byte} (hq : q ∉ ds) (h0 : 0#8 ∉ ds) :
    strchr q (ds ++ r) = strchr q r := by
  induction ds with
  | nil => rfl
  | cons d ds ih =>
    have hdq : d ≠ q := fun h => hq (h ▸ List.mem_cons_self)
    have hd0 : d ≠ 0 := fun h => h0 (h ▸ List.mem_cons_self)
    rw [List.cons_append, strchr, if_neg hdq, if_neg hd0]
    exact ih (fun h => hq (List.mem_cons_of_mem _ h)) fun h => h0 (List.mem_cons_of_mem _ h)

end

end OspreyBlake2b.Lib
