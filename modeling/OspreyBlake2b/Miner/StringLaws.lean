import OspreyBlake2b.Miner.WalkerLaws

/-! `js_str` copies up to the first quote, the walker skips to the closing one. -/

namespace OspreyBlake2b.Miner

open OspreyBlake2b.Lib OspreyBlake2b.Lib.JsonText

variable {r : List Byte}

def token (w : White) (body r : List Byte) : List Byte :=
  w.val ++ (char '"' :: (body ++ char '"' :: r))

theorem jsSkip_token (w : White) {body : List Byte} (h : isBody body = true) (r : List Byte) :
    jsSkip (token w body r) = some r := by
  have hquote : toQuote ((char '"' :: (body ++ char '"' :: r)).drop 1) = char '"' :: r :=
    toQuote_body h
  have hws : jsWs (token w body r) = char '"' :: (body ++ char '"' :: r) := by
    rw [token, jsWs_white]
    exact jsWs_head rfl
  rw [jsSkip, hws]
  dsimp only
  rw [hquote]
  rfl

theorem jsStr_token (w : White) (body r : List Byte) (outlen : Nat) :
    jsStr (token w body r) outlen = jsStrLoop outlen (body ++ char '"' :: r) := by
  have hws : jsWs (token w body r) = char '"' :: (body ++ char '"' :: r) := by
    rw [token, jsWs_white]
    exact jsWs_head rfl
  rw [jsStr, hws]
  rfl

theorem jsStrLoop_fits {t : List Byte} (hnul : 0 ∉ t) (hquote : char '"' ∉ t) {room : Nat}
    (hroom : t.length < room) (r : List Byte) :
    jsStrLoop room (t ++ char '"' :: r) = (t, true) := by
  induction t generalizing room with
  | nil => simp [jsStrLoop]
  | cons c t ih =>
    simp only [List.mem_cons, not_or] at hnul hquote
    rw [List.length_cons] at hroom
    have hmore : ¬ (c = 0 ∨ room ≤ 1) := by
      rintro (h | h)
      · exact hnul.1 h.symm
      · omega
    rw [List.cons_append, jsStrLoop, if_neg (Ne.symm hquote.1), if_neg hmore,
      ih hnul.2 hquote.2 (by omega)]

theorem jsStrLoop_full {t : List Byte} {room : Nat} (hroom : room ≤ t.length)
    (hquote : char '"' ∉ t.take room) (hne : 0 < room ∨ t ≠ []) (hhead : deref t ≠ char '"')
    (r : List Byte) : (jsStrLoop room (t ++ r)).2 = false := by
  induction t generalizing room with
  | nil =>
    obtain hpos | hne := hne
    · exact absurd hroom (Nat.not_le.mpr hpos)
    · exact absurd rfl hne
  | cons c t ih =>
    change c ≠ char '"' at hhead
    rw [List.cons_append, jsStrLoop, if_neg hhead]
    split
    · rfl
    · rename_i hmore
      have hlt : 1 < room := by
        rw [not_or] at hmore
        omega
      obtain ⟨room, rfl⟩ := Nat.exists_eq_succ_of_ne_zero (Nat.ne_zero_of_lt hlt)
      simp only [List.take_succ_cons, List.mem_cons, not_or] at hquote
      refine ih (by simpa using hroom) hquote.2 (.inl (by omega)) ?_
      -- there is room for one more, so its head is among the bytes looked at
      cases t with
      | nil => exact absurd hroom (by simp; omega)
      | cons d t =>
        obtain ⟨room, rfl⟩ := Nat.exists_eq_succ_of_ne_zero (Nat.ne_of_gt (Nat.lt_of_succ_lt_succ hlt))
        simp only [List.take_succ_cons, List.mem_cons, not_or] at hquote
        exact Ne.symm hquote.2.1

theorem isBody_head {body : List Byte} (h : isBody body = true) : deref body ≠ char '"' := by
  refine isBody_induction (P := fun k => deref k ≠ char '"') ?_ ?_ ?_ h
  · change 0 ≠ char '"'
    decide
  · intro c t _ hquote _ _
    exact hquote
  · intro e t _ _
    change char '\\' ≠ char '"'
    decide

/-- For every string, buffer and text behind the string: the copy ends where the walker
does exactly if no quote is among the bytes there is room for.  (A buffer of no bytes
takes the empty string.) -/
theorem jsStr_ends_with_walker_iff (w : White) {body : List Byte} (h : isBody body = true)
    (outlen : Nat) (r : List Byte) :
    (jsSkip (token w body r) = some r ∧
        if body.length < outlen then jsStr (token w body r) outlen = (body, true)
        else (jsStr (token w body r) outlen).2 = false) ↔
      char '"' ∉ body.take outlen ∧ (0 < outlen ∨ body ≠ []) := by
  simp only [jsSkip_token w h, true_and, jsStr_token]
  constructor
  · intro hcopy
    constructor
    · intro hmem
      obtain ⟨t, u, htake, ht⟩ := List.eq_append_cons_of_mem hmem
      have hbody : body = t ++ char '"' :: (u ++ body.drop outlen) := by
        rw [← List.cons_append, ← List.append_assoc, ← htake, List.take_append_drop]
      have hlen : t.length < outlen := by
        have hle := List.length_take_le outlen body
        rw [htake, List.length_append, List.length_cons] at hle
        omega
      have hnul : 0 ∉ t := fun h0 => isBody_no_nul h (by rw [hbody]; exact List.mem_append_left _ h0)
      -- the copy ends at this quote
      have hshort (r : List Byte) : jsStrLoop outlen (body ++ r) = (t, true) := by
        rw [hbody, List.append_assoc, List.cons_append]
        exact jsStrLoop_fits hnul ht hlen _
      rw [hshort] at hcopy
      split at hcopy
      · have heq := congrArg List.length ((Prod.mk.inj hcopy).1.trans hbody)
        rw [List.length_append, List.length_cons] at heq
        omega
      · cases hcopy
    · rw [or_iff_not_imp_left]
      rintro hzero rfl
      have hlen : ¬ ([] : List Byte).length < outlen := hzero
      rw [if_neg hlen] at hcopy
      simp [jsStrLoop] at hcopy
  · rintro ⟨hquote, hne⟩
    split
    · rw [List.take_of_length_le (by omega)] at hquote
      exact jsStrLoop_fits (isBody_no_nul h) hquote ‹_› r
    · exact jsStrLoop_full (by omega) hquote hne (isBody_head h) _

theorem jsStr_ends_with_walker_pool :
    jsSkip (token ⟨[], rfl⟩ (ascii "pool") []) = some [] ∧
      jsStr (token ⟨[], rfl⟩ (ascii "pool") []) 128 = (ascii "pool", true) :=
  (jsStr_ends_with_walker_iff ⟨[], rfl⟩ (show isBody (ascii "pool") = true by decide +kernel) 128
    []).mpr (by decide +kernel)

theorem jsStr_cuts_job_id :
    isBody (ascii "a\\\"b") = true ∧ (ascii "a\\\"b").length < 64 ∧
      jsSkip (token ⟨[], rfl⟩ (ascii "a\\\"b") []) = some [] ∧
      jsStr (token ⟨[], rfl⟩ (ascii "a\\\"b") []) 64 ≠ (ascii "a\\\"b", true) := by
  decide +kernel

end OspreyBlake2b.Miner
