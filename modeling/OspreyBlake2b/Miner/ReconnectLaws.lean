import OspreyBlake2b.Lib.DoubleLaws
import OspreyBlake2b.Miner.NotifyLaws
import OspreyBlake2b.Miner.RedirectLaws
import Mathlib.Data.List.TakeWhile

/-! `client.reconnect`: what its parameters ask of the next dial, and when they get it. -/

namespace OspreyBlake2b.Miner

open OspreyBlake2b.Lib OspreyBlake2b.Lib.JsonText OspreyBlake2b.Lib.Machine

theorem strtod_other {p : List Byte} (hspace : isspace (deref p) = false)
    (hminus : deref p ≠ char '-') (hplus : deref p ≠ char '+') (hdigit : isDigit (deref p) = false)
    (hdot : deref p ≠ char '.') (hnan : startsCI "nan" p = false)
    (hinf : startsCI "inf" p = false) : strtod p = .fin 0 := by
  have hp : p.dropWhile isspace = p := by
    cases p with
    | nil => rfl
    | cons c p => exact List.dropWhile_cons_of_neg (ne_true_of_eq_false hspace)
  have hhex : startsCI "0x" p = false := by
    refine not_startsCI (show ascii "0x" = char '0' :: [char 'x'] from rfl) ?_
    intro hlower
    have hnot : ∀ c : Byte, lower c = char '0' → isDigit c = true := by decide +kernel
    rw [hnot _ hlower] at hdigit
    cases hdigit
  obtain ⟨htake, hdrop⟩ := not_isDigit_iff hdigit
  rw [strtod, hp]
  simp only [signed, if_neg hminus, if_neg hplus, hnan, hinf, hhex, Bool.false_eq_true, if_false,
    strtodMant, htake, hdrop, if_neg hdot]
  rfl

def beginsOther (c : Byte) : Bool :=
  c = char 't' ∨ c = char 'f' ∨ c = char '"' ∨ c = char '[' ∨ c = char '{'

theorem jsNum_other {v : Value} (h : ∀ n : Number, v.val ≠ n.text) (r : List Byte) :
    jsNum (v.val ++ r) = .fin 0 := by
  obtain ⟨t, ht⟩ := v
  change jsNum (t ++ r) = _
  rw [jsNum, jsWs_head (value_head ht r)]
  have hother (hbegin : beginsOther (deref (t ++ r)) = true) : strtod (t ++ r) = .fin 0 := by
    have hfacts : ∀ c, beginsOther c = true → isspace c = false ∧ c ≠ char '-' ∧ c ≠ char '+' ∧
        isDigit c = false ∧ c ≠ char '.' ∧ lower c ≠ char 'n' ∧ lower c ≠ char 'i' := by
      decide +kernel
    obtain ⟨hspace, hminus, hplus, hdigit, hdot, hn, hi⟩ := hfacts _ hbegin
    exact strtod_other hspace hminus hplus hdigit hdot
      (not_startsCI (show ascii "nan" = char 'n' :: ascii "an" from rfl) hn)
      (not_startsCI (show ascii "inf" = char 'i' :: ascii "nf" from rfl) hi)
  cases ht with
  | null =>
    have hn : char 'n' ≠ char '-' ∧ char 'n' ≠ char '+' ∧ char 'n' ≠ char '.' := by decide
    exact strtod_other rfl hn.1 hn.2.1 rfl hn.2.2 rfl rfl
  | bool b => cases b <;> exact hother rfl
  | @number s n f e hs hn hf he => exact absurd rfl (h ⟨s, n, f, e, hs, hn, hf, he⟩)
  | string h => exact hother rfl
  | emptyArray w => exact hother rfl
  | array h => exact hother rfl
  | emptyObject w => exact hother rfl
  | object h => exact hother rfl

theorem round_ne_nan (q : Rat) : Double.round q ≠ .nan := by
  rw [Double.round]
  dsimp only
  split_ifs <;> simp

def clampWait (d : Double) : Double :=
  let d := if d.lt (.fin 0) then .fin 0 else d
  if (Double.ofNat 300).lt d then .ofNat 300 else d

def waitSeconds (n : Number) : Rat :=
  match Double.round n.val with
  | .nan => 0
  | .inf neg => if neg then 0 else 300
  | .fin q => max 0 (min 300 q)

theorem waitSeconds_bounds (n : Number) : 0 ≤ waitSeconds n ∧ waitSeconds n ≤ 300 := by
  rw [waitSeconds]
  split
  · norm_num
  · split_ifs <;> norm_num
  · exact ⟨le_max_left _ _, max_le (by norm_num) (min_le_left _ _)⟩

theorem clampWait_round (n : Number) : clampWait (.round n.val) = .fin (waitSeconds n) := by
  have h300 : Double.ofNat 300 = .fin 300 := Double.round_natCast (by decide)
  rw [clampWait, waitSeconds, h300]
  cases hround : Double.round n.val with
  | nan => exact absurd hround (round_ne_nan _)
  | inf neg => cases neg <;> rfl
  | fin q =>
    simp only [Double.lt, decide_eq_true_eq]
    by_cases hneg : q < 0
    · have hmin : min 300 q = q := min_eq_right (by linarith)
      have h0 : ¬ ((300 : Rat) < 0) := by norm_num
      simp only [if_pos hneg, decide_eq_true_eq, if_neg h0, hmin,
        max_eq_left (le_of_lt hneg)]
    · rw [not_lt] at hneg
      simp only [if_neg (not_lt.mpr hneg), decide_eq_true_eq]
      split_ifs with hbig
      · rw [min_eq_left (le_of_lt hbig), max_eq_right (by norm_num)]
      · rw [min_eq_right (not_lt.mp hbig), max_eq_right hneg]

theorem toU64_seconds {w : Rat} (h0 : 0 ≤ w) (h300 : w ≤ 300) :
    ∃ k : Nat, (k : Rat) ≤ w ∧ w < k + 1 ∧ k ≤ 300 ∧ (Double.fin w).toU64 = BitVec.ofNat 64 k := by
  have hfloor : 0 ≤ w.floor := Rat.le_floor_iff.mpr (by simpa using h0)
  obtain ⟨k, hk⟩ := Int.eq_ofNat_of_zero_le hfloor
  have hle : (k : Rat) ≤ w := by
    have hself : ((w.floor : Int) : Rat) ≤ w := Rat.floor_le w
    rw [hk] at hself
    exact_mod_cast hself
  have hlt : w < k + 1 := by
    have hself : w < ((w.floor + 1 : Int) : Rat) := Rat.lt_floor_add_one w
    rw [hk] at hself
    exact_mod_cast hself
  have hmax : k ≤ 300 := by exact_mod_cast hle.trans h300
  refine ⟨k, hle, hlt, hmax, ?_⟩
  have hclamp : max 0 (min (2 ^ 64 - 1) (k : Int)) = (k : Int) := by omega
  rw [Double.toU64, Double.trunc, if_neg (not_lt.mpr h0), hk]
  rw [hclamp]
  exact BitVec.ofInt_natCast 64 k

theorem deadline_iff {now : U64} {w : Rat} {k : Nat} (hle : (k : Rat) ≤ w) (hlt : w < k + 1)
    (hk : k ≤ 300) :
    (∀ now' : U64, now ≤ now' → now + BitVec.ofNat 64 k ≤ now' →
      (now.toNat : Rat) + w ≤ now'.toNat) ↔ w = k ∧ now.toNat + k < 2 ^ 64 := by
  have hnow := now.isLt
  have hsum : (now + BitVec.ofNat 64 k).toNat = (now.toNat + k) % 2 ^ 64 := by
    rw [BitVec.toNat_add, BitVec.toNat_ofNat, Nat.mod_eq_of_lt (by omega : k < 2 ^ 64)]
  constructor
  · intro h
    by_cases hwrap : now.toNat + k < 2 ^ 64
    · rw [Nat.mod_eq_of_lt hwrap] at hsum
      have hearliest := h (now + BitVec.ofNat 64 k) (by rw [BitVec.le_def, hsum]; omega)
        (BitVec.le_refl _)
      rw [hsum] at hearliest
      push_cast at hearliest
      exact ⟨le_antisymm (by linarith) hle, hwrap⟩
    · -- past the end of the clock the next dial is due at once
      have hpast : now + BitVec.ofNat 64 k ≤ now := by
        rw [BitVec.le_def, hsum]
        omega
      have hearliest := h now (BitVec.le_refl _) hpast
      have hzero : (k : Rat) ≤ 0 := hle.trans (by linarith)
      have hkzero : k = 0 := by exact_mod_cast Nat.le_zero.mp (by exact_mod_cast hzero)
      omega
  · rintro ⟨rfl, hwrap⟩ now' - hdue
    rw [BitVec.le_def, hsum, Nat.mod_eq_of_lt hwrap] at hdue
    exact_mod_cast hdue

def NumberAt (es : List Element) (i : Nat) (n : Number) : Prop :=
  ∃ e, es[i]? = some e ∧ e.value.val = n.text

def HostOf (es : List Element) (b : List Byte) : Prop :=
  ∃ e, es[0]? = some e ∧ e.value.val = inQuotes b ∧ b.length < 128

def NoPort (es : List Element) : Prop :=
  es[1]? = none ∨ (∃ e, es[1]? = some e ∧ e.value.val = ascii "null") ∨
    ∃ n, NumberAt es 1 n ∧ n.val = 0

/-- Where the parameters ask the next dial to go. -/
structure Asked (s : Stratum) (es : List Element) (place : List Byte × Int) : Prop where
  host : ∀ b, HostOf es b → place.1 = b
  port : ∀ b, HostOf es b → ∀ k : Nat, 1 ≤ k → k ≤ 65535 → ∀ n, NumberAt es 1 n → n.val = k →
    place.2 = k
  samePort : ∀ b, HostOf es b → NoPort es → place.2 = s.port
  configured : (∀ b, ¬ HostOf es b) → place = (s.host, s.port)

/-- From `s'` on the next dial goes where the parameters ask, and not before the wait that
they name is over. -/
def Honours (s : Stratum) (es : List Element) (now : U64) (s' : Stratum) : Prop :=
  ∀ (now' : U64) (env : DialEnv) (place : List Byte × Int), now ≤ now' →
    (dial s' now' env).target = some place →
      Asked s es place ∧ ∀ n, NumberAt es 2 n → (now.toNat : Rat) + waitSeconds n ≤ now'.toNat

def rawText (v : Value) : Option (List Byte) :=
  if deref v.val = char '"' then some (v.val.drop 1).dropLast else none

def rawHost (es : List Element) : Option (List Byte) := es[0]?.bind fun e => rawText e.value

def portRead (es : List Element) (port : Int) : Int :=
  match es[1]? with
  | none => port
  | some e => (jsNum e.value.val).toInt

/-- A wait of whole seconds that ends before the clock does. -/
def OnTime (es : List Element) (now : U64) : Prop :=
  ∀ n, NumberAt es 2 n → ∃ k : Nat, waitSeconds n = k ∧ now.toNat + k < 2 ^ 64

/-- No wait, or one that the session has to keep anyway. -/
def Late (s : Stratum) (es : List Element) (now : U64) : Prop :=
  ∀ n, NumberAt es 2 n → waitSeconds n = 0 ∨ (now.toNat : Rat) + waitSeconds n ≤ s.retryAt.toNat

def HonouredWhen (s : Stratum) (es : List Element) (now : U64) : Prop :=
  match rawHost es with
  | none => Late s es now
  | some b =>
    let t := b.takeWhile (· ≠ char '"')
    if 128 ≤ t.length then Late s es now
    else OnTime es now ∧
      if b.length < 128 then t = b ∧ (NoPort es → es[1]? = none ∨ s.port = 0)
      else t = s.host ∧ portRead es s.port = s.port

theorem inQuotes_inj {b b' : List Byte} (h : inQuotes b = inQuotes b') : b = b' := by
  simpa [inQuotes] using h

theorem isBody_of_inQuotes {v : Value} {b : List Byte} (h : v.val = inQuotes b) :
    isBody b = true := by
  obtain ⟨v, hv⟩ := v
  change v = inQuotes b at h
  obtain ⟨-, hall⟩ | ⟨k, hk, rfl⟩ | ⟨opn, cls, u, hb, rfl, -⟩ := value_cases hv
  · subst h
    exact absurd (hall (char '"') List.mem_cons_self).1 (by decide)
  · obtain rfl := inQuotes_inj h
    exact hk
  · have hopn := congrArg deref h
    change opn = char '"' at hopn
    obtain ⟨rfl, -⟩ | ⟨rfl, -⟩ := hb <;> exact absurd hopn (by decide)

theorem rawText_eq_some {v : Value} {b : List Byte} : rawText v = some b ↔ v.val = inQuotes b := by
  have hquoted (k : List Byte) : ((inQuotes k).drop 1).dropLast = k := by simp [inQuotes]
  obtain ⟨v, hv⟩ := v
  change (if deref v = char '"' then some (v.drop 1).dropLast else none) = some b ↔ v = inQuotes b
  constructor
  · intro h
    split at h
    · rename_i hd
      obtain ⟨hne, hall⟩ | ⟨k, hk, rfl⟩ | ⟨opn, cls, u, hb, rfl, -⟩ := value_cases hv
      · obtain ⟨c, v, rfl⟩ := List.exists_cons_of_ne_nil hne
        obtain rfl : c = char '"' := hd
        exact absurd (hall _ List.mem_cons_self).1 (by decide)
      · have hk := hquoted k
        rw [inQuotes] at hk
        rw [hk] at h
        cases h
        rfl
      · change opn = char '"' at hd
        obtain ⟨rfl, -⟩ | ⟨rfl, -⟩ := hb <;> exact absurd hd (by decide)
    · cases h
  · rintro rfl
    have hd : deref (inQuotes b) = char '"' := rfl
    rw [if_pos hd, hquoted]

theorem jsStrLoop_body {b : List Byte} (h : isBody b = true) {room : Nat} (hroom : 0 < room)
    (r : List Byte) :
    let t := b.takeWhile (· ≠ char '"')
    if room ≤ t.length then (jsStrLoop room (b ++ char '"' :: r)).2 = false
    else jsStrLoop room (b ++ char '"' :: r) = (t, true) := by
  intro t
  have hquote : char '"' ∉ t := by
    intro hmem
    have hne := List.mem_takeWhile_imp hmem
    exact absurd hne (by decide)
  have hnul : 0 ∉ t := fun h0 => isBody_no_nul h ((List.takeWhile_sublist _).subset h0)
  obtain ⟨r', hr'⟩ : ∃ r', b ++ char '"' :: r = t ++ char '"' :: r' := by
    have hsplit : t ++ b.dropWhile (· ≠ char '"') = b := List.takeWhile_append_dropWhile
    cases hrest : b.dropWhile (· ≠ char '"') with
    | nil =>
      rw [hrest, List.append_nil] at hsplit
      exact ⟨r, by rw [hsplit]⟩
    | cons c u =>
      have hc : c = char '"' := by
        have hfirst := List.head?_dropWhile_not (· ≠ char '"') b
        rw [hrest] at hfirst
        simpa using hfirst
      subst hc
      rw [hrest] at hsplit
      exact ⟨u ++ char '"' :: r, by rw [← hsplit]; simp⟩
  rw [hr']
  split
  · have hhead : deref t ≠ char '"' := by
      cases ht : t with
      | nil => decide
      | cons c u =>
        rintro rfl
        exact hquote (by rw [ht]; exact List.mem_cons_self)
    exact jsStrLoop_full ‹_› (fun hmem => hquote (List.mem_of_mem_take hmem)) (.inl hroom) hhead _
  · exact jsStrLoop_fits hnul hquote (by omega) r'

theorem jsStr_other {v : Value} (h : deref v.val ≠ char '"') (outlen : Nat) (r : List Byte) :
    jsStr (v.val ++ r) outlen = ([], false) := by
  obtain ⟨v, hv⟩ := v
  rw [jsStr, jsWs_head (value_head hv r), if_pos (by rwa [deref_value hv])]

theorem jsNum_rest (v : Value) {r : List Byte} (hr : isDelim (deref r) = true) :
    jsNum (v.val ++ r) = jsNum v.val := by
  have hnil := List.append_nil v.val
  by_cases h : ∃ n : Number, v.val = n.text
  · obtain ⟨n, hn⟩ := h
    have hend : isDelim (deref []) = true := rfl
    have hbare := jsNum_number n hend
    rw [List.append_nil] at hbare
    rw [hn, jsNum_number n hr, hbare]
  · rw [not_exists] at h
    have hbare := jsNum_other h []
    rw [hnil] at hbare
    rw [jsNum_other h r, hbare]

theorem jsElem_value (a : ArrayText) (r : List Byte) (i : Nat) :
    ∃ r', isDelim (deref r') = true ∧
      jsElem (a.text ++ r) i = a.elements[i]?.map fun e => e.value.val ++ r' := by
  rw [jsElem_getElem]
  cases hget : a.elements[i]? with
  | none => exact ⟨[], rfl, rfl⟩
  | some e =>
    exact ⟨_, isDelim_white e.after (closeElements_delim _ _).1, rfl⟩

def redirected (s : Stratum) (t : List Byte) (port : Int) (retryAt : U64) : Stratum :=
  drop { s with
    reconnectHost := overwrite s.reconnectHost (t ++ [0])
    reconnectPort := port
    reconnectPending := true
    addr := []
    retryAt := retryAt }

def waitRead (params : List Byte) : Double :=
  clampWait (match jsElem params 2 with
    | some w => jsNum w
    | none => .fin 0)

theorem onReconnect_eq (s : Stratum) (params : List Byte) (now : U64) :
    onReconnect s params now =
      match jsElem params 0 with
      | none => drop s
      | some h =>
        if (jsStr h 128).2 then
          redirected s (jsStr h 128).1
            (match jsElem params 1 with
              | some p => (jsNum p).toInt
              | none => s.port) (now + (waitRead params).toU64)
        else drop { s with reconnectHost := overwrite s.reconnectHost (jsStr h 128).1 } := rfl

theorem jsStr_raw (v : Value) (r : List Byte) :
    match rawText v with
    | none => jsStr (v.val ++ r) 128 = ([], false)
    | some b =>
      let t := b.takeWhile (· ≠ char '"')
      if 128 ≤ t.length then (jsStr (v.val ++ r) 128).2 = false
      else 0 ∉ t ∧ jsStr (v.val ++ r) 128 = (t, true) := by
  cases hraw : rawText v with
  | none =>
    refine jsStr_other (fun hd => ?_) 128 r
    rw [rawText, if_pos hd] at hraw
    cases hraw
  | some b =>
    have hv := rawText_eq_some.mp hraw
    have hbody := isBody_of_inQuotes hv
    have htoken : v.val ++ r = token ⟨[], rfl⟩ b r := by simp [hv, inQuotes, token]
    have hread := jsStrLoop_body hbody (show 0 < 128 by decide) r
    rw [htoken, jsStr_token]
    dsimp only at hread ⊢
    split at hread
    · rw [if_pos ‹_›, hread]
    · rw [if_neg ‹_›]
      exact ⟨fun h0 => isBody_no_nul hbody ((List.takeWhile_sublist _).subset h0), hread⟩

theorem onReconnect_array (s : Stratum) (a : ArrayText) (r : List Byte) (now : U64) :
    let params := a.text ++ r
    let kept := ∃ buf, onReconnect s params now = drop { s with reconnectHost := buf }
    match rawHost a.elements with
    | none => kept
    | some b =>
      let t := b.takeWhile (· ≠ char '"')
      if 128 ≤ t.length then kept
      else 0 ∉ t ∧ onReconnect s params now =
        redirected s t (portRead a.elements s.port) (now + (waitRead params).toU64) := by
  intro params kept
  obtain ⟨r₀, hr₀, helem₀⟩ := jsElem_value a r 0
  obtain ⟨r₁, hr₁, helem₁⟩ := jsElem_value a r 1
  have hport : (match jsElem params 1 with
      | some p => (jsNum p).toInt
      | none => s.port) = portRead a.elements s.port := by
    rw [helem₁, portRead]
    cases a.elements[1]? with
    | none => rfl
    | some e =>
      change (jsNum (e.value.val ++ r₁)).toInt = _
      rw [jsNum_rest e.value hr₁]
  have heq := onReconnect_eq s params now
  rw [helem₀, hport] at heq
  rw [rawHost]
  cases hget : a.elements[0]? with
  | none =>
    rw [hget] at heq
    exact ⟨s.reconnectHost, heq⟩
  | some e =>
    rw [hget] at heq
    simp only [Option.map_some] at heq
    have hread := jsStr_raw e.value r₀
    change match rawText e.value with
      | none => kept
      | some b => _
    cases hraw : rawText e.value with
    | none =>
      rw [hraw] at hread
      rw [hread] at heq
      exact ⟨_, heq⟩
    | some b =>
      rw [hraw] at hread
      dsimp only at hread ⊢
      split at hread
      · rw [if_pos ‹_›]
        rw [hread] at heq
        exact ⟨_, heq⟩
      · rw [if_neg ‹_›]
        rw [hread.2] at heq
        exact ⟨hread.1, heq⟩

theorem target_iff (s : Stratum) (now : U64) (env : DialEnv) (place : List Byte × Int) :
    (dial s now env).target = some place ↔ s.retryAt ≤ now ∧ place = dialTarget s := by
  by_cases hwait : now < s.retryAt
  · rw [dial_wait s hwait]
    constructor
    · intro h
      cases h
    · rintro ⟨hdue, -⟩
      exact absurd hwait (BitVec.not_lt.mpr hdue)
  · rw [(dial_cases s hwait env).1, Option.some_inj, and_iff_right (BitVec.not_lt.mp hwait)]
    exact eq_comm

theorem honours_iff (s : Stratum) (es : List Element) (now : U64) (s' : Stratum) :
    Honours s es now s' ↔ Asked s es (dialTarget s') ∧ ∀ n, NumberAt es 2 n →
      ∀ now' : U64, now ≤ now' → s'.retryAt ≤ now' →
        (now.toNat : Rat) + waitSeconds n ≤ now'.toNat := by
  constructor
  · intro h
    have hdial (now' : U64) (hnow : now ≤ now') (hdue : s'.retryAt ≤ now') :=
      h now' ⟨none, 0, false, false, false, false, false⟩ (dialTarget s') hnow
        ((target_iff s' now' _ _).mpr ⟨hdue, rfl⟩)
    have hlast (x : U64) : x ≤ BitVec.allOnes 64 := by
      rw [BitVec.le_def, BitVec.toNat_allOnes]
      have := x.isLt
      omega
    exact ⟨(hdial _ (hlast now) (hlast _)).1, fun n hn now' hnow hdue =>
      (hdial now' hnow hdue).2 n hn⟩
  · rintro ⟨hasked, htime⟩ now' env place hnow htarget
    obtain ⟨hdue, rfl⟩ := (target_iff s' now' env place).mp htarget
    exact ⟨hasked, fun n hn => htime n hn now' hnow hdue⟩

theorem waitSeconds_text {n n' : Number} (h : n.text = n'.text) : waitSeconds n = waitSeconds n' := by
  have hend : isDelim (deref []) = true := rfl
  have hnum := jsNum_number n hend
  rw [h, jsNum_number n' hend] at hnum
  rw [waitSeconds, waitSeconds, hnum]

theorem waitSeconds_ofNat {k : Nat} (hk : k ≤ 300) : waitSeconds (.ofNat k) = k := by
  have hk' : (k : Rat) ≤ 300 := by exact_mod_cast hk
  rw [waitSeconds, Number.val_ofNat, Double.round_natCast (by omega)]
  dsimp only
  rw [min_eq_right hk', max_eq_right (Nat.cast_nonneg k)]

theorem numberAt_inj {es : List Element} {i : Nat} {n n' : Number} (h : NumberAt es i n)
    (h' : NumberAt es i n') : n.text = n'.text := by
  obtain ⟨e, he, hn⟩ := h
  obtain ⟨e', he', hn'⟩ := h'
  rw [he] at he'
  cases he'
  rw [← hn, hn']

theorem waitRead_number {a : ArrayText} {n : Number} (h : NumberAt a.elements 2 n) (r : List Byte) :
    waitRead (a.text ++ r) = .fin (waitSeconds n) := by
  obtain ⟨e, he, hn⟩ := h
  obtain ⟨r', hr', helem⟩ := jsElem_value a r 2
  rw [waitRead, helem, he, Option.map_some]
  dsimp only
  rw [hn, jsNum_number n hr', clampWait_round]

theorem onTime_iff (a : ArrayText) (r : List Byte) (now : U64) :
    (∀ n, NumberAt a.elements 2 n → ∀ now' : U64, now ≤ now' →
      now + (waitRead (a.text ++ r)).toU64 ≤ now' →
        (now.toNat : Rat) + waitSeconds n ≤ now'.toNat) ↔ OnTime a.elements now := by
  refine forall_congr' fun n => forall_congr' fun hn => ?_
  obtain ⟨h0, h300⟩ := waitSeconds_bounds n
  obtain ⟨k, hle, hlt, hmax, hk⟩ := toU64_seconds h0 h300
  rw [waitRead_number hn, hk, deadline_iff hle hlt hmax]
  constructor
  · rintro ⟨hw, hfits⟩
    exact ⟨k, hw, hfits⟩
  · rintro ⟨k', hw, hfits⟩
    have hkk : k' = k := by
      rw [hw] at hle hlt
      have hle' : k ≤ k' := by exact_mod_cast hle
      have hlt' : k' < k + 1 := by exact_mod_cast hlt
      omega
    subst hkk
    exact ⟨hw, hfits⟩

theorem late_iff (s : Stratum) (es : List Element) (now : U64) :
    (∀ n, NumberAt es 2 n → ∀ now' : U64, now ≤ now' → s.retryAt ≤ now' →
      (now.toNat : Rat) + waitSeconds n ≤ now'.toNat) ↔ Late s es now := by
  refine forall_congr' fun n => forall_congr' fun hn => ?_
  constructor
  · intro h
    by_cases hpast : s.retryAt ≤ now
    · have hnow := h now (BitVec.le_refl _) hpast
      exact .inl (le_antisymm (by linarith) (waitSeconds_bounds n).1)
    · have hlater : now ≤ s.retryAt := by
        rw [BitVec.le_def] at hpast ⊢
        omega
      exact .inr (h s.retryAt hlater (BitVec.le_refl _))
  · rintro (hzero | hlate) now' hnow hdue
    · rw [hzero, add_zero]
      exact_mod_cast hnow
    · exact hlate.trans (by exact_mod_cast hdue)

theorem portRead_noPort {es : List Element} {port : Int} (h : NoPort es) :
    portRead es port = if es[1]? = none then port else 0 := by
  have hread {e : Element} (he : es[1]? = some e) : portRead es port = (jsNum e.value.val).toInt := by
    rw [portRead, he]
  obtain hnone | ⟨e, he, hnull⟩ | ⟨n, ⟨e, he, hn⟩, hzero⟩ := h
  · rw [portRead, hnone]
    rfl
  · rw [hread he, hnull, if_neg (by simp [he])]
    decide +kernel
  · have hend : isDelim (deref []) = true := rfl
    have hnum := jsNum_number n hend
    rw [List.append_nil, hzero] at hnum
    rw [hread he, hn, hnum, if_neg (by simp [he])]
    decide +kernel

theorem portRead_number {es : List Element} {port : Int} {n : Number} (h : NumberAt es 1 n) {k : Nat}
    (hk : k ≤ 65535) (hval : n.val = k) : portRead es port = k := by
  obtain ⟨e, he, hn⟩ := h
  have hend : isDelim (deref []) = true := rfl
  have hnum := jsNum_number n hend
  rw [List.append_nil, hval, Double.round_natCast (by omega)] at hnum
  rw [portRead, he]
  dsimp only
  have hneg : ¬ (k : Rat) < 0 := by simp
  rw [hn, hnum, Double.toInt, Double.trunc, if_neg hneg, Double.floor_natCast]
  omega

theorem hostOf_iff {es : List Element} {b b' : List Byte} (h : rawHost es = some b) :
    HostOf es b' ↔ b' = b ∧ b.length < 128 := by
  obtain ⟨e, he, hraw⟩ := Option.bind_eq_some_iff.mp h
  have hv := rawText_eq_some.mp hraw
  constructor
  · rintro ⟨e', he', hv', hlen⟩
    rw [he] at he'
    cases he'
    obtain rfl := inQuotes_inj (hv'.symm.trans hv)
    exact ⟨rfl, hlen⟩
  · rintro ⟨rfl, hlen⟩
    exact ⟨e, he, hv, hlen⟩

theorem asked_redirect_iff {s : Stratum} {es : List Element} {b : List Byte}
    (h : rawHost es = some b) (t : List Byte) :
    Asked s es (t, portRead es s.port) ↔
      if b.length < 128 then t = b ∧ (NoPort es → es[1]? = none ∨ s.port = 0)
      else t = s.host ∧ portRead es s.port = s.port := by
  split
  · rename_i hlen
    have hhost := (hostOf_iff h).mpr ⟨rfl, hlen⟩
    constructor
    · intro hasked
      refine ⟨hasked.host b hhost, fun hno => ?_⟩
      have hsame : portRead es s.port = s.port := hasked.samePort b hhost hno
      rw [portRead_noPort hno] at hsame
      split at hsame
      · exact .inl ‹_›
      · exact .inr hsame.symm
    · rintro ⟨rfl, hport⟩
      refine ⟨fun b' hb' => ((hostOf_iff h).mp hb').1.symm, fun b' _ k _ hk n hn hval =>
        portRead_number hn hk hval, fun b' _ hno => ?_, fun hnone => absurd hhost (hnone _)⟩
      change portRead es s.port = s.port
      rw [portRead_noPort hno]
      split
      · rfl
      · exact ((hport hno).resolve_left ‹_›).symm
  · rename_i hlen
    have hnone (b' : List Byte) : ¬ HostOf es b' := fun hb' => hlen ((hostOf_iff h).mp hb').2
    constructor
    · intro hasked
      exact Prod.mk.injEq _ _ _ _ ▸ hasked.configured hnone
    · rintro ⟨rfl, hport⟩
      exact ⟨fun b' hb' => absurd hb' (hnone b'), fun b' hb' => absurd hb' (hnone b'),
        fun b' hb' => absurd hb' (hnone b'), fun _ => by rw [hport]⟩

theorem asked_configured {s : Stratum} {es : List Element} (h : ∀ b, ¬ HostOf es b) :
    Asked s es (s.host, s.port) :=
  ⟨fun b hb => absurd hb (h b), fun b hb => absurd hb (h b), fun b hb => absurd hb (h b), fun _ => rfl⟩

section Outcome

variable {s : Stratum} {a : ArrayText} {now : U64}

theorem honours_kept (hpending : s.reconnectPending = false) (hnone : ∀ b, ¬ HostOf a.elements b)
    {s' : Stratum} (h : ∃ buf, s' = drop { s with reconnectHost := buf }) :
    Honours s a.elements now s' ↔ Late s a.elements now := by
  obtain ⟨buf, rfl⟩ := h
  have hplace : dialTarget (drop { s with reconnectHost := buf }) = (s.host, s.port) := by
    change (if s.reconnectPending = true then _ else (s.host, s.port)) = _
    rw [hpending]
    rfl
  rw [honours_iff, hplace, and_iff_right (asked_configured hnone), ← late_iff]
  rfl

theorem honours_redirected {b t : List Byte} (hraw : rawHost a.elements = some b) (hnul : 0 ∉ t)
    (r : List Byte) :
    Honours s a.elements now (redirected s t (portRead a.elements s.port)
        (now + (waitRead (a.text ++ r)).toU64)) ↔
      OnTime a.elements now ∧
        if b.length < 128 then t = b ∧ (NoPort a.elements → a.elements[1]? = none ∨ s.port = 0)
        else t = s.host ∧ portRead a.elements s.port = s.port := by
  have hplace (retryAt : U64) :
      dialTarget (redirected s t (portRead a.elements s.port) retryAt) =
        (t, portRead a.elements s.port) := by
    change (cstr (overwrite s.reconnectHost (t ++ [0])), _) = _
    rw [cstr_overwrite hnul]
    rfl
  rw [honours_iff, hplace, asked_redirect_iff hraw, and_comm, ← onTime_iff a r]
  rfl

theorem honours_onReconnect (hpending : s.reconnectPending = false) (r : List Byte) :
    Honours s a.elements now (onReconnect s (a.text ++ r) now) ↔
      HonouredWhen s a.elements now := by
  have hresult := onReconnect_array s a r now
  rw [HonouredWhen]
  dsimp only at hresult
  cases hraw : rawHost a.elements with
  | none =>
    rw [hraw] at hresult
    refine honours_kept hpending ?_ hresult
    rintro b ⟨e, he, hv, -⟩
    rw [rawHost, he, Option.bind_some, rawText_eq_some.mpr hv] at hraw
    cases hraw
  | some b =>
    rw [hraw] at hresult
    dsimp only at hresult ⊢
    split at hresult
    · rename_i hlong
      rw [if_pos hlong]
      refine honours_kept hpending (fun b' hb' => ?_) hresult
      have hlen := ((hostOf_iff hraw).mp hb').2
      have hle := (List.takeWhile_sublist (l := b) (p := (· ≠ char '"'))).length_le
      omega
    · rw [if_neg ‹_›, hresult.2]
      exact honours_redirected hraw hresult.1 r

end Outcome

theorem pending_of_up (host : List Byte) (port : Int) (worker password : List Byte)
    {es : List SessionEvent}
    (hconn : Along Stratum.step OnConnection (stratumInit host port worker password) es)
    (hup : ¬ (run Stratum.step (stratumInit host port worker password) es).fd < 0) :
    (run Stratum.step (stratumInit host port worker password) es).reconnectPending = false := by
  have hinit : OncePerRedirect ((stratumInit host port worker password).host, port)
      (traced (stratumInit host port worker password)) :=
    ⟨rfl, fun _ => rfl, rfl, trivial, by simp [traced], .inl rfl⟩
  have honce := once_run hinit es hconn
  have hrun := run_simulates traced_session (traced (stratumInit host port worker password)) es
  rw [List.map_id'] at hrun
  have hdone := honce.up
  rw [hrun] at hdone
  exact hdone hup

/-- For every run up to a `client.reconnect` on a connection, every params array and every
text behind it. -/
theorem reconnect_honoured_iff (host : List Byte) (port : Int) (worker password : List Byte)
    (es : List SessionEvent)
    (hconn : Along Stratum.step OnConnection (stratumInit host port worker password) es)
    (a : ArrayText) (r : List Byte) (now : U64) :
    let s := run Stratum.step (stratumInit host port worker password) es
    ¬ s.fd < 0 → (Honours s a.elements now (onReconnect s (a.text ++ r) now) ↔
      HonouredWhen s a.elements now) := by
  intro s hup
  exact honours_onReconnect (pending_of_up host port worker password hconn hup) r

def bare (v : Value) : Element := ⟨noWhite, v, noWhite⟩

def numberValue (k : Nat) : Value := ⟨(Number.ofNat k).text, (Number.ofNat k).derives⟩

def redirectTo (host : Value) (port wait : Nat) : ArrayText :=
  ⟨noWhite, noWhite, [bare host, bare (numberValue port), bare (numberValue wait)], noWhite⟩

def otherHost : Value := ⟨inQuotes (ascii "other"), .string (by decide +kernel)⟩

def connectedRun : List SessionEvent := [.dial 1000 redirectEnv]

theorem reconnect_honoured_iff_other :
    let s := run Stratum.step (stratumInit (ascii "pool") 3333 (ascii "w") (ascii "x")) connectedRun
    let a := redirectTo otherHost 4444 1
    Honours s a.elements 1001 (onReconnect s a.text 1001) := by
  intro s a
  have hiff := reconnect_honoured_iff (ascii "pool") 3333 (ascii "w") (ascii "x") connectedRun
    (by decide +kernel) a [] 1001 (by decide +kernel)
  rw [List.append_nil] at hiff
  refine hiff.mpr ?_
  have hraw : rawHost a.elements = some (ascii "other") := by decide +kernel
  have htake : (ascii "other").takeWhile (· ≠ char '"') = ascii "other" := by decide +kernel
  have hlen : ¬ 128 ≤ (ascii "other").length ∧ (ascii "other").length < 128 := by decide +kernel
  rw [HonouredWhen, hraw]
  dsimp only
  rw [htake, if_neg hlen.1, if_pos hlen.2]
  refine ⟨fun n hn => ⟨1, ?_, by decide⟩, rfl, fun hno => ?_⟩
  · have hone : NumberAt a.elements 2 (.ofNat 1) := ⟨bare (numberValue 1), rfl, rfl⟩
    rw [waitSeconds_text (numberAt_inj hn hone), waitSeconds_ofNat (by decide)]
  · have hread : portRead a.elements 0 = _ := portRead_noPort hno
    have hport : portRead a.elements 0 = 4444 :=
      portRead_number (n := .ofNat 4444) ⟨bare (numberValue 4444), rfl, rfl⟩ (by decide)
        (Number.val_ofNat 4444)
    rw [hport] at hread
    split at hread <;> cases hread

/-- With port 0 the next dial goes to port 0, and without a host it does not wait. -/
theorem reconnect_port_zero :
    let s := run Stratum.step (stratumInit (ascii "pool") 3333 (ascii "w") (ascii "x")) connectedRun
    let zero := redirectTo otherHost 0 5
    let unnamed := redirectTo .null 3333 60
    ¬ Honours s zero.elements 1001 (onReconnect s zero.text 1001) ∧
      ¬ Honours s unnamed.elements 1001 (onReconnect s unnamed.text 1001) := by
  intro s zero unnamed
  constructor
  · intro h
    have htarget : (dial (onReconnect s zero.text 1001) 1006 redirectEnv).target =
        some (ascii "other", 0) := by decide +kernel
    have hasked := (h 1006 redirectEnv _ (by decide) htarget).1
    have hhost : HostOf zero.elements (ascii "other") := ⟨_, rfl, rfl, by decide +kernel⟩
    have hport := hasked.samePort _ hhost
      (.inr (.inr ⟨.ofNat 0, ⟨bare (numberValue 0), rfl, rfl⟩, Number.val_ofNat 0⟩))
    have hconfigured : s.port = 3333 := by decide +kernel
    rw [hconfigured] at hport
    exact absurd hport (by decide)
  · intro h
    have htarget : (dial (onReconnect s unnamed.text 1001) 1001 redirectEnv).target =
        some (ascii "pool", 3333) := by decide +kernel
    have htime := (h 1001 redirectEnv _ (by decide) htarget).2 (.ofNat 60)
      ⟨bare (numberValue 60), rfl, rfl⟩
    rw [waitSeconds_ofNat (by decide)] at htime
    norm_num at htime

end OspreyBlake2b.Miner
