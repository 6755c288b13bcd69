import OspreyBlake2b.Miner.WorksrcStratumLaws

/-! A refused extranonce.  `js_hex` stores each byte as it goes, and the subscribe
handler looks at the size after it has stored the extranonce. -/

namespace OspreyBlake2b.Miner

open OspreyBlake2b.Lib

def leadingHex : List Byte → List Byte
  | hi :: lo :: text =>
    match hexval hi, hexval lo with
    | some h, some l => BitVec.ofNat 8 (h * 16 + l) :: leadingHex text
    | _, _ => []
  | _ => []

def spelled (v : List Byte) : List Byte :=
  match jsStr v (2 * 512 + 4) with
  | (text, true) =>
    if text.length % 2 = 0 ∧ text.length / 2 ≤ stratumMaxEn1 then leadingHex text else []
  | (_, false) => []

def isSetExtranonce (line : List Byte) : Bool :=
  match jsGet line "method" with
  | some meth => jsStr meth 64 = (ascii "mining.set_extranonce", true)
  | none => false

def isSubscribeReply (s : Stratum) (line : List Byte) : Bool :=
  match jsGet line "method", jsGet line "id" with
  | none, some idv => (jsNum idv).toU64 = s.subId
  | _, _ => false

def rotatedTo (line : List Byte) : Option (List Byte) := do
  let params ← jsGet line "params"
  jsElem params 0

def subscribedTo (line : List Byte) : Option (List Byte × List Byte) := do
  let result ← jsGet line "result"
  guard (deref (jsWs result) = char '[')
  let en1 ← jsElem result 1
  let sz ← jsElem result 2
  return (en1, sz)

def sizeOutOfRange (sz : List Byte) : Bool :=
  (jsNum sz).lt (.ofNat 1) ∨ (Double.ofNat stratumMaxEn2).lt (jsNum sz)

def acceptedEn1 (line : List Byte) : Option (List Byte) :=
  if isSetExtranonce line then (rotatedTo line).bind (hexUpTo · stratumMaxEn1)
  else (subscribedTo line).bind fun p =>
    if sizeOutOfRange p.2 then none else hexUpTo p.1 stratumMaxEn1

structure SameSession (s s' : Stratum) : Prop where
  extranonce1 : s'.extranonce1 = s.extranonce1
  en1Len : s'.en1Len = s.en1Len
  en2Size : s'.en2Size = s.en2Size
  job : s'.job = s.job
  haveJob : s'.haveJob = s.haveJob
  subscribed : s'.subscribed = s.subscribed

def Decided (s s' : Stratum) : Option (List Byte) → Prop
  | none => SameSession s s'
  | some en1 => s'.en1 = en1 ∧ s'.en1Len = en1.length

def AllOrNothing (s : Stratum) (line : List Byte) (now : U64) : Prop :=
  isSetExtranonce line ∨ isSubscribeReply s line →
    Decided s (onLine s line now) (acceptedEn1 line)

/-- A string that is refused spells, up to the place of the refusal, what is already
in the buffer; with a size that is refused it is the extranonce1 in force. -/
def SpellsOld (s : Stratum) (line : List Byte) : Prop :=
  (isSetExtranonce line → ∀ e ∈ rotatedTo line, hexUpTo e stratumMaxEn1 = none →
    spelled e <+: s.extranonce1) ∧
  (isSubscribeReply s line → ∀ p ∈ subscribedTo line,
    (hexUpTo p.1 stratumMaxEn1 = none → spelled p.1 <+: s.extranonce1) ∧
    (hexUpTo p.1 stratumMaxEn1 ≠ none → sizeOutOfRange p.2 →
      spelled p.1 <+: s.extranonce1 ∧ (spelled p.1).length = s.en1Len))

section Decoding

theorem hexPairs_fst (text : List Byte) : (hexPairs text).1 = leadingHex text := by
  fun_induction leadingHex text with
  | case1 hi lo text h l hl hh ih => simp [hexPairs, hh, hl, ih]
  | case2 hi lo text hbad =>
    rw [hexPairs]
    split
    · rename_i h l hh hl
      exact absurd hl (hbad h l hh)
    · rfl
  | case3 text hshort =>
    rw [hexPairs]
    exact hshort

theorem jsHex_fst (v : List Byte) : (jsHex v stratumMaxEn1).1 = spelled v := by
  rw [jsHex, spelled]
  obtain ⟨text, ok⟩ := jsStr v (2 * 512 + 4)
  cases ok with
  | false => rfl
  | true =>
    simp only [Bool.not_true, Bool.false_eq_true, if_false]
    by_cases hodd : text.length % 2 = 0
    · by_cases hlong : text.length / 2 ≤ stratumMaxEn1
      · rw [if_neg (not_not_intro hodd), if_neg (by omega), if_pos ⟨hodd, hlong⟩, hexPairs_fst]
      · rw [if_neg (not_not_intro hodd), if_pos (by omega), if_neg fun h => hlong h.2]
    · rw [if_pos hodd, if_neg fun h => hodd h.1]

theorem hexUpTo_eq (v : List Byte) : hexUpTo v stratumMaxEn1 =
    if (jsHex v stratumMaxEn1).2 then some (spelled v) else none := by
  rw [← jsHex_fst]
  rfl

theorem hexUpTo_of_bad {v : List Byte} (h : (jsHex v stratumMaxEn1).2 = false) :
    hexUpTo v stratumMaxEn1 = none := by
  simp [hexUpTo_eq, h]

theorem hexUpTo_of_ok {v : List Byte} (h : (jsHex v stratumMaxEn1).2 = true) :
    hexUpTo v stratumMaxEn1 = some (spelled v) := by
  simp [hexUpTo_eq, h]

theorem overwrite_eq_iff (buf bytes : List Byte) : overwrite buf bytes = buf ↔ bytes <+: buf := by
  constructor
  · intro h
    exact ⟨_, h⟩
  · rintro ⟨rest, rfl⟩
    rw [overwrite, List.drop_left]

end Decoding

section Dispatch

variable {s : Stratum} {line : List Byte} (now : U64)

theorem onLine_setExtranonce (h : isSetExtranonce line = true) :
    onLine s line now = match jsGet line "params" with
      | none => s
      | some params => onSetExtranonce s params := by
  rw [isSetExtranonce] at h
  rw [onLine]
  cases hmeth : jsGet line "method" with
  | none =>
    rw [hmeth] at h
    cases h
  | some meth =>
    rw [hmeth] at h
    simp only [of_decide_eq_true h]
    cases jsGet line "params" with
    | none => rfl
    | some params => rfl

theorem onLine_subscribe (h : isSubscribeReply s line = true) :
    onLine s line now = match jsGet line "result" with
      | some r => if deref (jsWs r) = char '[' then onSubscribe s r else s
      | none => s := by
  rw [isSubscribeReply] at h
  rw [onLine]
  cases hmeth : jsGet line "method" with
  | some meth =>
    rw [hmeth] at h
    cases h
  | none =>
    cases hid : jsGet line "id" with
    | none =>
      rw [hmeth, hid] at h
      cases h
    | some idv =>
      rw [hmeth, hid] at h
      cases hresult : jsGet line "result" with
      | none => simp only [onReply, hid, hresult, if_pos (of_decide_eq_true h)]
      | some r => simp only [onReply, hid, hresult, if_pos (of_decide_eq_true h)]

theorem not_both (h : isSetExtranonce line = true) : isSubscribeReply s line = false := by
  rw [isSetExtranonce] at h
  rw [isSubscribeReply]
  cases hmeth : jsGet line "method" with
  | none =>
    rw [hmeth] at h
    cases h
  | some meth => rfl

theorem onSetExtranonce_refused {params e : List Byte} (he : jsElem params 0 = some e)
    (hbad : (jsHex e stratumMaxEn1).2 = false) :
    onSetExtranonce s params = { s with extranonce1 := overwrite s.extranonce1 (spelled e) } := by
  simp [onSetExtranonce, he, hbad, jsHex_fst]

theorem onSetExtranonce_accepted {params e : List Byte} (he : jsElem params 0 = some e)
    (hok : (jsHex e stratumMaxEn1).2 = true) :
    (onSetExtranonce s params).extranonce1 = overwrite s.extranonce1 (spelled e) ∧
      (onSetExtranonce s params).en1Len = (spelled e).length := by
  simp [onSetExtranonce, he, hok, jsHex_fst]

theorem onSubscribe_refused {r e sz : List Byte} (he : jsElem r 1 = some e)
    (hsz : jsElem r 2 = some sz) (hbad : (jsHex e stratumMaxEn1).2 = false) :
    onSubscribe s r = { s with extranonce1 := overwrite s.extranonce1 (spelled e) } := by
  simp [onSubscribe, he, hsz, hbad, jsHex_fst]

theorem onSubscribe_size {r e sz : List Byte} (he : jsElem r 1 = some e)
    (hsz : jsElem r 2 = some sz) (hok : (jsHex e stratumMaxEn1).2 = true)
    (hbad : sizeOutOfRange sz = true) :
    onSubscribe s r =
      { s with extranonce1 := overwrite s.extranonce1 (spelled e), en1Len := (spelled e).length } := by
  have hsize := of_decide_eq_true hbad
  simp [onSubscribe, he, hsz, hok, jsHex_fst, if_pos hsize]

theorem onSubscribe_accepted {r e sz : List Byte} (he : jsElem r 1 = some e)
    (hsz : jsElem r 2 = some sz) (hok : (jsHex e stratumMaxEn1).2 = true)
    (hgood : sizeOutOfRange sz = false) :
    (onSubscribe s r).extranonce1 = overwrite s.extranonce1 (spelled e) ∧
      (onSubscribe s r).en1Len = (spelled e).length := by
  have hsize := of_decide_eq_false hgood
  simp [onSubscribe, he, hsz, hok, jsHex_fst, if_neg hsize]

theorem stored_en1 {s' : Stratum} {bytes : List Byte}
    (hbytes : s'.extranonce1 = overwrite s.extranonce1 bytes) (hlen : s'.en1Len = bytes.length) :
    s'.en1 = bytes ∧ s'.en1Len = bytes.length := by
  refine ⟨?_, hlen⟩
  rw [Stratum.en1, hbytes, hlen, overwrite, List.take_left]

end Dispatch

theorem sameSession_refl (s : Stratum) : SameSession s s := ⟨rfl, rfl, rfl, rfl, rfl, rfl⟩

theorem sameSession_stored (s : Stratum) (bytes : List Byte) :
    SameSession s { s with extranonce1 := overwrite s.extranonce1 bytes } ↔
      bytes <+: s.extranonce1 := by
  rw [← overwrite_eq_iff]
  exact ⟨fun h => h.extranonce1, fun h => ⟨h, rfl, rfl, rfl, rfl, rfl⟩⟩

theorem sameSession_measured (s : Stratum) (bytes : List Byte) (n : Nat) :
    SameSession s { s with extranonce1 := overwrite s.extranonce1 bytes, en1Len := n } ↔
      bytes <+: s.extranonce1 ∧ n = s.en1Len := by
  rw [← overwrite_eq_iff]
  exact ⟨fun h => ⟨h.extranonce1, h.en1Len⟩, fun h => ⟨h.1, h.2, rfl, rfl, rfl, rfl⟩⟩

section Lines

variable {s : Stratum} {line : List Byte} (now : U64)

theorem onLine_rotatedTo (h : isSetExtranonce line = true) :
    rotatedTo line = none ∧ onLine s line now = s ∨
      ∃ params e, jsElem params 0 = some e ∧ rotatedTo line = some e ∧
        onLine s line now = onSetExtranonce s params := by
  rw [onLine_setExtranonce now h]
  cases hparams : jsGet line "params" with
  | none => exact .inl ⟨by simp [rotatedTo, hparams], rfl⟩
  | some params =>
    have hrot : rotatedTo line = jsElem params 0 := by simp [rotatedTo, hparams]
    rw [hrot]
    cases he : jsElem params 0 with
    | none => exact .inl ⟨rfl, by simp [onSetExtranonce, he]⟩
    | some e => exact .inr ⟨params, e, he, rfl, rfl⟩

theorem onLine_subscribedTo (h : isSubscribeReply s line = true) :
    subscribedTo line = none ∧ onLine s line now = s ∨
      ∃ r e sz, jsElem r 1 = some e ∧ jsElem r 2 = some sz ∧ subscribedTo line = some (e, sz) ∧
        onLine s line now = onSubscribe s r := by
  rw [onLine_subscribe now h]
  cases hres : jsGet line "result" with
  | none => exact .inl ⟨by simp [subscribedTo, hres], rfl⟩
  | some r =>
    by_cases harr : deref (jsWs r) = char '['
    · simp only [if_pos harr]
      cases he : jsElem r 1 with
      | none => exact .inl ⟨by simp [subscribedTo, hres, he], by simp [onSubscribe, he]⟩
      | some e =>
        cases hsz : jsElem r 2 with
        | none => exact .inl ⟨by simp [subscribedTo, hres, hsz], by simp [onSubscribe, hsz]⟩
        | some sz =>
          exact .inr ⟨r, e, sz, he, hsz, by simp [subscribedTo, hres, harr, he, hsz], rfl⟩
    · exact .inl ⟨by simp [subscribedTo, hres, harr], by simp only [if_neg harr]⟩

theorem setExtranonce_iff (h : isSetExtranonce line = true) :
    Decided s (onLine s line now) (acceptedEn1 line) ↔
      ∀ e ∈ rotatedTo line, hexUpTo e stratumMaxEn1 = none → spelled e <+: s.extranonce1 := by
  have hacc : acceptedEn1 line = (rotatedTo line).bind (hexUpTo · stratumMaxEn1) := if_pos h
  rw [hacc]
  obtain ⟨hnone, hsame⟩ | ⟨params, e, he, hrot, hline⟩ := onLine_rotatedTo (s := s) now h
  · rw [hnone, hsame]
    exact iff_of_true (sameSession_refl s) (by simp)
  · rw [hrot, hline]
    simp only [Option.bind_some, Option.mem_some_iff, forall_eq']
    cases hok : (jsHex e stratumMaxEn1).2 with
    | false =>
      rw [hexUpTo_of_bad hok, onSetExtranonce_refused he hok, forall_prop_of_true rfl]
      exact sameSession_stored s (spelled e)
    | true =>
      obtain ⟨hbytes, hlen⟩ := onSetExtranonce_accepted (s := s) he hok
      rw [hexUpTo_of_ok hok]
      exact iff_of_true (stored_en1 hbytes hlen) fun hnone => by cases hnone

theorem subscribe_iff (h : isSubscribeReply s line = true) (hset : isSetExtranonce line = false) :
    Decided s (onLine s line now) (acceptedEn1 line) ↔
      ∀ p ∈ subscribedTo line,
        (hexUpTo p.1 stratumMaxEn1 = none → spelled p.1 <+: s.extranonce1) ∧
        (hexUpTo p.1 stratumMaxEn1 ≠ none → sizeOutOfRange p.2 →
          spelled p.1 <+: s.extranonce1 ∧ (spelled p.1).length = s.en1Len) := by
  have hacc : acceptedEn1 line = (subscribedTo line).bind fun p =>
      if sizeOutOfRange p.2 then none else hexUpTo p.1 stratumMaxEn1 :=
    if_neg (by rw [hset]; exact Bool.false_ne_true)
  rw [hacc]
  obtain ⟨hnone, hsame⟩ | ⟨r, e, sz, he, hsz, hsub, hline⟩ := onLine_subscribedTo now h
  · rw [hnone, hsame]
    exact iff_of_true (sameSession_refl s) (by simp)
  · rw [hsub, hline]
    simp only [Option.bind_some, Option.mem_some_iff, forall_eq']
    cases hok : (jsHex e stratumMaxEn1).2 with
    | false =>
      rw [hexUpTo_of_bad hok, onSubscribe_refused he hsz hok, ite_self]
      simp only [ne_eq, not_true_eq_false, forall_true_left, false_implies, and_true]
      exact sameSession_stored s (spelled e)
    | true =>
      rw [hexUpTo_of_ok hok]
      cases hrange : sizeOutOfRange sz with
      | false =>
        obtain ⟨hbytes, hlen⟩ := onSubscribe_accepted (s := s) he hsz hok hrange
        refine iff_of_true (stored_en1 hbytes hlen) ?_
        simp
      | true =>
        rw [onSubscribe_size he hsz hok hrange, if_pos rfl]
        simp only [reduceCtorEq, false_implies, ne_eq, not_false_eq_true, forall_true_left,
          true_and]
        exact sameSession_measured s (spelled e) (spelled e).length

end Lines

/-- For every session and every line: the handlers are all or nothing exactly on the
lines that spell what the session has. -/
theorem extranonce_untouched_iff (s : Stratum) (line : List Byte) (now : U64) :
    AllOrNothing s line now ↔ SpellsOld s line := by
  rw [AllOrNothing, SpellsOld]
  cases hset : isSetExtranonce line with
  | true =>
    have hsub := not_both (s := s) hset
    simp [hsub, setExtranonce_iff now hset]
  | false =>
    cases hsub : isSubscribeReply s line with
    | false => simp
    | true => simp [subscribe_iff now hsub hset]

theorem AllOrNothing.same {s : Stratum} {line : List Byte} {now : U64} (h : AllOrNothing s line now)
    (hset : isSetExtranonce line = true) (hrefused : acceptedEn1 line = none) :
    SameSession s (onLine s line now) := by
  have hsame := h (.inl hset)
  rwa [hrefused] at hsame

theorem SameSession.en1 {s s' : Stratum} (h : SameSession s s') : s'.en1 = s.en1 := by
  rw [Stratum.en1, h.extranonce1, h.en1Len, Stratum.en1]

def badRotation : List Byte :=
  ascii "\x7b\"method\":\"mining.set_extranonce\",\"params\":[\"bbzz\",8]\x7d"

/-- A session with the extranonce1 `aa` and a job: a rotation to `bbzz` is refused and
leaves it mining under `bb`. -/
theorem refused_rotation_stores :
    demoGlobals.main.en1 = [0xaa#8] ∧ (onLine demoGlobals.main badRotation 1000).en1 = [0xbb#8] ∧
      (onLine demoGlobals.main badRotation 1000).haveJob = true ∧
      ¬ AllOrNothing demoGlobals.main badRotation 1000 := by
  have hdemo : demoGlobals.main.en1 = [0xaa#8] ∧
      (onLine demoGlobals.main badRotation 1000).en1 = [0xbb#8] ∧
      (onLine demoGlobals.main badRotation 1000).haveJob = true := by decide +kernel
  have hline : isSetExtranonce badRotation = true ∧ acceptedEn1 badRotation = none := by
    decide +kernel
  obtain ⟨hbefore, hafter, hjob⟩ := hdemo
  refine ⟨hbefore, hafter, hjob, fun hall => ?_⟩
  have hen1 := (hall.same hline.1 hline.2).en1
  rw [hbefore, hafter] at hen1
  exact absurd hen1 (by decide)

end OspreyBlake2b.Miner
