import OspreyBlake2b.Miner.LimitsLaws
import OspreyBlake2b.Miner.StringLaws
import OspreyBlake2b.Miner.TemplateText
import OspreyBlake2b.Miner.WalkerPositions

namespace OspreyBlake2b.Miner

open OspreyBlake2b.Lib OspreyBlake2b.Lib.JsonText

def inQuotes (t : List Byte) : List Byte := char '"' :: t ++ [char '"']

def HexOf (v : Value) (bytes : List Byte) : Prop :=
  ∃ t, v.val = inQuotes t ∧ t.length % 2 = 0 ∧ t.all isHexDigit = true ∧ unhex t = bytes

theorem quote_not_mem {body : List Byte} (h : isBody body = true) (hback : char '\\' ∉ body) :
    char '"' ∉ body := by
  revert hback
  refine isBody_induction (P := fun k => char '\\' ∉ k → char '"' ∉ k) ?_ ?_ ?_ h
  · simp
  · intro c t _ hquote _ ih hback
    simp only [List.mem_cons, not_or] at hback ⊢
    exact ⟨Ne.symm hquote, ih hback.2⟩
  · intro e t _ _ hback
    exact absurd List.mem_cons_self hback

theorem jsStr_value {v : Value} (hback : char '\\' ∉ v.val) {outlen : Nat} (hroom : 0 < outlen)
    {t : List Byte} (r : List Byte) :
    jsStr (v.val ++ r) outlen = (t, true) ↔ v.val = inQuotes t ∧ t.length < outlen := by
  obtain ⟨v, hv⟩ := v
  have hother (hd : deref (v ++ r) ≠ char '"') :
      jsStr (v ++ r) outlen = (t, true) ↔ v = inQuotes t ∧ t.length < outlen := by
    constructor
    · intro hstr
      rw [jsStr, jsWs_head (value_head hv r), if_pos hd] at hstr
      cases hstr
    · rintro ⟨rfl, -⟩
      exact absurd rfl hd
  obtain ⟨hne, hall⟩ | ⟨k, hk, rfl⟩ | ⟨opn, cls, u, hb, rfl, -⟩ := value_cases hv
  · refine hother ?_
    obtain ⟨c, v, rfl⟩ := List.exists_cons_of_ne_nil hne
    rintro rfl
    exact absurd (hall _ List.mem_cons_self).1 (by decide)
  · have hkback : char '\\' ∉ k := fun hmem =>
      hback (List.mem_append_left _ (List.mem_cons_of_mem _ hmem))
    have hquote := quote_not_mem hk hkback
    have htoken : char '"' :: k ++ [char '"'] ++ r = token ⟨[], rfl⟩ k r := by simp [token]
    have hsame : char '"' :: k ++ [char '"'] = inQuotes t ↔ k = t := by
      simp [inQuotes]
    change jsStr (char '"' :: k ++ [char '"'] ++ r) outlen = _ ↔
      char '"' :: k ++ [char '"'] = inQuotes t ∧ _
    rw [htoken, jsStr_token, hsame]
    by_cases hlen : k.length < outlen
    · rw [jsStrLoop_fits (isBody_no_nul hk) hquote hlen, Prod.mk.injEq]
      constructor
      · rintro ⟨rfl, -⟩
        exact ⟨rfl, hlen⟩
      · rintro ⟨rfl, -⟩
        exact ⟨rfl, rfl⟩
    · have hfull : (jsStrLoop outlen (k ++ char '"' :: r)).2 = false :=
        jsStrLoop_full (Nat.not_lt.mp hlen) (fun hmem => hquote (List.mem_of_mem_take hmem))
          (.inl hroom) (isBody_head hk) _
      constructor
      · intro hstr
        rw [hstr] at hfull
        cases hfull
      · rintro ⟨rfl, hlt⟩
        exact absurd hlt hlen
  · refine hother ?_
    obtain ⟨rfl, rfl⟩ | ⟨rfl, rfl⟩ := hb
    · change char '[' ≠ char '"'
      decide
    · change char '{' ≠ char '"'
      decide

theorem hexPairs_iff {t bytes : List Byte} (heven : t.length % 2 = 0) :
    hexPairs t = (bytes, true) ↔ t.all isHexDigit = true ∧ unhex t = bytes := by
  induction t using unhex.induct generalizing bytes with
  | case1 hi lo t ih =>
    have heven' : t.length % 2 = 0 := by
      simp only [List.length_cons] at heven
      omega
    rw [hexPairs, unhex, List.all_cons, List.all_cons, isHexDigit, isHexDigit]
    cases hexval hi with
    | none => simp
    | some h =>
      cases hexval lo with
      | none => simp
      | some l =>
        simp only [Option.isSome_some, Option.getD_some, Bool.true_and, Prod.mk.injEq]
        constructor
        · rintro ⟨rfl, hok⟩
          obtain ⟨hall, hbytes⟩ := (ih heven').mp (Prod.ext rfl hok)
          exact ⟨hall, by rw [hbytes]⟩
        · rintro ⟨hall, rfl⟩
          have hpairs := (ih heven').mpr ⟨hall, rfl⟩
          exact ⟨by rw [hpairs], by rw [hpairs]⟩
  | case2 t hshort =>
    cases t with
    | nil => simp [hexPairs, unhex]
    | cons c t =>
      cases t with
      | nil => simp at heven
      | cons d t => exact absurd rfl (hshort c d t)

theorem jsHex_eq_true {v bytes : List Byte} {maxlen : Nat} :
    jsHex v maxlen = (bytes, true) ↔ ∃ t, jsStr v (2 * 512 + 4) = (t, true) ∧
      t.length % 2 = 0 ∧ t.length / 2 ≤ maxlen ∧ hexPairs t = (bytes, true) := by
  rw [jsHex]
  obtain ⟨t, ok⟩ := jsStr v (2 * 512 + 4)
  cases ok with
  | false => simp
  | true =>
    simp only [Bool.not_true, Bool.false_eq_true, if_false, Prod.mk.injEq, and_true]
    constructor
    · intro h
      split_ifs at h with hodd hlong
      · cases h
      · cases h
      · exact ⟨t, rfl, by omega, by omega, h⟩
    · rintro ⟨t', rfl, heven, hfit, hpairs⟩
      rw [if_neg (by omega), if_neg (by omega), hpairs]

theorem hexUpTo_eq_some {v bytes : List Byte} {maxlen : Nat} :
    hexUpTo v maxlen = some bytes ↔ jsHex v maxlen = (bytes, true) := by
  rw [hexUpTo]
  obtain ⟨out, ok⟩ := jsHex v maxlen
  cases ok <;> simp

theorem hexUpTo_value {v : Value} (hback : char '\\' ∉ v.val) {maxlen : Nat}
    (hmax : maxlen ≤ stratumMaxCb) {bytes : List Byte} (r : List Byte) :
    hexUpTo (v.val ++ r) maxlen = some bytes ↔ HexOf v bytes ∧ bytes.length ≤ maxlen := by
  have hmax' : maxlen ≤ 512 := hmax
  have hstr (t : List Byte) :
      jsStr (v.val ++ r) (2 * 512 + 4) = (t, true) ↔ v.val = inQuotes t ∧ t.length < 2 * 512 + 4 :=
    jsStr_value hback (by decide) r
  rw [hexUpTo_eq_some, jsHex_eq_true]
  constructor
  · rintro ⟨t, hread, heven, hfit, hpairs⟩
    obtain ⟨hall, rfl⟩ := (hexPairs_iff heven).mp hpairs
    refine ⟨⟨t, ((hstr t).mp hread).1, heven, hall, rfl⟩, ?_⟩
    rwa [length_unhex]
  · rintro ⟨⟨t, hv, heven, hall, rfl⟩, hlen⟩
    rw [length_unhex] at hlen
    exact ⟨t, (hstr t).mpr ⟨hv, by omega⟩, heven, hlen, (hexPairs_iff heven).mpr ⟨hall, rfl⟩⟩

theorem toVector_eq_some {n : Nat} {l : List Byte} {b : Vector Byte n} :
    toVector n l = some b ↔ l = b.toList := by
  rw [toVector]
  split
  · rw [Option.some_inj]
    constructor
    · rintro rfl
      rfl
    · rintro rfl
      rfl
  · constructor
    · intro h
      cases h
    · rintro rfl
      simp at *

theorem hexExact_value {v : Value} (hback : char '\\' ∉ v.val) {n : Nat} (hn : n ≤ stratumMaxCb)
    {b : Vector Byte n} (r : List Byte) :
    hexExact (v.val ++ r) n = some b ↔ HexOf v b.toList := by
  have hread (bytes : List Byte) :
      hexUpTo (v.val ++ r) n = some bytes ↔ HexOf v bytes ∧ bytes.length ≤ n :=
    hexUpTo_value hback hn r
  have hexact : hexExact (v.val ++ r) n = (hexUpTo (v.val ++ r) n).bind (toVector n) := by
    rw [hexExact, hexUpTo]
    dsimp only
    split <;> rfl
  rw [hexact, Option.bind_eq_some_iff]
  constructor
  · rintro ⟨bytes, hbytes, hvector⟩
    obtain rfl := toVector_eq_some.mp hvector
    exact ((hread _).mp hbytes).1
  · intro hhex
    exact ⟨b.toList, (hread _).mpr ⟨hhex, by simp⟩, toVector_eq_some.mpr rfl⟩

/-- What a notify's elements say of its job; how the job is numbered is left open. -/
structure NotifyJob (es : List Element) (j : StratumJob) : Prop where
  count : 9 ≤ es.length
  jobId : ∃ e, es[0]? = some e ∧ e.value.val = inQuotes j.jobId ∧ j.jobId.length < 64
  prevhash : ∃ e, es[1]? = some e ∧ HexOf e.value j.prevhash.toList
  coinb1 : ∃ e, es[2]? = some e ∧ HexOf e.value j.coinb1 ∧ j.coinb1.length ≤ 512
  coinb2 : ∃ e, es[3]? = some e ∧ HexOf e.value j.coinb2 ∧ j.coinb2.length ≤ 512
  branches : ∃ e bs, es[4]? = some e ∧ IsArray e.value.val bs ∧ bs.length ≤ 32 ∧
    List.Forall₂ (fun b branch => HexOf b.value branch.toList) bs j.branches
  nbits : ∃ e, ∃ bits : Vector Byte 4, es[6]? = some e ∧ HexOf e.value bits.toList ∧
    j.nbits = leWord 32 bits.toList
  ntime : ∃ e, es[7]? = some e ∧ HexOf e.value j.ntime.toList
  clean : ∃ e, es[8]? = some e ∧ j.clean = decide (e.value.val = ascii "true")

def Notifies (v : Value) (j : StratumJob) : Prop := ∃ es, IsArray v.val es ∧ NotifyJob es j

theorem mem_joinElements {es : List Element} {e : Element} (he : e ∈ es) {c : Byte}
    (hc : c ∈ e.value.val) : c ∈ joinElements es := by
  induction es with
  | nil => cases he
  | cons e' es ih =>
    have hhead (h : e = e') : c ∈ e'.text := by
      rw [← h, Element.text]
      exact List.mem_append_left _ (List.mem_append_right _ hc)
    obtain rfl | hne := eq_or_ne es []
    · exact hhead (List.mem_singleton.mp he)
    · rw [joinElements_cons hne]
      obtain h | h := List.mem_cons.mp he
      · exact List.mem_append_left _ (hhead h)
      · exact List.mem_append_right _ (List.mem_cons_of_mem _ (ih h))

theorem plain_elements {v : Value} (hback : char '\\' ∉ v.val) {es : List Element}
    (h : IsArray v.val es) : ∀ e ∈ es, char '\\' ∉ e.value.val := by
  obtain ⟨inner, hv⟩ := h
  intro e he hmem
  refine hback ?_
  rw [hv]
  exact List.mem_append_left _ (List.mem_append_right _ (mem_joinElements he hmem))

theorem mapM_eq_some_iff {A B : Type} {f : A → Option B} {as : List A} {bs : List B} :
    as.mapM f = some bs ↔ List.Forall₂ (fun a b => f a = some b) as bs := by
  induction as generalizing bs with
  | nil =>
    rw [List.forall₂_nil_left_iff, List.mapM_nil]
    exact ⟨fun h => (Option.some.inj h).symm, fun h => h ▸ rfl⟩
  | cons a as ih =>
    rw [List.mapM_cons, List.forall₂_cons_left_iff]
    constructor
    · intro h
      obtain ⟨b, hb, h⟩ := Option.bind_eq_some_iff.mp h
      obtain ⟨bs', hbs', h⟩ := Option.bind_eq_some_iff.mp h
      cases h
      exact ⟨b, bs', hb, ih.mp hbs', rfl⟩
    · rintro ⟨b, bs', hb, hbs', rfl⟩
      rw [hb, Option.bind_eq_bind, Option.bind_some, ih.mpr hbs']
      rfl

theorem branches_iff (a : ArrayText) (hback : ∀ e ∈ a.elements, char '\\' ∉ e.value.val)
    (r : List Byte) {branches : List (Vector Byte 32)} :
    ((List.range a.elements.length).mapM fun i => do
      let e ← jsElem (a.text ++ r) i
      hexExact e 32) = some branches ↔
    List.Forall₂ (fun b branch => HexOf b.value branch.toList) a.elements branches := by
  rw [mapM_eq_some_iff, List.forall₂_iff_get, List.forall₂_iff_get]
  refine and_congr (by rw [List.length_range]) (forall_congr' fun i => ?_)
  have hrange : (List.range a.elements.length).length = a.elements.length := List.length_range
  have helem (hi : i < a.elements.length) (branch : Vector Byte 32) :
      ((do
        let e ← jsElem (a.text ++ r) i
        hexExact e 32) = some branch) ↔ HexOf (a.elements[i]).value branch.toList := by
    rw [jsElem_getElem, List.getElem?_eq_getElem hi]
    exact hexExact_value (hback _ (List.getElem_mem hi)) (by decide) _
  constructor
  · intro h h₁ h₂
    have hread := h (h₁.trans_eq hrange.symm) h₂
    rw [List.get_eq_getElem, List.getElem_range] at hread
    exact (helem h₁ _).mp hread
  · intro h h₁ h₂
    rw [List.get_eq_getElem, List.getElem_range]
    exact (helem (h₁.trans_eq hrange) _).mpr (h (h₁.trans_eq hrange) h₂)

theorem isArray_text {t : List Byte} {es : List Element} (h : IsArray t es) (w : White)
    (r : List Byte) : ∃ a : ArrayText, a.elements = es ∧ a.text ++ r = w.val ++ (t ++ r) := by
  obtain ⟨inner, rfl⟩ := h
  exact ⟨⟨w, inner, es, ⟨[], rfl⟩⟩, rfl, by simp [ArrayText.text]⟩

theorem value_ne_nil {t : List Byte} (h : Derives .value t) : t ≠ [] := by
  obtain ⟨hne, -⟩ | ⟨k, -, rfl⟩ | ⟨opn, cls, u, -, rfl, -⟩ := value_cases h
  · exact hne
  · exact List.cons_ne_nil _ _
  · exact List.cons_ne_nil _ _

theorem deref_value {t : List Byte} (h : Derives .value t) (r : List Byte) :
    deref (t ++ r) = deref t := by
  obtain ⟨c, t, rfl⟩ := List.exists_cons_of_ne_nil (value_ne_nil h)
  rfl

theorem jsCount_other {v : Value} (h : deref v.val ≠ char '[') (w : White) (r : List Byte) :
    jsCount (w.val ++ (v.val ++ r)) = -1 := by
  obtain ⟨v, hv⟩ := v
  rw [jsCount, jsWs_white, jsWs_head (value_head hv r)]
  dsimp only
  rw [if_pos (by rwa [deref_value hv])]

theorem branchArray_iff {v : Value} (hback : char '\\' ∉ v.val) (r : List Byte)
    {branches : List (Vector Byte 32)} :
    ((0 ≤ jsCount (v.val ++ r) ∧ jsCount (v.val ++ r) ≤ stratumMaxBranches) ∧
      ((List.range (jsCount (v.val ++ r)).toNat).mapM fun i => do
        let e ← jsElem (v.val ++ r) i
        hexExact e 32) = some branches) ↔
    ∃ bs, IsArray v.val bs ∧ bs.length ≤ 32 ∧
      List.Forall₂ (fun b branch => HexOf b.value branch.toList) bs branches := by
  have hloop {bs : List Element} (harray : IsArray v.val bs) :
      jsCount (v.val ++ r) = bs.length ∧
      (((List.range bs.length).mapM fun i => do
        let e ← jsElem (v.val ++ r) i
        hexExact e 32) = some branches ↔
      List.Forall₂ (fun b branch => HexOf b.value branch.toList) bs branches) := by
    have hplain := plain_elements hback harray
    obtain ⟨a, rfl, ha⟩ := isArray_text harray ⟨[], rfl⟩ r
    rw [List.nil_append] at ha
    rw [← ha]
    exact ⟨jsCount_array a r, branches_iff a hplain r⟩
  constructor
  · rintro ⟨⟨hpos, hmax⟩, hbranches⟩
    have hbracket : deref v.val = char '[' := by
      by_contra hother
      have hnone := jsCount_other hother ⟨[], rfl⟩ r
      rw [List.nil_append] at hnone
      rw [hnone] at hpos
      exact absurd hpos (by decide)
    obtain ⟨bs, harray⟩ := exists_elements v.property hbracket
    obtain ⟨hcount, hiff⟩ := hloop harray
    rw [hcount, Int.toNat_natCast] at hbranches
    rw [hcount] at hmax
    exact ⟨bs, harray, Int.ofNat_le.mp hmax, hiff.mp hbranches⟩
  · rintro ⟨bs, harray, hmax, hbranches⟩
    obtain ⟨hcount, hiff⟩ := hloop harray
    rw [hcount, Int.toNat_natCast]
    exact ⟨⟨Int.natCast_nonneg _, Int.ofNat_le.mpr hmax⟩, hiff.mpr hbranches⟩

theorem field_iff {a : ArrayText} (hback : ∀ e ∈ a.elements, char '\\' ∉ e.value.val)
    (r : List Byte) {i : Nat} {P : List Byte → Prop} {Q : Element → Prop}
    (hPQ : ∀ e, char '\\' ∉ e.value.val → ∀ r, P (e.value.val ++ r) ↔ Q e) :
    (∃ p, jsElem (a.text ++ r) i = some p ∧ P p) ↔ ∃ e, a.elements[i]? = some e ∧ Q e := by
  rw [jsElem_getElem]
  constructor
  · rintro ⟨p, hp, hP⟩
    obtain ⟨e, he, rfl⟩ := Option.map_eq_some_iff.mp hp
    exact ⟨e, he, (hPQ e (hback e (List.mem_of_getElem? he)) _).mp hP⟩
  · rintro ⟨e, he, hQ⟩
    exact ⟨_, by rw [he]; rfl, (hPQ e (hback e (List.mem_of_getElem? he)) _).mpr hQ⟩

theorem parsed_iff (a : ArrayText) (hback : ∀ e ∈ a.elements, char '\\' ∉ e.value.val)
    (r : List Byte) (j : StratumJob) :
    Parsed (a.text ++ r) j ↔ NotifyJob a.elements j ∧ j.seq = 0 := by
  have hcount : jsCount (a.text ++ r) ≥ 9 ↔ 9 ≤ a.elements.length := by
    rw [jsCount_array]
    exact Int.ofNat_le
  have hexact {i n : Nat} (hn : n ≤ stratumMaxCb) (b : Vector Byte n) :
      (∃ p, jsElem (a.text ++ r) i = some p ∧ hexExact p n = some b) ↔
        ∃ e, a.elements[i]? = some e ∧ HexOf e.value b.toList :=
    field_iff hback r fun e he r => hexExact_value he hn r
  have hupTo {i : Nat} (b : List Byte) :
      (∃ p, jsElem (a.text ++ r) i = some p ∧ hexUpTo p stratumMaxCb = some b) ↔
        ∃ e, a.elements[i]? = some e ∧ HexOf e.value b ∧ b.length ≤ 512 :=
    field_iff hback r fun e he r => hexUpTo_value he (Nat.le_refl _) r
  have hjobId : (∃ p, jsElem (a.text ++ r) 0 = some p ∧ jsStr p 64 = (j.jobId, true)) ↔
      ∃ e, a.elements[0]? = some e ∧ e.value.val = inQuotes j.jobId ∧ j.jobId.length < 64 :=
    field_iff hback r fun e he r => jsStr_value he (by decide) r
  have hbranches : (∃ p, jsElem (a.text ++ r) 4 = some p ∧
        (0 ≤ jsCount p ∧ jsCount p ≤ stratumMaxBranches) ∧
        ((List.range (jsCount p).toNat).mapM fun i => do
          let e ← jsElem p i
          hexExact e 32) = some j.branches) ↔
      ∃ e, a.elements[4]? = some e ∧ ∃ bs, IsArray e.value.val bs ∧ bs.length ≤ 32 ∧
        List.Forall₂ (fun b branch => HexOf b.value branch.toList) bs j.branches :=
    field_iff hback r fun e he r => branchArray_iff he r
  constructor
  · intro h
    have hlong := hcount.mp h.count
    obtain ⟨pBits, bits, hBits, hbits, hnbits⟩ := h.nbits
    obtain ⟨e₆, he₆, hhex⟩ := (hexact (by decide) bits).mp ⟨pBits, hBits, hbits⟩
    obtain ⟨e₄, he₄, bs, hbs⟩ := hbranches.mp h.branches
    refine ⟨⟨hlong, hjobId.mp h.jobId, (hexact (by decide) _).mp h.prevhash,
      (hupTo _).mp h.coinb1, (hupTo _).mp h.coinb2, ⟨e₄, bs, he₄, hbs⟩,
      ⟨e₆, bits, he₆, hhex, hnbits⟩, (hexact (by decide) _).mp h.ntime, ?_⟩, h.seq⟩
    refine ⟨a.elements[8], List.getElem?_eq_getElem hlong, ?_⟩
    rw [h.clean, jsElem_getElem, List.getElem?_eq_getElem hlong]
    exact jsTrue_value (a.elements[8]).value.property _
  · rintro ⟨h, hseq⟩
    obtain ⟨e₆, bits, he₆, hhex, hnbits⟩ := h.nbits
    obtain ⟨pBits, hBits, hbits⟩ := (hexact (by decide) bits).mpr ⟨e₆, he₆, hhex⟩
    obtain ⟨e₄, bs, he₄, hbs⟩ := h.branches
    refine ⟨hcount.mpr h.count, hjobId.mpr h.jobId, (hexact (by decide) _).mpr h.prevhash,
      (hupTo _).mpr h.coinb1, (hupTo _).mpr h.coinb2, hbranches.mpr ⟨e₄, he₄, bs, hbs⟩,
      ⟨pBits, bits, hBits, hbits, hnbits⟩, (hexact (by decide) _).mpr h.ntime, ?_, hseq⟩
    obtain ⟨e₈, he₈, hclean⟩ := h.clean
    rw [hclean, jsElem_getElem, he₈]
    exact (jsTrue_value e₈.value.property _).symm

theorem parseJob_iff {v : Value} (hback : char '\\' ∉ v.val) (w : White) (r : List Byte)
    (j : StratumJob) :
    parseJob (w.val ++ (v.val ++ r)) = some j ↔ Notifies v j ∧ j.seq = 0 := by
  rw [parseJob_eq_some]
  constructor
  · intro h
    have hbracket : deref v.val = char '[' := by
      by_contra hother
      have hcount := h.count
      rw [jsCount_other hother] at hcount
      exact absurd hcount (by decide)
    obtain ⟨es, harray⟩ := exists_elements v.property hbracket
    obtain ⟨a, rfl, ha⟩ := isArray_text harray w r
    rw [← ha] at h
    obtain ⟨hjob, hseq⟩ := (parsed_iff a (plain_elements hback harray) r j).mp h
    exact ⟨⟨_, harray, hjob⟩, hseq⟩
  · rintro ⟨⟨es, harray, hjob⟩, hseq⟩
    obtain ⟨a, rfl, ha⟩ := isArray_text harray w r
    rw [← ha]
    exact (parsed_iff a (plain_elements hback harray) r j).mpr ⟨hjob, hseq⟩

theorem Notifies.renumber {v : Value} {j : StratumJob} (h : Notifies v j) (seq : U64) :
    Notifies v { j with seq := seq } := by
  obtain ⟨es, harray, hjob⟩ := h
  exact ⟨es, harray, hjob.count, hjob.jobId, hjob.prevhash, hjob.coinb1, hjob.coinb2,
    hjob.branches, hjob.nbits, hjob.ntime, hjob.clean⟩

/-- A notify without backslashes makes the job it says, or nothing changes; any other text
makes a job within the limits, or nothing changes. -/
theorem notify_exact (s : Stratum) :
    (∀ (w : White) (v : Value) (r : List Byte), char '\\' ∉ v.val →
      (∀ j, Notifies v j → onNotify s (w.val ++ (v.val ++ r)) =
        { s with
          job := { j with seq := s.job.seq + 1 }
          haveJob := true
          jobsReceived := s.jobsReceived + 1 }) ∧
      ((∀ j, ¬ Notifies v j) → onNotify s (w.val ++ (v.val ++ r)) = s)) ∧
    ∀ params, onNotify s params = s ∨ ∃ j, JobLimits j ∧ onNotify s params =
      { s with job := j, haveJob := true, jobsReceived := s.jobsReceived + 1 } := by
  constructor
  · intro w v r hback
    constructor
    · intro j hj
      have hparse := (parseJob_iff hback w r { j with seq := 0 }).mpr ⟨hj.renumber 0, rfl⟩
      rw [onNotify, parseNotify, hparse]
      rfl
    · intro hnone
      have hparse : parseJob (w.val ++ (v.val ++ r)) = none := by
        rw [Option.eq_none_iff_forall_ne_some]
        intro j hj
        exact hnone j ((parseJob_iff hback w r j).mp hj).1
      rw [onNotify, parseNotify, hparse]
      rfl
  · intro params
    obtain hs | ⟨j, hj, hs⟩ := onNotify_cases s params
    · exact .inl hs
    · exact .inr ⟨j, parseNotify_limits hj, hs⟩

def zerosValue (n : Nat) : Value :=
  ⟨inQuotes (List.replicate n (char '0')), .string (by
    induction n with
    | zero => rfl
    | succ n ih =>
      have hzero : ¬ char '0' = char '\\' := by decide
      rw [List.replicate_succ, isBody.eq_def]
      simp only [if_neg hzero, ih]
      decide)⟩

def zerosNotify : List Element :=
  [zerosValue 2, zerosValue 64, zerosValue 0, zerosValue 2, ⟨_, .emptyArray noWhite⟩,
    zerosValue 0, zerosValue 8, zerosValue 16, ⟨_, .bool true⟩].map
    fun v => ⟨noWhite, v, noWhite⟩

theorem notify_exact_zeros :
    let s := stratumInit [] 0 [] []
    onNotify s (char '[' :: joinElements zerosNotify ++ [char ']']) =
        { s with
          job := { zeroJob with
            jobId := ascii "00"
            coinb2 := [0#8]
            clean := true
            seq := 1 }
          haveJob := true
          jobsReceived := 1 } ∧
      onNotify s (ascii "null") = s := by
  intro s
  have hhex (n : Nat) (bytes : List Byte) (heven : n % 2 = 0)
      (hbytes : unhex (List.replicate n (char '0')) = bytes) : HexOf (zerosValue n) bytes :=
    ⟨_, rfl, by rwa [List.length_replicate], by simp +decide, hbytes⟩
  have hjob : NotifyJob zerosNotify
      { zeroJob with jobId := ascii "00", coinb2 := [0#8], clean := true } :=
    ⟨by decide, ⟨_, rfl, rfl, by decide⟩, ⟨_, rfl, hhex 64 _ rfl rfl⟩,
      ⟨_, rfl, hhex 0 _ rfl rfl, by decide⟩, ⟨_, rfl, hhex 2 _ rfl rfl, by decide⟩,
      ⟨_, [], rfl, ⟨⟨[], rfl⟩, rfl⟩, by decide, .nil⟩,
      ⟨_, Vector.replicate 4 0, rfl, hhex 8 _ rfl rfl, by decide⟩, ⟨_, rfl, hhex 16 _ rfl rfl⟩,
      ⟨_, rfl, rfl⟩⟩
  have hnotify := (notify_exact s).1 ⟨[], rfl⟩
    ⟨_, .array (derives_joinElements (show zerosNotify ≠ [] from List.cons_ne_nil _ _))⟩ []
    (by decide +kernel)
  have hnull := (notify_exact s).1 ⟨[], rfl⟩ .null [] (by decide)
  refine ⟨?_, hnull.2 ?_⟩
  · have hstored := hnotify.1 _ ⟨_, ⟨⟨[], rfl⟩, rfl⟩, hjob⟩
    rwa [List.append_nil] at hstored
  · rintro j ⟨es, ⟨inner, hes⟩, -⟩
    exact absurd (congrArg deref hes) (by
      change char 'n' ≠ char '['
      decide)

end OspreyBlake2b.Miner
