import OspreyBlake2b.Miner.NotifyLaws
import OspreyBlake2b.Zynq.StratumTestServerLaws

namespace OspreyBlake2b.Zynq

open OspreyBlake2b.Lib OspreyBlake2b.Lib.JsonText OspreyBlake2b.Miner

section Hex

theorem unhex_bin2hex (bs : List Byte) : unhex (bin2hex bs) = bs := by
  induction bs with
  | nil => rfl
  | cons b bs ih =>
    obtain ⟨-, hhi, -⟩ := hex_digit (b.toNat / 16) (by omega)
    obtain ⟨-, hlo, -⟩ := hex_digit (b.toNat % 16) (by omega)
    have hb : BitVec.ofNat 8 (b.toNat / 16 * 16 + b.toNat % 16) = b := by
      rw [Nat.div_add_mod']
      exact BitVec.eq_of_toNat_eq (Nat.mod_eq_of_lt b.isLt)
    rw [bin2hex_cons, unhex, hhi, hlo, ih]
    exact congrArg (· :: bs) hb

theorem bin2hex_digits (bs : List Byte) : (bin2hex bs).all isHexDigit = true := by
  have hdigit : ∀ d < 16, isHexDigit (hexDigit d) = true := by decide
  rw [List.all_eq_true]
  intro c hc
  obtain ⟨d, hd, rfl⟩ := mem_bin2hex hc
  exact hdigit d hd

theorem escape_bin2hex (bs : List Byte) : Json.escape (bin2hex bs) = bin2hex bs := by
  have hlow : ∀ d < 16, hexDigit d < 0x7f#8 := by decide
  refine Json.escape_plain fun c hc => ⟨bin2hex_plain bs c hc, ?_⟩
  obtain ⟨d, hd, rfl⟩ := mem_bin2hex hc
  exact hlow d hd

theorem text_str {text : List Byte} (h : Json.escape text = text) :
    (Written.str text).text.val = inQuotes text := by
  change Json.dumps (.str text) = _
  rw [Json.dumps, h]
  rfl

theorem hexOf_str (bs : List Byte) : HexOf (Written.str (bin2hex bs)).text bs := by
  refine ⟨bin2hex bs, text_str (escape_bin2hex bs), ?_, bin2hex_digits bs, unhex_bin2hex bs⟩
  rw [bin2hex_length]
  omega

end Hex

section Objects

theorem jsGet_written {ms : List (List Byte × Written)} {key : String} {m : JsonText.Member}
    (h : (writtenMembers ms).find? (fun m => m.key.val = ascii key) = some m) :
    ∃ r, isDelim (deref r) = true ∧
      jsGet (Json.dumps (.obj (ms.map fun m => (m.1, m.2.value)))) key = some (m.value.val ++ r) := by
  rw [dumps_object]
  obtain ⟨m', r, hfind, hget, hr⟩ | ⟨hnone, -⟩ := jsGet_finds (writtenObject ms) key
  · obtain rfl := Option.some.inj (hfind.symm.trans h)
    exact ⟨r, hr, hget⟩
  · cases hnone.symm.trans h

theorem jsGet_unwritten {ms : List (List Byte × Written)} {key : String}
    (h : (writtenMembers ms).find? (fun m => m.key.val = ascii key) = none) :
    jsGet (Json.dumps (.obj (ms.map fun m => (m.1, m.2.value)))) key = none := by
  rw [dumps_object]
  obtain ⟨m', r, hfind, -⟩ | ⟨-, hget⟩ := jsGet_finds (writtenObject ms) key
  · cases hfind.symm.trans h
  · exact hget

def decimal (n : Nat) : Written := .num (.ofNat n)

theorem decimal_value (n : Nat) : (decimal n).value = .num (dec n) :=
  congrArg Json.num ((List.append_nil _).trans (List.append_nil _))

theorem onLine_reply (s : Stratum) (id : U64) (result error : Written) (now : U64) :
    ∃ r, isDelim (deref r) = true ∧
      onLine s (Json.dumps (reply (some (.num (dec id.toNat))) result.value error.value)) now =
        if (Double.round id.toNat).toU64 = s.subId then
          if deref (jsWs (result.text.val ++ r)) = char '[' then onSubscribe s (result.text.val ++ r)
          else s
        else if (Double.round id.toNat).toU64 = s.authId then
          { s with authorized := decide (result.text.val = ascii "true") }
        else if (Double.round id.toNat).toU64 = s.suggestDiffId then s
        else if result.text.val = ascii "true" then { s with sharesAccepted := s.sharesAccepted + 1 }
        else { s with sharesRejected := s.sharesRejected + 1 } := by
  let ms : List (List Byte × Written) :=
    [(ascii "id", decimal id.toNat), (ascii "result", result), (ascii "error", error)]
  have hobj : reply (some (.num (dec id.toNat))) result.value error.value =
      .obj (ms.map fun m => (m.1, m.2.value)) := by
    rw [← decimal_value]
    rfl
  have hmethod : (writtenMembers ms).find? (fun m => m.key.val = ascii "method") = none := rfl
  have hid : (writtenMembers ms).find? (fun m => m.key.val = ascii "id") =
      some (writtenMember noWhite (ascii "id", decimal id.toNat)) := rfl
  have hresult : (writtenMembers ms).find? (fun m => m.key.val = ascii "result") =
      some (writtenMember blank (ascii "result", result)) := rfl
  obtain ⟨r, hr, hgetId⟩ := jsGet_written hid
  obtain ⟨r', hr', hgetResult⟩ := jsGet_written hresult
  have hnum : jsNum ((writtenMember noWhite (ascii "id", decimal id.toNat)).value.val ++ r) =
      .round id.toNat := by
    have hval := jsNum_number (Number.ofNat id.toNat) hr
    rwa [Number.val_ofNat] at hval
  have htrue : jsTrue ((writtenMember blank (ascii "result", result)).value.val ++ r') =
      decide (result.text.val = ascii "true") := jsTrue_value result.text.property r'
  refine ⟨r', hr', ?_⟩
  rw [hobj, onLine, jsGet_unwritten hmethod]
  dsimp only
  rw [onReply, hgetId, hgetResult]
  simp only [hnum, htrue, decide_eq_true_eq]
  rfl

section Notices

variable (s : Stratum) (method : String) (params : List Written)

theorem notice_value :
    notice method (params.map Written.value) = .obj ([(ascii "id", Written.null),
      (ascii "method", .str (ascii method)), (ascii "params", .arr params)].map
        fun m => (m.1, m.2.value)) := rfl

theorem onLine_notice (hplain : Json.escape (ascii method) = ascii method)
    (hback : char '\\' ∉ (Written.str (ascii method)).text.val) (hlen : (ascii method).length < 64)
    (now : U64) : ∃ r, isDelim (deref r) = true ∧
      onLine s (Json.dumps (notice method (params.map Written.value))) now =
        let text := (Written.arr params).text.val ++ r
        if ascii method = ascii "mining.notify" then onNotify s text
        else if ascii method = ascii "mining.set_difficulty" then onSetDifficulty s text
        else if ascii method = ascii "mining.set_extranonce" then onSetExtranonce s text
        else if ascii method = ascii "client.reconnect" then onReconnect s text now
        else s := by
  let ms : List (List Byte × Written) := [(ascii "id", Written.null),
    (ascii "method", .str (ascii method)), (ascii "params", .arr params)]
  have hmethod : (writtenMembers ms).find? (fun m => m.key.val = ascii "method") =
      some (writtenMember blank (ascii "method", .str (ascii method))) := rfl
  have hparams : (writtenMembers ms).find? (fun m => m.key.val = ascii "params") =
      some (writtenMember blank (ascii "params", .arr params)) := rfl
  obtain ⟨r, -, hgetMethod⟩ := jsGet_written hmethod
  obtain ⟨r', hr', hgetParams⟩ := jsGet_written hparams
  have hstr : jsStr ((writtenMember blank (ascii "method", .str (ascii method))).value.val ++ r) 64 =
      (ascii method, true) :=
    (jsStr_value hback (by decide) r).mpr ⟨text_str hplain, hlen⟩
  refine ⟨r', hr', ?_⟩
  rw [notice_value, onLine, hgetMethod]
  dsimp only
  rw [hstr, hgetParams]
  rfl

end Notices

end Objects

theorem jsElem_written (ws : List Written) (r : List Byte) {i : Nat} {e : Element}
    (h : (writtenElements ws)[i]? = some e) : ∃ r', isDelim (deref r') = true ∧
      jsElem ((Written.arr ws).text.val ++ r) i = some (e.value.val ++ r') := by
  obtain ⟨a, ha, htext⟩ := isArray_text (isArray_dumps ws) noWhite r
  obtain ⟨r', hr', hget⟩ := jsElem_value a r i
  rw [ha, h] at hget
  refine ⟨r', hr', ?_⟩
  rw [htext] at hget
  exact hget

theorem back_hex (bs : List Byte) : char '\\' ∉ (Written.str (bin2hex bs)).text.val := by
  rw [text_str (escape_bin2hex bs), inQuotes]
  simp only [List.cons_append, List.mem_cons, List.mem_append, List.not_mem_nil, or_false, not_or]
  exact ⟨by decide, fun hmem => (bin2hex_plain bs _ hmem).2.2 rfl, by decide⟩

theorem back_dumpsElements {ws : List Written} (h : ∀ w ∈ ws, char '\\' ∉ w.text.val) :
    char '\\' ∉ Json.dumpsElements (ws.map Written.value) := by
  have hsep : char '\\' ∉ ascii ", " := by decide
  induction ws with
  | nil => exact List.not_mem_nil
  | cons w ws ih =>
    have hw : char '\\' ∉ Json.dumps w.value := h w List.mem_cons_self
    have hws := ih fun w hw => h w (List.mem_cons_of_mem _ hw)
    cases ws with
    | nil => exact hw
    | cons w' ws =>
      rw [List.map_cons, List.map_cons, Json.dumpsElements, ← List.map_cons]
      · simp only [List.mem_append, not_or]
        exact ⟨⟨hw, hsep⟩, hws⟩
      · simp

theorem back_arr {ws : List Written} (h : ∀ w ∈ ws, char '\\' ∉ w.text.val) :
    char '\\' ∉ (Written.arr ws).text.val := by
  change char '\\' ∉ Json.dumps (.arr (ws.map Written.value))
  rw [Json.dumps]
  simp only [List.cons_append, List.mem_cons, List.mem_append, List.not_mem_nil, or_false, not_or]
  exact ⟨by decide, back_dumpsElements h, by decide⟩

section Effects

variable (s : Stratum)

def subscription (en1 : List Byte) : List Written :=
  [.arr [.arr [.str (ascii "mining.notify"), .str (ascii "fixture")]], .str (bin2hex en1),
    decimal extranonce2Size]

def subscribedTo (en1 : List Byte) : Stratum :=
  { s with
    extranonce1 := overwrite s.extranonce1 en1
    en1Len := 4
    en2Size := extranonce2Size
    subscribed := true }

theorem onSubscribe_fixture {en1 : List Byte} (hlen : en1.length = 4) (r : List Byte) :
    onSubscribe s ((Written.arr (subscription en1)).text.val ++ r) = subscribedTo s en1 := by
  obtain ⟨r₁, -, hget₁⟩ : ∃ r', isDelim (deref r') = true ∧
      jsElem ((Written.arr (subscription en1)).text.val ++ r) 1 =
        some ((Written.str (bin2hex en1)).text.val ++ r') :=
    jsElem_written (subscription en1) r (e := (Written.str (bin2hex en1)).element blank) rfl
  obtain ⟨r₂, hr₂, hget₂⟩ : ∃ r', isDelim (deref r') = true ∧
      jsElem ((Written.arr (subscription en1)).text.val ++ r) 2 =
        some ((decimal extranonce2Size).text.val ++ r') :=
    jsElem_written (subscription en1) r (e := (decimal extranonce2Size).element blank) rfl
  have hhex : jsHex ((Written.str (bin2hex en1)).text.val ++ r₁) stratumMaxEn1 = (en1, true) := by
    rw [← hexUpTo_eq_some, hexUpTo_value (back_hex en1) (by decide)]
    exact ⟨hexOf_str en1, by rw [hlen]; decide⟩
  have hnum : jsNum ((decimal extranonce2Size).text.val ++ r₂) = .round extranonce2Size := by
    have hval := jsNum_number (Number.ofNat extranonce2Size) hr₂
    rwa [Number.val_ofNat] at hval
  have hrange : ¬ ((Double.round extranonce2Size).lt (.ofNat 1) = true ∨
      (Double.ofNat stratumMaxEn2).lt (.round extranonce2Size) = true) := by decide +kernel
  have hsize : (Double.round extranonce2Size).toU64.toNat = extranonce2Size := by decide +kernel
  rw [onSubscribe, hget₁, hget₂]
  simp only [hhex, hnum, hrange, hsize, hlen, Bool.not_true, Bool.false_eq_true, if_false]
  rfl

theorem onSetDifficulty_fixture (n : Number) (r : List Byte) :
    onSetDifficulty s ((Written.arr [.num n]).text.val ++ r) = { s with difficulty := .round n.val } := by
  obtain ⟨r', hr', hget⟩ : ∃ r', isDelim (deref r') = true ∧
      jsElem ((Written.arr [.num n]).text.val ++ r) 0 = some ((Written.num n).text.val ++ r') :=
    jsElem_written [.num n] r (e := (Written.num n).element noWhite) rfl
  have hnum : jsNum ((Written.num n).text.val ++ r') = .round n.val := jsNum_number n hr'
  rw [onSetDifficulty, hget]
  dsimp only
  rw [hnum]

def notifyParams (t : Template) (jobId : List Byte) : List Written :=
  [.str jobId, .str (bin2hex t.prevhash.toList), .str (bin2hex t.coinb1.toList), .str [], .arr [],
    .str [], .str poolNbits, .str poolNtime, .bool true]

def Template.stratumJob (t : Template) (jobId : List Byte) : StratumJob where
  jobId := jobId
  prevhash := t.prevhash
  coinb1 := t.coinb1.toList
  coinb2 := []
  branches := []
  ntime := Vector.replicate 8 0
  nbits := 0x1903c2d4
  clean := true
  seq := 0

variable {jobId : List Byte} (hplain : Json.escape jobId = jobId)
  (hback : char '\\' ∉ (Written.str jobId).text.val) (hlen : jobId.length < 64)
include hplain hlen

theorem notifies_fixture (t : Template) :
    Notifies (Written.arr (notifyParams t jobId)).text (t.stratumJob jobId) := by
  have hbits : bin2hex [0xd4#8, 0xc2#8, 0x03#8, 0x19#8] = poolNbits := by decide
  have htime : bin2hex (Vector.replicate 8 (0 : Byte)).toList = poolNtime := by decide
  have hnone : bin2hex [] = [] := rfl
  have hcb1 : t.coinb1.toList.length ≤ 512 := by simp
  refine ⟨_, isArray_dumps (notifyParams t jobId), Nat.le_refl 9, ?_, ?_, ?_, ?_, ?_, ?_, ?_, ?_⟩
  · exact ⟨_, rfl, text_str hplain, hlen⟩
  · exact ⟨_, rfl, hexOf_str t.prevhash.toList⟩
  · exact ⟨_, rfl, hexOf_str t.coinb1.toList, hcb1⟩
  · refine ⟨_, rfl, ?_, Nat.zero_le _⟩
    have hhex := hexOf_str []
    rwa [hnone] at hhex
  · exact ⟨_, [], rfl, isArray_dumps [], Nat.zero_le _, .nil⟩
  · refine ⟨_, #v[0xd4#8, 0xc2#8, 0x03#8, 0x19#8], rfl, ?_,
      show (0x1903c2d4 : U32) = leWord 32 [0xd4#8, 0xc2#8, 0x03#8, 0x19#8] by decide⟩
    have hhex := hexOf_str [0xd4#8, 0xc2#8, 0x03#8, 0x19#8]
    rwa [hbits] at hhex
  · refine ⟨_, rfl, ?_⟩
    have hhex := hexOf_str (Vector.replicate 8 (0 : Byte)).toList
    rwa [htime] at hhex
  · exact ⟨_, rfl, rfl⟩

include hback

theorem onNotify_fixture (t : Template) (r : List Byte) :
    onNotify s ((Written.arr (notifyParams t jobId)).text.val ++ r) =
      { s with
        job := { t.stratumJob jobId with seq := s.job.seq + 1 }
        haveJob := true
        jobsReceived := s.jobsReceived + 1 } := by
  have hhex (bs : List Byte) (text : List Byte) (h : bin2hex bs = text) :
      char '\\' ∉ (Written.str text).text.val := by
    rw [← h]
    exact back_hex bs
  have hparams : char '\\' ∉ (Written.arr (notifyParams t jobId)).text.val := by
    refine back_arr fun w hw => ?_
    simp only [notifyParams, List.mem_cons, List.not_mem_nil, or_false] at hw
    obtain rfl | rfl | rfl | rfl | rfl | rfl | rfl | rfl | rfl := hw
    · exact hback
    · exact back_hex _
    · exact back_hex _
    · exact hhex [] [] rfl
    · exact back_arr fun w hw => absurd hw List.not_mem_nil
    · exact hhex [] [] rfl
    · exact hhex [0xd4#8, 0xc2#8, 0x03#8, 0x19#8] _ (by decide)
    · exact hhex (List.replicate 8 0) _ (by decide)
    · decide
  have hparse : parseJob ((Written.arr (notifyParams t jobId)).text.val ++ r) =
      some (t.stratumJob jobId) :=
    (parseJob_iff hparams noWhite r _).mpr ⟨notifies_fixture hplain hlen t, rfl⟩
  rw [onNotify, parseNotify, hparse]
  rfl

end Effects

inductive Resp where
  | subscribed (id : U64) (extranonce1 : List Byte)
  | authorized (id : U64)
  | difficulty (n : Number)
  | job (t : Template)
  | suggested (id : U64)
  | ruled (id : U64) (accepted : Bool)

def Resp.json : Resp → Json
  | .subscribed id extranonce1 =>
    reply (some (.num (dec id.toNat))) (Written.arr (subscription extranonce1)).value .null
  | .authorized id => reply (some (.num (dec id.toNat))) (.bool true) .null
  | .difficulty n => notice "mining.set_difficulty" [.num n.text]
  | .job t => t.notify (jobName 1)
  | .suggested id => reply (some (.num (dec id.toNat))) (.bool false) .null
  | .ruled id accepted => ruling id accepted

def Resp.apply (s : Stratum) : Resp → Stratum
  | .subscribed _ extranonce1 => subscribedTo s extranonce1
  | .authorized _ => { s with authorized := true }
  | .difficulty n => { s with difficulty := .round n.val }
  | .job t =>
    { s with
      job := { t.stratumJob (jobName 1) with seq := s.job.seq + 1 }
      haveJob := true
      jobsReceived := s.jobsReceived + 1 }
  | .suggested _ => s
  | .ruled _ true => { s with sharesAccepted := s.sharesAccepted + 1 }
  | .ruled _ false => { s with sharesRejected := s.sharesRejected + 1 }

/-- The ids of the handshake on the connection in use, and the last one given. -/
structure HandshakeIds (s : Stratum) : Prop where
  sub : s.subId < s.authId
  auth : s.authId < s.suggestDiffId
  exact : s.suggestDiffId.toNat < 2 ^ 53
  last : s.suggestDiffId ≤ s.nextId

def Resp.Fits (s : Stratum) : Resp → Prop
  | .subscribed id extranonce1 => id = s.subId ∧ extranonce1.length = 4
  | .authorized id => id = s.authId
  | .suggested id => id = s.suggestDiffId
  | .ruled id _ => s.suggestDiffId < id ∧ id ≤ s.nextId
  | _ => True

section Heard

variable {s : Stratum} (hids : HandshakeIds s)
include hids

theorem HandshakeIds.unclaimed {id : U64} (hlate : s.suggestDiffId < id) (hissued : id ≤ s.nextId) :
    ¬ s.ids.Claims (Double.round id.toNat).toU64 := by
  have hfresh : Fresh s.ids [(id, .submit)] := by
    refine ⟨hids.sub, hids.auth, hids.exact, hids.last, ?_, ?_, List.nodup_singleton _⟩
    · intro p hp
      rw [List.mem_singleton.mp hp]
      exact hlate
    · intro p hp
      rw [List.mem_singleton.mp hp]
      exact hissued
  rw [hfresh.claims_iff (List.mem_singleton_self _)]
  exact fun h => h rfl

theorem HandshakeIds.exact_ids : (Double.round s.subId.toNat).toU64 = s.subId ∧
    (Double.round s.authId.toNat).toU64 = s.authId ∧
    (Double.round s.suggestDiffId.toNat).toU64 = s.suggestDiffId := by
  obtain ⟨hsub, hauth, hexact, -⟩ := hids
  rw [BitVec.lt_def] at hsub hauth
  exact ⟨Double.toU64_round _ (by omega), Double.toU64_round _ (by omega),
    Double.toU64_round _ hexact⟩

theorem HandshakeIds.distinct : s.authId ≠ s.subId ∧ s.suggestDiffId ≠ s.subId ∧
    s.suggestDiffId ≠ s.authId := by
  obtain ⟨hsub, hauth, -, -⟩ := hids
  rw [BitVec.lt_def] at hsub hauth
  have hne {a b : U64} (hab : a.toNat ≠ b.toNat) : a ≠ b := fun heq => hab (congrArg _ heq)
  exact ⟨hne (by omega), hne (by omega), hne (by omega)⟩

theorem onLine_resp {r : Resp} (hr : r.Fits s) (now : U64) :
    onLine s (Json.dumps r.json) now = r.apply s := by
  obtain ⟨hsub, hauth, hsug⟩ := hids.exact_ids
  obtain ⟨hne₁, hne₂, hne₃⟩ := hids.distinct
  cases r with
  | subscribed id extranonce1 =>
    obtain ⟨rfl, hlen⟩ := hr
    obtain ⟨r, -, hline⟩ := onLine_reply s s.subId (.arr (subscription extranonce1)) .null now
    have hopen : deref (jsWs ((Written.arr (subscription extranonce1)).text.val ++ r)) = char '[' := by
      rw [jsWs_head (value_head (Written.arr (subscription extranonce1)).text.property r)]
      rfl
    change onLine s (Json.dumps (reply _ (Written.arr (subscription extranonce1)).value
      Written.null.value)) now = _
    rw [hline, if_pos hsub, if_pos hopen, onSubscribe_fixture s hlen]
    rfl
  | authorized id =>
    obtain rfl : id = s.authId := hr
    obtain ⟨r, -, hline⟩ := onLine_reply s s.authId (.bool true) .null now
    change onLine s (Json.dumps (reply _ (Written.bool true).value Written.null.value)) now = _
    rw [hline, hauth, if_neg hne₁, if_pos rfl]
    rfl
  | difficulty n =>
    obtain ⟨r, -, hline⟩ := onLine_notice s "mining.set_difficulty" [.num n] (by decide +kernel)
      (by decide +kernel) (by decide) now
    change onLine s (Json.dumps (notice _ ([Written.num n].map Written.value))) now = _
    rw [hline]
    dsimp only
    rw [if_neg (by decide), if_pos rfl, onSetDifficulty_fixture]
    rfl
  | job t =>
    obtain ⟨r, -, hline⟩ := onLine_notice s "mining.notify" (notifyParams t (jobName 1))
      (by decide +kernel) (by decide +kernel) (by decide) now
    change onLine s (Json.dumps (notice _ ((notifyParams t (jobName 1)).map Written.value))) now = _
    rw [hline]
    dsimp only
    rw [if_pos rfl, onNotify_fixture s (by decide +kernel) (by decide +kernel) (by decide)]
    rfl
  | suggested id =>
    obtain rfl : id = s.suggestDiffId := hr
    obtain ⟨r, -, hline⟩ := onLine_reply s s.suggestDiffId (.bool false) .null now
    change onLine s (Json.dumps (reply _ (Written.bool false).value Written.null.value)) now = _
    rw [hline, hsug, if_neg hne₂, if_neg hne₃, if_pos rfl]
    rfl
  | ruled id accepted =>
    obtain ⟨hlate, hissued⟩ := hr
    have hno := hids.unclaimed hlate hissued
    have hno₁ : (Double.round id.toNat).toU64 ≠ s.subId := fun h => hno (.inl h)
    have hno₂ : (Double.round id.toNat).toU64 ≠ s.authId := fun h => hno (.inr (.inl h))
    have hno₃ : (Double.round id.toNat).toU64 ≠ s.suggestDiffId := fun h => hno (.inr (.inr h))
    cases accepted with
    | true =>
      obtain ⟨r, -, hline⟩ := onLine_reply s id (.bool true) .null now
      change onLine s (Json.dumps (reply _ (Written.bool true).value Written.null.value)) now = _
      have htrue : (Written.bool true).text.val = ascii "true" := rfl
      rw [hline, if_neg hno₁, if_neg hno₂, if_neg hno₃, if_pos htrue]
      rfl
    | false =>
      obtain ⟨r, -, hline⟩ := onLine_reply s id (.bool false)
        (.arr [decimal 23, .str (ascii "LowDifficultyShare"), .null]) now
      have hfault : (Written.arr [decimal 23, .str (ascii "LowDifficultyShare"), .null]).value =
          fault 23 (ascii "LowDifficultyShare") := by
        rw [fault, ← decimal_value]
        rfl
      rw [hfault] at hline
      have hfalse : (Written.bool false).text.val ≠ ascii "true" := by decide
      change onLine s (Json.dumps (reply _ (Written.bool false).value
        (fault 23 (ascii "LowDifficultyShare")))) now = _
      rw [hline, if_neg hno₁, if_neg hno₂, if_neg hno₃, if_neg hfalse]
      rfl

end Heard

end OspreyBlake2b.Zynq
