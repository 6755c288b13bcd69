import OspreyBlake2b.Miner.CheckedLineLaws

namespace OspreyBlake2b.Miner.Checked

open OspreyBlake2b.Lib

variable {t : CString} {s : List Byte}

theorem run_bind {x : OptionT (Except Fault) A} {a : Option C} {h : C → A}
    (hx : x.run = .ok (a.map h)) {f : A → OptionT (Except Fault) B} {g : C → Option B}
    (hf : ∀ v, a = some v → (f (h v)).run = .ok (g v)) : (x >>= f).run = .ok (a >>= g) := by
  rw [OptionT.run_bind, hx]
  cases a with
  | none => rfl
  | some v => exact hf v rfl

theorem run_seq {x : OptionT (Except Fault) A} {a : Option A} (hx : x.run = .ok a)
    {f : A → OptionT (Except Fault) B} {g : A → Option B}
    (hf : ∀ v, a = some v → (f v).run = .ok (g v)) : (x >>= f).run = .ok (a >>= g) :=
  run_bind (h := id) (hx.trans (by rw [Option.map_id_apply])) hf

theorem run_lift {x : Except Fault A} {a : A} (hx : x = .ok a)
    (f : A → OptionT (Except Fault) B) : ((liftM x : OptionT (Except Fault) A) >>= f).run = (f a).run := by
  rw [hx]
  rfl

theorem run_guard (p : Prop) [Decidable p] {f : Unit → OptionT (Except Fault) B}
    {g : Unit → Option B} (hf : p → (f ()).run = .ok (g ())) :
    (guard p >>= f).run = .ok (guard p >>= g) := by
  by_cases hp : p
  · simpa [guard, hp] using hf hp
  · simp [guard, hp]

theorem hexExact_eq (hs : s <:+ t.text) (n : Nat) :
    (hexExact t (t.pos s) n).run = .ok (Miner.hexExact s n) := by
  rw [hexExact, run_lift (jsHex_eq hs n), Miner.hexExact]
  generalize Miner.jsHex s n = r
  obtain ⟨out, ok⟩ := r
  cases ok
  · rfl
  · rfl

theorem hexUpTo_eq (hs : s <:+ t.text) (maxlen : Nat) :
    (hexUpTo t (t.pos s) maxlen).run = .ok (Miner.hexUpTo s maxlen) := by
  rw [hexUpTo, run_lift (jsHex_eq hs maxlen), Miner.hexUpTo]
  generalize Miner.jsHex s maxlen = r
  obtain ⟨out, ok⟩ := r
  cases ok
  · rfl
  · rfl

def branchAt (pBr : List Byte) (i : Nat) : Option (Vector Byte 32) := do
  let e ← Miner.jsElem pBr i
  Miner.hexExact e 32

theorem branchLoop_eq (hs : s <:+ t.text) (n : Nat) {branches : List (Vector Byte 32)}
    (h : branches.length + n ≤ stratumMaxBranches) :
    (branchLoop t (t.pos s) n branches).run =
      .ok (((List.range' branches.length n).mapM (branchAt s)).map (branches ++ ·)) := by
  induction n generalizing branches with
  | zero => simp [branchLoop]
  | succ n ih =>
    have hat := jsElem_at hs branches.length branches.length rfl
    have hstep : (branchLoop t (t.pos s) (n + 1) branches).run =
        .ok (do
          let e ← Miner.jsElem s branches.length
          let b ← Miner.hexExact e 32
          ((List.range' (branches.length + 1) n).mapM (branchAt s)).map ((branches ++ [b]) ++ ·)) := by
      rw [branchLoop]
      refine run_bind hat fun e he => ?_
      refine run_seq (hexExact_eq ((jsElem_suffix he).trans hs) 32) fun b _ => ?_
      have hlen : (branches ++ [b]).length = branches.length + 1 := by simp
      rw [run_lift (store_ok (by omega) b), ih (by omega), hlen]
    rw [hstep, List.range'_succ, List.mapM_cons, branchAt]
    cases Miner.jsElem s branches.length with
    | none => rfl
    | some e =>
      simp only [Option.bind_eq_bind, Option.bind_some]
      cases Miner.hexExact e 32 with
      | none => rfl
      | some b =>
        cases (List.range' (branches.length + 1) n).mapM (branchAt s) with
        | none => rfl
        | some bs => simp

theorem onSubscribe_eq (hs : s <:+ t.text) (st : Stratum) :
    onSubscribe t st (t.pos s) = .ok (Miner.onSubscribe st s) := by
  rw [onSubscribe, jsElem_at hs 1 1 rfl, Fault.ok_bind, jsElem_at hs 2 2 rfl, Fault.ok_bind,
    Miner.onSubscribe]
  cases hen1 : Miner.jsElem s 1 with
  | none => rfl
  | some en1 =>
    cases hsz : Miner.jsElem s 2 with
    | none => rfl
    | some sz =>
      have hlen := jsHex_length en1 stratumMaxEn1
      simp only [Option.map_some, jsHex_eq ((jsElem_suffix hen1).trans hs), Fault.ok_bind]
      generalize Miner.jsHex en1 stratumMaxEn1 = r at hlen
      obtain ⟨out, ok⟩ := r
      have hcap : 2 * ((overwrite st.extranonce1 out).take out.length).length <
          2 * stratumMaxEn1 + 1 := by
        have := List.length_take_le out.length (overwrite st.extranonce1 out)
        dsimp only at hlen
        omega
      simp only [jsNum_eq ((jsElem_suffix hsz).trans hs), Fault.ok_bind, Stratum.en1,
        bin2hex_eq hcap]
      split_ifs <;> rfl

theorem branches_eq (hs : s <:+ t.text) {nb : Int} (h : nb ≤ stratumMaxBranches) :
    (branchLoop t (t.pos s) nb.toNat []).run =
      .ok ((List.range nb.toNat).mapM fun i => do
        let e ← Miner.jsElem s i
        Miner.hexExact e 32) := by
  rw [branchLoop_eq hs _ (by simp only [List.length_nil]; omega), List.length_nil,
    ← List.range_eq_range']
  simp only [List.nil_append, Option.map_id']
  rfl

theorem parseJob_eq (hs : s <:+ t.text) :
    parseJob t (t.pos s) = .ok (Miner.parseJob s) := by
  rw [parseJob, jsCount_eq hs, Fault.ok_bind, Miner.parseJob]
  by_cases hn : Miner.jsCount s < 9
  · have hguard : (guard (Miner.jsCount s ≥ 9) : Option Unit) = none := if_neg (not_le.mpr hn)
    rw [if_pos hn, hguard]
    rfl
  have hat (i : Int) (k : Nat) (h : i = k) := jsElem_at hs i k h
  rw [if_neg hn, hat 0 0 rfl, Fault.ok_bind, hat 1 1 rfl, Fault.ok_bind, hat 2 2 rfl,
    Fault.ok_bind, hat 3 3 rfl, Fault.ok_bind, hat 4 4 rfl, Fault.ok_bind, hat 6 6 rfl,
    Fault.ok_bind, hat 7 7 rfl, Fault.ok_bind, hat 8 8 rfl, Fault.ok_bind, parseParams]
  have hguard : (guard (Miner.jsCount s ≥ 9) : Option Unit) = some () := if_pos (not_lt.mp hn)
  rw [hguard, Option.bind_eq_bind, Option.bind_some]
  refine run_bind rfl fun pJob hJob => ?_
  refine run_bind rfl fun pPrev hPrev => ?_
  refine run_bind rfl fun pCb1 hCb1 => ?_
  refine run_bind rfl fun pCb2 hCb2 => ?_
  refine run_bind rfl fun pBr hBr => ?_
  refine run_bind rfl fun pBits hBits => ?_
  refine run_bind rfl fun pNtime hNtime => ?_
  have hin {k : Nat} {p : List Byte} (h : Miner.jsElem s k = some p) : p <:+ t.text :=
    (jsElem_suffix h).trans hs
  rw [run_lift (jsStr_eq (hin hJob) (.inl (by decide)))]
  obtain ⟨jobId, ok⟩ := Miner.jsStr pJob 64
  refine run_guard _ fun _ => ?_
  refine run_seq (hexExact_eq (hin hPrev) 32) fun prevhash _ => ?_
  refine run_seq (hexUpTo_eq (hin hCb1) _) fun coinb1 _ => ?_
  refine run_seq (hexUpTo_eq (hin hCb2) _) fun coinb2 _ => ?_
  rw [run_lift (jsCount_eq (hin hBr))]
  refine run_guard _ fun hnb => ?_
  refine run_seq (branches_eq (hin hBr) hnb.2) fun branches _ => ?_
  refine run_seq (hexExact_eq (hin hNtime) 8) fun ntime _ => ?_
  refine run_seq (hexExact_eq (hin hBits) 4) fun bits _ => ?_
  cases hClean : Miner.jsElem s 8 with
  | none => rfl
  | some v =>
    simp only [Option.map_some]
    rw [run_lift (jsTrue_eq (hin hClean))]
    rfl

theorem onNotify_eq (hs : s <:+ t.text) (st : Stratum) :
    onNotify t st (t.pos s) = .ok (Miner.onNotify st s) := by
  rw [onNotify, parseJob_eq hs, Fault.ok_bind, Miner.onNotify, parseNotify]
  cases Miner.parseJob s with
  | none => rfl
  | some j => rfl

theorem onSetDifficulty_eq (hs : s <:+ t.text) (st : Stratum) :
    onSetDifficulty t st (t.pos s) = .ok (Miner.onSetDifficulty st s) := by
  rw [onSetDifficulty, jsElem_at hs 0 0 rfl, Fault.ok_bind, Miner.onSetDifficulty]
  cases hd : Miner.jsElem s 0 with
  | none => rfl
  | some d =>
    simp only [Option.map_some, jsNum_eq ((jsElem_suffix hd).trans hs), Fault.ok_bind]
    rfl

theorem newSize_eq (hs : s <:+ t.text) (st : Stratum) (i : Nat) :
    newSize t st ((Miner.jsElem s i).map t.pos) =
      .ok (match Miner.jsElem s i with
        | none => st.en2Size
        | some z =>
          let n := Miner.jsNum z
          if (Double.ofNat 1).le n ∧ n.le (.ofNat stratumMaxEn2) then n.toU64.toNat
          else st.en2Size) := by
  cases hz : Miner.jsElem s i with
  | none => rfl
  | some z =>
    simp only [Option.map_some, newSize, jsNum_eq ((jsElem_suffix hz).trans hs), Fault.ok_bind]
    split_ifs <;> rfl

theorem onSetExtranonce_eq (hs : s <:+ t.text) (st : Stratum) :
    onSetExtranonce t st (t.pos s) = .ok (Miner.onSetExtranonce st s) := by
  rw [onSetExtranonce, jsElem_at hs 0 0 rfl, Fault.ok_bind, jsElem_at hs 1 1 rfl, Fault.ok_bind,
    Miner.onSetExtranonce]
  cases he : Miner.jsElem s 0 with
  | none => rfl
  | some e =>
    simp only [Option.map_some, jsHex_eq ((jsElem_suffix he).trans hs), Fault.ok_bind,
      newSize_eq hs]
    split_ifs <;> rfl

theorem newWait_eq (hs : s <:+ t.text) (i : Nat) :
    newWait t ((Miner.jsElem s i).map t.pos) =
      .ok (match Miner.jsElem s i with
        | some w => Miner.jsNum w
        | none => .fin 0) := by
  cases hw : Miner.jsElem s i with
  | none => rfl
  | some w => exact jsNum_eq ((jsElem_suffix hw).trans hs)

theorem newPort_eq (hs : s <:+ t.text) (st : Stratum) (i : Nat) :
    newPort t st ((Miner.jsElem s i).map t.pos) =
      .ok (match Miner.jsElem s i with
        | some p => (Miner.jsNum p).toInt
        | none => st.port) := by
  cases hp : Miner.jsElem s i with
  | none => rfl
  | some p =>
    simp only [Option.map_some, newPort, jsNum_eq ((jsElem_suffix hp).trans hs)]
    rfl

theorem onReconnect_eq (hs : s <:+ t.text) (st : Stratum) (now : U64) :
    onReconnect t st (t.pos s) now = .ok (Miner.onReconnect st s now) := by
  rw [onReconnect, jsElem_at hs 0 0 rfl, Fault.ok_bind, jsElem_at hs 1 1 rfl, Fault.ok_bind,
    jsElem_at hs 2 2 rfl, Fault.ok_bind, newWait_eq hs, Fault.ok_bind, Miner.onReconnect]
  cases hh : Miner.jsElem s 0 with
  | none => rfl
  | some h =>
    have hstr := jsStr_eq ((jsElem_suffix hh).trans hs) (.inl (show 0 < 128 by decide))
    simp only [Option.map_some, hstr, newPort_eq hs, Fault.ok_bind]
    obtain ⟨out, ok⟩ := Miner.jsStr h 128
    cases ok
    · rfl
    · rfl

theorem jsGet_line (key : String) :
    jsGet t 0 key = .ok ((Miner.jsGet t.text key).map t.pos) := by
  have h := jsGet_eq (t := t) List.suffix_rfl key
  rwa [CString.pos_text] at h

theorem isArray_eq (hs : s <:+ t.text) :
    isArray t (some (t.pos s)) = .ok (deref (Miner.jsWs s) = char '[') := by
  rw [isArray, jsWs_read hs]
  rfl

theorem rejectReason_eq (key : String) :
    rejectReason t ((Miner.jsGet t.text key).map t.pos) = .ok () := by
  cases he : Miner.jsGet t.text key with
  | none => rfl
  | some e =>
    replace he := jsGet_suffix he
    simp only [rejectReason, Option.map_some, isArray_eq he, Fault.ok_bind, jsElem_at he 1 1 rfl]
    split_ifs
    · cases hmsg : Miner.jsElem e 1 with
      | none => rfl
      | some msg =>
        have hstr := jsStr_eq ((jsElem_suffix hmsg).trans he) (.inl (show 0 < 128 by decide))
        simp only [Option.map_some, hstr]
        rfl
    · rfl

theorem onReply_eq (st : Stratum) : onReply t st = .ok (Miner.onReply st t.text) := by
  rw [onReply, jsGet_line, Fault.ok_bind, Miner.onReply]
  cases hid : Miner.jsGet t.text "id" with
  | none => rfl
  | some idv =>
    simp only [Option.map_some, jsNum_eq (jsGet_suffix hid), jsGet_line, Fault.ok_bind]
    cases hres : Miner.jsGet t.text "result" with
    | none =>
      simp only [Option.map_none, isTrue, Fault.pure_eq, Fault.ok_bind, rejectReason_eq]
      split_ifs <;> rfl
    | some r =>
      have hr := jsGet_suffix hres
      simp only [Option.map_some, isTrue, jsTrue_eq hr, isArray_eq hr, Fault.ok_bind,
        decide_eq_true_eq, onSubscribe_eq hr, rejectReason_eq]
      split_ifs <;> rfl

theorem onLine_eq (st : Stratum) (now : U64) :
    onLine t st now = .ok (Miner.onLine st t.text now) := by
  rw [onLine, jsGet_line, Fault.ok_bind, Miner.onLine]
  cases hmeth : Miner.jsGet t.text "method" with
  | none => exact onReply_eq st
  | some meth =>
    have hstr := jsStr_eq (jsGet_suffix hmeth) (.inl (show 0 < 64 by decide))
    simp only [Option.map_some, hstr, Fault.ok_bind, jsGet_line]
    obtain ⟨m, ok⟩ := Miner.jsStr meth 64
    cases hparams : Miner.jsGet t.text "params" with
    | none => split_ifs <;> rfl
    | some params =>
      have hp := jsGet_suffix hparams
      simp only [Option.map_some, onNotify_eq hp, onSetDifficulty_eq hp, onSetExtranonce_eq hp,
        onReconnect_eq hp]
      split_ifs <;> rfl

/-- A walk from position `p` ends, reads nothing behind the NUL, and returns NULL or a
position between `p` and the NUL. -/
def Inside (t : CString) (p : Nat) (walk : Except Fault (Option Nat)) : Prop :=
  ∃ o, walk = .ok o ∧ ∀ q ∈ o, p ≤ q ∧ q ≤ t.text.length

/-- The parsers on the value at `p`, for one key, index and output size, and `on_line` on
the whole line: no call ends with a `Fault`. -/
structure StaysInside (t : CString) (p : Nat) (key : String) (idx : Int) (outlen : Nat) :
    Prop where
  skip : Inside t p (jsSkip t p)
  get : Inside t p (jsGet t p key)
  elem : Inside t p (jsElem t p idx)
  count : ∃ n, jsCount t p = .ok n
  str : ∃ r, jsStr t p outlen = .ok r
  hex : ∃ r, jsHex t p outlen = .ok r
  line : ∀ s now, ∃ s', onLine t s now = .ok s'

theorem inside_of_suffix {p : Nat} (hp : p ≤ t.text.length) {walk : Except Fault (Option Nat)}
    {o : Option (List Byte)} (hwalk : walk = .ok (o.map t.pos))
    (hsuffix : ∀ s ∈ o, s <:+ t.text.drop p) : Inside t p walk := by
  refine ⟨_, hwalk, fun q hq => ?_⟩
  obtain ⟨s, hs, rfl⟩ := Option.map_eq_some_iff.mp hq
  have hle := CString.pos_le_pos (t := t) (hsuffix s hs)
  rw [CString.pos_drop hp] at hle
  exact ⟨hle, CString.pos_le s⟩

theorem inside_walks {p : Nat} (hp : p ≤ t.text.length) (key : String) (idx : Int) :
    Inside t p (jsSkip t p) ∧ Inside t p (jsGet t p key) ∧ Inside t p (jsElem t p idx) := by
  have hs := List.drop_suffix p t.text
  have hpos := CString.pos_drop hp
  refine ⟨?_, ?_, ?_⟩
  · refine inside_of_suffix hp (o := Miner.jsSkip (t.text.drop p)) ?_ fun s h => (jsSkip_behind h).1
    rw [← jsSkip_eq hs, hpos]
  · refine inside_of_suffix hp (o := Miner.jsGet (t.text.drop p) key) ?_ fun s h => jsGet_suffix h
    rw [← jsGet_eq hs, hpos]
  · have h := jsElem_eq hs idx
    rw [hpos] at h
    split_ifs at h
    · exact ⟨none, h, fun q hq => by cases hq⟩
    · exact inside_of_suffix hp h fun s h => jsElem_suffix h

/-- The room for the NUL is looked at only before a character is copied. -/
theorem stays_inside_iff {t : CString} {p : Nat} (hp : p ≤ t.text.length) (key : String) (idx : Int)
    (outlen : Nat) :
    StaysInside t p key idx outlen ↔ 0 < outlen ∨ emptyString (t.text.drop p) = false := by
  have hs := List.drop_suffix p t.text
  have hpos := CString.pos_drop hp
  constructor
  · intro h
    by_contra hno
    rw [not_or, Bool.not_eq_false, Nat.not_lt, Nat.le_zero] at hno
    obtain ⟨rfl, hempty⟩ := hno
    obtain ⟨r, hr⟩ := h.str
    have hover := jsStr_overrun hs hempty
    rw [hpos, hr] at hover
    cases hover
  · intro hroom
    obtain ⟨hskip, hget, helem⟩ := inside_walks hp key idx
    have hcount := jsCount_eq hs
    have hstr := jsStr_eq hs hroom
    have hhex := jsHex_eq hs outlen
    rw [hpos] at hcount hstr hhex
    exact ⟨hskip, hget, helem, ⟨_, hcount⟩, ⟨_, hstr⟩, ⟨_, hhex⟩, fun s now => ⟨_, onLine_eq s now⟩⟩

theorem stays_inside_cut :
    StaysInside ⟨ascii "\x7b\"id\":\"\\", by decide⟩ 6 "id" 2 1 :=
  (stays_inside_iff (by decide) "id" 2 1).mpr (.inl (by decide))

theorem js_str_overruns_empty :
    ¬ StaysInside ⟨ascii "\"\"", by decide⟩ 0 "id" 0 0 := by
  rintro ⟨-, -, -, -, ⟨r, hr⟩, -, -⟩
  have hfault : jsStr ⟨ascii "\"\"", by decide⟩ 0 0 = .error (.write 0) := by decide
  rw [hfault] at hr
  cases hr

end OspreyBlake2b.Miner.Checked
