import OspreyBlake2b.Miner.DevfeeLaws

/-! The extranonce2 that `build_from` rolls: one counter for both sessions, cut to
the size the pool asks for.  A run is watched together with its `build_from` calls. -/

namespace OspreyBlake2b.Miner

open OspreyBlake2b.Lib OspreyBlake2b.Lib.Machine

structure BuildCall where
  src : Worksrc
  sess : Sess
  isDev : Bool

def BuildCall.result (b : BuildCall) : Worksrc × Option WorkCtx := buildFrom b.src b.sess b.isDev

def BuildCall.session (b : BuildCall) : Stratum := b.src.session b.sess

def BuildCall.size (b : BuildCall) : Nat := en2Len b.session

def BuildCall.en2 (b : BuildCall) : List Byte := b.result.1.cur.en2

def buildCalls (g : Worksrc) (now : U64) : List BuildCall :=
  if due g now then
    let (devfee, wantDev) := devfeePoolEpoch g.devfee
    let g := g.setDevfee devfee
    if wantDev then
      let g' := (tryDevWork g).1
      let fallBack : BuildCall := ⟨g'.setDevfee (devfeePoolSkip g'.devfee), .main, false⟩
      if g.devConfigured ∧ stratumReady g.dev then
        if (tryDevWork g).2.isSome then [⟨g, .dev, true⟩] else [⟨g, .dev, true⟩, fallBack]
      else [fallBack]
    else [⟨g, .main, false⟩]
  else []

/-- What may happen between two calls, and `work`, a call of `st_get_work`. -/
inductive Turn where
  | line (x : Sess) (text : List Byte) (now : U64)
  | lost (x : Sess)
  | dial (x : Sess) (now : U64) (env : DialEnv)
  | candidate (ctx : WorkCtx) (nonce hashTop64 : U64) (sendOk : Bool)
  | work (now : U64)

def Worksrc.turn (g : Worksrc) : Turn → Worksrc
  | .line x text now => g.setSession x (onLine (g.session x) text now)
  | .lost x => g.setSession x (drop (g.session x))
  | .dial x now env => g.setSession x (Miner.dial (g.session x) now env).session
  | .candidate ctx nonce hashTop64 sendOk => (stOnCandidate g ctx nonce hashTop64 sendOk).1
  | .work now => (stGetWork g now).1

def Turn.calls (g : Worksrc) : Turn → List BuildCall
  | .work now => buildCalls g now
  | _ => []

structure Rolling where
  src : Worksrc
  calls : List BuildCall

def Rolling.step (w : Rolling) (t : Turn) : Rolling := ⟨w.src.turn t, w.calls ++ t.calls w.src⟩

def rollingInit (g : Worksrc) : Rolling := ⟨g, []⟩

/-- The messages of an item whose arbitrary transaction has `en2` between the
extranonce1 and the second part of the coinbase. -/
def Carries (g : Worksrc) (x : Sess) (en2 : List Byte) (ctx : WorkCtx) : Prop :=
  let s := g.session x
  let arbtx := s.job.coinb1 ++ s.en1 ++ en2 ++ s.job.coinb2
  arbtx.length ≤ 4 * stratumMaxCb ∧
    ctx.ss4 = headerOf s.job (siaMerkleRoot s.job (siaArbtxLeaf arbtx)) ∧
    (g.chain = .knots → ctx.ss3 = [0x00#8] ++ arbtx)

section Counter

theorem en2Bytes_eq (len : Nat) (c : U64) : en2Bytes len c = (leBytes len c).reverse := by
  apply List.ext_getElem (by simp [en2Bytes])
  intro k hk _
  rw [en2Bytes_length] at hk
  simp only [en2Bytes, leBytes, List.getElem_map, List.getElem_range, List.getElem_reverse,
    List.length_map, List.length_range]
  split
  · rfl
  · -- every byte above the counter is zero
    rename_i hi
    apply BitVec.eq_of_toNat_eq
    rw [BitVec.toNat_setWidth, BitVec.toNat_ushiftRight, Nat.shiftRight_eq_div_pow,
      Nat.div_eq_of_lt]
    · rfl
    · exact Nat.lt_of_lt_of_le c.isLt (Nat.pow_le_pow_right (by decide) (by omega))

theorem en2Bytes_inj {len : Nat} {c c' : U64} :
    en2Bytes len c = en2Bytes len c' ↔
      c.toNat % 256 ^ min 8 len = c'.toNat % 256 ^ min 8 len := by
  have hcut (d : U64) : d.toNat % 256 ^ len = d.toNat % 256 ^ min 8 len := by
    rcases Nat.le_total 8 len with h | h
    · have hlt : d.toNat < 256 ^ 8 := d.isLt
      rw [Nat.min_eq_left h, Nat.mod_eq_of_lt hlt,
        Nat.mod_eq_of_lt (Nat.lt_of_lt_of_le hlt (Nat.pow_le_pow_right (by decide) h))]
    · rw [Nat.min_eq_right h]
  rw [en2Bytes_eq, en2Bytes_eq, List.reverse_inj, ← hcut, ← hcut, ← leVal_leBytes, ← leVal_leBytes]
  exact ⟨fun h => congrArg leVal h, leVal_inj (by simp)⟩

theorem en2Bytes_ne {len d : Nat} {c : U64} (hpos : 0 < d) (hd : d < 256 ^ min 8 len) :
    en2Bytes len (c + BitVec.ofNat 64 d) ≠ en2Bytes len c := by
  rw [ne_eq, en2Bytes_inj, BitVec.toNat_add, BitVec.toNat_ofNat]
  have hdvd : 256 ^ min 8 len ∣ 2 ^ 64 := by
    rw [show 2 ^ 64 = 256 ^ 8 by rfl]
    exact Nat.pow_dvd_pow _ (Nat.min_le_left _ _)
  rw [Nat.mod_mod_of_dvd _ hdvd, Nat.add_mod, Nat.mod_mod_of_dvd _ hdvd, Nat.mod_eq_of_lt hd]
  intro h
  have hlt := Nat.mod_lt c.toNat (Nat.lt_trans hpos hd)
  generalize c.toNat % 256 ^ min 8 len = r at h hlt
  generalize 256 ^ min 8 len = n at h hlt hd
  rcases Nat.lt_or_ge (r + d) n with hsmall | hbig
  · rw [Nat.mod_eq_of_lt hsmall] at h
    omega
  · rw [Nat.mod_eq_sub_mod hbig, Nat.mod_eq_of_lt (by omega)] at h
    omega

end Counter

section Calls

theorem carries_of_messages {g : Worksrc} {x : Sess} {en2 : List Byte} {ctx : WorkCtx}
    (h : buildMessages g.chain (g.session x).job (g.session x).en1 en2 = some (ctx.ss3, ctx.ss4)) :
    Carries g x en2 ctx := by
  rw [Carries]
  generalize g.session x = s at h ⊢
  have hfit := ((buildMessages_isSome g.chain s.job s.en1 en2).mp (by rw [h]; rfl)).1
  have harb : siaArbtx s.job s.en1 en2 (4 * stratumMaxCb) =
      some (s.job.coinb1 ++ s.en1 ++ en2 ++ s.job.coinb2) := by
    rw [siaArbtx, if_neg (by omega)]
  refine ⟨by simpa [Nat.add_assoc] using hfit, ?_⟩
  cases hc : g.chain with
  | sia =>
    rw [hc] at h
    simp only [buildMessages, siaBuildHeader, harb, Option.bind_eq_bind, Option.bind_some,
      Option.pure_def, Option.map_some, Option.some.injEq, Prod.mk.injEq] at h
    exact ⟨h.2.symm, fun hk => by cases hk⟩
  | knots =>
    rw [hc] at h
    simp only [buildMessages, siaBuildStages, harb, Option.bind_eq_bind, Option.bind_some] at h
    split at h
    · cases h
    · simp only [Option.pure_def, Option.bind_some] at h
      split at h
      · cases h
      · simp only [Option.some.injEq, Prod.mk.injEq] at h
        exact ⟨h.2.symm, fun _ => h.1.symm⟩

namespace BuildCall

theorem refused (b : BuildCall) (h : b.result.2 = none) : b.result.1.cur = b.src.cur := by
  have hcases := (buildFrom_cases b.src b.sess b.isDev).2
  rw [← result, h] at hcases
  exact hcases

theorem sess_eq {b : BuildCall} (h : b.result.2.isSome = true) :
    b.result.1.cur.sess = some b.sess := (buildFrom_built b.src b.sess b.isDev).sess h

theorem counted (b : BuildCall) :
    ∃ n ≤ 1, b.result.1.en2Counter = b.src.en2Counter + BitVec.ofNat 64 n := by
  simp only [result, buildFrom]
  split
  · exact ⟨0, by decide, (BitVec.add_zero _).symm⟩
  · split
    · exact ⟨1, le_refl 1, rfl⟩
    · exact ⟨1, le_refl 1, rfl⟩

theorem rolled {b : BuildCall} (h : b.result.2.isSome = true) :
    b.result.1.en2Counter = b.src.en2Counter + BitVec.ofNat 64 1 ∧
      b.en2 = en2Bytes b.size (b.src.en2Counter + BitVec.ofNat 64 1) := by
  rw [en2]
  simp only [result, buildFrom] at h ⊢
  split at h
  · cases h
  · rename_i hlen
    rw [if_neg hlen]
    split at h
    · cases h
    · exact ⟨rfl, rfl⟩

end BuildCall

def mark (g : Worksrc) : U64 × Cur := (g.en2Counter, g.cur)

inductive Chained : U64 × Cur → List BuildCall → U64 × Cur → Prop where
  | nil (m : U64 × Cur) : Chained m [] m
  | cons {b : BuildCall} {bs : List BuildCall} {m' : U64 × Cur}
      (hs : Chained (mark b.result.1) bs m') : Chained (mark b.src) (b :: bs) m'

namespace Chained

theorem single (b : BuildCall) : Chained (mark b.src) [b] (mark b.result.1) := .cons (.nil _)

theorem append {m m' m'' : U64 × Cur} {as bs : List BuildCall} (ha : Chained m as m')
    (hb : Chained m' bs m'') : Chained m (as ++ bs) m'' := by
  induction ha with
  | nil => exact hb
  | cons _ ih => exact .cons (ih hb)

theorem split {m m'' : U64 × Cur} {as bs : List BuildCall} (h : Chained m (as ++ bs) m'') :
    ∃ m', Chained m as m' ∧ Chained m' bs m'' := by
  induction as generalizing m with
  | nil => exact ⟨m, .nil m, h⟩
  | cons a as ih =>
    cases h with
    | cons h =>
      obtain ⟨m', ha, hb⟩ := ih h
      exact ⟨m', .cons ha, hb⟩

theorem counter {m m' : U64 × Cur} {bs : List BuildCall} (h : Chained m bs m') :
    ∃ n ≤ bs.length, m'.1 = m.1 + BitVec.ofNat 64 n := by
  induction h with
  | nil m => exact ⟨0, le_refl 0, (BitVec.add_zero _).symm⟩
  | @cons b bs m' _ ih =>
    obtain ⟨k, hk, hm⟩ := ih
    obtain ⟨n, hn, hb⟩ := b.counted
    refine ⟨n + k, by simp only [List.length_cons]; omega, ?_⟩
    rw [hm, mark, hb, BitVec.ofNat_add, ← BitVec.add_assoc]
    rfl

theorem refused {m m' : U64 × Cur} {bs : List BuildCall} (h : Chained m bs m')
    (hbs : ∀ b ∈ bs, b.result.2 = none) : m'.2 = m.2 := by
  induction h with
  | nil => rfl
  | @cons b bs m' _ ih =>
    rw [ih fun c hc => hbs c (List.mem_cons_of_mem b hc)]
    exact b.refused (hbs b List.mem_cons_self)

end Chained

theorem getMainWork_chained (g : Worksrc) (now : U64) :
    let b : BuildCall := ⟨g, .main, false⟩
    Chained (mark g) [b] (mark (getMainWork g now).1) ∧ (getMainWork g now).2 = b.result.2 := by
  intro b
  have h := Chained.single b
  rw [getMainWork, ← show b.result = buildFrom g .main false from rfl]
  generalize b.result = r at h ⊢
  obtain ⟨g', _ | ctx⟩ := r
  · exact ⟨h, rfl⟩
  · exact ⟨h, rfl⟩

theorem stGetWork_chained (g : Worksrc) (now : U64) :
    Chained (mark g) (buildCalls g now) (mark (stGetWork g now).1) ∧
      (stGetWork g now).2 = (buildCalls g now).getLast?.bind fun b => b.result.2 := by
  cases hdue : due g now with
  | false =>
    rw [stGetWork_not_due hdue, buildCalls, hdue]
    exact ⟨.nil _, rfl⟩
  | true =>
    rw [stGetWork_counted hdue, buildCalls, if_pos hdue]
    dsimp only
    generalize devfeePoolEpoch g.devfee = e
    obtain ⟨devfee, wantDev⟩ := e
    cases wantDev with
    | false => exact getMainWork_chained (g.setDevfee devfee) now
    | true =>
      simp only [if_true]
      generalize hg : g.setDevfee devfee = g₁
      have hmark : mark g = mark g₁ := by rw [← hg]; rfl
      rw [hmark]
      by_cases hready : g₁.devConfigured ∧ stratumReady g₁.dev
      · have htry : tryDevWork g₁ = (⟨g₁, .dev, true⟩ : BuildCall).result := by
          rw [tryDevWork, if_pos hready]
          rfl
        have hdev := Chained.single ⟨g₁, .dev, true⟩
        rw [if_pos hready, htry]
        cases hr : (⟨g₁, .dev, true⟩ : BuildCall).result with
        | mk g' item =>
          rw [hr] at hdev
          cases item with
          | some ctx =>
            have hitem := congrArg Prod.snd hr
            exact ⟨hdev, hitem.symm⟩
          | none =>
            have hmain := getMainWork_chained (g'.setDevfee (devfeePoolSkip g'.devfee)) now
            exact ⟨hdev.append hmain.1, hmain.2⟩
      · have htry : tryDevWork g₁ = (g₁, none) := by rw [tryDevWork, if_neg hready]
        rw [if_neg hready, htry]
        exact getMainWork_chained (g₁.setDevfee (devfeePoolSkip g₁.devfee)) now

theorem stOnCandidate_mark (g : Worksrc) (ctx : WorkCtx) (nonce hashTop64 : U64) (sendOk : Bool) :
    mark (stOnCandidate g ctx nonce hashTop64 sendOk).1 = mark g := by
  simp only [stOnCandidate]
  split
  · rfl
  split
  · rfl
  split
  case h_2 => rfl
  case h_1 x _ _ =>
    split
    · rfl
    split
    · split <;> cases x <;> rfl
    · cases x <;> rfl

theorem stGetWork_item {g : Worksrc} {now : U64} {ctx : WorkCtx}
    (h : (stGetWork g now).2 = some ctx) :
    ∃ b, (buildCalls g now).getLast? = some b ∧ b.result.2 = some ctx ∧
      (stGetWork g now).1.cur = b.result.1.cur ∧ Carries g b.sess b.en2 ctx := by
  obtain ⟨hchained, hlast⟩ := stGetWork_chained g now
  obtain ⟨b, hb, hctx⟩ := Option.bind_eq_some_iff.mp (hlast.symm.trans h)
  obtain ⟨before, hbefore⟩ := List.getLast?_eq_some_iff.mp hb
  have hcur : (stGetWork g now).1.cur = b.result.1.cur := by
    rw [hbefore] at hchained
    obtain ⟨_, -, hend⟩ := hchained.split
    cases hend with
    | cons hend => exact hend.refused (by simp)
  have hspec := (stGetWork_spec g now).2
  rw [h] at hspec
  obtain ⟨x, hx⟩ := hspec
  have hsess : x = b.sess := by
    have hbs := BuildCall.sess_eq (b := b) (by rw [hctx]; rfl)
    rw [← hcur, hx.sess] at hbs
    exact Option.some.inj hbs
  have hmessages := hx.messages
  rw [hcur] at hmessages
  exact ⟨b, hb, hctx, hcur, hsess ▸ carries_of_messages hmessages⟩

theorem turn_chained (g : Worksrc) (t : Turn) : Chained (mark g) (t.calls g) (mark (g.turn t)) := by
  have hset (x : Sess) (s : Stratum) : Chained (mark g) [] (mark (g.setSession x s)) := by
    cases x <;> exact .nil _
  cases t with
  | line x text now => exact hset x _
  | lost x => exact hset x _
  | dial x now env => exact hset x _
  | candidate ctx nonce hashTop64 sendOk =>
    rw [Worksrc.turn, stOnCandidate_mark]
    exact .nil _
  | work now => exact (stGetWork_chained g now).1

theorem rolling_chained (g : Worksrc) (turns : List Turn) :
    let w := run Rolling.step (rollingInit g) turns
    Chained (mark g) w.calls (mark w.src) := by
  have hstep (w : Rolling) (t : Turn) (hw : Chained (mark g) w.calls (mark w.src)) :
      Chained (mark g) (w.step t).calls (mark (w.step t).src) := hw.append (turn_chained w.src t)
  exact run_invariant hstep (.nil _) turns

theorem Chained.distinct {m m' : U64 × Cur} {a b : BuildCall} {before between after : List BuildCall}
    (h : Chained m (before ++ a :: (between ++ b :: after)) m') (ha : a.result.2.isSome = true)
    (hb : b.result.2.isSome = true) (hsize : a.size = b.size)
    (hfew : between.length < 256 ^ min 8 a.size - 1) : a.en2 ≠ b.en2 := by
  obtain ⟨_, -, h⟩ := h.split
  cases h with
  | cons h =>
    obtain ⟨m₁, hbetween, h⟩ := h.split
    obtain ⟨n, hn, hcount⟩ := hbetween.counter
    cases h with
    | cons _ =>
      obtain ⟨hstep, hena⟩ := BuildCall.rolled ha
      obtain ⟨-, henb⟩ := BuildCall.rolled hb
      have hcounter : b.src.en2Counter + BitVec.ofNat 64 1 =
          a.src.en2Counter + BitVec.ofNat 64 1 + BitVec.ofNat 64 (n + 1) := by
        simp only [mark] at hcount
        rw [hcount, hstep, BitVec.ofNat_add n, BitVec.add_assoc]
      rw [hena, henb, ← hsize, hcounter]
      exact (en2Bytes_ne (Nat.succ_pos n) (by omega)).symm

end Calls

/-- The extranonces of two items differ unless the counter has come round between
them, whatever their sessions and jobs; every item carries the bytes that `g_cur`
records, and `g_cur` keeps them until the next item. -/
theorem extranonce2_rolls (g : Worksrc) (turns : List Turn) :
    let w := run Rolling.step (rollingInit g) turns
    (∀ before a between b after, w.calls = before ++ a :: (between ++ b :: after) →
        a.result.2.isSome = true → b.result.2.isSome = true → a.size = b.size →
        between.length < 256 ^ min 8 a.size - 1 →
          a.en2.length = a.size ∧ b.en2.length = a.size ∧ a.en2 ≠ b.en2) ∧
      (∀ before a after, w.calls = before ++ a :: after → a.result.2.isSome = true →
        (∀ b ∈ after, b.result.2 = none) → w.src.cur.en2 = a.en2) ∧
      ∀ now ctx, (stGetWork w.src now).2 = some ctx →
        ∃ b, (w.step (.work now)).calls.getLast? = some b ∧ b.result.2 = some ctx ∧
          (stGetWork w.src now).1.cur.en2 = b.en2 ∧
          Carries w.src b.sess b.en2 ctx := by
  intro w
  have hw : Chained (mark g) w.calls (mark w.src) := rolling_chained g turns
  have hlength {b : BuildCall} (hb : b.result.2.isSome = true) : b.en2.length = b.size := by
    rw [(BuildCall.rolled hb).2, en2Bytes_length]
  refine ⟨?_, ?_, ?_⟩
  · intro before a between b after hcalls ha hb hsize hfew
    rw [hcalls] at hw
    exact ⟨hlength ha, (hlength hb).trans hsize.symm, hw.distinct ha hb hsize hfew⟩
  · intro before a after hcalls ha hafter
    rw [hcalls] at hw
    obtain ⟨_, -, h⟩ := hw.split
    cases h with
    | cons h => exact congrArg Cur.en2 (h.refused hafter)
  · intro now ctx hitem
    obtain ⟨b, hb, hctx, hcur, hcarries⟩ := stGetWork_item hitem
    refine ⟨b, ?_, hctx, congrArg Cur.en2 hcur, hcarries⟩
    have hcalls : (w.step (.work now)).calls = w.calls ++ buildCalls w.src now := rfl
    rw [hcalls, List.getLast?_append, hb, Option.some_or]

section RoundTrip

def oneByteSession : Stratum :=
  [ascii "\x7b\"id\":1,\"result\":[[],\"aa\",1],\"error\":null\x7d",
    ascii "\x7b\"id\":2,\"result\":true,\"error\":null\x7d",
    demoNotify "A" "0" "true"].foldl (fun s text => onLine s text 1000)
    (Miner.dial demoInit 1000 demoEnv).session

def oneByteGlobals : Worksrc := worksrcStratumConfigure .sia oneByteSession none

def wakeUps (n : Nat) : List Turn :=
  (List.range n).map fun k => .work (BitVec.ofNat 64 (30 * (k + 1)))

theorem oneByte_ready : stratumReady oneByteSession = true ∧ builds .sia oneByteSession = true ∧
    en2Len oneByteSession = 1 := by decide +kernel

structure OneByte (n : Nat) (b : BuildCall) : Prop where
  sess : b.sess = .main
  main : b.src.main = oneByteSession
  chain : b.src.chain = .sia
  counter : b.src.en2Counter = BitVec.ofNat 64 n

namespace OneByte

variable {n : Nat} {b : BuildCall} (h : OneByte n b)

include h

theorem session : b.session = oneByteSession := by
  rw [BuildCall.session, h.sess]
  exact h.main

theorem size : b.size = 1 := by
  rw [BuildCall.size, h.session]
  exact oneByte_ready.2.2

theorem succeeds : b.result.2.isSome = true := by
  have hsession := h.session
  rw [BuildCall.session] at hsession
  rw [BuildCall.result, (buildFrom_built b.src b.sess b.isDev).item, hsession, h.chain]
  exact oneByte_ready.2.1

theorem en2 : b.en2 = en2Bytes 1 (BitVec.ofNat 64 (n + 1)) := by
  rw [(BuildCall.rolled h.succeeds).2, h.size, h.counter, BitVec.ofNat_add]

end OneByte

structure Steady (n : Nat) (w : Rolling) : Prop where
  next : OneByte n ⟨w.src, .main, false⟩
  noDev : w.src.devConfigured = false
  waited : w.src.havePushed = true → w.src.lastPushAt = BitVec.ofNat 64 (30 * n)
  length : w.calls.length = n
  calls : ∀ k b, w.calls[k]? = some b → OneByte k b

theorem stGetWork_noDev {g : Worksrc} {now : U64} (hdue : due g now = true)
    (hdev : g.devConfigured = false) :
    ∃ d, stGetWork g now = getMainWork (g.setDevfee d) now ∧
      buildCalls g now = [⟨g.setDevfee d, .main, false⟩] := by
  have htry (d : DevfeePool) : tryDevWork (g.setDevfee d) = (g.setDevfee d, none) := by
    rw [tryDevWork, if_neg]
    rintro ⟨h, -⟩
    rw [show (g.setDevfee d).devConfigured = g.devConfigured from rfl, hdev] at h
    exact Bool.false_ne_true h
  rw [stGetWork_counted hdue, buildCalls, if_pos hdue]
  dsimp only
  generalize devfeePoolEpoch g.devfee = e
  obtain ⟨devfee, wantDev⟩ := e
  cases wantDev with
  | false => exact ⟨devfee, rfl, rfl⟩
  | true =>
    simp only [if_true, htry]
    refine ⟨devfeePoolSkip devfee, rfl, ?_⟩
    rw [if_neg]
    · rfl
    · rintro ⟨h, -⟩
      rw [show (g.setDevfee devfee).devConfigured = g.devConfigured from rfl, hdev] at h
      exact Bool.false_ne_true h

theorem buildFrom_devConfigured (g : Worksrc) (x : Sess) (isDev : Bool) :
    (buildFrom g x isDev).1.devConfigured = g.devConfigured := by
  simp only [buildFrom]
  split
  · rfl
  · split <;> rfl

theorem steady_step {n : Nat} {w : Rolling} (h : Steady n w) :
    Steady (n + 1) (w.step (.work (BitVec.ofNat 64 (30 * (n + 1))))) := by
  have hdue : due w.src (BitVec.ofNat 64 (30 * (n + 1))) = true := by
    rw [due, h.next.main, oneByte_ready.1]
    cases hpushed : w.src.havePushed with
    | false => rfl
    | true =>
      have hage : BitVec.ofNat 64 (30 * (n + 1)) - w.src.lastPushAt = pushMaxAgeS := by
        rw [h.waited hpushed, Nat.mul_add, BitVec.ofNat_add, BitVec.add_comm, BitVec.add_sub_cancel]
        rfl
      simp [hage]
  obtain ⟨d, hwork, hcalls⟩ := stGetWork_noDev hdue h.noDev
  have hone : OneByte n ⟨w.src.setDevfee d, .main, false⟩ :=
    ⟨rfl, h.next.main, h.next.chain, h.next.counter⟩
  have hbuilt := buildFrom_built (w.src.setDevfee d) .main false
  have hconf := buildFrom_devConfigured (w.src.setDevfee d) .main false
  have hsome := hone.succeeds
  have hrolled := (BuildCall.rolled hsome).1
  rw [BuildCall.result] at hsome hrolled
  rw [Rolling.step, Worksrc.turn, Turn.calls, hwork, hcalls, getMainWork]
  generalize buildFrom (w.src.setDevfee d) .main false = r at hbuilt hconf hsome hrolled ⊢
  obtain ⟨g', _ | ctx⟩ := r
  · cases hsome
  · refine ⟨⟨rfl, hbuilt.main.trans h.next.main, hbuilt.chain.trans h.next.chain, ?_⟩,
      hconf.trans h.noDev, fun _ => rfl, ?_, ?_⟩
    · rw [BitVec.ofNat_add, ← h.next.counter]
      exact hrolled
    · simp [h.length]
    · intro k b hb
      rw [List.getElem?_append] at hb
      split at hb
      · exact h.calls k b hb
      · rename_i hk
        have hlength := h.length
        have hkn : k = n := by
          by_contra hne
          rw [List.getElem?_eq_none (by simp; omega)] at hb
          cases hb
        rw [hkn, h.length, Nat.sub_self] at hb
        cases hb
        exact hkn ▸ hone

theorem steady_wakeUps (n : Nat) :
    Steady n (run Rolling.step (rollingInit oneByteGlobals) (wakeUps n)) := by
  induction n with
  | zero =>
    rw [wakeUps, List.range_zero, List.map_nil, run, List.foldl_nil]
    refine ⟨⟨rfl, ?_, rfl, rfl⟩, rfl, fun h => (Bool.false_ne_true h).elim, rfl, ?_⟩
    · rw [rollingInit, oneByteGlobals, worksrcStratumConfigure]
    · intro k b hb
      cases hb
  | succ n ih =>
    have hlast : wakeUps (n + 1) = wakeUps n ++ [.work (BitVec.ofNat 64 (30 * (n + 1)))] := by
      rw [wakeUps, List.range_succ, List.map_append]
      rfl
    rw [hlast, run_append]
    exact steady_step ih

/-- Two pushes of the same job with 255 calls between them: the counter has come
round, and the FPGA is given the same search space. -/
theorem extranonce2_comes_round :
    ∃ a between b, (run Rolling.step (rollingInit oneByteGlobals) (wakeUps 257)).calls =
        a :: (between ++ [b]) ∧
      a.result.2.isSome = true ∧ b.result.2.isSome = true ∧ a.sess = b.sess ∧
      a.session.job = b.session.job ∧ a.size = b.size ∧ between.length < 256 ^ min 8 a.size ∧
      a.en2 = b.en2 := by
  have h := steady_wakeUps 257
  generalize (run Rolling.step (rollingInit oneByteGlobals) (wakeUps 257)) = w at h
  obtain ⟨src, calls⟩ := w
  obtain _ | ⟨a, rest⟩ := calls
  · cases h.length
  · have hrest : rest.length = 256 := Nat.succ.inj h.length
    obtain rfl | ⟨between, b, rfl⟩ := rest.eq_nil_or_concat'
    · cases hrest
    · have hbetween : between.length = 255 := by simpa using hrest
      have ha : OneByte 0 a := h.calls 0 a rfl
      have hb : OneByte 256 b := h.calls 256 b (by
        rw [List.getElem?_cons_succ, List.getElem?_append_right (by omega), hbetween]
        rfl)
      refine ⟨a, between, b, rfl, ha.succeeds, hb.succeeds, ha.sess.trans hb.sess.symm, ?_,
        ha.size.trans hb.size.symm, ?_, ?_⟩
      · rw [ha.session, hb.session]
      · rw [ha.size, hbetween]
        decide
      · rw [ha.en2, hb.en2]
        decide

theorem extranonce2_rolls_one_byte :
    ∃ a b, (run Rolling.step (rollingInit oneByteGlobals) (wakeUps 2)).calls = [a, b] ∧
      a.result.2.isSome = true ∧ b.result.2.isSome = true ∧ a.size = 1 ∧ a.en2.length = 1 ∧
      a.en2 ≠ b.en2 := by
  obtain ⟨hdistinct, -, -⟩ := extranonce2_rolls oneByteGlobals (wakeUps 2)
  have h := steady_wakeUps 2
  generalize (run Rolling.step (rollingInit oneByteGlobals) (wakeUps 2)) = w at h hdistinct
  obtain ⟨src, calls⟩ := w
  obtain ⟨a, b, rfl⟩ := List.length_eq_two.mp h.length
  have ha : OneByte 0 a := h.calls 0 a rfl
  have hb : OneByte 1 b := h.calls 1 b rfl
  have hne := hdistinct [] a [] b [] rfl ha.succeeds hb.succeeds (ha.size.trans hb.size.symm)
    (by rw [ha.size]; decide)
  exact ⟨a, b, rfl, ha.succeeds, hb.succeeds, ha.size, hne.1.trans ha.size, hne.2.2⟩

end RoundTrip

end OspreyBlake2b.Miner
