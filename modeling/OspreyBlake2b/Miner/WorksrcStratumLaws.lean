import OspreyBlake2b.Miner.WorksrcStratum

/-! What `st_get_work` and `st_on_candidate` do, once, for every proof above them. -/

namespace OspreyBlake2b.Miner

open OspreyBlake2b.Lib

@[simp] theorem session_setSession_same (g : Worksrc) (x : Sess) (s : Stratum) :
    (g.setSession x s).session x = s := by
  cases x <;> rfl

theorem session_setSession_other (g : Worksrc) {x y : Sess} (h : x ≠ y) (s : Stratum) :
    (g.setSession x s).session y = g.session y := by
  cases x <;> cases y <;> first | rfl | exact absurd rfl h

@[simp] theorem setSession_cur (g : Worksrc) (x : Sess) (s : Stratum) :
    (g.setSession x s).cur = g.cur := by
  cases x <;> rfl

@[simp] theorem setSession_chain (g : Worksrc) (x : Sess) (s : Stratum) :
    (g.setSession x s).chain = g.chain := by
  cases x <;> rfl

structure SameSessions (g g' : Worksrc) : Prop where
  chain : g'.chain = g.chain
  session : ∀ x, g'.session x = g.session x

theorem SameSessions.refl (g : Worksrc) : SameSessions g g := ⟨rfl, fun _ => rfl⟩

theorem SameSessions.trans {a b c : Worksrc} (h : SameSessions a b) (k : SameSessions b c) :
    SameSessions a c :=
  ⟨k.chain.trans h.chain, fun x => (k.session x).trans (h.session x)⟩

theorem sameSessions_setDevfee (g : Worksrc) (d : DevfeePool) : SameSessions g (g.setDevfee d) :=
  ⟨rfl, fun x => by cases x <;> rfl⟩

theorem sameSessions_recordPush (g : Worksrc) (now : U64) : SameSessions g (recordPush g now) :=
  ⟨rfl, fun x => by cases x <;> rfl⟩

structure BuiltFrom (g : Worksrc) (x : Sess) (cur : Cur) (ctx : WorkCtx) : Prop where
  sess : cur.sess = some x
  valid : cur.valid = true
  jobId : cur.jobId = (g.session x).job.jobId
  ntime : cur.ntime = (g.session x).job.ntime.toList
  jobSeq : cur.jobSeq = (g.session x).job.seq
  target : cur.target = stratumTargetFull (g.session x)
  messages : buildMessages g.chain (g.session x).job (g.session x).en1 cur.en2 =
    some (ctx.ss3, ctx.ss4)

theorem BuiltFrom.congr {g g' : Worksrc} {x : Sess} {cur : Cur} {ctx : WorkCtx}
    (h : BuiltFrom g' x cur ctx) (hs : SameSessions g g') : BuiltFrom g x cur ctx := by
  obtain ⟨h1, h2, h3, h4, h5, h6, h7⟩ := h
  rw [hs.session x] at h3 h4 h5 h6 h7
  rw [hs.chain] at h7
  exact ⟨h1, h2, h3, h4, h5, h6, h7⟩

def BuildSpec (g g' : Worksrc) (r : Option WorkCtx) : Prop :=
  SameSessions g g' ∧
    match r with
    | none => g'.cur = g.cur
    | some ctx => ∃ x, BuiltFrom g x g'.cur ctx

theorem BuildSpec.after {a b c : Worksrc} {r : Option WorkCtx} (hs : SameSessions a b)
    (hc : b.cur = a.cur) (h : BuildSpec b c r) : BuildSpec a c r := by
  refine ⟨hs.trans h.1, ?_⟩
  cases r with
  | none => exact h.2.trans hc
  | some ctx =>
    obtain ⟨x, hx⟩ := h.2
    exact ⟨x, hx.congr hs⟩

theorem BuildSpec.before {a b c : Worksrc} {r : Option WorkCtx} (h : BuildSpec a b r)
    (hs : SameSessions b c) (hc : c.cur = b.cur) : BuildSpec a c r := by
  refine ⟨h.1.trans hs, ?_⟩
  rw [hc]
  exact h.2

theorem buildFrom_cases (g : Worksrc) (x : Sess) (isDev : Bool) :
    SameSessions g (buildFrom g x isDev).1 ∧
      match (buildFrom g x isDev).2 with
      | none => (buildFrom g x isDev).1.cur = g.cur
      | some ctx => BuiltFrom g x (buildFrom g x isDev).1.cur ctx := by
  simp only [buildFrom]
  split
  · exact ⟨SameSessions.refl g, rfl⟩
  · split
    · exact ⟨⟨rfl, fun y => by cases y <;> rfl⟩, rfl⟩
    · rename_i ss3 ss4 hm
      refine ⟨⟨rfl, fun y => by cases y <;> rfl⟩, rfl, rfl, rfl, rfl, rfl, rfl, ?_⟩
      rw [← hm]

theorem buildFrom_spec (g : Worksrc) (x : Sess) (isDev : Bool) :
    BuildSpec g (buildFrom g x isDev).1 (buildFrom g x isDev).2 := by
  have h := buildFrom_cases g x isDev
  generalize buildFrom g x isDev = r at h
  obtain ⟨g', _ | ctx⟩ := r
  · exact h
  · exact ⟨h.1, x, h.2⟩

theorem getMainWork_spec (g : Worksrc) (now : U64) :
    BuildSpec g (getMainWork g now).1 (getMainWork g now).2 := by
  have h := buildFrom_spec g .main false
  rw [getMainWork]
  generalize buildFrom g .main false = r at h
  obtain ⟨g', _ | ctx⟩ := r
  · exact h
  · exact h.before (sameSessions_recordPush g' now) rfl

theorem tryDevWork_spec (g : Worksrc) : BuildSpec g (tryDevWork g).1 (tryDevWork g).2 := by
  rw [tryDevWork]
  split
  · exact buildFrom_spec g .dev true
  · exact ⟨SameSessions.refl g, rfl⟩

theorem stGetWork_spec (g : Worksrc) (now : U64) :
    BuildSpec g (stGetWork g now).1 (stGetWork g now).2 := by
  simp only [stGetWork]
  split
  · exact ⟨SameSessions.refl g, rfl⟩
  split
  · exact ⟨SameSessions.refl g, rfl⟩
  have hfee := sameSessions_setDevfee g (devfeePoolEpoch g.devfee).1
  split
  · -- the main session is the fall-back when the dev build fails
    have h := tryDevWork_spec (g.setDevfee (devfeePoolEpoch g.devfee).1)
    generalize tryDevWork (g.setDevfee (devfeePoolEpoch g.devfee).1) = r at h
    obtain ⟨g', _ | ctx⟩ := r
    · have hskip := sameSessions_setDevfee g' (devfeePoolSkip g'.devfee)
      exact (getMainWork_spec _ now).after ((hfee.trans h.1).trans hskip) h.2
    · exact (h.before (sameSessions_recordPush g' now) rfl).after hfee rfl
  · exact (getMainWork_spec _ now).after hfee rfl

structure Submits (g : Worksrc) (ctx : WorkCtx) (nonce hashTop64 : U64) (x : Sess) : Prop where
  verified : expectedTop64 g.chain ctx.ss4 nonce = hashTop64
  meets : hashMeetsTarget (powCompare g.chain ctx.ss4 nonce) g.cur.target = true
  valid : g.cur.valid = true
  sess : g.cur.sess = some x
  fresh : staleJob g.cur (g.session x) = false
  up : ¬ (g.session x).fd < 0

def shareOf (g : Worksrc) (x : Sess) (nonce : U64) : Share :=
  ⟨x, g.cur.jobId, g.cur.en2, g.cur.ntime, leBytes 8 nonce⟩

theorem stratumSubmit_down (s : Stratum) (ok : Bool) (h : s.fd < 0) :
    stratumSubmit s ok = (s, false) := by
  rw [stratumSubmit, if_pos h]

theorem stOnCandidate_submits {g : Worksrc} {ctx : WorkCtx} {nonce hashTop64 : U64} {x : Sess}
    (h : Submits g ctx nonce hashTop64 x) (sendOk : Bool) :
    (stOnCandidate g ctx nonce hashTop64 sendOk).2.2 = some (shareOf g x nonce) := by
  obtain ⟨hver, hmeets, hvalid, hsess, hfresh, hup⟩ := h
  simp only [stOnCandidate, hver, hmeets, hvalid, hsess, hfresh, ne_eq, not_true_eq_false,
    Bool.not_true, Bool.false_eq_true, if_false]
  split
  · rfl
  · rw [if_neg hup]
    rfl

theorem submits_of_share {g : Worksrc} {ctx : WorkCtx} {nonce hashTop64 : U64} {sendOk : Bool}
    {share : Share} (h : (stOnCandidate g ctx nonce hashTop64 sendOk).2.2 = some share) :
    ∃ x, Submits g ctx nonce hashTop64 x ∧ share = shareOf g x nonce := by
  simp only [stOnCandidate] at h
  split at h
  · simp at h
  rename_i hver
  split at h
  · simp at h
  rename_i hmeets
  split at h
  case h_2 => simp at h
  case h_1 x hvalid hsess =>
    split at h
    · simp at h
    rename_i hfresh
    by_cases hup : (g.session x).fd < 0
    · rw [stratumSubmit_down _ _ hup] at h
      simp [hup] at h
    · have hs : Submits g ctx nonce hashTop64 x :=
        ⟨not_not.mp hver, by simpa using hmeets, hvalid, hsess, by simpa using hfresh, hup⟩
      refine ⟨x, hs, ?_⟩
      split at h
      · exact (Option.some.inj h).symm
      · rw [if_neg hup] at h
        exact (Option.some.inj h).symm

structure Keeps (s s' : Stratum) : Prop where
  extranonce1 : s'.extranonce1 = s.extranonce1
  en1Len : s'.en1Len = s.en1Len
  job : s'.job = s.job
  reconnects : s'.reconnects = s.reconnects

theorem Keeps.en1 {s s' : Stratum} (h : Keeps s s') : s'.en1 = s.en1 := by
  rw [Stratum.en1, Stratum.en1, h.extranonce1, h.en1Len]

theorem keeps_stratumSubmit (s : Stratum) (ok : Bool) : Keeps s (stratumSubmit s ok).1 := by
  rw [stratumSubmit]
  split
  · exact ⟨rfl, rfl, rfl, rfl⟩
  · rename_i hup
    simp only [sendLine, if_neg hup]
    cases ok <;> exact ⟨rfl, rfl, rfl, rfl⟩

theorem stOnCandidate_keeps (g : Worksrc) (ctx : WorkCtx) (nonce hashTop64 : U64) (sendOk : Bool) :
    let g' := (stOnCandidate g ctx nonce hashTop64 sendOk).1
    g'.cur = g.cur ∧ g'.chain = g.chain ∧ ∀ y, Keeps (g.session y) (g'.session y) := by
  have hself : g.cur = g.cur ∧ g.chain = g.chain ∧ ∀ y, Keeps (g.session y) (g.session y) :=
    ⟨rfl, rfl, fun _ => ⟨rfl, rfl, rfl, rfl⟩⟩
  have hset (x : Sess) : (g.setSession x (stratumSubmit (g.session x) sendOk).1).cur = g.cur ∧
      (g.setSession x (stratumSubmit (g.session x) sendOk).1).chain = g.chain ∧ ∀ y,
      Keeps (g.session y)
        ((g.setSession x (stratumSubmit (g.session x) sendOk).1).session y) := by
    refine ⟨by simp, by simp, fun y => ?_⟩
    by_cases h : x = y
    · subst h
      rw [session_setSession_same]
      exact keeps_stratumSubmit _ sendOk
    · rw [session_setSession_other g h]
      exact ⟨rfl, rfl, rfl, rfl⟩
  simp only [stOnCandidate]
  split
  · exact hself
  split
  · exact hself
  split
  case h_2 => exact hself
  case h_1 x _ _ =>
    split
    · exact hself
    have hx := hset x
    split
    · rename_i s' hsub
      rw [hsub] at hx
      split
      · have hfee := sameSessions_setDevfee (g.setSession x s')
          (devfeePoolCredit (g.setSession x s').devfee)
        refine ⟨hx.1, hx.2.1, fun y => ?_⟩
        rw [hfee.session y]
        exact hx.2.2 y
      · exact hx
    · rename_i s' hsub
      rw [hsub] at hx
      exact hx

section CleanJobs

def notifyJob (s : Stratum) (text : List Byte) : Option StratumJob :=
  match jsGet text "method", jsGet text "params" with
  | some meth, some params =>
    if jsStr meth 64 = (ascii "mining.notify", true) then parseNotify s params else none
  | _, _ => none

theorem onLine_notify {s : Stratum} {text : List Byte} {j : StratumJob}
    (h : notifyJob s text = some j) (now : U64) :
    onLine s text now =
      { s with job := j, haveJob := true, jobsReceived := s.jobsReceived + 1 } := by
  simp only [notifyJob] at h
  split at h
  case h_2 => simp at h
  case h_1 meth params hm hp =>
    split at h
    case isFalse => simp at h
    case isTrue hs =>
      simp only [onLine, hm, hp, hs, Bool.not_true, Bool.false_eq_true, if_false, if_true,
        onNotify, h]

theorem parseNotify_seq {s : Stratum} {params : List Byte} {j : StratumJob}
    (h : parseNotify s params = some j) : j.seq = s.job.seq + 1 := by
  obtain ⟨j', -, rfl⟩ := Option.map_eq_some_iff.mp h
  rfl

theorem notifyJob_seq {s : Stratum} {text : List Byte} {j : StratumJob}
    (h : notifyJob s text = some j) : j.seq = s.job.seq + 1 := by
  simp only [notifyJob] at h
  split at h
  · split at h
    · exact parseNotify_seq h
    · simp at h
  · simp at h

inductive Notified : Stratum → List StratumJob → Stratum → Prop where
  | nil (s : Stratum) : Notified s [] s
  | cons {s s' : Stratum} {text : List Byte} {now : U64} {j : StratumJob} {jobs : List StratumJob}
      (h : notifyJob s text = some j) (hs : Notified (onLine s text now) jobs s') :
      Notified s (j :: jobs) s'

theorem Notified.fd {s s' : Stratum} {jobs : List StratumJob} (h : Notified s jobs s') :
    s'.fd = s.fd := by
  induction h with
  | nil => rfl
  | cons h _ ih => rw [ih, onLine_notify h]

theorem Notified.seq {s s' : Stratum} {jobs : List StratumJob} (h : Notified s jobs s') :
    s'.job.seq = s.job.seq + BitVec.ofNat 64 jobs.length := by
  induction h with
  | nil => simp
  | @cons s s' text now j jobs h _ ih =>
    rw [ih, onLine_notify h]
    simp only [notifyJob_seq h, List.length_cons, Nat.add_comm jobs.length 1, BitVec.ofNat_add,
      BitVec.add_assoc]
    rfl

theorem Notified.last {s s' : Stratum} {jobs : List StratumJob} (h : Notified s jobs s') :
    s'.job = jobs.getLast?.getD s.job := by
  induction h with
  | nil => rfl
  | @cons s s' text now j jobs h _ ih =>
    rw [ih, onLine_notify h]
    cases jobs <;> simp [List.getLast?_cons]

theorem Notified.stale {s s' : Stratum} {jobs : List StratumJob} (h : Notified s jobs s')
    {cur : Cur} (hcur : cur.jobSeq = s.job.seq) :
    staleJob cur s' = true ↔
      jobs.length % 2 ^ 64 ≠ 0 ∧ (jobs.getLast?.any StratumJob.clean) = true := by
  have hseq : cur.jobSeq ≠ s'.job.seq ↔ jobs.length % 2 ^ 64 ≠ 0 := by
    rw [hcur, h.seq, ne_eq, ne_eq, not_iff_not, ← BitVec.toNat_inj, BitVec.toNat_add,
      BitVec.toNat_ofNat]
    have hlt := s.job.seq.isLt
    omega
  rw [staleJob, decide_eq_true_iff, hseq, h.last]
  cases hj : jobs.getLast? with
  | none =>
    rw [List.getLast?_eq_none_iff.mp hj]
    simp
  | some j => simp

theorem candidate_share {g : Worksrc} {ctx : WorkCtx} {nonce hashTop64 : U64} {x : Sess}
    (hver : expectedTop64 g.chain ctx.ss4 nonce = hashTop64)
    (hmeets : hashMeetsTarget (powCompare g.chain ctx.ss4 nonce) g.cur.target = true)
    (hvalid : g.cur.valid = true) (hsess : g.cur.sess = some x) (hup : 0 ≤ (g.session x).fd) :
    (stOnCandidate g ctx nonce hashTop64 true).2.2 =
      if staleJob g.cur (g.session x) then none else some (shareOf g x nonce) := by
  cases hstale : staleJob g.cur (g.session x) with
  | false => exact stOnCandidate_submits ⟨hver, hmeets, hvalid, hsess, hstale, by omega⟩ true
  | true =>
    match hr : (stOnCandidate g ctx nonce hashTop64 true).2.2 with
    | none => rfl
    | some share =>
      obtain ⟨y, hy, -⟩ := submits_of_share hr
      have hxy : x = y := Option.some.inj (hsess.symm.trans hy.sess)
      have hfresh := hy.fresh
      rw [← hxy, hstale] at hfresh
      exact absurd hfresh.symm Bool.false_ne_true

theorem last_not_clean {jobs : List StratumJob} (hall : ∀ j ∈ jobs, j.clean = false) :
    jobs.getLast?.any StratumJob.clean ≠ true := by
  intro hlast
  obtain ⟨j, hj, hc⟩ := (Option.any_eq_true _ _).mp hlast
  rw [hall j (List.mem_of_getLast? hj)] at hc
  exact Bool.false_ne_true hc

/-- Since the item was built from session `x`, the pool has sent `jobs`: no share
after a clean one, a share otherwise. -/
theorem cancelled_job_share_iff (g g₁ : Worksrc) (x : Sess) (isDev : Bool) (ctx : WorkCtx)
    (s' : Stratum) (jobs : List StratumJob) (nonce hashTop64 : U64)
    (hbuild : buildFrom g x isDev = (g₁, some ctx)) (hup : 0 ≤ (g₁.session x).fd)
    (hnotified : Notified (g₁.session x) jobs s')
    (hver : expectedTop64 g₁.chain ctx.ss4 nonce = hashTop64)
    (hmeets : hashMeetsTarget (powCompare g₁.chain ctx.ss4 nonce) g₁.cur.target = true) :
    let share := (stOnCandidate (g₁.setSession x s') ctx nonce hashTop64 true).2.2
    (((∃ j ∈ jobs, j.clean = true) → share = none) ∧
        ((∀ j ∈ jobs, j.clean = false) → share = some (shareOf g₁ x nonce))) ↔
      (∀ j ∈ jobs, j.clean = false) ∨
        jobs.length % 2 ^ 64 ≠ 0 ∧ jobs.getLast?.any StratumJob.clean = true := by
  intro share
  have hspec := buildFrom_cases g x isDev
  rw [hbuild] at hspec
  obtain ⟨hsame, hcur⟩ := hspec
  have hseq : g₁.cur.jobSeq = (g₁.session x).job.seq := by
    rw [hsame.session x]
    exact hcur.jobSeq
  have hshare : share = if staleJob g₁.cur s' then none else some (shareOf g₁ x nonce) := by
    have h := @candidate_share (g₁.setSession x s') ctx nonce hashTop64 x (by simpa using hver)
      (by simpa using hmeets) (by simpa using hcur.valid) (by simpa using hcur.sess)
      (by simpa [hnotified.fd] using hup)
    simpa [shareOf] using h
  have hstale := hnotified.stale hseq
  constructor
  · rintro ⟨hclean, -⟩
    by_cases hall : ∀ j ∈ jobs, j.clean = false
    · exact .inl hall
    · right
      rw [← hstale]
      simp only [not_forall, Bool.not_eq_false] at hall
      obtain ⟨j, hj, hc⟩ := hall
      have hnone := hclean ⟨j, hj, hc⟩
      rw [hshare] at hnone
      by_contra hfresh
      simp [hfresh] at hnone
  · rintro (hall | hlast)
    · refine ⟨fun ⟨j, hj, hc⟩ => ?_, fun _ => ?_⟩
      · rw [hall j hj] at hc
        exact absurd hc Bool.false_ne_true
      · have hfresh : staleJob g₁.cur s' = false := by
          rw [← Bool.not_eq_true, hstale]
          exact fun h => last_not_clean hall h.2
        rw [hshare, hfresh]
        rfl
    · refine ⟨fun _ => ?_, fun hall => absurd hlast.2 (last_not_clean hall)⟩
      rw [hshare, hstale.mpr hlast]
      rfl

def demoNotify (id prev clean : String) : List Byte :=
  ascii "\x7b\"method\":\"mining.notify\",\"params\":[\"" ++ ascii id ++ ascii "\",\"" ++
    ascii "000000000000000000000000000000000000000000000000000000000000000" ++ ascii prev ++
    ascii "\",\"01\",\"\",[],\"\",\"00000000\",\"0000000000000001\"," ++ ascii clean ++ ascii "]\x7d"

def demoLines : List (List Byte) :=
  [ascii "\x7b\"id\":1,\"result\":[[],\"aa\",8],\"error\":null\x7d",
    ascii "\x7b\"id\":2,\"result\":true,\"error\":null\x7d",
    ascii "\x7b\"method\":\"mining.set_difficulty\",\"params\":[1.1e-9]\x7d",
    demoNotify "A" "0" "true"]

def demoEnv : DialEnv := ⟨some (ascii "10.0.0.1"), 3, true, true, true, true, true⟩

def demoInit : Stratum := stratumInit (ascii "pool") 3333 (ascii "w") (ascii "x")

def demoGlobals : Worksrc :=
  let s := demoLines.foldl (fun s text => onLine s text 1000) (dial demoInit 1000 demoEnv).session
  worksrcStratumConfigure .sia s none

def demoBuild : Worksrc × Option WorkCtx := buildFrom demoGlobals .main false

def demoCtx : WorkCtx := demoBuild.2.getD zeroCtx

def demoTop64 : U64 := 0x0b4ce36ce24dd5be#64

theorem cancelled_job_share_clean :
    ∃ j, buildFrom demoGlobals .main false = (demoBuild.1, some demoCtx) ∧
      notifyJob (demoBuild.1.session .main) (demoNotify "B" "0" "true") = some j ∧
      (stOnCandidate (demoBuild.1.setSession .main
        (onLine (demoBuild.1.session .main) (demoNotify "B" "0" "true") 1000)) demoCtx 4 demoTop64
          true).2.2 = none := by
  -- one evaluation of the session and its digest for all five facts
  have hdemo : demoBuild.2 = some demoCtx ∧ 0 ≤ (demoBuild.1.session .main).fd ∧
      expectedTop64 demoBuild.1.chain demoCtx.ss4 4 = demoTop64 ∧
      hashMeetsTarget (powCompare demoBuild.1.chain demoCtx.ss4 4)
        demoBuild.1.cur.target = true ∧
      (notifyJob (demoBuild.1.session .main) (demoNotify "B" "0" "true")).any
        StratumJob.clean = true := by decide +kernel
  obtain ⟨hbuild, hup, hver, hmeets, hj⟩ := hdemo
  obtain ⟨j, hj, hclean⟩ := (Option.any_eq_true _ _).mp hj
  have hpair : buildFrom demoGlobals .main false = (demoBuild.1, some demoCtx) := by
    rw [← hbuild, Prod.mk.eta, demoBuild]
  have hnot : Notified (demoBuild.1.session .main) [j]
      (onLine (demoBuild.1.session .main) (demoNotify "B" "0" "true") 1000) := .cons hj (.nil _)
  have h := cancelled_job_share_iff demoGlobals demoBuild.1 .main false demoCtx
    (onLine (demoBuild.1.session .main) (demoNotify "B" "0" "true") 1000) [j] 4 demoTop64
    hpair hup hnot hver hmeets
  exact ⟨j, hpair, hj, (h.mpr (.inr ⟨by simp, by simpa using hclean⟩)).1 ⟨j, by simp, hclean⟩⟩

/-- Job B is clean, job C after it is not, and a share of job A goes out. -/
theorem share_for_cancelled_job :
    let s₁ := onLine demoBuild.1.main (demoNotify "B" "0" "true") 1000
    let s₂ := onLine s₁ (demoNotify "C" "0" "false") 1000
    (notifyJob demoBuild.1.main (demoNotify "B" "0" "true")).map StratumJob.clean = some true ∧
      (notifyJob s₁ (demoNotify "C" "0" "false")).map StratumJob.clean = some false ∧
      (stOnCandidate (demoBuild.1.setSession .main s₂) demoCtx 4 demoTop64
        true).2.2.map Share.jobId = some (ascii "A") := by
  decide +kernel

end CleanJobs

end OspreyBlake2b.Miner
