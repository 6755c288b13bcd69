import OspreyBlake2b.Lib.Machine
import OspreyBlake2b.Miner.WorksrcStratumLaws

/-! The pool-mode fee.  `st_get_work` counts the epoch before it builds the item, so
the counters agree with the items exactly as long as no build of a counted call is
refused. -/

namespace OspreyBlake2b.Miner

open OspreyBlake2b.Lib OspreyBlake2b.Lib.Machine

def builds (chain : Chain) (s : Stratum) : Bool :=
  let arblen := s.job.coinb1.length + s.en1.length + en2Len s + s.job.coinb2.length
  en2Len s ≤ stratumMaxEn2 ∧ arblen ≤ 4 * stratumMaxCb ∧
    (chain = .knots → arblen + 1 = stage3Len ∧ s.job.branches.length = 0)

section Building

theorem siaBuildHeader_isSome (j : StratumJob) (en1 en2 : List Byte) :
    (siaBuildHeader j en1 en2).isSome = true ↔
      j.coinb1.length + en1.length + en2.length + j.coinb2.length ≤ 4 * stratumMaxCb := by
  rw [siaBuildHeader, siaArbtx]
  split <;> simp <;> omega

theorem siaBuildStages_isSome (j : StratumJob) (en1 en2 : List Byte) :
    (siaBuildStages j en1 en2).isSome = true ↔
      j.coinb1.length + en1.length + en2.length + j.coinb2.length ≤ 4 * stratumMaxCb ∧
        j.coinb1.length + en1.length + en2.length + j.coinb2.length + 1 = stage3Len := by
  rw [siaBuildStages, siaArbtx]
  split
  · simp
    omega
  · simp only [Option.bind_eq_bind, Option.bind_some, List.length_append]
    split <;> simp <;> omega

theorem buildMessages_isSome (chain : Chain) (j : StratumJob) (en1 en2 : List Byte) :
    (buildMessages chain j en1 en2).isSome = true ↔
      j.coinb1.length + en1.length + en2.length + j.coinb2.length ≤ 4 * stratumMaxCb ∧
        (chain = .knots →
          j.coinb1.length + en1.length + en2.length + j.coinb2.length + 1 = stage3Len ∧
            j.branches.length = 0) := by
  cases chain with
  | sia => simp [buildMessages, siaBuildHeader_isSome]
  | knots =>
    have h := siaBuildStages_isSome j en1 en2
    rw [buildMessages]
    cases hst : siaBuildStages j en1 en2 with
    | none =>
      rw [hst] at h
      simp only [Option.bind_none, Option.isSome_none, Bool.false_eq_true, false_iff] at h ⊢
      rintro ⟨hle, hknots⟩
      exact h ⟨hle, (hknots trivial).1⟩
    | some st =>
      rw [hst] at h
      obtain ⟨hle, hlen⟩ := h.mp rfl
      simp only [Option.bind_some]
      split
      · rename_i hbranches
        exact iff_of_false Bool.false_ne_true fun hk => hbranches (hk.2 trivial).2
      · rename_i hbranches
        exact iff_of_true rfl ⟨hle, fun _ => ⟨hlen, not_not.mp hbranches⟩⟩

variable (g : Worksrc)

structure Built (g : Worksrc) (x : Sess) (ok : Bool) (r : Worksrc × Option WorkCtx) : Prop where
  item : r.2.isSome = ok
  devfee : r.1.devfee = g.devfee
  chain : r.1.chain = g.chain
  main : r.1.main = g.main
  sess : r.2.isSome = true → r.1.cur.sess = some x

theorem buildFrom_built (x : Sess) (isDev : Bool) :
    Built g x (builds g.chain (g.session x)) (buildFrom g x isDev) := by
  simp only [buildFrom]
  split
  · rename_i hen2
    refine ⟨?_, rfl, rfl, rfl, fun h => by cases h⟩
    exact (decide_eq_false fun h => absurd h.1 (by omega)).symm
  · rename_i hen2
    have hiff := buildMessages_isSome g.chain (g.session x).job (g.session x).en1
      (en2Bytes (en2Len (g.session x)) (g.en2Counter + 1))
    rw [en2Bytes_length] at hiff
    split
    · rename_i hmsg
      rw [hmsg] at hiff
      refine ⟨?_, rfl, rfl, rfl, fun h => by cases h⟩
      exact (decide_eq_false fun h => Bool.false_ne_true (hiff.mpr h.2)).symm
    · rename_i hmsg
      rw [hmsg] at hiff
      refine ⟨?_, rfl, rfl, rfl, fun _ => rfl⟩
      exact (decide_eq_true ⟨by omega, hiff.mp rfl⟩).symm

theorem getMainWork_built (now : U64) :
    Built g .main (builds g.chain g.main) (getMainWork g now) := by
  have h := buildFrom_built g .main false
  rw [getMainWork]
  generalize buildFrom g .main false = r at h
  obtain ⟨g', _ | ctx⟩ := r
  · exact h
  · exact ⟨h.item, h.devfee, h.chain, h.main, h.sess⟩

theorem tryDevWork_built :
    Built g .dev (g.devConfigured && stratumReady g.dev && builds g.chain g.dev) (tryDevWork g) := by
  rw [tryDevWork]
  have h := buildFrom_built g .dev true
  split
  · rename_i hdev
    rw [hdev.1, hdev.2]
    exact h
  · rename_i hdev
    refine ⟨?_, rfl, rfl, rfl, fun h => by cases h⟩
    revert hdev
    cases g.devConfigured <;> cases stratumReady g.dev <;> simp

end Building

def due (g : Worksrc) (now : U64) : Bool :=
  stratumReady g.main ∧
    (!g.havePushed ∨ g.lastPrevhash ≠ g.main.job.prevhash ∨ now - g.lastPushAt ≥ pushMaxAgeS)

def devServed (g : Worksrc) : Bool :=
  (g.devfee.jobs + 1).toNat % devfeeInterval = 0 ∧ g.devConfigured ∧ stratumReady g.dev ∧
    builds g.chain g.dev

structure Call where
  main : Stratum
  dev : Stratum
  now : U64

structure Fee where
  src : Worksrc
  items : Nat
  devItems : Nat

def Fee.before (w : Fee) (c : Call) : Worksrc := { w.src with main := c.main, dev := c.dev }

def Fee.step (w : Fee) (c : Call) : Fee :=
  match stGetWork (w.before c) c.now with
  | (src, none) => { w with src := src }
  | (src, some _) =>
    ⟨src, w.items + 1, w.devItems + if src.cur.sess = some .dev then 1 else 0⟩

def feeInit (src : Worksrc) : Fee := ⟨src.setDevfee ⟨0, 0, 0, 0⟩, 0, 0⟩

def FairShare (w : Fee) : Prop :=
  20 * w.devItems ≤ w.items ∧ w.src.devfee.jobs.toNat = w.items ∧
    (w.src.devfee.devJobs.toNat : Int) - w.src.devfee.skipped.toNat = w.devItems

/-- A call that is counted gets its item, and the count does not wrap around. -/
def Served (w : Fee) (c : Call) : Prop :=
  due (w.before c) c.now = true →
    (devServed (w.before c) = true ∨ builds w.src.chain c.main = true) ∧
      w.src.devfee.jobs.toNat + 1 < 2 ^ 64

section Counting

def counted (g : Worksrc) : DevfeePool :=
  let devDue : Bool := (g.devfee.jobs + 1).toNat % devfeeInterval = 0
  { g.devfee with
    jobs := g.devfee.jobs + 1
    devJobs := g.devfee.devJobs + if devDue then 1 else 0
    skipped := g.devfee.skipped + if devDue && !devServed g then 1 else 0 }

theorem not_due_iff (g : Worksrc) (now : U64) :
    due g now = false ↔ (!stratumReady g.main) = true ∨
      ¬ (!g.havePushed ∨ g.lastPrevhash ≠ g.main.job.prevhash) ∧
        ¬ (g.havePushed ∧ now - g.lastPushAt ≥ pushMaxAgeS) := by
  rw [due, decide_eq_false_iff_not]
  cases stratumReady g.main <;> cases g.havePushed <;> simp

theorem stGetWork_not_due {g : Worksrc} {now : U64} (h : due g now = false) :
    stGetWork g now = (g, none) := by
  simp only [stGetWork]
  obtain hready | hfresh := (not_due_iff g now).mp h
  · rw [if_pos hready]
  · rw [if_pos hfresh, ite_self]

theorem stGetWork_counted {g : Worksrc} {now : U64} (h : due g now = true) :
    stGetWork g now =
      let e := devfeePoolEpoch g.devfee
      let g := g.setDevfee e.1
      if e.2 then
        match tryDevWork g with
        | (g, some ctx) => (recordPush g now, some ctx)
        | (g, none) => getMainWork (g.setDevfee (devfeePoolSkip g.devfee)) now
      else getMainWork g now := by
  have hdue := mt (not_due_iff g now).mpr (by rw [h]; exact Bool.noConfusion)
  rw [not_or] at hdue
  simp only [stGetWork]
  exact (if_neg hdue.1).trans (if_neg hdue.2)

theorem stGetWork_due {g : Worksrc} {now : U64} (h : due g now = true) :
    (stGetWork g now).1.devfee = counted g ∧
      (stGetWork g now).2.isSome = (devServed g || builds g.chain g.main) ∧
      ((stGetWork g now).2.isSome = true →
        (stGetWork g now).1.cur.sess = if devServed g then some .dev else some .main) := by
  rw [stGetWork_counted h]
  dsimp only
  by_cases hdev : (g.devfee.jobs + 1).toNat % devfeeInterval = 0
  · have hepoch : devfeePoolEpoch g.devfee =
        ({ g.devfee with jobs := g.devfee.jobs + 1, devJobs := g.devfee.devJobs + 1 }, true) :=
      if_neg (not_not_intro hdev)
    rw [hepoch]
    have htry := tryDevWork_built (g.setDevfee
      { g.devfee with jobs := g.devfee.jobs + 1, devJobs := g.devfee.devJobs + 1 })
    have hserved : devServed g = (g.devConfigured && stratumReady g.dev && builds g.chain g.dev) := by
      simp only [devServed, hdev, true_and, Bool.decide_and, Bool.decide_eq_true, Bool.and_assoc]
    generalize tryDevWork _ = r at htry ⊢
    obtain ⟨g', _ | ctx⟩ := r
    · have hnone : devServed g = false := hserved.trans htry.item.symm
      have hmain := getMainWork_built (g'.setDevfee (devfeePoolSkip g'.devfee)) now
      have hitem := hmain.item
      have hfee := htry.devfee
      rw [hnone]
      refine ⟨hmain.devfee.trans ?_, ?_, hmain.sess⟩
      · simp only [Worksrc.setDevfee] at hfee ⊢
        simp only [counted, devfeePoolSkip, hfee, hnone, decide_eq_true hdev]
        rfl
      · have hchain : g'.chain = g.chain := htry.chain
        have hsession : g'.main = g.main := htry.main
        rw [if_pos rfl, Bool.false_or, ← hchain, ← hsession]
        exact hitem
    · have hsome : devServed g = true := hserved.trans htry.item.symm
      have hfee := htry.devfee
      rw [hsome]
      refine ⟨hfee.trans ?_, rfl, fun _ => htry.sess rfl⟩
      simp only [counted, hsome, decide_eq_true hdev]
      simp [Worksrc.setDevfee]
  · have hepoch : devfeePoolEpoch g.devfee =
        ({ g.devfee with jobs := g.devfee.jobs + 1 }, false) := if_pos hdev
    have hserved : devServed g = false := decide_eq_false fun hs => hdev hs.1
    have hmain := getMainWork_built (g.setDevfee { g.devfee with jobs := g.devfee.jobs + 1 }) now
    rw [hepoch, hserved]
    refine ⟨?_, hmain.item, hmain.sess⟩
    rw [counted, decide_eq_false hdev]
    refine hmain.devfee.trans ?_
    simp [Worksrc.setDevfee]

/-- The counters follow the items, and the dev epochs the jobs. -/
def Balanced (w : Fee) : Prop :=
  w.src.devfee.jobs.toNat = w.items ∧
    w.src.devfee.devJobs.toNat = w.src.devfee.jobs.toNat / devfeeInterval ∧
    w.src.devfee.devJobs.toNat = w.src.devfee.skipped.toNat + w.devItems

theorem Balanced.fairShare {w : Fee} (h : Balanced w) : FairShare w := by
  obtain ⟨hjobs, hdev, hitems⟩ := h
  rw [devfeeInterval] at hdev
  refine ⟨by omega, hjobs, by omega⟩

theorem Fee.step_eq (w : Fee) (c : Call) :
    w.step c = { src := (stGetWork (w.before c) c.now).1
                 items := w.items + if (stGetWork (w.before c) c.now).2.isSome then 1 else 0
                 devItems := w.devItems + if (stGetWork (w.before c) c.now).2.isSome ∧
                   (stGetWork (w.before c) c.now).1.cur.sess = some .dev then 1 else 0 } := by
  rw [Fee.step]
  generalize stGetWork (w.before c) c.now = r
  obtain ⟨g, _ | ctx⟩ := r <;> simp

theorem balanced_step (w : Fee) (c : Call) (h : Balanced w) (hs : Served w c) :
    Balanced (w.step c) := by
  obtain ⟨hjobs, hdev, hitems⟩ := h
  cases hdue : due (w.before c) c.now with
  | false =>
    have hstep : w.step c = { w with src := w.before c } := by
      rw [Fee.step, stGetWork_not_due hdue]
    rw [hstep]
    exact ⟨hjobs, hdev, hitems⟩
  | true =>
    obtain ⟨hfee, hsome, hsess⟩ := stGetWork_due hdue
    have hitem : (stGetWork (w.before c) c.now).2.isSome = true := by
      rw [hsome, Bool.or_eq_true]
      exact (hs hdue).1
    have hbefore : (w.before c).devfee = w.src.devfee := rfl
    have hroom : (w.src.devfee.jobs + 1).toNat = w.src.devfee.jobs.toNat + 1 :=
      toNat_succ (hs hdue).2
    have hdueOf : devServed (w.before c) = true →
        (w.src.devfee.jobs + 1).toNat % devfeeInterval = 0 :=
      fun hserved => (of_decide_eq_true hserved).1
    rw [hroom, devfeeInterval] at hdueOf
    rw [devfeeInterval] at hdev
    have hlast := (hs hdue).2
    -- the two counters behind the jobs have room when the jobs have
    have hdevJobs : (w.src.devfee.devJobs + 1).toNat = w.src.devfee.devJobs.toNat + 1 :=
      toNat_succ (by omega)
    have hskipped : (w.src.devfee.skipped + 1).toNat = w.src.devfee.skipped.toNat + 1 :=
      toNat_succ (by omega)
    rw [Fee.step_eq, hitem, hsess hitem, Balanced]
    simp only [hfee, counted, hbefore, hroom, devfeeInterval]
    cases hserved : devServed (w.before c) with
    | false =>
      by_cases hepoch : (w.src.devfee.jobs.toNat + 1) % 20 = 0
      · simp only [hepoch, decide_true, Bool.not_false, Bool.and_self, if_true, hdevJobs, hskipped,
          Bool.false_eq_true, if_false]
        refine ⟨by omega, by omega, ?_⟩
        simp only [true_and, Option.some.injEq, reduceCtorEq, if_false]
        omega
      · simp only [hepoch, decide_false, Bool.false_and, Bool.false_eq_true, if_false]
        refine ⟨by simp; omega, by simp; omega, ?_⟩
        simp only [true_and, Option.some.injEq, reduceCtorEq, if_false]
        simp; omega
    | true =>
      have hepoch := hdueOf hserved
      simp only [hepoch, decide_true, Bool.not_true, Bool.and_false, Bool.false_eq_true, if_false,
        if_true, hdevJobs]
      refine ⟨by omega, by omega, ?_⟩
      simp; omega

theorem served_of_fairShare (w : Fee) (c : Call) (h : Balanced w) (hfair : FairShare (w.step c)) :
    Served w c := by
  intro hdue
  obtain ⟨hfee, hsome, -⟩ := stGetWork_due hdue
  have hjobs := hfair.2.1
  rw [Fee.step_eq] at hjobs
  have hbefore : (w.before c).devfee = w.src.devfee := rfl
  simp only [hfee, counted, hbefore] at hjobs
  have hstep := BitVec.toNat_add w.src.devfee.jobs 1
  have hone : (1 : U64).toNat = 1 := rfl
  have hlt := w.src.devfee.jobs.isLt
  have hbase : w.src.devfee.jobs.toNat = w.items := h.1
  have hitem : (stGetWork (w.before c) c.now).2.isSome = true := by
    by_contra hnone
    rw [if_neg hnone] at hjobs
    omega
  refine ⟨by rwa [hsome, Bool.or_eq_true] at hitem, ?_⟩
  rw [if_pos hitem] at hjobs
  omega

end Counting

/-- The three equations hold at every time of a run exactly when every call that was
counted had a job to build. -/
theorem fee_fair_iff (src : Worksrc) (calls : List Call) :
    (∀ k, FairShare (run Fee.step (feeInit src) (calls.take k))) ↔
      Along Fee.step Served (feeInit src) calls :=
  Along.iff_holds Balanced (fun _ h => h.fairShare) balanced_step served_of_fairShare
    ⟨rfl, (Nat.zero_div _).symm, rfl⟩

def fittingLine : List Byte :=
  ascii "\x7b\"method\":\"mining.notify\",\"params\":[\"F\",\"" ++ List.replicate 64 (char '0') ++
    ascii "\",\"" ++ List.replicate 84 (char '0') ++
    ascii "\",\"\",[],\"\",\"00000000\",\"0000000000000001\",true]\x7d"

def upWith (line : List Byte) : Stratum :=
  (demoLines.take 3 ++ [line]).foldl (fun s text => onLine s text 1000)
    (dial demoInit 1000 demoEnv).session

def refusedSrc : Worksrc := worksrcStratumConfigure .knots demoInit (some demoInit)

def refusedCall : Call := ⟨upWith (demoNotify "A" "0" "true"), upWith fittingLine, 1000⟩

/-- Nineteen jobs are refused, and the first item of all is the dev session's. -/
theorem fee_above_share :
    let w := run Fee.step (feeInit refusedSrc) (List.replicate 20 refusedCall)
    w.items = 1 ∧ w.devItems = 1 ∧ w.src.devfee.jobs = 20 ∧ ¬ FairShare w := by
  have hrun : (run Fee.step (feeInit refusedSrc) (List.replicate 20 refusedCall)).items = 1 ∧
      (run Fee.step (feeInit refusedSrc) (List.replicate 20 refusedCall)).devItems = 1 ∧
      (run Fee.step (feeInit refusedSrc) (List.replicate 20 refusedCall)).src.devfee.jobs = 20 := by
    decide +kernel
  refine ⟨hrun.1, hrun.2.1, hrun.2.2, fun hfair => ?_⟩
  have hshare := hfair.1
  rw [hrun.1, hrun.2.1] at hshare
  omega

end OspreyBlake2b.Miner
