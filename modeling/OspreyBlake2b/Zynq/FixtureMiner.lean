import OspreyBlake2b.Miner.RollLaws
import OspreyBlake2b.Zynq.FixtureThread

namespace OspreyBlake2b.Zynq

open OspreyBlake2b.Lib OspreyBlake2b.Lib.JsonText OspreyBlake2b.Miner

section Work

variable {g : Worksrc} {now : U64}

theorem buildCalls_same {b : BuildCall} (hb : b ∈ buildCalls g now) : SameSessions g b.src := by
  have hfee := sameSessions_setDevfee g (devfeePoolEpoch g.devfee).1
  rw [buildCalls] at hb
  split at hb
  case isFalse => cases hb
  case isTrue =>
    dsimp only at hb
    generalize g.setDevfee (devfeePoolEpoch g.devfee).1 = g₁ at hb hfee
    have htry := (tryDevWork_spec g₁).1
    have hback := (hfee.trans htry).trans
      (sameSessions_setDevfee (tryDevWork g₁).1 (devfeePoolSkip (tryDevWork g₁).1.devfee))
    split at hb
    · split at hb
      · split at hb
        · rw [List.mem_singleton.mp hb]
          exact hfee
        · simp only [List.mem_cons, List.not_mem_nil, or_false] at hb
          obtain rfl | rfl := hb
          · exact hfee
          · exact hback
      · rw [List.mem_singleton.mp hb]
        exact hback
    · rw [List.mem_singleton.mp hb]
      exact hfee

theorem stGetWork_ready {ctx : WorkCtx} (h : (stGetWork g now).2 = some ctx) :
    stratumReady g.main = true := by
  by_contra hready
  rw [Bool.not_eq_true] at hready
  rw [stGetWork, hready] at h
  cases h

theorem stGetWork_en2 {ctx : WorkCtx} {x : Sess} (h : (stGetWork g now).2 = some ctx)
    (hx : (stGetWork g now).1.cur.sess = some x) :
    (stGetWork g now).1.cur.en2.length = en2Len (g.session x) := by
  obtain ⟨b, hb, hctx, hcur, -⟩ := stGetWork_item h
  have hsome : b.result.2.isSome = true := by rw [hctx]; rfl
  have hsess : b.sess = x := Option.some.inj ((BuildCall.sess_eq hsome).symm.trans (hcur ▸ hx))
  have hsame := buildCalls_same (List.mem_of_getLast? hb)
  have hen2 : (stGetWork g now).1.cur.en2 = b.en2 := congrArg Cur.en2 hcur
  rw [hen2, (BuildCall.rolled hsome).2, en2Bytes_length, BuildCall.size, BuildCall.session,
    hsame.session, hsess]

theorem pushWork_item {p : Pool} {t : U64} {accepts : Nat} {pushed : Bool}
    (h : (pushWork p t now accepts).2 = .offered pushed) :
    ∃ ctx, stGetWork p.src now = ((pushWork p t now accepts).1.src, some ctx) := by
  revert h
  rw [pushWork]
  split
  case isFalse => intro h; cases h
  case isTrue =>
    generalize stGetWork p.src now = r
    obtain ⟨src, _ | next⟩ := r
    · intro h
      cases h
    · intro _
      refine ⟨next, ?_⟩
      dsimp only
      split
      · rfl
      · split <;> rfl

end Work

section Candidates

theorem stOnCandidate_session (g : Worksrc) (ctx : WorkCtx) (nonce hashTop64 : U64) (sendOk : Bool) :
    let r := stOnCandidate g ctx nonce hashTop64 sendOk
    (r.2.2 = none ∧ ∀ y, r.1.session y = g.session y) ∨
      ∃ x, Submits g ctx nonce hashTop64 x ∧ r.2.2 = some (shareOf g x nonce) ∧
        r.1.session x = (stratumSubmit (g.session x) sendOk).1 ∧
        ∀ y, x ≠ y → r.1.session y = g.session y := by
  intro r
  cases hshare : r.2.2 with
  | some share =>
    obtain ⟨x, hx, rfl⟩ := submits_of_share hshare
    refine .inr ⟨x, hx, rfl, ?_⟩
    have hr : r.1.session x = (stratumSubmit (g.session x) sendOk).1 ∧
        ∀ y, x ≠ y → r.1.session y = g.session y := by
      simp only [r, stOnCandidate, hx.verified, hx.meets, hx.valid, hx.sess, hx.fresh, ne_eq,
        not_true_eq_false, Bool.not_true, Bool.false_eq_true, if_false]
      have hset (s' : Stratum) (g' : Worksrc) (hg : SameSessions (g.setSession x s') g') :
          g'.session x = s' ∧ ∀ y, x ≠ y → g'.session y = g.session y := by
        refine ⟨(hg.session x).trans (session_setSession_same g x s'), fun y hy => ?_⟩
        exact (hg.session y).trans (session_setSession_other g hy s')
      split
      · rename_i s' hsub
        rw [hsub]
        split
        · exact hset s' _ (sameSessions_setDevfee _ _)
        · exact hset s' _ (SameSessions.refl _)
      · rename_i s' hsub
        rw [hsub]
        exact hset s' _ (SameSessions.refl _)
    exact hr
  | none =>
    refine .inl ⟨rfl, fun y => ?_⟩
    revert hshare
    simp only [r, stOnCandidate]
    split
    · exact fun _ => rfl
    split
    · exact fun _ => rfl
    split
    case h_2 => exact fun _ => rfl
    case h_1 x _ _ =>
      split
      · exact fun _ => rfl
      split
      · exact fun h => absurd h (Option.some_ne_none _)
      · rename_i s' hsub
        intro h
        have hdown : (g.session x).fd < 0 := by
          by_contra hup
          rw [if_neg hup] at h
          cases h
        rw [stratumSubmit_down _ _ hdown] at hsub
        obtain rfl := (Prod.mk.inj hsub).1
        cases x <;> rfl

theorem react_candidate_main (p : Pool) (nonce hashTop64 : U64) (sendOk : Bool) :
    let r := p.react (.candidate nonce hashTop64 sendOk)
    (r.1.src.main = p.src.main ∧ ∀ share, r.2 = .submitted share → share.sess ≠ .main) ∨
      (p.haveWork = true ∧ Submits p.src p.ctx nonce hashTop64 .main ∧
        r.1.src.main = (stratumSubmit p.src.main sendOk).1 ∧
        r.2 = .submitted (shareOf p.src .main nonce)) := by
  intro r
  cases hwork : p.haveWork with
  | false =>
    have hr : r = (p, .none) := if_neg (ne_true_of_eq_false hwork)
    rw [hr]
    exact .inl ⟨rfl, fun share h => by cases h⟩
  | true =>
    have hr : r = onCandidate p nonce hashTop64 sendOk := if_pos hwork
    have hsess := stOnCandidate_session p.src p.ctx nonce hashTop64 sendOk
    rw [hr, onCandidate]
    generalize stOnCandidate p.src p.ctx nonce hashTop64 sendOk = c at hsess
    obtain ⟨src, verdict, share⟩ := c
    obtain ⟨rfl, hkeep⟩ | ⟨x, hx, hshare, hthis, hother⟩ := hsess
    · exact .inl ⟨hkeep .main, fun share h => by cases h⟩
    · dsimp only at hshare hthis hother
      subst hshare
      cases x with
      | main => exact .inr ⟨rfl, hx, hthis, rfl⟩
      | dev =>
        refine .inl ⟨hother .main Sess.noConfusion, fun share h => ?_⟩
        obtain rfl := Effect.submitted.inj h
        exact Sess.noConfusion

end Candidates

def targetFor (difficulty : Double) : List Byte :=
  bnShl32 (bnDivU64 Miner.diff1Target (dscaled difficulty))

theorem stratumTargetFull_eq (s : Stratum) : stratumTargetFull s = targetFor s.difficulty := rfl

section Mining

variable (chain : Chain) (difficulty : Number) (worker password : List Byte)

structure Client (s : Stratum) (steps : Nat) : Prop where
  worker : s.worker = worker
  password : s.password = password
  en2Size : s.en2Size = extranonce2Size
  lastId : s.nextId.toNat ≤ 3 * steps
  idle : s.fd < 0 → s.haveJob = false

/-- Nothing but jobs of the test server, at its difficulty, is ever offered; while the item
offered last is not dead, it is the job of the session. -/
structure Mining (w : Watched) (steps : Nat) : Prop where
  agrees : Agrees w
  tracks : Tracks w
  ground : w.past.behind = false → w.past.ground = w.past.built
  chain : w.pool.src.chain = chain
  client : Client worker password w.pool.src.main steps
  offered : w.pool.src.cur.sess = some .main → w.pool.src.cur.jobId = jobName 1 ∧
    w.pool.src.cur.en2.length = 8 ∧ w.pool.src.cur.ntime.length = 8 ∧
    w.pool.src.cur.target = targetFor (.round difficulty.val)
  kept : ∀ o, w.past.built = some o → o.sess = .main → w.past.dead = false →
    0 ≤ w.pool.src.main.fd → w.pool.src.main.haveJob = true ∧ w.pool.src.main.job = o.job

variable {chain difficulty worker password} {w : Watched} {steps : Nat}

theorem Client.later {s : Stratum} (h : Client worker password s steps) :
    Client worker password s (steps + 1) :=
  ⟨h.worker, h.password, h.en2Size, by have := h.lastId; omega, h.idle⟩

theorem Mining.init {main : Stratum} (dev : Option Stratum) (hclient : Client worker password main 0) :
    Mining chain difficulty worker password (watchedInit (worksrcStratumConfigure chain main dev)) 0 where
  agrees := fun h => absurd h Bool.false_ne_true
  tracks := ⟨rfl, fun _ h => by cases h⟩
  ground := fun _ => rfl
  chain := rfl
  client := hclient
  offered := fun h => by cases h
  kept := fun _ h => by cases h

theorem step_session {e : Event} {x : Sess} (he : e.session? = some x) :
    ∃ s', w.step e = ⟨{ w.pool with src := w.pool.src.setSession x s' },
      { w.past with
        dead := w.past.dead || outlives w.past x (w.pool.src.session x) s' (e.rotates w.pool.src) }⟩ := by
  obtain ⟨heff, s', hp⟩ := react_session w.pool e x he
  refine ⟨s', ?_⟩
  simp only [Watched.step, heff, hp, History.watch, he, session_setSession_same]

theorem Mining.session (h : Mining chain difficulty worker password w steps) {e : Event}
    (he : e.session? = some .main)
    (hclient : Client worker password (w.step e).pool.src.main (steps + 1))
    (hkeep : 0 ≤ (w.step e).pool.src.main.fd →
      (w.step e).pool.src.main.reconnects = w.pool.src.main.reconnects →
      0 ≤ w.pool.src.main.fd ∧ (w.pool.src.main.haveJob = true →
        (w.step e).pool.src.main.haveJob = true ∧
          (w.step e).pool.src.main.job = w.pool.src.main.job)) :
    Mining chain difficulty worker password (w.step e) (steps + 1) := by
  have hagrees := agrees_step w e h.agrees
  have htracks := tracks_step w e h.tracks
  obtain ⟨s', hstep⟩ := step_session (w := w) he
  rw [hstep] at hclient hkeep hagrees htracks ⊢
  refine ⟨hagrees, htracks, h.ground, h.chain, hclient, h.offered, ?_⟩
  intro o ho hsess hdead hup
  obtain ⟨hdead, hout⟩ := Bool.or_eq_false_iff.mp hdead
  rw [← hsess] at hout
  obtain ⟨-, -, hconn⟩ := not_outlives ho hout
  rw [hsess] at hconn
  obtain ⟨hup', hjob⟩ := hkeep hup hconn
  obtain ⟨hhave, hsame⟩ := h.kept o ho hsess hdead hup'
  exact ⟨(hjob hhave).1, (hjob hhave).2.trans hsame⟩

theorem Mining.dev (h : Mining chain difficulty worker password w steps) {e : Event}
    (he : e.session? = some .dev) :
    (w.step e).pool.src.main = w.pool.src.main ∧
      Mining chain difficulty worker password (w.step e) (steps + 1) := by
  have hagrees := agrees_step w e h.agrees
  have htracks := tracks_step w e h.tracks
  obtain ⟨s', hstep⟩ := step_session (w := w) he
  rw [hstep] at hagrees htracks ⊢
  refine ⟨rfl, hagrees, htracks, h.ground, h.chain, h.client.later, h.offered, ?_⟩
  intro o ho hsess hdead
  exact h.kept o ho hsess (Bool.or_eq_false_iff.mp hdead).1

theorem originOf_main {g : Worksrc} {o : Origin} (h : originOf g = some o) (hsess : o.sess = .main) :
    o.job = g.main.job := by
  obtain ⟨x, -, rfl⟩ := Option.map_eq_some_iff.mp h
  obtain rfl : x = .main := hsess
  rfl

theorem stGetWork_main {g g' : Worksrc} {now : U64} {ctx : WorkCtx}
    (hget : stGetWork g now = (g', some ctx)) (hsize : g.main.en2Size = extranonce2Size)
    (hid : g.main.job.jobId = jobName 1) (hdiff : g.main.difficulty = .round difficulty.val)
    (hsess : g'.cur.sess = some .main) :
    g'.cur.jobId = jobName 1 ∧ g'.cur.en2.length = 8 ∧ g'.cur.ntime.length = 8 ∧
      g'.cur.target = targetFor (.round difficulty.val) := by
  have hspec := stGetWork_spec g now
  have hlen (hsome : (stGetWork g now).2 = some ctx) := stGetWork_en2 hsome (x := .main)
  rw [hget] at hspec hlen
  obtain ⟨-, x, hx⟩ : BuildSpec g g' (some ctx) := hspec
  obtain rfl : x = .main := Option.some.inj (hx.sess.symm.trans hsess)
  refine ⟨hx.jobId.trans hid, ?_, ?_, ?_⟩
  · have hen2 : g'.cur.en2.length = en2Len g.main := hlen rfl hsess
    rw [hen2, en2Len, hsize]
    rfl
  · have htime := congrArg List.length hx.ntime
    rwa [Vector.length_toList] at htime
  · have htarget : g'.cur.target = stratumTargetFull g.main := hx.target
    rw [htarget, stratumTargetFull_eq, hdiff]

theorem Mining.work (h : Mining chain difficulty worker password w steps) (t now : U64) (accepts : Nat)
    (hjob : stratumReady w.pool.src.main = true →
      w.pool.src.main.job.jobId = jobName 1 ∧ w.pool.src.main.difficulty = .round difficulty.val) :
    (w.step (.work t now accepts)).pool.src.main = w.pool.src.main ∧
      Mining chain difficulty worker password (w.step (.work t now accepts)) (steps + 1) := by
  have hagrees := agrees_step w (.work t now accepts) h.agrees
  have htracks := tracks_step w (.work t now accepts) h.tracks
  have hcases := pushWork_cases w.pool t now accepts
  have hitem (pushed : Bool) : (pushWork w.pool t now accepts).2 = .offered pushed →
      ∃ ctx, stGetWork w.pool.src now = ((pushWork w.pool t now accepts).1.src, some ctx) :=
    pushWork_item
  have hstep : w.step (.work t now accepts) = ⟨(pushWork w.pool t now accepts).1,
      w.past.watch w.pool (pushWork w.pool t now accepts).1 (.work t now accepts)
        (pushWork w.pool t now accepts).2⟩ := rfl
  rw [hstep] at hagrees htracks ⊢
  generalize pushWork w.pool t now accepts = r at hagrees htracks hcases hitem ⊢
  obtain ⟨p', eff⟩ := r
  -- an item is offered, and the push is one or is none
  have hbuilt (pushed : Bool) (heff : eff = .offered pushed) (hsame : SameSessions w.pool.src p'.src) :
      p'.src.main = w.pool.src.main ∧ Mining chain difficulty worker password
        ⟨p', w.past.watch w.pool p' (.work t now accepts) eff⟩ (steps + 1) := by
    have hmain : p'.src.main = w.pool.src.main := hsame.session .main
    obtain ⟨ctx, hget⟩ := hitem pushed heff
    dsimp only at hget
    have hready : stratumReady w.pool.src.main = true := stGetWork_ready (congrArg Prod.snd hget)
    obtain ⟨hid, hdiff⟩ := hjob hready
    subst heff
    refine ⟨hmain, hagrees, htracks, ?_, hsame.chain.trans h.chain, ?_,
      stGetWork_main hget h.client.en2Size hid hdiff, ?_⟩
    · intro hpushed
      have hpushed : pushed = true := by simpa [History.watch] using hpushed
      change (if pushed = true then originOf p'.src else w.past.ground) = originOf p'.src
      rw [if_pos hpushed]
    · rw [hmain]
      exact h.client.later
    · intro o ho hsess _ _
      rw [stratumReady, decide_eq_true_eq] at hready
      have horigin : o.job = p'.src.main.job := originOf_main ho hsess
      rw [horigin, hmain]
      exact ⟨hready.2.2.2, rfl⟩
  cases hcases with
  | idle hsame hcur hctx hwork =>
    have hmain : p'.src.main = w.pool.src.main := hsame.session .main
    refine ⟨hmain, hagrees, htracks, h.ground, hsame.chain.trans h.chain, ?_, ?_, ?_⟩
    · rw [hmain]
      exact h.client.later
    · intro hsess
      dsimp only at hcur hsess ⊢
      rw [hcur] at hsess ⊢
      exact h.offered hsess
    · intro o ho hsess hdead
      rw [hmain]
      exact h.kept o ho hsess hdead
  | failed x ctx hsame => exact hbuilt false rfl hsame
  | ok x hsame => exact hbuilt true rfl hsame

theorem client_stratumSubmit {s : Stratum} (h : Client worker password s steps) (ok : Bool) :
    Client worker password (stratumSubmit s ok).1 (steps + 1) := by
  have hlast : (s.nextId + 1).toNat ≤ s.nextId.toNat + 1 := by
    rw [BitVec.toNat_add]
    exact Nat.mod_le _ _
  have hbound := h.lastId
  obtain ⟨-, hs⟩ | ⟨-, -, hs⟩ | ⟨-, -, hs⟩ := stratumSubmit_cases s ok <;> rw [hs]
  · exact h.later
  · exact ⟨h.worker, h.password, h.en2Size, hlast.trans (by omega), fun _ => rfl⟩
  · exact ⟨h.worker, h.password, h.en2Size, hlast.trans (by omega), h.idle⟩

theorem Mining.candidate (h : Mining chain difficulty worker password w steps) (nonce hashTop64 : U64)
    (sendOk : Bool) :
    Mining chain difficulty worker password (w.step (.candidate nonce hashTop64 sendOk)) (steps + 1) := by
  have hagrees := agrees_step w (.candidate nonce hashTop64 sendOk) h.agrees
  have htracks := tracks_step w (.candidate nonce hashTop64 sendOk) h.tracks
  have hmain := react_candidate_main w.pool nonce hashTop64 sendOk
  obtain ⟨src, hstep, hcur, hchain, -⟩ := watched_candidate w nonce hashTop64 sendOk
  have hsrc : (w.pool.react (.candidate nonce hashTop64 sendOk)).1.src = src :=
    congrArg (fun w => w.pool.src) hstep
  dsimp only at hmain
  rw [hsrc] at hmain
  rw [hstep] at hagrees htracks ⊢
  -- a session that stays up stays as it was, or has one more share out
  have hnext : src.main = w.pool.src.main ∨ src.main = (stratumSubmit w.pool.src.main sendOk).1 := by
    obtain ⟨hsame, -⟩ | ⟨-, -, hsubmit, -⟩ := hmain
    · exact .inl hsame
    · exact .inr hsubmit
  refine ⟨hagrees, htracks, h.ground, hchain.trans h.chain, ?_, ?_, ?_⟩
  · obtain hsame | hsubmit := hnext
    · rw [hsame]
      exact h.client.later
    · rw [hsubmit]
      exact client_stratumSubmit h.client sendOk
  · intro hsess
    rw [hcur] at hsess ⊢
    exact h.offered hsess
  · intro o ho hsess hdead hup
    obtain hsame | hsubmit := hnext
    · rw [hsame] at hup ⊢
      exact h.kept o ho hsess hdead hup
    · rw [hsubmit] at hup ⊢
      obtain ⟨-, hs⟩ | ⟨-, -, hs⟩ | ⟨hup', -, hs⟩ := stratumSubmit_cases w.pool.src.main sendOk
      · rw [hs] at hup ⊢
        exact h.kept o ho hsess hdead hup
      · rw [hs] at hup
        exact absurd (drop_down _) (Int.not_lt.mpr hup)
      · rw [hs]
        exact h.kept o ho hsess hdead (Int.not_lt.mp hup')

theorem Mining.shareFits (h : Mining chain difficulty worker password w steps)
    (hsess : w.pool.src.cur.sess = some .main) (nonce : U64) :
    ShareFits (shareOf w.pool.src .main nonce) := by
  obtain ⟨hid, hen2, htime, -⟩ := h.offered hsess
  exact ⟨hid, hen2, htime, leBytes_length 8 nonce⟩

theorem Mining.sound (h : Mining chain difficulty worker password w steps)
    (hwork : w.pool.haveWork = true) (hsess : w.pool.src.cur.sess = some .main)
    (hbehind : w.past.behind = false) (hdead : w.past.dead = false) (hup : 0 ≤ w.pool.src.main.fd) :
    w.pool.src.main.haveJob = true ∧ w.pool.src.cur.ntime = w.pool.src.main.job.ntime.toList ∧
      buildMessages w.pool.src.chain w.pool.src.main.job w.pool.src.main.en1 w.pool.src.cur.en2 =
        some (w.pool.ctx.ss3, w.pool.ctx.ss4) := by
  obtain ⟨o, ho, hd⟩ := h.agrees hwork hbehind
  rw [h.ground hbehind] at ho
  have hmain : o.sess = .main := Option.some.inj (hd.sess.symm.trans hsess)
  obtain ⟨hhave, hjob⟩ := h.kept o ho hmain hdead hup
  obtain ⟨hen1, -, -⟩ := h.tracks.alive o ho hdead
  rw [hmain] at hen1
  change w.pool.src.main.en1 = o.en1 at hen1
  rw [hjob, hen1, hd.en2]
  exact ⟨hhave, hd.ntime, hd.messages⟩

end Mining

end OspreyBlake2b.Zynq
