import OspreyBlake2b.Miner.PoolLoop
import OspreyBlake2b.Miner.WorksrcStratumLaws

namespace OspreyBlake2b.Miner

open OspreyBlake2b.Lib

structure Origin.Describes (o : Origin) (chain : Chain) (cur : Cur) (ctx : WorkCtx) : Prop where
  sess : cur.sess = some o.sess
  jobId : cur.jobId = o.job.jobId
  en2 : cur.en2 = o.en2
  ntime : cur.ntime = o.job.ntime.toList
  messages : buildMessages chain o.job o.en1 o.en2 = some (ctx.ss3, ctx.ss4)

theorem BuiltFrom.origin {g : Worksrc} {x : Sess} {ctx : WorkCtx} (h : BuiltFrom g x g.cur ctx) :
    ∃ o, originOf g = some o ∧ o.Describes g.chain g.cur ctx ∧ o.sess = x ∧
      (g.session x).en1 = o.en1 ∧ (g.session x).en1Len = o.en1Len ∧
      (g.session x).reconnects = o.conn := by
  refine ⟨⟨x, (g.session x).job, (g.session x).en1, (g.session x).en1Len, g.cur.en2,
    (g.session x).reconnects⟩, ?_, ⟨h.sess, h.jobId, rfl, h.ntime, h.messages⟩, rfl, rfl, rfl, rfl⟩
  simp [originOf, h.sess]

inductive Pushed (p p' : Pool) : Effect → Prop where
  | idle (hsrc : SameSessions p.src p'.src) (hcur : p'.src.cur = p.src.cur)
      (hctx : p'.ctx = p.ctx) (hwork : p'.haveWork = p.haveWork) : Pushed p p' .none
  | failed (x : Sess) (ctx : WorkCtx) (hsrc : SameSessions p.src p'.src)
      (hbuilt : BuiltFrom p'.src x p'.src.cur ctx) (hctx : p'.ctx = p.ctx)
      (hwork : p'.haveWork = p.haveWork) : Pushed p p' (.offered false)
  | ok (x : Sess) (hsrc : SameSessions p.src p'.src)
      (hbuilt : BuiltFrom p'.src x p'.src.cur p'.ctx) : Pushed p p' (.offered true)

theorem pushWork_cases (p : Pool) (t now : U64) (accepts : Nat) :
    Pushed p (pushWork p t now accepts).1 (pushWork p t now accepts).2 := by
  have h := stGetWork_spec p.src now
  simp only [pushWork]
  split
  case isFalse => exact .idle (SameSessions.refl _) rfl rfl rfl
  case isTrue =>
    generalize stGetWork p.src now = r at h
    obtain ⟨src, _ | next⟩ := r
    · exact .idle h.1 h.2 rfl rfl
    · obtain ⟨hsrc, x, hx⟩ := h
      have hx' : BuiltFrom src x src.cur next := hx.congr ⟨hsrc.chain.symm, fun y => (hsrc.session y).symm⟩
      simp only
      split
      · exact .failed x next hsrc hx' rfl rfl
      split
      · exact .ok x hsrc hx'
      · exact .failed x next hsrc hx' rfl rfl

theorem react_session (p : Pool) (e : Event) (x : Sess) (he : e.session? = some x) :
    (p.react e).2 = .none ∧
      ∃ s', (p.react e).1 = { p with src := p.src.setSession x s' } := by
  have hself : p = { p with src := p.src.setSession x (p.src.session x) } := by
    cases x <;> rfl
  cases e with
  | line y text now =>
    obtain rfl := Option.some.inj he
    simp only [Pool.react]
    split
    · exact ⟨rfl, _, rfl⟩
    · exact ⟨rfl, _, hself⟩
  | lost y =>
    obtain rfl := Option.some.inj he
    simp only [Pool.react]
    split
    · exact ⟨rfl, _, rfl⟩
    · exact ⟨rfl, _, hself⟩
  | dial y now env =>
    obtain rfl := Option.some.inj he
    simp only [Pool.react]
    split
    · exact ⟨rfl, _, rfl⟩
    · exact ⟨rfl, _, hself⟩
  | work t now accepts => simp [Event.session?] at he
  | candidate nonce hashTop64 sendOk => simp [Event.session?] at he

theorem react_candidate (p : Pool) (nonce hashTop64 : U64) (sendOk : Bool) :
    let p' := (p.react (.candidate nonce hashTop64 sendOk)).1
    let eff := (p.react (.candidate nonce hashTop64 sendOk)).2
    (∃ src, p' = { p with src := src } ∧ src.cur = p.src.cur ∧ src.chain = p.src.chain ∧
      ∀ y, Keeps (p.src.session y) (src.session y)) ∧
    (eff = .none ∨ ∃ x, p.haveWork = true ∧ Submits p.src p.ctx nonce hashTop64 x ∧
      eff = .submitted (shareOf p.src x nonce)) := by
  simp only [Pool.react]
  split
  case isFalse => exact ⟨⟨p.src, rfl, rfl, rfl, fun _ => ⟨rfl, rfl, rfl, rfl⟩⟩, .inl rfl⟩
  case isTrue hwork =>
    have hkeep := stOnCandidate_keeps p.src p.ctx nonce hashTop64 sendOk
    have hshare : ∀ share, (stOnCandidate p.src p.ctx nonce hashTop64 sendOk).2.2 = some share →
        ∃ x, Submits p.src p.ctx nonce hashTop64 x ∧ share = shareOf p.src x nonce :=
      fun share h => submits_of_share h
    simp only [onCandidate]
    generalize stOnCandidate p.src p.ctx nonce hashTop64 sendOk = r at hkeep hshare
    obtain ⟨src, verdict, _ | share⟩ := r
    · exact ⟨⟨src, rfl, hkeep⟩, .inl rfl⟩
    · obtain ⟨x, hx, rfl⟩ := hshare share rfl
      exact ⟨⟨src, rfl, hkeep⟩, .inr ⟨x, hwork, hx, rfl⟩⟩

theorem watched_candidate (w : Watched) (nonce hashTop64 : U64) (sendOk : Bool) :
    ∃ src, w.step (.candidate nonce hashTop64 sendOk) = ⟨{ w.pool with src := src }, w.past⟩ ∧
      src.cur = w.pool.src.cur ∧ src.chain = w.pool.src.chain ∧
      ∀ y, Keeps (w.pool.src.session y) (src.session y) := by
  obtain ⟨⟨src, hp, hkeep⟩, heff | ⟨x, -, -, heff⟩⟩ := react_candidate w.pool nonce hashTop64 sendOk
  · refine ⟨src, ?_, hkeep⟩
    simp only [Watched.step, heff, hp, History.watch, Event.session?]
  · refine ⟨src, ?_, hkeep⟩
    simp only [Watched.step, heff, hp, History.watch, Event.session?]

theorem submitted_cases {p : Pool} {e : Event} {share : Share}
    (h : (p.react e).2 = .submitted share) :
    ∃ nonce hashTop64 sendOk x, e = .candidate nonce hashTop64 sendOk ∧ p.haveWork = true ∧
      Submits p.src p.ctx nonce hashTop64 x ∧ share = shareOf p.src x nonce := by
  match hs : e.session? with
  | some x =>
    rw [(react_session p e x hs).1] at h
    cases h
  | none =>
    cases e with
    | work t now accepts =>
      have hcases := pushWork_cases p t now accepts
      simp only [Pool.react] at h
      rw [h] at hcases
      cases hcases
    | candidate nonce hashTop64 sendOk =>
      obtain ⟨-, heff | ⟨x, hwork, hx, heff⟩⟩ := react_candidate p nonce hashTop64 sendOk
      · rw [heff] at h
        cases h
      · rw [heff] at h
        cases h
        exact ⟨nonce, hashTop64, sendOk, x, rfl, hwork, hx, rfl⟩
    | line x text now => simp [Event.session?] at hs
    | lost x => simp [Event.session?] at hs
    | dial x now env => simp [Event.session?] at hs

section Demo

def Effect.share? : Effect → Option Share
  | .submitted share => some share
  | _ => .none

def demoSrc : Worksrc := worksrcStratumConfigure .sia demoInit none

def demoLine (text : List Byte) : Event := .line .main text 1000

def demoUp : List Event :=
  .dial .main 1000 demoEnv :: demoLines.map demoLine ++ [.work 1000 1000 88]

def demoCandidate : Event := .candidate 4 demoTop64 true

end Demo

section Ground

def ShareMatches (w : Watched) (e : Event) : Prop :=
  ∀ share, (w.pool.react e).2 = .submitted share →
    ∃ o, w.past.ground = some o ∧ share.sess = o.sess ∧ share.jobId = o.job.jobId ∧
      share.en2 = o.en2 ∧ share.ntime = o.job.ntime.toList ∧
      buildMessages w.pool.src.chain o.job o.en1 o.en2 = some (w.pool.ctx.ss3, w.pool.ctx.ss4)

/-- Candidates are handled only while the item offered last is the one on the FPGA. -/
def InStep (w : Watched) (e : Event) : Prop :=
  match e with
  | .candidate _ _ _ => w.past.behind = false
  | _ => True

instance : (w : Watched) → (e : Event) → Decidable (InStep w e)
  | w, .candidate _ _ _ => inferInstanceAs (Decidable (w.past.behind = false))
  | _, .line _ _ _ | _, .lost _ | _, .dial _ _ _ | _, .work _ _ _ => isTrue trivial

def Agrees (w : Watched) : Prop :=
  w.pool.haveWork = true → w.past.behind = false →
    ∃ o, w.past.ground = some o ∧ o.Describes w.pool.src.chain w.pool.src.cur w.pool.ctx

theorem agrees_step (w : Watched) (e : Event) (h : Agrees w) : Agrees (w.step e) := by
  match hs : e.session? with
  | some x =>
    obtain ⟨heff, s', hp⟩ := react_session w.pool e x hs
    simp only [Watched.step, heff, hp, History.watch, hs]
    intro hwork hstep
    obtain ⟨o, hg, hd⟩ := h hwork hstep
    refine ⟨o, hg, ?_⟩
    simpa using hd
  | none =>
    cases e with
    | work t now accepts =>
      have hcases := pushWork_cases w.pool t now accepts
      simp only [Watched.step, Pool.react]
      generalize pushWork w.pool t now accepts = r at hcases
      obtain ⟨p', eff⟩ := r
      cases hcases with
      | idle hsrc hcur hctx hwork =>
        intro hw hb
        simp only at hsrc hcur hctx hwork hw
        rw [hwork] at hw
        obtain ⟨o, hg, hd⟩ := h hw hb
        refine ⟨o, hg, ?_⟩
        rw [hsrc.chain, hcur, hctx]
        exact hd
      | failed x ctx hsrc hbuilt hctx hwork =>
        intro hw hb
        exact absurd hb (by simp [History.watch])
      | ok x hsrc hbuilt =>
        intro hw hb
        obtain ⟨o, ho, hd, -⟩ := hbuilt.origin
        exact ⟨o, by simpa [History.watch] using ho, hd⟩
    | candidate nonce hashTop64 sendOk =>
      obtain ⟨src, hstep, hcur, hchain, -⟩ := watched_candidate w nonce hashTop64 sendOk
      rw [hstep]
      intro hw hb
      obtain ⟨o, hg, hd⟩ := h hw hb
      refine ⟨o, hg, ?_⟩
      simp only
      rw [hcur, hchain]
      exact hd
    | line x text now => simp [Event.session?] at hs
    | lost x => simp [Event.session?] at hs
    | dial x now env => simp [Event.session?] at hs

theorem agrees_shareMatches (w : Watched) (e : Event) (h : Agrees w) (hin : InStep w e) :
    ShareMatches w e := by
  intro share hshare
  obtain ⟨nonce, hashTop64, sendOk, x, rfl, hwork, hx, rfl⟩ := submitted_cases hshare
  obtain ⟨o, hg, hd⟩ := h hwork hin
  have hsess := hx.sess.symm.trans hd.sess
  exact ⟨o, hg, Option.some.inj hsess, hd.jobId, hd.en2, hd.ntime, hd.messages⟩

theorem shares_match_ground_work (src : Worksrc) (events : List Event)
    (h : Machine.Along Watched.step InStep (watchedInit src) events) :
    Machine.Along Watched.step ShareMatches (watchedInit src) events := by
  refine Machine.Along.of_invariant Agrees (fun w e hinv hin =>
    ⟨agrees_step w e hinv, agrees_shareMatches w e hinv hin⟩) ?_ h
  intro hwork
  exact absurd hwork Bool.false_ne_true

theorem shares_match_ground_work_demo :
    Machine.Along Watched.step InStep (watchedInit demoSrc) (demoUp ++ [demoCandidate]) ∧
      Machine.Along Watched.step ShareMatches (watchedInit demoSrc) (demoUp ++ [demoCandidate]) :=
  have h : Machine.Along Watched.step InStep (watchedInit demoSrc) (demoUp ++ [demoCandidate]) := by
    decide +kernel
  ⟨h, shares_match_ground_work demoSrc (demoUp ++ [demoCandidate]) h⟩

/-- Job B arrives, its push stalls, and a share of job A goes out as one of job B. -/
theorem share_for_other_job :
    let w := Machine.run Watched.step (watchedInit demoSrc) (demoUp ++
      [demoLine (demoNotify "B" "1" "true"),
        .work 1005 1005 40])
    w.past.ground.map (·.job.jobId) = some (ascii "A") ∧
      (w.pool.react demoCandidate).2.share?.map Share.jobId = some (ascii "B") := by
  decide +kernel

end Ground

section Present

/-- The share is for an item built with the extranonce and on the connection the
session has now, and neither has changed in between. -/
def SharePresent (w : Watched) (e : Event) : Prop :=
  ∀ share, (w.pool.react e).2 = .submitted share →
    ∃ o, w.past.built = some o ∧ share.sess = o.sess ∧
      (w.pool.src.session o.sess).en1 = o.en1 ∧ (w.pool.src.session o.sess).en1Len = o.en1Len ∧
      (w.pool.src.session o.sess).reconnects = o.conn ∧ w.past.dead = false

/-- A candidate that comes after the item's extranonce was rewritten or its
connection replaced finds the session down, or a clean job newer than the item. -/
def Retired (w : Watched) (e : Event) : Prop :=
  match e with
  | .candidate _ _ _ =>
    w.past.dead = true → w.past.built.all (fun o =>
      (w.pool.src.session o.sess).fd < 0 ∨ staleJob w.pool.src.cur (w.pool.src.session o.sess))
  | _ => True

instance : (w : Watched) → (e : Event) → Decidable (Retired w e)
  | w, .candidate _ _ _ => inferInstanceAs (Decidable (w.past.dead = true →
      w.past.built.all (fun o =>
        (w.pool.src.session o.sess).fd < 0 ∨
          staleJob w.pool.src.cur (w.pool.src.session o.sess)) = true))
  | _, .line _ _ _ | _, .lost _ | _, .dial _ _ _ | _, .work _ _ _ => isTrue trivial

structure Tracks (w : Watched) : Prop where
  sess : w.pool.src.cur.sess = w.past.built.map Origin.sess
  alive : ∀ o, w.past.built = some o → w.past.dead = false →
    (w.pool.src.session o.sess).en1 = o.en1 ∧ (w.pool.src.session o.sess).en1Len = o.en1Len ∧
      (w.pool.src.session o.sess).reconnects = o.conn

theorem tracks_built {w : Watched} {x : Sess} {ctx : WorkCtx}
    (hbuilt : BuiltFrom w.pool.src x w.pool.src.cur ctx)
    (hpast : w.past.built = originOf w.pool.src) : Tracks w := by
  obtain ⟨o, ho, hd, rfl, hkeep⟩ := hbuilt.origin
  refine ⟨by rw [hpast, ho, hd.sess]; rfl, fun o' hb _ => ?_⟩
  rw [hpast, ho, Option.some.injEq] at hb
  rw [← hb]
  exact hkeep

theorem not_outlives {h : History} {o : Origin} {s s' : Stratum} {r : Bool}
    (hb : h.built = some o) (hout : outlives h o.sess s s' r = false) :
    s'.en1 = s.en1 ∧ s'.en1Len = s.en1Len ∧ s'.reconnects = s.reconnects := by
  simp only [outlives, hb, Option.any_some, true_and, decide_eq_false_iff_not, not_or,
    not_not] at hout
  exact hout.2

theorem tracks_session (w : Watched) (e : Event) (x : Sess) (hs : e.session? = some x)
    (h : Tracks w) : Tracks (w.step e) := by
  obtain ⟨heff, s', hp⟩ := react_session w.pool e x hs
  simp only [Watched.step, heff, hp, History.watch, hs]
  refine ⟨by simpa using h.sess, fun o hb hdead => ?_⟩
  simp only [Bool.or_eq_false_iff] at hdead
  have halive := h.alive o hb hdead.1
  by_cases hx : x = o.sess
  · subst hx
    have hkeep := not_outlives hb hdead.2
    simp only [session_setSession_same] at hkeep ⊢
    rw [hkeep.1, hkeep.2.1, hkeep.2.2]
    exact halive
  · simp only [session_setSession_other _ hx]
    exact halive

theorem tracks_step (w : Watched) (e : Event) (h : Tracks w) : Tracks (w.step e) := by
  match hs : e.session? with
  | some x => exact tracks_session w e x hs h
  | none =>
    cases e with
    | work t now accepts =>
      have hcases := pushWork_cases w.pool t now accepts
      simp only [Watched.step, Pool.react]
      generalize pushWork w.pool t now accepts = r at hcases
      obtain ⟨p', eff⟩ := r
      cases hcases with
      | idle hsrc hcur hctx hwork =>
        refine ⟨hcur ▸ h.sess, fun o hb hdead => ?_⟩
        simp only at hsrc ⊢
        rw [hsrc.session]
        exact h.alive o hb hdead
      | failed x ctx hsrc hbuilt hctx hwork => exact tracks_built hbuilt rfl
      | ok x hsrc hbuilt => exact tracks_built hbuilt rfl
    | candidate nonce hashTop64 sendOk =>
      obtain ⟨src, hstep, hcur, -, hkeep⟩ := watched_candidate w nonce hashTop64 sendOk
      rw [hstep]
      refine ⟨hcur ▸ h.sess, fun o hb hdead => ?_⟩
      have hk := hkeep o.sess
      simp only
      rw [hk.en1, hk.en1Len, hk.reconnects]
      exact h.alive o hb hdead
    | line x text now => simp [Event.session?] at hs
    | lost x => simp [Event.session?] at hs
    | dial x now env => simp [Event.session?] at hs

theorem tracks_sharePresent (w : Watched) (e : Event) (h : Tracks w) (hret : Retired w e) :
    SharePresent w e := by
  intro share hshare
  obtain ⟨nonce, hashTop64, sendOk, x, rfl, -, hx, rfl⟩ := submitted_cases hshare
  have hsess := hx.sess
  rw [h.sess, Option.map_eq_some_iff] at hsess
  obtain ⟨o, hb, rfl⟩ := hsess
  have hdead : w.past.dead = false := by
    by_contra hd
    have hblocked := hret (by simpa using hd)
    simp only [hb, Option.all_some, decide_eq_true_eq] at hblocked
    obtain hdown | hstale := hblocked
    · exact hx.up hdown
    · rw [hx.fresh] at hstale
      exact Bool.false_ne_true hstale
  obtain ⟨h1, h2, h3⟩ := h.alive o hb hdead
  exact ⟨o, hb, rfl, h1, h2, h3, hdead⟩

theorem shares_present (chain : Chain) (main : Stratum) (dev : Option Stratum)
    (events : List Event)
    (h : Machine.Along Watched.step Retired
      (watchedInit (worksrcStratumConfigure chain main dev)) events) :
    Machine.Along Watched.step SharePresent
      (watchedInit (worksrcStratumConfigure chain main dev)) events := by
  refine Machine.Along.of_invariant Tracks (fun w e hinv hret =>
    ⟨tracks_step w e hinv, tracks_sharePresent w e hinv hret⟩) ⟨rfl, ?_⟩ h
  intro o hb
  cases hb

theorem shares_present_demo :
    let chain := Chain.sia
    Machine.Along Watched.step Retired
        (watchedInit (worksrcStratumConfigure chain demoInit none)) (demoUp ++ [demoCandidate]) ∧
      Machine.Along Watched.step SharePresent
        (watchedInit (worksrcStratumConfigure chain demoInit none)) (demoUp ++ [demoCandidate]) :=
  have h : Machine.Along Watched.step Retired (watchedInit demoSrc) (demoUp ++ [demoCandidate]) := by
    decide +kernel
  ⟨h, shares_present .sia _ none (demoUp ++ [demoCandidate]) h⟩

/-- The extranonce is rotated from `aa` to `bb`, and a share of the item built with
`aa` still goes out. -/
theorem share_under_rotated_extranonce :
    let w := Machine.run Watched.step (watchedInit demoSrc) (demoUp ++
      [demoLine (ascii "\x7b\"method\":\"mining.set_extranonce\",\"params\":[\"bb\",8]\x7d")])
    w.past.built.map Origin.en1 = some [0xaa#8] ∧ w.pool.src.main.en1 = [0xbb#8] ∧
      (w.pool.react demoCandidate).2.share?.isSome = true := by
  decide +kernel

end Present

end OspreyBlake2b.Miner
