import OspreyBlake2b.Zynq.FixtureLink
import OspreyBlake2b.Zynq.FixtureMessages

/-! One thread of the test server against the requests of a miner: it answers every one, and
what it rules on a share is what the share deserves. -/

namespace OspreyBlake2b.Zynq

open OspreyBlake2b.Lib OspreyBlake2b.Lib.JsonText OspreyBlake2b.Miner

inductive Req where
  | subscribe (id : U64)
  | authorize (id : U64)
  | suggest (id : U64)
  | submit (id : U64) (share : Share)

def Req.line (worker password : List Byte) : Req → List Byte
  | .subscribe id => requestLine id "mining.subscribe" (quoted (ascii "osprey-blake2b/1.0"))
  | .authorize id =>
    requestLine id "mining.authorize" (quoted worker ++ ascii "," ++ quoted password)
  | .suggest id => requestLine id "mining.suggest_difficulty" (ascii "32")
  | .submit id share => submitLine id worker share.jobId share.en2 share.ntime share.nonce

def Req.share? : Req → Option Share
  | .submit _ share => some share
  | _ => none

inductive Kind where
  | subscribed (id : U64)
  | authorized (id : U64)
  | difficulty
  | job
  | suggested (id : U64)
  | ruled (id : U64)

def Resp.kind : Resp → Kind
  | .subscribed id _ => .subscribed id
  | .authorized id => .authorized id
  | .difficulty _ => .difficulty
  | .job _ => .job
  | .suggested id => .suggested id
  | .ruled id _ => .ruled id

def Req.expects : Req → List Kind
  | .subscribe id => [.subscribed id]
  | .authorize id => [.authorized id, .difficulty, .job]
  | .suggest id => [.suggested id]
  | .submit id _ => [.ruled id]

def Resp.ruling? : Resp → Option Bool
  | .ruled _ accepted => some accepted
  | _ => none

structure ShareFits (share : Share) : Prop where
  jobId : share.jobId = jobName 1
  en2 : share.en2.length = 8
  ntime : share.ntime.length = 8
  nonce : share.nonce.length = 8

/-- One job is asked for, and no share comes ahead of it. -/
def Ordered : Bool → List Req → Prop
  | _, [] => True
  | hasJob, .authorize _ :: rs => hasJob = false ∧ Ordered true rs
  | hasJob, .submit _ share :: rs => hasJob = true ∧ ShareFits share ∧ Ordered hasJob rs
  | hasJob, .subscribe _ :: rs => Ordered hasJob rs
  | hasJob, .suggest _ :: rs => Ordered hasJob rs

def Handler.Has (h : Handler) : Bool → Prop
  | false => h.jobs = [] ∧ h.jobCounter = 0
  | true => ∃ t : Template, h.jobs = [(jobName 1, t.job)]

def Resp.Of (difficulty : Number) (h : Handler) : Resp → Prop
  | .subscribed _ extranonce1 => extranonce1 = h.extranonce1
  | .difficulty n => n = difficulty
  | .job t => h.jobs = [(jobName 1, t.job)]
  | _ => True

section Ledger

/-- A sound share that is under way will be graded by the header that was hashed. -/
def Pending (lib : Hashlib) (h : Handler) (share : Share) (e : Entry) : Prop :=
  e.verdict = none ∧ (e.sound = true → ∃ job, h.jobs.lookup share.jobId = some job ∧
    gradeHeader lib job h.extranonce1 share.en2 share.ntime share.nonce =
      some (putNonce e.ctx.ss4 e.nonce))

def Right (chain : Chain) (target : Int) (e : Entry) : Prop :=
  ∀ b, e.verdict = some b → e.sound = true →
    (b = true ↔ (beVal (powCompare chain e.ctx.ss4 e.nonce) : Int) ≤ target)

theorem settle_append {done pend : List Entry} {e : Entry} (b : Bool)
    (hdone : ∀ e ∈ done, e.verdict ≠ none) (he : e.verdict = none) :
    settle b (done ++ e :: pend) = done ++ { e with verdict := some b } :: pend := by
  induction done with
  | nil => rw [List.nil_append, settle, if_pos he, List.nil_append]
  | cons d done ih =>
    rw [List.cons_append, settle, if_neg (hdone d List.mem_cons_self),
      ih fun e he => hdone e (List.mem_cons_of_mem _ he), List.cons_append]

end Ledger

section Talk

variable (lib : Hashlib) (chain : Chain) (difficulty : Number) (target : Int)
  (worker password : List Byte)

/-- A connection on which `reqs` are under way to the server and `resps` to the miner. -/
structure Talk (c : Conn) (reqs : List Req) (resps : List Resp) : Prop where
  up : c.up = reqs.map (Req.line worker password)
  down : c.down = resps.map fun r => Json.dumps r.json
  order : ∃ hasJob, c.handler.Has hasJob ∧ Ordered hasJob reqs
  own : ∀ r ∈ resps, r.Of difficulty c.handler
  ledger : ∃ past here pend, c.ledger = past ++ here ++ pend ∧ past.length = c.heard ∧
    (∀ e ∈ past, e.verdict ≠ none) ∧
    here.map Entry.verdict = (resps.filterMap Resp.ruling?).map some ∧
    List.Forall₂ (Pending lib c.handler) (reqs.filterMap Req.share?) pend
  right : ∀ e ∈ c.ledger, Right chain target e

variable {lib chain difficulty target worker password}

theorem settled_verdict {here : List Entry} {bs : List Bool}
    (h : here.map Entry.verdict = bs.map some) : ∀ e ∈ here, e.verdict ≠ none := by
  intro e he hnone
  have hmem : e.verdict ∈ bs.map some := h ▸ List.mem_map_of_mem he
  rw [hnone] at hmem
  simp at hmem

theorem Talk.idle {c : Conn} {r : Req} {rs : List Req} {resps : List Resp} {line : List Byte}
    {rest : List (List Byte)} {turn : Turn} {new : List Resp} {hasJob : Bool}
    (h : Talk lib chain difficulty target worker password c (r :: rs) resps)
    (hup : c.up = line :: rest) (hshare : r.share? = none)
    (hsent : turn.sent = new.map Resp.json) (hnew : new.filterMap Resp.ruling? = [])
    (hverdict : turn.verdict = none) (hhas : turn.handler.Has hasJob) (hord : Ordered hasJob rs)
    (hown : ∀ r ∈ resps ++ new, r.Of difficulty turn.handler)
    (hpend : ∀ share e, Pending lib c.handler share e → Pending lib turn.handler share e) :
    Talk lib chain difficulty target worker password (c.serves rest turn) rs (resps ++ new) := by
  obtain ⟨past, here, pend, hledger, hheard, hpast, hhere, hwait⟩ := h.ledger
  have hrest : rest = rs.map (Req.line worker password) := by
    have hcons := hup.symm.trans h.up
    exact (List.cons.inj hcons).2
  have hsame : (c.serves rest turn).ledger = c.ledger := by
    rw [Conn.serves]
    dsimp only
    rw [hverdict]
  refine ⟨hrest, ?_, ⟨hasJob, hhas, hord⟩, hown, ⟨past, here, pend, ?_, hheard, hpast, ?_, ?_⟩, ?_⟩
  · change c.down ++ turn.sent.map Json.dumps = _
    rw [h.down, hsent, List.map_append, List.map_map]
    rfl
  · rw [hsame, hledger]
  · rw [List.filterMap_append, hnew, List.append_nil, hhere]
  · rw [List.filterMap_cons, hshare] at hwait
    exact hwait.imp hpend
  · rw [hsame]
    exact h.right

structure Serves (srv : Server) (c : Conn) (turn : Turn) (c' : Conn) : Prop where
  extranonce1 : c'.handler.extranonce1 = c.handler.extranonce1
  jobs : c.handler.jobs ≠ [] → c'.handler.jobs = c.handler.jobs
  server : turn.server = turn.verdict.elim srv srv.record
  graded : ∀ b, c'.graded b = c.graded b + if turn.verdict = some b then 1 else 0
  heardOf : ∀ b, c'.heardOf b = c.heardOf b
  length : c'.ledger.length = c.ledger.length

theorem serves_ungraded {srv : Server} {c : Conn} {turn : Turn} (rest : List (List Byte))
    (hen1 : turn.handler.extranonce1 = c.handler.extranonce1)
    (hjobs : c.handler.jobs ≠ [] → turn.handler.jobs = c.handler.jobs)
    (hserver : turn.server = srv) (hverdict : turn.verdict = none) :
    Serves srv c turn (c.serves rest turn) := by
  have hledger : (c.serves rest turn).ledger = c.ledger := by
    rw [Conn.serves]
    dsimp only
    rw [hverdict]
  refine ⟨hen1, hjobs, ?_, fun b => ?_, fun b => ?_, congrArg _ hledger⟩
  · rw [hserver, hverdict]
    rfl
  · rw [Conn.graded, Conn.graded, hledger, hverdict, if_neg (Option.some_ne_none b).symm]
    rfl
  · rw [Conn.heardOf, Conn.heardOf, hledger]
    rfl

theorem Pending.right {h : Handler} {share : Share} {e : Entry} {job : FixtureJob} {accepted : Bool}
    (he : Pending lib h share e) (hlib : lib.Agrees) (hjob : h.jobs.lookup share.jobId = some job)
    (hgrade : grade lib chain target job h.extranonce1 share.en2 share.ntime share.nonce =
      some accepted) : Right chain target { e with verdict := some accepted } := by
  intro b hb hsound
  obtain rfl := Option.some.inj hb
  obtain ⟨job', hjob', hheader⟩ := he.2 hsound
  obtain rfl := Option.some.inj (hjob.symm.trans hjob')
  rw [grade, hheader, Option.bind_eq_bind, Option.bind_some, compareValue_eq hlib,
    Option.bind_eq_bind, Option.bind_some] at hgrade
  rw [← Option.some.inj hgrade]
  exact decide_eq_true_iff

theorem Talk.graded (srv : Server) {c : Conn} {id : U64} {share : Share} {rs : List Req}
    {resps : List Resp} {line : List Byte} {rest : List (List Byte)} {accepted : Bool} {job : FixtureJob}
    (h : Talk lib chain difficulty target worker password c (.submit id share :: rs) resps)
    (hup : c.up = line :: rest) (hlib : lib.Agrees)
    (hjob : c.handler.jobs.lookup share.jobId = some job)
    (hgrade : grade lib chain target job c.handler.extranonce1 share.en2 share.ntime share.nonce =
      some accepted) :
    let turn : Turn := ⟨c.handler, srv.record accepted, [ruling id accepted], some accepted, false⟩
    Talk lib chain difficulty target worker password (c.serves rest turn) rs
        (resps ++ [.ruled id accepted]) ∧
      Serves srv c turn (c.serves rest turn) := by
  intro turn
  obtain ⟨past, here, pend, hledger, hheard, hpast, hhere, hwait⟩ := h.ledger
  obtain ⟨hasJob, hhas, hord⟩ := h.order
  obtain ⟨-, -, hrs⟩ : hasJob = true ∧ ShareFits share ∧ Ordered hasJob rs := hord
  have hrest : rest = rs.map (Req.line worker password) :=
    (List.cons.inj (hup.symm.trans h.up)).2
  -- the share is the first one that waits
  cases hwait with
  | @cons _ e _ pend hopen hwait =>
    have hnone := hopen.1
    have hdone : ∀ e ∈ past ++ here, e.verdict ≠ none := by
      intro d hd
      obtain hd | hd := List.mem_append.mp hd
      · exact hpast d hd
      · exact settled_verdict hhere d hd
    have hsettled : (c.serves rest turn).ledger =
        past ++ (here ++ [{ e with verdict := some accepted }]) ++ pend := by
      change settle accepted c.ledger = _
      rw [hledger, settle_append accepted hdone hnone]
      simp
    constructor
    · refine ⟨hrest, ?_, ⟨hasJob, hhas, hrs⟩, ?_, ⟨past, here ++ [{ e with verdict := some accepted }],
        pend, hsettled, hheard, hpast, ?_, hwait⟩, ?_⟩
      · change c.down ++ [Json.dumps (ruling id accepted)] = _
        rw [h.down, List.map_append]
        rfl
      · intro r hr
        obtain hr | hr := List.mem_append.mp hr
        · exact h.own r hr
        · rw [List.mem_singleton.mp hr]
          trivial
      · rw [List.map_append, hhere, List.filterMap_append, List.map_append]
        rfl
      · intro d hd
        rw [hsettled] at hd
        simp only [List.mem_append, List.mem_singleton] at hd
        have hold : d ∈ past ∨ d ∈ here ∨ d ∈ pend → Right chain target d := fun hd =>
          h.right d (by rw [hledger]; simp; tauto)
        obtain (hd | hd | rfl) | hd := hd
        · exact hold (.inl hd)
        · exact hold (.inr (.inl hd))
        · exact hopen.right hlib hjob hgrade
        · exact hold (.inr (.inr hd))
    · refine ⟨rfl, fun _ => rfl, rfl, fun b => ?_, fun b => ?_, ?_⟩
      · have hcounted : turn.verdict = some accepted := rfl
        rw [Conn.graded, Conn.graded, hsettled, hledger, hcounted]
        simp only [List.countP_append, List.countP_cons, List.countP_nil, hnone]
        simp
        omega
      · have htake (es : List Entry) : (past ++ es).take c.heard = past := List.take_left' hheard
        rw [Conn.heardOf, Conn.heardOf, hsettled, hledger]
        simp only [List.append_assoc]
        change ((past ++ _).take c.heard).countP _ = _
        rw [htake, htake]
      · rw [hsettled, hledger]
        simp

variable {srv : Server} {c : Conn} {r : Req} {rs : List Req} {resps : List Resp}
  {line : List Byte} {rest : List (List Byte)}

theorem Talk.replied (h : Talk lib chain difficulty target worker password c (r :: rs) resps)
    (hup : c.up = line :: rest) (hshare : r.share? = none)
    (hord : ∀ hasJob, Ordered hasJob (r :: rs) → Ordered hasJob rs) {new : Resp}
    (hmine : new.Of difficulty c.handler) (hruling : new.ruling? = none) :
    Talk lib chain difficulty target worker password
        (c.serves rest (answer srv c.handler [new.json])) rs (resps ++ [new]) ∧
      Serves srv c (answer srv c.handler [new.json])
        (c.serves rest (answer srv c.handler [new.json])) := by
  obtain ⟨hasJob, hhas, hrs⟩ := h.order
  have hnew : [new].filterMap Resp.ruling? = [] := List.filterMap_cons_none hruling
  refine ⟨h.idle hup hshare rfl hnew rfl hhas (hord hasJob hrs) ?_ fun _ _ he => he,
    serves_ungraded rest rfl (fun _ => rfl) rfl rfl⟩
  intro d hd
  obtain hd | hd := List.mem_append.mp hd
  · exact h.own d hd
  · rw [List.mem_singleton.mp hd]
    exact hmine

theorem Talk.authorized {id : U64}
    (h : Talk lib chain difficulty target worker password c (.authorize id :: rs) resps)
    (hup : c.up = line :: rest) (t : Template) :
    let turn := answer srv
      { c.handler with jobCounter := 1, authorized := true, jobs := [(jobName 1, t.job)] }
      ([Resp.authorized id, .difficulty difficulty, .job t].map Resp.json)
    Talk lib chain difficulty target worker password (c.serves rest turn) rs
        (resps ++ [.authorized id, .difficulty difficulty, .job t]) ∧
      Serves srv c turn (c.serves rest turn) := by
  intro turn
  obtain ⟨hasJob, hhas, hord⟩ := h.order
  obtain ⟨rfl, hrs⟩ : hasJob = false ∧ Ordered true rs := hord
  have hjobs : c.handler.jobs = [] := hhas.1
  have hpushed : turn.handler.Has true := ⟨t, rfl⟩
  refine ⟨h.idle hup rfl rfl rfl rfl hpushed hrs ?_ ?_,
    serves_ungraded rest rfl (fun hne => absurd hjobs hne) rfl rfl⟩
  · intro r hr
    obtain hr | hr := List.mem_append.mp hr
    · have hold := h.own r hr
      cases r with
      | job t' =>
        have hjob : c.handler.jobs = [(jobName 1, t'.job)] := hold
        rw [hjobs] at hjob
        cases hjob
      | subscribed _ _ | authorized _ | difficulty _ | suggested _ | ruled _ _ => exact hold
    · simp only [List.mem_cons, List.not_mem_nil, or_false] at hr
      obtain rfl | rfl | rfl := hr
      · trivial
      · rfl
      · rfl
  · -- there was no job that a sound share could have waited for
    rintro share e ⟨hverdict, hsound⟩
    refine ⟨hverdict, fun he => ?_⟩
    obtain ⟨job, hjob, -⟩ := hsound he
    rw [hjobs] at hjob
    cases hjob

theorem handleLine_share {h : Handler} (hhas : h.Has true) (hlib : lib.Agrees)
    (hchain : srv.chain = chain) (htarget : srv.target = some target) (hworker : worker.length ≤ 159)
    (hplain : ∀ b ∈ worker, Json.Plain b) (password : List Byte) (id : U64) {share : Share} (hfits : ShareFits share)
    (t : Template) : ∃ job accepted, h.jobs.lookup share.jobId = some job ∧
      grade lib chain target job h.extranonce1 share.en2 share.ntime share.nonce = some accepted ∧
      handleLine lib srv h ((Req.submit id share).line worker password) t =
        ⟨h, srv.record accepted, [ruling id accepted], some accepted, false⟩ := by
  obtain ⟨t₀, hjobs⟩ := hhas
  have hjob : h.jobs.lookup share.jobId = some t₀.job := by
    rw [hjobs, hfits.jobId]
    exact List.lookup_cons_self
  have hname : (jobName 1).length ≤ 63 ∧ ∀ b ∈ jobName 1, Json.Plain b ∧ b < 0x80#8 := by decide
  have hboth : ∀ b ∈ worker ++ share.jobId, Json.Plain b := by
    intro b hb
    obtain hb | hb := List.mem_append.mp hb
    · exact hplain b hb
    · exact (hname.2 b (hfits.jobId ▸ hb)).1
  have hascii : ∀ b ∈ share.jobId, b < 0x80#8 := fun b hb => (hname.2 b (hfits.jobId ▸ hb)).2
  obtain ⟨accepted, hgrade⟩ := grade_total t₀ hlib chain target h.extranonce1 share.en2
    hfits.ntime hfits.nonce
  exact ⟨t₀.job, accepted, hjob, hgrade, handleLine_submit lib srv h t id hworker
    (hfits.jobId ▸ hname.1) hboth hascii hfits.en2 hfits.ntime hfits.nonce hjob htarget (hchain ▸ hgrade)⟩

theorem Talk.serve (h : Talk lib chain difficulty target worker password c (r :: rs) resps)
    (hup : c.up = line :: rest) (hlib : lib.Agrees) (hchain : srv.chain = chain)
    (hdiff : srv.difficulty = difficulty) (htarget : srv.target = some target)
    (hworker : worker.length ≤ 159) (hplain : ∀ b ∈ worker ++ password, Json.Plain b) (t : Template) :
    let turn := handleLine lib srv c.handler line t
    turn.raised = false ∧ ∃ new : List Resp, turn.sent = new.map Resp.json ∧
      new.map Resp.kind = r.expects ∧
      Talk lib chain difficulty target worker password (c.serves rest turn) rs (resps ++ new) ∧
      Serves srv c turn (c.serves rest turn) := by
  intro turn
  have hline : line = r.line worker password := (List.cons.inj (hup.symm.trans h.up)).1
  obtain ⟨hasJob, hhas, hord⟩ := h.order
  cases r with
  | subscribe id =>
    have hturn : turn = answer srv c.handler [Resp.json (.subscribed id c.handler.extranonce1)] := by
      change handleLine lib srv c.handler line t = _
      rw [hline, Req.line, handleLine_subscribe, ← decimal_value extranonce2Size]
      rfl
    clear_value turn
    subst hturn
    exact ⟨rfl, [.subscribed id c.handler.extranonce1], rfl, rfl,
      h.replied hup rfl (fun _ ho => ho) rfl rfl⟩
  | authorize id =>
    obtain ⟨rfl, -⟩ : hasJob = false ∧ Ordered true rs := hord
    obtain ⟨hjobs, hcounter⟩ := hhas
    have hturn : turn = answer srv
        { c.handler with jobCounter := 1, authorized := true, jobs := [(jobName 1, t.job)] }
        ([Resp.authorized id, .difficulty difficulty, .job t].map Resp.json) := by
      change handleLine lib srv c.handler line t = _
      rw [hline, Req.line, handleLine_authorize lib srv c.handler t id hplain, pushJob]
      dsimp only
      rw [hcounter, hjobs, Server.setDifficulty, hdiff]
      rfl
    clear_value turn
    subst hturn
    exact ⟨rfl, [.authorized id, .difficulty difficulty, .job t], rfl, rfl, h.authorized hup t⟩
  | suggest id =>
    have hturn : turn = answer srv c.handler [Resp.json (.suggested id)] := by
      change handleLine lib srv c.handler line t = _
      rw [hline, Req.line, handleLine_suggest]
      rfl
    clear_value turn
    subst hturn
    exact ⟨rfl, [.suggested id], rfl, rfl, h.replied hup rfl (fun _ ho => ho) trivial rfl⟩
  | submit id share =>
    obtain ⟨rfl, hfits, -⟩ : hasJob = true ∧ ShareFits share ∧ Ordered hasJob rs := hord
    obtain ⟨job, accepted, hjob, hgrade, hshare⟩ := handleLine_share hhas hlib hchain htarget hworker
      (fun b hb => hplain b (List.mem_append_left _ hb)) password id hfits t
    have hturn : turn = ⟨c.handler, srv.record accepted, [ruling id accepted], some accepted, false⟩ := by
      change handleLine lib srv c.handler line t = _
      rw [hline]
      exact hshare
    clear_value turn
    subst hturn
    obtain ⟨htalk, hserves⟩ := h.graded srv hup hlib hjob hgrade
    exact ⟨rfl, [.ruled id accepted], rfl, rfl, htalk, hserves⟩

end Talk

end OspreyBlake2b.Zynq
