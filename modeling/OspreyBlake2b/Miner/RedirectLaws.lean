import OspreyBlake2b.Lib.OneShot
import OspreyBlake2b.Miner.SessionLaws

/-! A redirect is used once.  The run of a session is watched from outside: which hosts
are dialled and when, and what the resolver has said about which host. -/

namespace OspreyBlake2b.Miner

open OspreyBlake2b.Lib OspreyBlake2b.Lib.Machine

/-- A session with the redirects it has been sent and the attempts it has made, in
order, the time and the `retry_at` of each attempt, and the resolver's answers. -/
structure Traced where
  session : Stratum
  moves : List (Move (List Byte × Int))
  times : List (U64 × U64)
  answers : List (List Byte × List Byte)

def traced (s : Stratum) : Traced := ⟨s, [], [], []⟩

def resolved (s : Stratum) (env : DialEnv) : List (List Byte × List Byte) :=
  if s.reconnectPending ∨ s.addr = [] then env.dns.toList.map fun a => ((dialTarget s).1, a) else []

def Traced.step (t : Traced) (e : SessionEvent) : Traced :=
  let w' := { t with session := t.session.step e }
  match e with
  | .dial now env =>
    if t.session.fd < 0 then
      match (dial t.session now env).target with
      | none => w'
      | some place => { w' with
          moves := t.moves ++ [.attempt place]
          times := t.times ++ [(now, t.session.retryAt)]
          answers := t.answers ++ resolved t.session env }
    else w'
  | .line text _ =>
    match handler text with
    | .reconnect params =>
      { w' with moves := t.moves ++ [.redirect (reconnectTarget t.session params)] }
    | _ => w'
  | _ => w'

structure Route where
  host : List Byte
  port : Int
  addr : List Byte
  reconnectHost : List Byte
  reconnectPort : Int
  reconnectPending : Bool

def Stratum.route (s : Stratum) : Route :=
  ⟨s.host, s.port, s.addr, s.reconnectHost, s.reconnectPort, s.reconnectPending⟩

section Frame

variable (s : Stratum)

theorem route_onSubscribe (result : List Byte) : (onSubscribe s result).route = s.route := by
  obtain hs | ⟨e, hs | hs | ⟨size, hs⟩⟩ := onSubscribe_cases s result <;> rw [hs] <;> rfl

theorem route_onReply (line : List Byte) : (onReply s line).route = s.route := by
  obtain hs | ⟨r, hs⟩ | ⟨b, hs⟩ | hs | hs := onReply_cases s line
  · rw [hs]
  · rw [hs, route_onSubscribe]
  · rw [hs]
    rfl
  · rw [hs]
    rfl
  · rw [hs]
    rfl

theorem route_onLine {line : List Byte} (h : ∀ params, handler line ≠ .reconnect params) (now : U64) :
    (onLine s line now).route = s.route := by
  rw [onLine_eq]
  cases hk : handler line with
  | ignored => rfl
  | notify params =>
    change (onNotify s params).route = _
    obtain hs | ⟨j, -, hs⟩ := onNotify_cases s params
    · rw [hs]
    · rw [hs]
      rfl
  | setDifficulty params =>
    change (onSetDifficulty s params).route = _
    obtain hs | ⟨d, hs⟩ := onSetDifficulty_cases s params
    · rw [hs]
    · rw [hs]
      rfl
  | setExtranonce params =>
    change (onSetExtranonce s params).route = _
    obtain hs | ⟨e, hs | ⟨size, hs⟩⟩ := onSetExtranonce_cases s params <;> rw [hs] <;> rfl
  | reconnect params => exact absurd hk (h params)
  | reply => exact route_onReply s line

theorem route_submit (ok : Bool) : (stratumSubmit s ok).1.route = s.route := by
  obtain ⟨-, hs⟩ | ⟨-, -, hs⟩ | ⟨-, -, hs⟩ := stratumSubmit_cases s ok <;> rw [hs] <;> rfl

theorem route_dial {now : U64} (hwait : ¬ now < s.retryAt) (e : DialEnv) :
    ∃ addr, Cached s e addr ∧ (dial s now e).session.route = (attempting s addr).route := by
  obtain ⟨-, addr, hcached, hs | hs | ⟨hsock, hs⟩⟩ := dial_cases s hwait e
  · exact ⟨addr, hcached, by rw [hs]⟩
  · exact ⟨addr, hcached, by rw [hs]; rfl⟩
  · refine ⟨addr, hcached, ?_⟩
    obtain hh | hh | hh | hh := handshake_cases (connecting s addr e.socket) e hsock <;>
      rw [hs, hh] <;> rfl

end Frame

/-- Up to now every redirect has been used once, and the cache is the configured host's. -/
structure OncePerRedirect (home : List Byte × Int) (t : Traced) : Prop where
  configured : (t.session.host, t.session.port) = home
  up : ¬ t.session.fd < 0 → t.session.reconnectPending = false
  owed : Move.owed none t.moves = if t.session.reconnectPending then
    some (cstr t.session.reconnectHost, t.session.reconnectPort) else none
  once : Move.Once home none t.moves
  timely : ∀ p ∈ t.times, p.2 ≤ p.1
  addr : t.session.addr = [] ∨ (home.1, t.session.addr) ∈ t.answers

variable {home : List Byte × Int} {t : Traced}

theorem OncePerRedirect.of_route (h : OncePerRedirect home t) {s' : Stratum}
    (hroute : s'.route = t.session.route) (hfd : ¬ s'.fd < 0 → ¬ t.session.fd < 0) :
    OncePerRedirect home { t with session := s' } := by
  simp only [Stratum.route, Route.mk.injEq] at hroute
  obtain ⟨hhost, hport, haddr, hrhost, hrport, hpending⟩ := hroute
  constructor
  · exact (by rw [hhost, hport]; exact h.configured)
  · exact fun hup => hpending.trans (h.up (hfd hup))
  · simpa only [hpending, hrhost, hrport] using h.owed
  · exact h.once
  · exact h.timely
  · simpa only [haddr] using h.addr

theorem cstr_overwrite {out : List Byte} (h : 0 ∉ out) (buf : List Byte) :
    cstr (overwrite buf (out ++ [0])) = out := by
  rw [cstr, overwrite, List.append_assoc, List.takeWhile_append_of_pos]
  · simp
  · intro c hc
    simp only [decide_eq_true_eq]
    exact fun hzero => h (hzero ▸ hc)

theorem once_redirect (h : OncePerRedirect home t) (hup : ¬ t.session.fd < 0)
    (params : List Byte) (now : U64) :
    OncePerRedirect home { t with
      session := onReconnect t.session params now
      moves := t.moves ++ [.redirect (reconnectTarget t.session params)] } := by
  have hpending := h.up hup
  obtain ⟨hnone, buf, hs⟩ | ⟨out, port, wait, hsome, hnul, hs⟩ :=
    onReconnect_cases t.session params now
  · rw [hs, hnone]
    constructor
    · exact h.configured
    · exact fun _ => hpending
    · rw [Move.owed_append]
      exact (if_neg (by simp [drop, hpending])).symm
    · exact (Move.once_append _ _ _).mpr ⟨h.once, trivial⟩
    · exact h.timely
    · exact h.addr
  · rw [hs, hsome]
    constructor
    · exact h.configured
    · exact fun hup => absurd (drop_down _) hup
    · rw [Move.owed_append]
      exact congrArg (fun host => some (host, port)) (cstr_overwrite hnul _).symm
    · exact (Move.once_append _ _ _).mpr ⟨h.once, trivial⟩
    · exact h.timely
    · exact .inl rfl

theorem once_attempt (h : OncePerRedirect home t) {now : U64} (hwait : ¬ now < t.session.retryAt)
    (env : DialEnv) :
    OncePerRedirect home { t with
      session := (dial t.session now env).session
      moves := t.moves ++ [.attempt (dialTarget t.session)]
      times := t.times ++ [(now, t.session.retryAt)]
      answers := t.answers ++ resolved t.session env } := by
  obtain ⟨addr, hcached, hroute⟩ := route_dial t.session hwait env
  simp only [Stratum.route, attempting, Route.mk.injEq] at hroute
  obtain ⟨hhost, hport, haddr, -, -, hpending⟩ := hroute
  constructor
  · exact (by rw [hhost, hport]; exact h.configured)
  · exact fun _ => hpending
  · rw [Move.owed_append, hpending]
    rfl
  · rw [Move.once_append, h.owed]
    refine ⟨h.once, ?_, trivial⟩
    rw [dialTarget, ← h.configured]
    split <;> rfl
  · intro p hp
    obtain hp | hp := List.mem_append.mp hp
    · exact h.timely p hp
    · rw [List.mem_singleton.mp hp]
      exact BitVec.not_lt.mp hwait
  · rw [haddr]
    obtain rfl | ⟨hfree, rfl | ⟨hempty, hdns⟩⟩ := hcached
    · exact h.addr.imp_right fun hmem => List.mem_append_left _ hmem
    · exact .inl rfl
    · refine .inr (List.mem_append_right _ ?_)
      rw [resolved, if_pos (.inr hempty), hdns, dialTarget, hfree, ← h.configured]
      exact List.mem_singleton.mpr rfl

theorem once_step (h : OncePerRedirect home t) (e : SessionEvent)
    (hconn : OnConnection t.session e) : OncePerRedirect home (t.step e) := by
  cases e with
  | dial now env =>
    rw [Traced.step]
    by_cases hdown : t.session.fd < 0
    · rw [if_pos hdown, Stratum.step, if_pos hdown]
      by_cases hwait : now < t.session.retryAt
      · rw [dial_wait _ hwait]
        exact h
      · rw [(dial_cases t.session hwait env).1]
        exact once_attempt h hwait env
    · rw [if_neg hdown, Stratum.step, if_neg hdown]
      exact h
  | line text now =>
    rw [Traced.step]
    cases hk : handler text with
    | reconnect params =>
      have hs : onLine t.session text now = onReconnect t.session params now := by
        rw [onLine_eq, hk]
        rfl
      simp only [Stratum.step, hs]
      exact once_redirect h hconn params now
    | ignored | notify | setDifficulty | setExtranonce | reply =>
      have hno : ∀ params, handler text ≠ .reconnect params := by simp [hk]
      exact h.of_route (route_onLine t.session hno now) fun _ => hconn
  | left rx => exact h.of_route rfl id
  | lost => exact h.of_route rfl fun hup => absurd (drop_down _) hup
  | submit ok =>
    refine h.of_route (route_submit t.session ok) ?_
    obtain ⟨-, hs⟩ | ⟨hup, -, -⟩ | ⟨hup, -, -⟩ := stratumSubmit_cases t.session ok
    · exact fun hup => hs ▸ hup
    · exact fun _ => hup
    · exact fun _ => hup

theorem traced_session (t : Traced) (e : SessionEvent) : (t.step e).session = t.session.step e := by
  cases e with
  | dial now env =>
    rw [Traced.step]
    dsimp only
    split
    · split <;> rfl
    · rfl
  | line text now =>
    rw [Traced.step]
    dsimp only
    split <;> rfl
  | left rx => rfl
  | lost => rfl
  | submit ok => rfl

theorem once_run (h : OncePerRedirect home t) (es : List SessionEvent)
    (hconn : Along Stratum.step OnConnection t.session es) :
    OncePerRedirect home (run Traced.step t es) := by
  have hstep (t : Traced) (e : SessionEvent) (h : OncePerRedirect home t)
      (hconn : OnConnection t.session e) : OncePerRedirect home (t.step e) := once_step h e hconn
  rw [← List.map_id es] at hconn
  exact Along.run_invariant hstep h (Along.of_simulates traced_session hconn)

/-- For every run from `stratum_init` in which lines come on a connection. -/
theorem redirect_used_once (host : List Byte) (port : Int) (worker password : List Byte)
    (es : List SessionEvent)
    (hconn : Along Stratum.step OnConnection (stratumInit host port worker password) es) :
    let home := ((stratumInit host port worker password).host, port)
    let t := run Traced.step (traced (stratumInit host port worker password)) es
    (∀ before between after, t.moves = before ++ between ++ after →
        between.all Move.isAttempt = true →
      (between.filter (Move.strays home)).length ≤ 1 ∧
        ∀ u, .attempt u ∈ between → u = home ∨ Move.owed none before = some u) ∧
      (∀ p ∈ t.times, p.2 ≤ p.1) ∧
      (t.session.addr = [] ∨ (home.1, t.session.addr) ∈ t.answers) := by
  intro home t
  have hinit : OncePerRedirect home (traced (stratumInit host port worker password)) :=
    ⟨rfl, fun _ => rfl, rfl, trivial, by simp [traced], .inl rfl⟩
  have h := once_run hinit es hconn
  refine ⟨fun before between after hmoves hseg => ?_, h.timely, h.addr⟩
  have honce := h.once
  rw [show (run Traced.step _ es).moves = t.moves by rfl, hmoves, Move.once_append,
    Move.once_append] at honce
  exact honce.1.2.between hseg

def redirectEnv : DialEnv := ⟨some (ascii "10.0.0.1"), 3, true, true, true, true, true⟩

def redirectedRun : List SessionEvent :=
  [.dial 1000 redirectEnv,
    .line (ascii "\x7b\"method\":\"client.reconnect\",\"params\":[\"other\",4444,1]\x7d") 1001,
    .dial 1002 redirectEnv, .lost, .dial 1003 redirectEnv]

theorem redirect_used_once_other :
    let s := stratumInit (ascii "pool") 3333 (ascii "w") (ascii "x")
    let t := run Traced.step (traced s) redirectedRun
    Along Stratum.step OnConnection s redirectedRun ∧
      t.moves = [.attempt (ascii "pool", 3333), .redirect (some (ascii "other", 4444)),
        .attempt (ascii "other", 4444), .attempt (ascii "pool", 3333)] ∧
      (t.session.addr = [] ∨ (s.host, t.session.addr) ∈ t.answers) := by
  intro s t
  have hboth : Along Stratum.step OnConnection s redirectedRun ∧
      t.moves = [.attempt (ascii "pool", 3333), .redirect (some (ascii "other", 4444)),
        .attempt (ascii "other", 4444), .attempt (ascii "pool", 3333)] := by decide +kernel
  obtain ⟨hconn, hmoves⟩ := hboth
  refine ⟨hconn, hmoves, ?_⟩
  have haddr :=
    (redirect_used_once (ascii "pool") 3333 (ascii "w") (ascii "x") redirectedRun hconn).2.2
  simp only at haddr
  dsimp only [t, s]
  exact haddr

end OspreyBlake2b.Miner
