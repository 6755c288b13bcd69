import OspreyBlake2b.Zynq.FixtureMiner

namespace OspreyBlake2b.Zynq

open OspreyBlake2b.Lib OspreyBlake2b.Lib.JsonText OspreyBlake2b.Miner

section Hearing

variable {lib : Hashlib} {chain : Chain} {difficulty : Number} {target : Int}
  {worker password : List Byte} {c : Conn} {r : Resp} {reqs : List Req} {resps : List Resp}

theorem verdictsOf_apply (s : Stratum) (r : Resp) :
    (verdictsOf (r.apply s) - verdictsOf s).toNat = if r.ruling?.isSome then 1 else 0 := by
  cases r with
  | ruled id accepted =>
    have hone : verdictsOf ((Resp.ruled id accepted).apply s) - verdictsOf s = 1 := by
      cases accepted with
      | true =>
        change s.sharesAccepted + 1 + s.sharesRejected - (s.sharesAccepted + s.sharesRejected) = 1
        bv_omega
      | false =>
        change s.sharesAccepted + (s.sharesRejected + 1) - (s.sharesAccepted + s.sharesRejected) = 1
        bv_omega
    rw [hone]
    rfl
  | subscribed _ _ | authorized _ | difficulty _ | job _ | suggested _ =>
    exact congrArg BitVec.toNat (BitVec.sub_self (verdictsOf s))

theorem Talk.hear (h : Talk lib chain difficulty target worker password c reqs (r :: resps))
    (s : Stratum) {line : List Byte} {rest : List (List Byte)} (hdown : c.down = line :: rest) :
    Talk lib chain difficulty target worker password (c.hears rest s (r.apply s)) reqs resps ∧
      ∀ b, (c.hears rest s (r.apply s)).heardOf b =
        c.heardOf b + if r.ruling? = some b then 1 else 0 := by
  obtain ⟨past, here, pend, hledger, hheard, hpast, hhere, hwait⟩ := h.ledger
  have hrest : rest = resps.map fun r => Json.dumps r.json :=
    (List.cons.inj (hdown.symm.trans h.down)).2
  have hown : ∀ r ∈ resps, r.Of difficulty c.handler := fun r hr => h.own r (List.mem_cons_of_mem _ hr)
  have hnow := verdictsOf_apply s r
  have htake (es more : List Entry) {n : Nat} (hn : es.length = n) : (es ++ more).take n = es :=
    List.take_left' hn
  have hold (b : Bool) : c.heardOf b = past.countP fun e => e.verdict = some b := by
    rw [Conn.heardOf, hledger, List.append_assoc, htake _ _ hheard]
  cases hr : r.ruling? with
  | none =>
    rw [hr] at hnow
    have hsame : (c.hears rest s (r.apply s)).heard = c.heard := by
      change c.heard + (verdictsOf (r.apply s) - verdictsOf s).toNat = c.heard
      rw [hnow]
      rfl
    rw [List.filterMap_cons, hr] at hhere
    refine ⟨⟨h.up, hrest, h.order, hown, ⟨past, here, pend, hledger, hheard.trans hsame.symm, hpast,
      hhere, hwait⟩, h.right⟩, fun b => ?_⟩
    rw [if_neg (Option.some_ne_none b).symm, Conn.heardOf, hsame]
    rfl
  | some accepted =>
    rw [hr] at hnow
    have hnext : (c.hears rest s (r.apply s)).heard = c.heard + 1 := by
      change c.heard + (verdictsOf (r.apply s) - verdictsOf s).toNat = c.heard + 1
      rw [hnow]
      rfl
    rw [List.filterMap_cons, hr] at hhere
    cases here with
    | nil => cases hhere
    | cons e here =>
      obtain ⟨he, hhere⟩ := List.cons.inj hhere
      have hsplit : c.ledger = past ++ [e] ++ here ++ pend := by
        rw [hledger]
        simp
      have hlen : (past ++ [e]).length = c.heard + 1 := by
        rw [List.length_append, hheard]
        rfl
      refine ⟨⟨h.up, hrest, h.order, hown, ⟨past ++ [e], here, pend, hsplit, hlen.trans hnext.symm, ?_,
        hhere, hwait⟩, h.right⟩, fun b => ?_⟩
      · intro d hd
        obtain hd | hd := List.mem_append.mp hd
        · exact hpast d hd
        · rw [List.mem_singleton.mp hd, he]
          exact Option.some_ne_none _
      · rw [hold, Conn.heardOf, hnext]
        change ((c.ledger.take (c.heard + 1)).countP fun e => e.verdict = some b) = _
        rw [hsplit, List.append_assoc, htake _ _ hlen, List.countP_append, List.countP_singleton, he]
        simp

end Hearing

def opening (s : Stratum) : List Kind :=
  [.subscribed s.subId, .authorized s.authId, .difficulty, .job, .suggested s.suggestDiffId]

section Follows

variable (difficulty : Number)

structure Stage (s : Stratum) (h : Handler) (heard : Nat) : Prop where
  subscribed : 1 ≤ heard → s.subscribed = true ∧ s.en1 = h.extranonce1
  authorized : 2 ≤ heard → s.authorized = true
  difficulty : 3 ≤ heard → s.difficulty = .round difficulty.val
  job : 4 ≤ heard → s.haveJob = true ∧ ∃ t : Template, h.jobs = [(jobName 1, t.job)] ∧
    s.job = { t.stratumJob (jobName 1) with seq := s.job.seq }
  waits : heard < 4 → s.haveJob = false

/-- The session is on this connection: what is under way to it, or asked for, is the rest of
the opening and then verdicts. -/
structure Follows (s : Stratum) (c : Conn) (reqs : List Req) (resps : List Resp) : Prop where
  ids : HandshakeIds s
  opened : c.handler.Has true ∨ ∃ id, Req.authorize id ∈ reqs
  flow : ∃ (heard : Nat) (late : List U64), heard ≤ 5 ∧
    resps.map Resp.kind ++ reqs.flatMap Req.expects = (opening s).drop heard ++ late.map .ruled ∧
    (∀ id ∈ late, s.suggestDiffId < id ∧ id ≤ s.nextId) ∧ Stage difficulty s c.handler heard

variable {difficulty} {s : Stratum} {h : Handler} {r : Resp}

theorem HandshakeIds.apply (hids : HandshakeIds s) (r : Resp) : HandshakeIds (r.apply s) := by
  obtain ⟨hsub, hauth, hexact, hlast⟩ := hids
  cases r with
  | ruled id accepted => cases accepted <;> exact ⟨hsub, hauth, hexact, hlast⟩
  | subscribed _ _ | authorized _ | difficulty _ | job _ | suggested _ =>
    exact ⟨hsub, hauth, hexact, hlast⟩

theorem opening_apply (s : Stratum) (r : Resp) : opening (r.apply s) = opening s := by
  cases r with
  | ruled id accepted => cases accepted <;> rfl
  | subscribed _ _ | authorized _ | difficulty _ | job _ | suggested _ => rfl

theorem nextId_apply (s : Stratum) (r : Resp) :
    (r.apply s).suggestDiffId = s.suggestDiffId ∧ (r.apply s).nextId = s.nextId := by
  cases r with
  | ruled id accepted => cases accepted <;> exact ⟨rfl, rfl⟩
  | subscribed _ _ | authorized _ | difficulty _ | job _ | suggested _ => exact ⟨rfl, rfl⟩

theorem Stage.next {heard : Nat} {ks : List Kind} (hs : Stage difficulty s h heard)
    (hkind : (opening s).drop heard = r.kind :: ks) (hown : r.Of difficulty h)
    (hen1 : h.extranonce1.length = 4) : r.Fits s ∧ Stage difficulty (r.apply s) h (heard + 1) := by
  have hlt : heard < 5 := by
    by_contra hge
    rw [List.drop_of_length_le (Nat.not_lt.mp hge)] at hkind
    cases hkind
  match heard, hlt with
  | 0, _ =>
    cases r with
    | subscribed id extranonce1 =>
      obtain ⟨rfl, -⟩ : id = s.subId ∧ ks = _ := by
        obtain ⟨hid, hks⟩ := List.cons.inj hkind
        exact ⟨(Kind.subscribed.inj hid).symm, hks.symm⟩
      obtain rfl : extranonce1 = h.extranonce1 := hown
      have htake : (overwrite s.extranonce1 h.extranonce1).take 4 = h.extranonce1 :=
        List.take_left' hen1
      exact ⟨⟨rfl, hen1⟩, fun _ => ⟨rfl, htake⟩, fun h => absurd h (by decide),
        fun h => absurd h (by decide), fun h => absurd h (by decide), fun _ => hs.waits (by decide)⟩
    | authorized _ | difficulty _ | job _ | suggested _ | ruled _ _ => cases (List.cons.inj hkind).1
  | 1, _ =>
    cases r with
    | authorized id =>
      obtain rfl : s.authId = id := Kind.authorized.inj (List.cons.inj hkind).1
      exact ⟨rfl, fun _ => hs.subscribed (by decide), fun _ => rfl, fun h => absurd h (by decide),
        fun h => absurd h (by decide), fun _ => hs.waits (by decide)⟩
    | subscribed _ _ | difficulty _ | job _ | suggested _ | ruled _ _ => cases (List.cons.inj hkind).1
  | 2, _ =>
    cases r with
    | difficulty n =>
      obtain rfl : n = difficulty := hown
      exact ⟨trivial, fun _ => hs.subscribed (by decide), fun _ => hs.authorized (by decide),
        fun _ => rfl, fun h => absurd h (by decide), fun _ => hs.waits (by decide)⟩
    | subscribed _ _ | authorized _ | job _ | suggested _ | ruled _ _ => cases (List.cons.inj hkind).1
  | 3, _ =>
    cases r with
    | job t =>
      exact ⟨trivial, fun _ => hs.subscribed (by decide), fun _ => hs.authorized (by decide),
        fun _ => hs.difficulty (by decide), fun _ => ⟨rfl, t, hown, rfl⟩,
        fun h => absurd h (by decide)⟩
    | subscribed _ _ | authorized _ | difficulty _ | suggested _ | ruled _ _ =>
      cases (List.cons.inj hkind).1
  | 4, _ =>
    cases r with
    | suggested id =>
      obtain rfl : s.suggestDiffId = id := Kind.suggested.inj (List.cons.inj hkind).1
      exact ⟨rfl, fun _ => hs.subscribed (by decide), fun _ => hs.authorized (by decide),
        fun _ => hs.difficulty (by decide), fun _ => hs.job (by decide), fun h => absurd h (by decide)⟩
    | subscribed _ _ | authorized _ | difficulty _ | job _ | ruled _ _ => cases (List.cons.inj hkind).1

theorem Stage.verdict {heard : Nat} (hs : Stage difficulty s h heard) (id : U64) (accepted : Bool) :
    Stage difficulty ((Resp.ruled id accepted).apply s) h heard := by
  cases accepted <;>
    exact ⟨hs.subscribed, hs.authorized, hs.difficulty, hs.job, hs.waits⟩

variable {c : Conn} {reqs : List Req} {resps : List Resp}

theorem Follows.hear (hf : Follows difficulty s c reqs (r :: resps)) (hown : r.Of difficulty c.handler)
    (hen1 : c.handler.extranonce1.length = 4) (rest : List (List Byte)) :
    r.Fits s ∧ Follows difficulty (r.apply s) (c.hears rest s (r.apply s)) reqs resps := by
  obtain ⟨heard, late, hle, hflow, hlate, hstage⟩ := hf.flow
  rw [List.map_cons, List.cons_append] at hflow
  obtain ⟨hsuggest, hnext⟩ := nextId_apply s r
  have hids := hf.ids.apply r
  obtain hlt | rfl := Nat.lt_or_eq_of_le hle
  · obtain ⟨k, ks, hdrop⟩ : ∃ k ks, (opening s).drop heard = k :: ks :=
      ⟨_, _, List.drop_eq_getElem_cons (show heard < (opening s).length from hlt)⟩
    rw [hdrop, List.cons_append] at hflow
    obtain ⟨hk, hrest⟩ := List.cons.inj hflow
    obtain ⟨hfits, hstage'⟩ := hstage.next (hk ▸ hdrop) hown hen1
    have hks : (opening s).drop (heard + 1) = ks := by
      rw [← List.drop_drop, hdrop]
      rfl
    refine ⟨hfits, hids, hf.opened, heard + 1, late, hlt, ?_, ?_, hstage'⟩
    · rw [opening_apply, hks]
      exact hrest
    · rw [hsuggest, hnext]
      exact hlate
  · have hnil : (opening s).drop 5 = [] := rfl
    rw [hnil, List.nil_append] at hflow
    cases late with
    | nil => cases hflow
    | cons id late =>
      obtain ⟨hk, hrest⟩ := List.cons.inj hflow
      cases r with
      | ruled id' accepted =>
        obtain rfl : id' = id := Kind.ruled.inj hk
        have hfits := hlate id' List.mem_cons_self
        refine ⟨hfits, hids, hf.opened, 5, late, le_refl 5, ?_, ?_, hstage.verdict id' accepted⟩
        · rw [opening_apply]
          exact hrest
        · rw [hsuggest, hnext]
          exact fun id hid => hlate id (List.mem_cons_of_mem _ hid)
      | subscribed _ _ | authorized _ | difficulty _ | job _ | suggested _ => cases hk

theorem Ordered.submit {hasJob : Bool} (hord : Ordered hasJob reqs)
    (hopen : hasJob = true ∨ ∃ id, Req.authorize id ∈ reqs) (id : U64) {share : Share}
    (hfits : ShareFits share) : Ordered hasJob (reqs ++ [.submit id share]) := by
  have hthere {b : Bool} {k : U64 → Req} (hk : ∀ id id', k id ≠ .authorize id') {id : U64}
      {rs : List Req} (h : b = true ∨ ∃ id', Req.authorize id' ∈ k id :: rs) :
      b = true ∨ ∃ id', Req.authorize id' ∈ rs := by
    obtain h | ⟨id', hid⟩ := h
    · exact .inl h
    · obtain hid | hid := List.mem_cons.mp hid
      · exact absurd hid.symm (hk id id')
      · exact .inr ⟨id', hid⟩
  induction reqs generalizing hasJob with
  | nil =>
    obtain h | ⟨id', hid⟩ := hopen
    · exact ⟨h, hfits, trivial⟩
    · cases hid
  | cons r rs ih =>
    cases r with
    | authorize id' => exact ⟨hord.1, ih hord.2 (.inl rfl)⟩
    | subscribe id' => exact ih hord (hthere (fun _ _ => Req.noConfusion) hopen)
    | suggest id' => exact ih hord (hthere (fun _ _ => Req.noConfusion) hopen)
    | submit id' share' =>
      exact ⟨hord.1, hord.2.1, ih hord.2.2 (.inl hord.1)⟩

theorem Handler.Has.true_of {hasJob : Bool} (hhas : h.Has hasJob) (htrue : h.Has true) :
    hasJob = true := by
  cases hasJob with
  | true => rfl
  | false =>
    obtain ⟨t, ht⟩ := htrue
    cases hhas.1.symm.trans ht

def submitted (s : Stratum) : Stratum :=
  { s with nextId := s.nextId + 1, sharesSubmitted := s.sharesSubmitted + 1 }

theorem Follows.submit (hf : Follows difficulty s c reqs resps) (hlast : s.nextId.toNat + 1 < 2 ^ 64)
    (line : List Byte) (e : Entry) (share : Share) :
    Follows difficulty (submitted s) (c.submits line e) (reqs ++ [.submit (s.nextId + 1) share]) resps := by
  have hlt : s.nextId < s.nextId + 1 := by
    rw [BitVec.lt_def, toNat_succ hlast]
    exact Nat.lt_succ_self _
  have hissued : s.suggestDiffId < s.nextId + 1 := by
    have hle : s.suggestDiffId.toNat ≤ s.nextId.toNat := hf.ids.last
    exact BitVec.lt_def.mpr (hle.trans_lt hlt)
  obtain ⟨heard, late, hle, hflow, hlate, hstage⟩ := hf.flow
  refine ⟨⟨hf.ids.sub, hf.ids.auth, hf.ids.exact, BitVec.le_of_lt hissued⟩, ?_, heard,
    late ++ [s.nextId + 1], hle, ?_, ?_, ?_⟩
  · obtain h | ⟨id, hid⟩ := hf.opened
    · exact .inl h
    · exact .inr ⟨id, List.mem_append_left _ hid⟩
  · rw [List.flatMap_append, ← List.append_assoc, hflow, List.map_append, ← List.append_assoc]
    rfl
  · intro id hid
    obtain hid | hid := List.mem_append.mp hid
    · exact ⟨(hlate id hid).1, BitVec.le_trans (hlate id hid).2 (BitVec.le_of_lt hlt)⟩
    · rw [List.mem_singleton.mp hid]
      exact ⟨hissued, BitVec.le_refl _⟩
  · exact ⟨hstage.subscribed, hstage.authorized, hstage.difficulty, hstage.job, hstage.waits⟩

theorem Follows.serve {rs : List Req} {q : Req} {new : List Resp} {c' : Conn}
    (hf : Follows difficulty s c (q :: rs) resps) (hkinds : new.map Resp.kind = q.expects)
    (hown : ∀ r ∈ new, r.Of difficulty c'.handler)
    (hen1 : c'.handler.extranonce1 = c.handler.extranonce1)
    (hjobs : c.handler.jobs ≠ [] → c'.handler.jobs = c.handler.jobs) :
    Follows difficulty s c' rs (resps ++ new) := by
  obtain ⟨heard, late, hle, hflow, hlate, hstage⟩ := hf.flow
  refine ⟨hf.ids, ?_, heard, late, hle, ?_, hlate, ⟨?_, hstage.authorized, hstage.difficulty, ?_,
    hstage.waits⟩⟩
  · obtain ⟨t, ht⟩ | ⟨id, hid⟩ := hf.opened
    · have hne : c.handler.jobs ≠ [] := by
        rw [ht]
        exact List.cons_ne_nil _ _
      exact .inl ⟨t, (hjobs hne).trans ht⟩
    · obtain rfl | hid := List.mem_cons.mp hid
      · -- the job is among the answers
        have hjob : Kind.job ∈ new.map Resp.kind := by
          rw [hkinds, Req.expects]
          exact List.mem_cons_of_mem _ (List.mem_cons_of_mem _ (List.mem_singleton_self _))
        obtain ⟨r, hr, hkind⟩ := List.mem_map.mp hjob
        have howned := hown r hr
        cases r with
        | job t => exact .inl ⟨t, howned⟩
        | subscribed _ _ | authorized _ | difficulty _ | suggested _ | ruled _ _ => cases hkind
      · exact .inr ⟨id, hid⟩
  · rw [List.map_append, hkinds, List.append_assoc, ← hflow, List.flatMap_cons]
  · intro h
    rw [hen1]
    exact hstage.subscribed h
  · intro h
    obtain ⟨hhave, t, ht, hjob⟩ := hstage.job h
    have hne : c.handler.jobs ≠ [] := by
      rw [ht]
      exact List.cons_ne_nil _ _
    exact ⟨hhave, t, (hjobs hne).trans ht, hjob⟩

theorem Follows.keepsJob (hf : Follows difficulty s c reqs (r :: resps)) (hhave : s.haveJob = true) :
    (r.apply s).haveJob = true ∧ (r.apply s).job = s.job := by
  cases r with
  | job t =>
    obtain ⟨heard, late, -, hflow, -, hstage⟩ := hf.flow
    have hlt : heard < 4 := by
      by_contra hge
      have hmem : Kind.job ∈ (opening s).drop heard ++ late.map .ruled := by
        rw [← hflow]
        exact List.mem_cons_self
      obtain hmem | hmem := List.mem_append.mp hmem
      · have hdrop : (opening s).drop heard = ((opening s).drop 4).drop (heard - 4) := by
          rw [List.drop_drop]
          congr 1
          omega
        rw [hdrop] at hmem
        cases List.mem_singleton.mp (List.mem_of_mem_drop hmem)
      · obtain ⟨id, -, hid⟩ := List.mem_map.mp hmem
        cases hid
    rw [hstage.waits hlt] at hhave
    cases hhave
  | ruled id accepted => cases accepted <;> exact ⟨hhave, rfl⟩
  | subscribed _ _ | authorized _ | difficulty _ | suggested _ => exact ⟨hhave, rfl⟩

theorem Follows.hasJob (hf : Follows difficulty s c reqs resps) (hhave : s.haveJob = true) :
    s.en1 = c.handler.extranonce1 ∧ s.difficulty = .round difficulty.val ∧
      ∃ t : Template, c.handler.jobs = [(jobName 1, t.job)] ∧
        s.job = { t.stratumJob (jobName 1) with seq := s.job.seq } := by
  obtain ⟨heard, -, -, -, -, hstage⟩ := hf.flow
  have hge : 4 ≤ heard := by
    by_contra hlt
    rw [hstage.waits (Nat.not_le.mp hlt)] at hhave
    cases hhave
  exact ⟨(hstage.subscribed (by omega)).2, hstage.difficulty (by omega), (hstage.job hge).2⟩

end Follows

section Connections

variable (lib : Hashlib) (chain : Chain) (difficulty : Number) (target : Int)
  (worker password : List Byte)

structure ConnOk (live : Option Stratum) (c : Conn) : Prop where
  extranonce1 : c.handler.extranonce1.length = 4
  worth : ∀ e ∈ c.ledger, e.sound = true →
    beVal (powCompare chain e.ctx.ss4 e.nonce) ≤ beVal (targetFor (.round difficulty.val))
  talk : ∃ reqs resps, Talk lib chain difficulty target worker password c reqs resps ∧
    ∀ s ∈ live, Follows difficulty s c reqs resps

variable {lib chain difficulty target worker password} {live : Option Stratum} {c : Conn}

theorem ConnOk.forget (h : ConnOk lib chain difficulty target worker password live c) :
    ConnOk lib chain difficulty target worker password none c := by
  obtain ⟨reqs, resps, htalk, -⟩ := h.talk
  exact ⟨h.extranonce1, h.worth, reqs, resps, htalk, fun s hs => by cases hs⟩

theorem ConnOk.hangUp (h : ConnOk lib chain difficulty target worker password live c) :
    ConnOk lib chain difficulty target worker password live { c with alive := false } := by
  obtain ⟨reqs, resps, htalk, hfollows⟩ := h.talk
  refine ⟨h.extranonce1, h.worth, reqs, resps,
    ⟨htalk.up, htalk.down, htalk.order, htalk.own, htalk.ledger, htalk.right⟩, fun s hs => ?_⟩
  have hf := hfollows s hs
  exact ⟨hf.ids, hf.opened, hf.flow⟩

theorem mem_settle {b : Bool} {es : List Entry} {e : Entry} (he : e ∈ settle b es) :
    ∃ e' ∈ es, e'.ctx = e.ctx ∧ e'.nonce = e.nonce ∧ e'.sound = e.sound := by
  induction es with
  | nil => cases he
  | cons d es ih =>
    rw [settle] at he
    split at he
    · obtain rfl | he := List.mem_cons.mp he
      · exact ⟨d, List.mem_cons_self, rfl, rfl, rfl⟩
      · exact ⟨e, List.mem_cons_of_mem _ he, rfl, rfl, rfl⟩
    · obtain rfl | he := List.mem_cons.mp he
      · exact ⟨e, List.mem_cons_self, rfl, rfl, rfl⟩
      · obtain ⟨e', he', hsame⟩ := ih he
        exact ⟨e', List.mem_cons_of_mem _ he', hsame⟩

def Benign (o : Json) : Prop :=
  o.get "error" = none ∨ o.get "error" = some .null ∨
    o.get "error" = some (fault 23 (ascii "LowDifficultyShare"))

structure Answers (turn : Turn) : Prop where
  raised : turn.raised = false
  sent : turn.sent ≠ []
  benign : ∀ o ∈ turn.sent, Benign o

theorem benign_resp (r : Resp) : Benign r.json := by
  cases r with
  | subscribed _ _ | authorized _ | suggested _ => exact .inr (.inl rfl)
  | difficulty _ | job _ => exact .inl rfl
  | ruled id accepted =>
    cases accepted with
    | true => exact .inr (.inl rfl)
    | false => exact .inr (.inr rfl)

theorem expects_ne_nil (q : Req) : q.expects ≠ [] := by
  cases q <;> exact List.cons_ne_nil _ _

theorem ConnOk.serve {srv : Server} {line : List Byte} {rest : List (List Byte)}
    (h : ConnOk lib chain difficulty target worker password live c) (hup : c.up = line :: rest)
    (hlib : lib.Agrees) (hchain : srv.chain = chain) (hdiff : srv.difficulty = difficulty)
    (htarget : srv.target = some target) (hworker : worker.length ≤ 159)
    (hplain : ∀ b ∈ worker ++ password, Json.Plain b) (t : Template) :
    let turn := handleLine lib srv c.handler line t
    ConnOk lib chain difficulty target worker password live (c.serves rest turn) ∧ Answers turn ∧
      Serves srv c turn (c.serves rest turn) := by
  intro turn
  obtain ⟨reqs, resps, htalk, hfollows⟩ := h.talk
  cases reqs with
  | nil => cases hup.symm.trans htalk.up
  | cons q rs =>
    obtain ⟨hraised, new, hsent, hkinds, htalk', hserves⟩ :=
      htalk.serve hup hlib hchain hdiff htarget hworker hplain t
    refine ⟨⟨(congrArg List.length hserves.extranonce1).trans h.extranonce1, ?_, rs, resps ++ new,
      htalk', fun s hs => ?_⟩, ⟨hraised, ?_, ?_⟩, hserves⟩
    · intro e he
      have hold : ∃ e' ∈ c.ledger, e'.ctx = e.ctx ∧ e'.nonce = e.nonce ∧ e'.sound = e.sound := by
        rw [Conn.serves] at he
        dsimp only at he
        cases hv : turn.verdict with
        | some b =>
          rw [hv] at he
          exact mem_settle he
        | none =>
          rw [hv] at he
          exact ⟨e, he, rfl, rfl, rfl⟩
      obtain ⟨e', he', hctx, hnonce, hsound⟩ := hold
      rw [← hctx, ← hnonce, ← hsound]
      exact h.worth e' he'
    · exact (hfollows s hs).serve hkinds (fun r hr => htalk'.own r (List.mem_append_right _ hr))
        hserves.extranonce1 hserves.jobs
    · intro hnil
      rw [hsent, List.map_eq_nil_iff] at hnil
      rw [hnil] at hkinds
      exact expects_ne_nil q hkinds.symm
    · intro o ho
      rw [hsent] at ho
      obtain ⟨r, -, rfl⟩ := List.mem_map.mp ho
      exact benign_resp r

theorem ConnOk.hear {s : Stratum} {line : List Byte} {rest : List (List Byte)}
    (h : ConnOk lib chain difficulty target worker password (some s) c) (hdown : c.down = line :: rest)
    (now : U64) : ∃ r : Resp, onLine s line now = r.apply s ∧
      (s.haveJob = true → (r.apply s).haveJob = true ∧ (r.apply s).job = s.job) ∧
      ConnOk lib chain difficulty target worker password (some (r.apply s))
        (c.hears rest s (r.apply s)) ∧
      ∀ b, (c.hears rest s (r.apply s)).heardOf b = c.heardOf b + if r.ruling? = some b then 1 else 0 := by
  obtain ⟨reqs, resps, htalk, hfollows⟩ := h.talk
  have hf := hfollows s rfl
  cases resps with
  | nil => cases hdown.symm.trans htalk.down
  | cons r resps =>
    have hline : line = Json.dumps r.json := (List.cons.inj (hdown.symm.trans htalk.down)).1
    obtain ⟨hfits, hf'⟩ := hf.hear (htalk.own r List.mem_cons_self) h.extranonce1 rest
    obtain ⟨htalk', hheard⟩ := htalk.hear s hdown
    refine ⟨r, ?_, hf.keepsJob, ⟨h.extranonce1, h.worth, reqs, resps, htalk', fun s' hs' => ?_⟩, hheard⟩
    · rw [hline]
      exact onLine_resp hf.ids hfits now
    · obtain rfl := Option.some.inj hs'
      exact hf'

theorem ConnOk.submit {s : Stratum} (h : ConnOk lib chain difficulty target worker password (some s) c)
    (hlast : s.nextId.toNat + 1 < 2 ^ 64) {share : Share} (hfits : ShareFits share) {e : Entry}
    (hnone : e.verdict = none)
    (hworth : e.sound = true →
      beVal (powCompare chain e.ctx.ss4 e.nonce) ≤ beVal (targetFor (.round difficulty.val)))
    (hheader : e.sound = true → ∃ job, c.handler.jobs.lookup share.jobId = some job ∧
      gradeHeader lib job c.handler.extranonce1 share.en2 share.ntime share.nonce =
        some (putNonce e.ctx.ss4 e.nonce)) :
    ConnOk lib chain difficulty target worker password (some (submitted s))
      (c.submits (submitLine (s.nextId + 1) worker share.jobId share.en2 share.ntime share.nonce) e) := by
  obtain ⟨reqs, resps, htalk, hfollows⟩ := h.talk
  have hf := hfollows s rfl
  obtain ⟨hasJob, hhas, hord⟩ := htalk.order
  obtain ⟨past, here, pend, hledger, hheard, hpast, hhere, hwait⟩ := htalk.ledger
  have hopen : hasJob = true ∨ ∃ id, Req.authorize id ∈ reqs := by
    obtain htrue | hid := hf.opened
    · exact .inl (hhas.true_of htrue)
    · exact .inr hid
  refine ⟨h.extranonce1, ?_, reqs ++ [.submit (s.nextId + 1) share], resps,
    ⟨?_, htalk.down, ⟨hasJob, hhas, hord.submit hopen _ hfits⟩, htalk.own,
      ⟨past, here, pend ++ [e], ?_, hheard, hpast, hhere, ?_⟩, ?_⟩, fun s' hs' => ?_⟩
  · intro d hd
    obtain hd | hd := List.mem_append.mp hd
    · exact h.worth d hd
    · rw [List.mem_singleton.mp hd]
      exact hworth
  · rw [List.map_append, ← htalk.up]
    rfl
  · change c.ledger ++ [e] = _
    rw [hledger, List.append_assoc]
  · rw [List.filterMap_append]
    exact List.rel_append hwait (.cons ⟨hnone, hheader⟩ .nil)
  · intro d hd
    obtain hd | hd := List.mem_append.mp hd
    · exact htalk.right d hd
    · intro b hb
      rw [List.mem_singleton.mp hd, hnone] at hb
      cases hb
  · obtain rfl := Option.some.inj hs'
    exact hf.submit hlast _ e share

end Connections

section Dialling

variable (s : Stratum)

theorem connectTo_sent (redirect : Bool) (now : U64) (e : DialEnv) :
    (∃ addr, (connectTo s redirect now e).2 = [] ∧ ((connectTo s redirect now e).1 = { s with addr } ∨
      (connectTo s redirect now e).1 = backOff s now)) ∨
    ¬ e.socket < 0 ∧ connectTo s redirect now e = handshake
      { s with fd := e.socket, rx := [], backoffS := 0, reconnects := s.reconnects + 1 } e := by
  rw [connectTo]
  by_cases hsock : e.socket < 0
  · rw [if_pos hsock]
    exact .inl ⟨s.addr, rfl, .inl rfl⟩
  · rw [if_neg hsock]
    cases e.pton with
    | false =>
      cases redirect with
      | true => exact .inl ⟨s.addr, rfl, .inl rfl⟩
      | false => exact .inl ⟨[], rfl, .inl rfl⟩
    | true =>
      cases e.connects with
      | false => exact .inl ⟨s.addr, rfl, .inr rfl⟩
      | true => exact .inr ⟨hsock, rfl⟩

def Attempted (now : U64) (e : DialEnv) (session : Stratum) (sent : List (List Byte)) : Prop :=
  (∃ addr, sent = [] ∧ (session = s ∨ session = attempting s addr ∨
    session = backOff (attempting s addr) now)) ∨
  ∃ addr, ¬ e.socket < 0 ∧ session = (handshake (connecting s addr e.socket) e).1 ∧
    sent = (handshake (connecting s addr e.socket) e).2

theorem attempted_connectTo (addr : List Byte) (redirect : Bool) (now : U64) (e : DialEnv) :
    Attempted s now e (connectTo (attempting s addr) redirect now e).1
      (connectTo (attempting s addr) redirect now e).2 := by
  obtain ⟨addr', hsent, h | h⟩ | ⟨hsock, h⟩ := connectTo_sent (attempting s addr) redirect now e
  · exact .inl ⟨addr', hsent, .inr (.inl h)⟩
  · exact .inl ⟨addr, hsent, .inr (.inr h)⟩
  · exact .inr ⟨addr, hsock, congrArg Prod.fst h, congrArg Prod.snd h⟩

theorem dial_sent (now : U64) (e : DialEnv) :
    Attempted s now e (dial s now e).session (dial s now e).sent := by
  have hconnect (addr : List Byte) (redirect : Bool)
      (hdial : ((dial s now e).session, (dial s now e).sent) =
        connectTo (attempting s addr) redirect now e) :
      Attempted s now e (dial s now e).session (dial s now e).sent := by
    have h := attempted_connectTo s addr redirect now e
    rw [← hdial] at h
    exact h
  by_cases hwait : now < s.retryAt
  · rw [dial_wait s hwait]
    exact .inl ⟨[], rfl, .inl rfl⟩
  by_cases hask : s.reconnectPending = true ∨ s.addr = []
  · cases hdns : e.dns with
    | none =>
      refine .inl ⟨s.addr, ?_⟩
      simp only [dial, if_neg hwait, hask, hdns]
      exact ⟨rfl, .inr (.inr rfl)⟩
    | some a =>
      cases hr : s.reconnectPending with
      | true =>
        refine hconnect s.addr true ?_
        simp only [dial, if_neg hwait, hr, hdns]
        rfl
      | false =>
        refine hconnect a false ?_
        have haddr : s.addr = [] := hask.resolve_left (by simp [hr])
        simp only [dial, if_neg hwait, hr, hdns, haddr]
        rfl
  · refine hconnect s.addr s.reconnectPending ?_
    simp only [dial, if_neg hwait, if_neg hask]
    rfl

def handshakeReqs : List Req :=
  [.subscribe (s.nextId + 1), .authorize (s.nextId + 1 + 1), .suggest (s.nextId + 1 + 1 + 1)]

variable {s}

theorem handshakeLines_whole (hworker : s.worker.length ≤ 159) (hpassword : s.password.length ≤ 159) :
    handshakeLines s = (handshakeReqs s).map (Req.line s.worker s.password) := by
  have hdec := dec_length (s.nextId + 1)
  have hdec' := dec_length (s.nextId + 1 + 1)
  have hascii : (ascii "\x7b\"id\":").length = 6 ∧ (ascii ",\"method\":\"").length = 11 ∧
      (ascii "mining.subscribe").length = 16 ∧ (ascii "mining.authorize").length = 16 ∧
      (ascii "\",\"params\":[").length = 12 ∧ (ascii "osprey-blake2b/1.0").length = 18 ∧
      (ascii "\"").length = 1 ∧ (ascii ",").length = 1 ∧ (ascii "]\x7d\n").length = 3 := by
    decide
  have hsub : (requestLine (s.nextId + 1) "mining.subscribe"
      (quoted (ascii "osprey-blake2b/1.0"))).length ≤ 511 := by
    simp only [requestLine, quoted, List.length_append]
    omega
  have hauth : (requestLine (s.nextId + 1 + 1) "mining.authorize"
      (quoted s.worker ++ ascii "," ++ quoted s.password)).length ≤ 511 := by
    simp only [requestLine, quoted, List.length_append]
    omega
  rw [handshakeLines, List.take_of_length_le hsub, List.take_of_length_le hauth]
  rfl

theorem handshake_sends (e : DialEnv) (hup : ¬ s.fd < 0) :
    ∃ n, (handshake s e).2 = (handshakeLines s).take n ∧
      (¬ (handshake s e).1.fd < 0 → (handshakeLines s).take n = handshakeLines s) := by
  rw [handshake_eq s e hup]
  cases e.sendSubscribe with
  | false => exact ⟨0, rfl, fun h => absurd (drop_down _) h⟩
  | true =>
    cases e.sendAuthorize with
    | false => exact ⟨1, rfl, fun h => absurd (drop_down _) h⟩
    | true =>
      cases e.sendSuggest with
      | false => exact ⟨2, rfl, fun h => absurd (drop_down _) h⟩
      | true => exact ⟨3, rfl, fun _ => rfl⟩

theorem ordered_handshake (n : Nat) : Ordered false ((handshakeReqs s).take n) := by
  match n with
  | 0 => trivial
  | 1 => trivial
  | 2 => exact ⟨rfl, trivial⟩
  | n + 3 =>
    rw [List.take_of_length_le (Nat.le_add_left 3 n)]
    exact ⟨rfl, trivial⟩

theorem follows_handshake (difficulty : Number) (extranonce1 : Vector Byte 4) (sent : List (List Byte))
    (hids : s.nextId.toNat + 3 < 2 ^ 53) (hidle : s.haveJob = false) :
    Follows difficulty (suggesting (authorizing (subscribing s))) (.opened extranonce1 sent)
      (handshakeReqs s) [] := by
  have hfresh := fresh_handshake hids
  refine ⟨⟨hfresh.sub, hfresh.auth, hfresh.exact, hfresh.last⟩, .inr ⟨s.nextId + 1 + 1, by simp [handshakeReqs]⟩,
    0, [], Nat.zero_le 5, rfl, fun id hid => absurd hid List.not_mem_nil, ?_⟩
  exact ⟨fun h => absurd h (by decide), fun h => absurd h (by decide), fun h => absurd h (by decide),
    fun h => absurd h (by decide), fun _ => hidle⟩

theorem connOk_opened (lib : Hashlib) (chain : Chain) (difficulty : Number) (target : Int)
    (extranonce1 : Vector Byte 4) (e : DialEnv) (hup : ¬ s.fd < 0) (hworker : s.worker.length ≤ 159)
    (hpassword : s.password.length ≤ 159) (hids : s.nextId.toNat + 3 < 2 ^ 53)
    (hidle : s.haveJob = false) :
    ConnOk lib chain difficulty target s.worker s.password
      (if (handshake s e).1.fd < 0 then none else some (handshake s e).1)
      (.opened extranonce1 (handshake s e).2) := by
  obtain ⟨n, hsent, hall⟩ := handshake_sends e hup
  have hlines := handshakeLines_whole hworker hpassword
  refine ⟨by simp [Conn.opened, Handler.setup], fun e he => (by cases he), (handshakeReqs s).take n, [],
    ⟨?_, rfl, ⟨false, ⟨rfl, rfl⟩, ordered_handshake n⟩, fun r hr => (by cases hr),
      ⟨[], [], [], rfl, rfl, fun e he => (by cases he), rfl, ?_⟩, fun e he => (by cases he)⟩, fun s' hs' => ?_⟩
  · change (handshake s e).2 = _
    rw [hsent, hlines, List.map_take]
  · have hnone : ((handshakeReqs s).take n).filterMap Req.share? = [] := by
      rw [List.filterMap_eq_nil_iff]
      intro q hq
      have hq := List.mem_of_mem_take hq
      simp only [handshakeReqs, List.mem_cons, List.not_mem_nil, or_false] at hq
      obtain rfl | rfl | rfl := hq <;> rfl
    rw [hnone]
    exact .nil
  · split at hs'
    · cases hs'
    · rename_i hlive
      obtain rfl := Option.some.inj hs'
      have hwhole : (handshakeReqs s).take n = handshakeReqs s := by
        have hlen := congrArg List.length (hall hlive)
        rw [hlines, List.length_take, List.length_map] at hlen
        refine List.take_of_length_le ?_
        omega
      rw [hwhole]
      obtain hh | hh | hh | hh := handshake_cases s e hup
      · exact absurd (hh ▸ drop_down _) hlive
      · exact absurd (hh ▸ drop_down _) hlive
      · exact absurd (hh ▸ drop_down _) hlive
      · rw [hh]
        exact follows_handshake difficulty extranonce1 _ hids hidle

end Dialling

end OspreyBlake2b.Zynq
