import OspreyBlake2b.Miner.ShareTarget
import OspreyBlake2b.Zynq.FixtureLinkLaws

namespace OspreyBlake2b.Zynq

open OspreyBlake2b.Lib OspreyBlake2b.Lib.JsonText OspreyBlake2b.Miner

section Replace

variable {as bs : List Conn} {c c' : Conn}

theorem split_at {conns : List Conn} {i : Nat} (h : conns[i]? = some c) :
    ∃ as bs, conns = as ++ c :: bs ∧ ∀ c', conns.set i c' = as ++ c' :: bs := by
  obtain ⟨hlt, rfl⟩ := List.getElem?_eq_some_iff.mp h
  refine ⟨conns.take i, conns.drop (i + 1), ?_, fun c' => ?_⟩
  · rw [← List.drop_eq_getElem_cons hlt, List.take_append_drop]
  · rw [List.set_eq_take_append_cons_drop, if_pos hlt]

theorem sum_replace (f : Conn → Nat) {d : Nat} (h : f c' = f c + d) :
    ((as ++ c' :: bs).map f).sum = ((as ++ c :: bs).map f).sum + d := by
  simp only [List.map_append, List.map_cons, List.sum_append, List.sum_cons, h]
  omega

theorem last_replace {P : Conn → Prop} (hc : P c → P c')
    (h : ∃ cs d, as ++ c :: bs = cs ++ [d] ∧ P d) : ∃ cs d, as ++ c' :: bs = cs ++ [d] ∧ P d := by
  obtain ⟨cs, d, heq, hd⟩ := h
  obtain rfl | ⟨bs', d', rfl⟩ := List.eq_nil_or_concat bs
  · obtain ⟨-, hcd⟩ := List.append_inj' heq rfl
    obtain rfl := List.singleton_inj.mp hcd
    exact ⟨as, c', rfl, hc hd⟩
  · rw [List.concat_eq_append, ← List.cons_append, ← List.append_assoc] at heq
    obtain ⟨-, hcd⟩ := List.append_inj' heq rfl
    obtain rfl := List.singleton_inj.mp hcd
    refine ⟨as ++ c' :: bs', d', ?_, hd⟩
    rw [List.concat_eq_append, ← List.cons_append, ← List.append_assoc]

theorem forall_replace {P : Conn → Prop} (hc : P c → P c') (h : ∀ d ∈ as ++ c :: bs, P d) :
    ∀ d ∈ as ++ c' :: bs, P d := by
  intro d hd
  obtain hd | hd := List.mem_append.mp hd
  · exact h d (List.mem_append_left _ hd)
  · obtain rfl | hd := List.mem_cons.mp hd
    · exact hc (h c (List.mem_append_right _ List.mem_cons_self))
    · exact h d (List.mem_append_right _ (List.mem_cons_of_mem _ hd))

end Replace

structure Counts (server : Server) (main : Stratum) (conns : List Conn) : Prop where
  submits : server.submits = server.accepted + server.rejected
  accepted : server.accepted = (conns.map (Conn.graded true)).sum
  rejected : server.rejected = (conns.map (Conn.graded false)).sum
  sharesSubmitted : main.sharesSubmitted.toNat = (conns.map fun c => c.ledger.length).sum
  sharesAccepted : main.sharesAccepted.toNat = (conns.map (Conn.heardOf true)).sum
  sharesRejected : main.sharesRejected.toNat = (conns.map (Conn.heardOf false)).sum

/-- The same in the miner's 64 bits, which holds however many shares there were. -/
structure Tallies (server : Server) (main : Stratum) (conns : List Conn) : Prop where
  submits : server.submits = server.accepted + server.rejected
  accepted : server.accepted = (conns.map (Conn.graded true)).sum
  rejected : server.rejected = (conns.map (Conn.graded false)).sum
  sharesSubmitted : main.sharesSubmitted = BitVec.ofNat 64 (conns.map fun c => c.ledger.length).sum
  sharesAccepted : main.sharesAccepted = BitVec.ofNat 64 (conns.map (Conn.heardOf true)).sum
  sharesRejected : main.sharesRejected = BitVec.ofNat 64 (conns.map (Conn.heardOf false)).sum

theorem Tallies.counts {server : Server} {main : Stratum} {conns : List Conn}
    (h : Tallies server main conns) (hsent : (conns.map fun c => c.ledger.length).sum < 2 ^ 64) :
    Counts server main conns := by
  have hheard (b : Bool) : (conns.map (Conn.heardOf b)).sum < 2 ^ 64 :=
    (List.sum_le_sum fun c _ => List.countP_le_length.trans (List.take_sublist _ _).length_le).trans_lt
      hsent
  exact ⟨h.submits, h.accepted, h.rejected, toNat_of_eq_ofNat h.sharesSubmitted hsent,
    toNat_of_eq_ofNat h.sharesAccepted (hheard true),
    toNat_of_eq_ofNat h.sharesRejected (hheard false)⟩

section Steps

variable (lib : Hashlib) (chain : Chain) (difficulty : Number) (target : Int)
  (worker password : List Byte)

structure Linked (l : Link) (steps : Nat) : Prop where
  mining : Mining chain difficulty worker password l.miner steps
  served : l.server.chain = chain ∧ l.server.difficulty = difficulty
  conns : ∀ c ∈ l.conns, ConnOk lib chain difficulty target worker password none c
  last : 0 ≤ l.main.fd → ∃ cs c, l.conns = cs ++ [c] ∧
    ConnOk lib chain difficulty target worker password (some l.main) c
  counts : Tallies l.server l.main l.conns
  shares : (l.conns.map fun c => c.ledger.length).sum ≤ steps

variable {lib chain difficulty target worker password} {l : Link} {steps : Nat}

theorem Mining.later {w : Watched} (h : Mining chain difficulty worker password w steps) :
    Mining chain difficulty worker password w (steps + 1) :=
  ⟨h.agrees, h.tracks, h.ground, h.chain, h.client.later, h.offered, h.kept⟩

theorem Linked.later (h : Linked lib chain difficulty target worker password l steps) :
    Linked lib chain difficulty target worker password l (steps + 1) :=
  ⟨h.mining.later, h.served, h.conns, h.last, h.counts, Nat.le_succ_of_le h.shares⟩

theorem Tallies.moves {server : Server} {main main' : Stratum} {as bs : List Conn} {c c' : Conn}
    {n : Nat} {k : Bool → Nat} (h : Tallies server main (as ++ c :: bs))
    (hgraded : ∀ b, c'.graded b = c.graded b)
    (hlen : c'.ledger.length = c.ledger.length + n) (hheard : ∀ b, c'.heardOf b = c.heardOf b + k b)
    (hsubmitted : main'.sharesSubmitted = main.sharesSubmitted + BitVec.ofNat 64 n)
    (haccepted : main'.sharesAccepted = main.sharesAccepted + BitVec.ofNat 64 (k true))
    (hrejected : main'.sharesRejected = main.sharesRejected + BitVec.ofNat 64 (k false)) :
    Tallies server main' (as ++ c' :: bs) where
  submits := h.submits
  accepted := h.accepted.trans (sum_replace _ (d := 0) (hgraded true)).symm
  rejected := h.rejected.trans (sum_replace _ (d := 0) (hgraded false)).symm
  sharesSubmitted := by
    rw [hsubmitted, h.sharesSubmitted, ← BitVec.ofNat_add]
    exact congrArg _ (sum_replace (fun c => c.ledger.length) hlen).symm
  sharesAccepted := by
    rw [haccepted, h.sharesAccepted, ← BitVec.ofNat_add]
    exact congrArg _ (sum_replace _ (hheard true)).symm
  sharesRejected := by
    rw [hrejected, h.sharesRejected, ← BitVec.ofNat_add]
    exact congrArg _ (sum_replace _ (hheard false)).symm

theorem Tallies.replace {server : Server} {main : Stratum} {as bs : List Conn} {c c' : Conn}
    (h : Tallies server main (as ++ c :: bs)) (hgraded : ∀ b, c'.graded b = c.graded b)
    (hheard : ∀ b, c'.heardOf b = c.heardOf b) (hlen : c'.ledger.length = c.ledger.length) :
    Tallies server main (as ++ c' :: bs) :=
  h.moves (n := 0) (k := fun _ => 0) hgraded hlen hheard (BitVec.add_zero _).symm
    (BitVec.add_zero _).symm (BitVec.add_zero _).symm

theorem record_counts (srv : Server) (verdict : Option Bool) :
    let srv' := verdict.elim srv srv.record
    srv'.chain = srv.chain ∧ srv'.difficulty = srv.difficulty ∧
      srv'.submits = srv.submits + (if verdict.isSome then 1 else 0) ∧
      srv'.accepted = srv.accepted + (if verdict = some true then 1 else 0) ∧
      srv'.rejected = srv.rejected + (if verdict = some false then 1 else 0) := by
  cases verdict with
  | none => exact ⟨rfl, rfl, rfl, rfl, rfl⟩
  | some b =>
    cases b with
    | false => exact ⟨rfl, rfl, rfl, rfl, rfl⟩
    | true =>
      dsimp only [Option.elim, Server.record]
      simp only [if_true]
      split <;> exact ⟨rfl, rfl, rfl, rfl, rfl⟩

theorem Linked.serve (h : Linked lib chain difficulty target worker password l steps)
    (hlib : lib.Agrees) (htarget : difficultyToTarget (.round difficulty.val) = some target)
    (hworker : worker.length ≤ 159) (hplain : ∀ b ∈ worker ++ password, Json.Plain b) (i : Nat)
    (t : Template) :
    Linked lib chain difficulty target worker password (l.step lib (.serve i t)) (steps + 1) := by
  rw [Link.step]
  cases hc : l.conns[i]? with
  | none => exact h.later
  | some c =>
    dsimp only
    split
    case h_2 => exact h.later
    case h_1 line rest hup =>
      split
      case isFalse => exact h.later
      case isTrue =>
        obtain ⟨as, bs, hconns, hset⟩ := split_at hc
        have hsrv : l.server.target = some target := by rw [Server.target, h.served.2, htarget]
        have hserve (live : Option Stratum)
            (hok : ConnOk lib chain difficulty target worker password live c) :=
          hok.serve hup hlib h.served.1 h.served.2 hsrv hworker hplain t
        obtain ⟨-, -, hserves⟩ := hserve none (h.conns c (List.mem_of_getElem? hc))
        obtain ⟨hchain, hdiff, hsubmits, haccepted, hrejected⟩ :=
          record_counts l.server (handleLine lib l.server c.handler line t).verdict
        have hconns' := h.conns
        have hlast := h.last
        have hcounts := h.counts
        have hshares := h.shares
        rw [hconns] at hconns' hlast hcounts hshares
        rw [hset, hserves.server]
        refine ⟨h.mining.later, ⟨hchain.trans h.served.1, hdiff.trans h.served.2⟩,
          forall_replace (fun hok => (hserve none hok).1) hconns',
          fun hup => last_replace (fun hok => (hserve _ hok).1) (hlast hup), ⟨?_, ?_, ?_, ?_, ?_, ?_⟩,
          ?_⟩
        · rw [hsubmits, haccepted, hrejected, hcounts.submits]
          cases (handleLine lib l.server c.handler line t).verdict with
          | none => rfl
          | some b => cases b <;> simp <;> omega
        · exact haccepted.trans ((congrArg (· + _) hcounts.accepted).trans
            (sum_replace _ (hserves.graded true)).symm)
        · exact hrejected.trans ((congrArg (· + _) hcounts.rejected).trans
            (sum_replace _ (hserves.graded false)).symm)
        · exact hcounts.sharesSubmitted.trans
            (congrArg _ (sum_replace _ (d := 0) hserves.length).symm)
        · exact hcounts.sharesAccepted.trans
            (congrArg _ (sum_replace _ (d := 0) (hserves.heardOf true)).symm)
        · exact hcounts.sharesRejected.trans
            (congrArg _ (sum_replace _ (d := 0) (hserves.heardOf false)).symm)
        · exact (sum_replace _ (d := 0) hserves.length).trans_le (Nat.le_succ_of_le hshares)

theorem Linked.hangUp (h : Linked lib chain difficulty target worker password l steps) (i : Nat) :
    Linked lib chain difficulty target worker password (l.step lib (.hangUp i)) (steps + 1) := by
  rw [Link.step]
  obtain hge | hlt := le_or_gt l.conns.length i
  · rw [List.modify_eq_self hge]
    exact h.later
  · obtain ⟨as, c, bs, hconns, -, hset⟩ := List.exists_of_modify
      (fun c : Conn => { c with alive := false }) hlt
    have hconns' := h.conns
    have hlast := h.last
    have hcounts := h.counts
    have hshares := h.shares
    rw [hconns] at hconns' hlast hcounts hshares
    have hsum : ((as ++ { c with alive := false } :: bs).map fun c => c.ledger.length).sum =
        ((as ++ c :: bs).map fun c => c.ledger.length).sum := sum_replace _ (d := 0) rfl
    rw [hset]
    exact ⟨h.mining.later, h.served, forall_replace ConnOk.hangUp hconns',
      fun hup => last_replace ConnOk.hangUp (hlast hup),
      hcounts.replace (fun _ => rfl) (fun _ => rfl) rfl,
      hsum.trans_le (Nat.le_succ_of_le hshares)⟩

theorem counts_apply (s : Stratum) (r : Resp) :
    (r.apply s).sharesSubmitted = s.sharesSubmitted ∧
      (r.apply s).sharesAccepted =
        s.sharesAccepted + BitVec.ofNat 64 (if r.ruling? = some true then 1 else 0) ∧
      (r.apply s).sharesRejected =
        s.sharesRejected + BitVec.ofNat 64 (if r.ruling? = some false then 1 else 0) := by
  have hzero (c : U64) : c = c + BitVec.ofNat 64 0 := (BitVec.add_zero c).symm
  cases r with
  | ruled id accepted =>
    cases accepted with
    | true => exact ⟨rfl, rfl, hzero _⟩
    | false => exact ⟨rfl, hzero _, rfl⟩
  | subscribed _ _ | authorized _ | difficulty _ | job _ | suggested _ => exact ⟨rfl, hzero _, hzero _⟩

theorem client_apply {s : Stratum} (h : Client worker password s steps) (hup : 0 ≤ s.fd) (r : Resp) :
    Client worker password (r.apply s) (steps + 1) := by
  obtain ⟨hworker, hpassword, hsize, hlast, hidle⟩ := h.later
  have hfd : ¬ s.fd < 0 := Int.not_lt.mpr hup
  cases r with
  | subscribed id extranonce1 => exact ⟨hworker, hpassword, rfl, hlast, hidle⟩
  | job t => exact ⟨hworker, hpassword, hsize, hlast, fun h => absurd h hfd⟩
  | ruled id accepted => cases accepted <;> exact ⟨hworker, hpassword, hsize, hlast, hidle⟩
  | authorized _ | difficulty _ | suggested _ => exact ⟨hworker, hpassword, hsize, hlast, hidle⟩

theorem isUp_main (g : Worksrc) : isUp g .main = true ↔ 0 ≤ g.main.fd := decide_eq_true_iff

theorem step_line {w : Watched} (hup : 0 ≤ w.pool.src.main.fd) (text : List Byte) (now : U64) :
    (w.step (.line .main text now)).pool.src.main = onLine w.pool.src.main text now := by
  have hreact : w.pool.react (.line .main text now) =
      ({ w.pool with src := w.pool.src.setSession .main (onLine w.pool.src.main text now) }, .none) :=
    if_pos ⟨rfl, (isUp_main _).mpr hup⟩
  change (w.pool.react (.line .main text now)).1.src.main = _
  rw [hreact]
  rfl

theorem Linked.live (h : Linked lib chain difficulty target worker password l steps)
    (hup : 0 ≤ l.main.fd) {c : Conn} (hc : l.conns.getLast? = some c) :
    ConnOk lib chain difficulty target worker password (some l.main) c := by
  obtain ⟨cs, d, hconns, hd⟩ := h.last hup
  rw [hconns, List.getLast?_append, List.getLast?_singleton] at hc
  obtain rfl := Option.some.inj hc
  exact hd

theorem Linked.goesOn (h : Linked lib chain difficulty target worker password l steps) {w : Watched}
    {cs : List Conn} {c c' : Conn} {n : Nat} {k : Bool → Nat} (hn : n ≤ 1) (hcs : l.conns = cs ++ [c])
    (hmining : Mining chain difficulty worker password w (steps + 1))
    (hok : ConnOk lib chain difficulty target worker password (some w.pool.src.main) c')
    (hgraded : ∀ b, c'.graded b = c.graded b)
    (hlen : c'.ledger.length = c.ledger.length + n) (hheard : ∀ b, c'.heardOf b = c.heardOf b + k b)
    (hcounts : w.pool.src.main.sharesSubmitted = l.main.sharesSubmitted + BitVec.ofNat 64 n ∧
      w.pool.src.main.sharesAccepted = l.main.sharesAccepted + BitVec.ofNat 64 (k true) ∧
      w.pool.src.main.sharesRejected = l.main.sharesRejected + BitVec.ofNat 64 (k false)) :
    Linked lib chain difficulty target worker password { l with miner := w, conns := cs ++ [c'] }
      (steps + 1) := by
  obtain ⟨hsubmitted, haccepted, hrejected⟩ := hcounts
  have hconns := h.conns
  have hledgers := h.counts
  have hshares := h.shares
  rw [hcs] at hconns hledgers hshares
  exact ⟨hmining, h.served, forall_replace (fun _ => hok.forget) hconns, fun _ => ⟨cs, c', rfl, hok⟩,
    hledgers.moves hgraded hlen hheard hsubmitted haccepted hrejected,
    (sum_replace (fun c => c.ledger.length) hlen).trans_le (Nat.add_le_add hshares hn)⟩

theorem Linked.hear (h : Linked lib chain difficulty target worker password l steps) (now : U64) :
    Linked lib chain difficulty target worker password (l.step lib (.hear now)) (steps + 1) := by
  rw [Link.step]
  cases hc : l.conns.getLast? with
  | none => exact h.later
  | some c =>
    dsimp only
    split
    case h_2 => exact h.later
    case h_1 line rest hdown =>
      split
      case isFalse => exact h.later
      case isTrue hisUp =>
        have hup : 0 ≤ l.main.fd := (isUp_main _).mp hisUp
        obtain ⟨r, hread, hkeep, hok, hheard⟩ := (h.live hup hc).hear hdown now
        have hmain : (l.miner.step (.line .main line now)).pool.src.main = r.apply l.main :=
          (step_line hup line now).trans hread
        have hmining : Mining chain difficulty worker password (l.miner.step (.line .main line now))
            (steps + 1) := by
          refine h.mining.session rfl ?_ fun _ _ => ⟨hup, ?_⟩
          · rw [hmain]
            exact client_apply h.mining.client hup r
          · rw [hmain]
            exact hkeep
        obtain ⟨cs, hcs⟩ := List.getLast?_eq_some_iff.mp hc
        rw [hcs, List.dropLast_concat]
        rw [← hmain] at hok hheard
        refine h.goesOn (n := 0) (Nat.zero_le 1) hcs hmining hok (fun _ => rfl) rfl hheard ?_
        rw [hmain]
        obtain ⟨hsubmitted, hruled⟩ := counts_apply l.main r
        exact ⟨hsubmitted.trans (BitVec.add_zero _).symm, hruled⟩

theorem Linked.keep (h : Linked lib chain difficulty target worker password l steps) {w : Watched}
    (hmining : Mining chain difficulty worker password w (steps + 1))
    (hup : 0 ≤ w.pool.src.main.fd → w.pool.src.main = l.main)
    (hcounts : w.pool.src.main.sharesSubmitted = l.main.sharesSubmitted ∧
      w.pool.src.main.sharesAccepted = l.main.sharesAccepted ∧
      w.pool.src.main.sharesRejected = l.main.sharesRejected) :
    Linked lib chain difficulty target worker password { l with miner := w } (steps + 1) := by
  obtain ⟨hsubmitted, haccepted, hrejected⟩ := hcounts
  refine ⟨hmining, h.served, h.conns, fun hlive => ?_, ⟨h.counts.submits, h.counts.accepted,
    h.counts.rejected, hsubmitted.trans h.counts.sharesSubmitted,
    haccepted.trans h.counts.sharesAccepted, hrejected.trans h.counts.sharesRejected⟩,
    Nat.le_succ_of_le h.shares⟩
  have hsame := hup hlive
  change ∃ cs c, l.conns = cs ++ [c] ∧ ConnOk lib chain difficulty target worker password
    (some w.pool.src.main) c
  change 0 ≤ w.pool.src.main.fd at hlive
  rw [hsame] at hlive ⊢
  exact h.last hlive

theorem Linked.same (h : Linked lib chain difficulty target worker password l steps) {w : Watched}
    (hmining : Mining chain difficulty worker password w (steps + 1))
    (hmain : w.pool.src.main = l.main) :
    Linked lib chain difficulty target worker password { l with miner := w } (steps + 1) :=
  h.keep hmining (fun _ => hmain) (by rw [hmain]; exact ⟨rfl, rfl, rfl⟩)

theorem Linked.lost (h : Linked lib chain difficulty target worker password l steps) :
    Linked lib chain difficulty target worker password (l.step lib .lost) (steps + 1) := by
  have hmain : (l.miner.step (.lost .main)).pool.src.main = drop l.main ∨
      (l.miner.step (.lost .main)).pool.src.main = l.main := by
    change (l.miner.pool.react (.lost .main)).1.src.main = _ ∨
      (l.miner.pool.react (.lost .main)).1.src.main = _
    rw [Pool.react]
    split
    · exact .inl rfl
    · exact .inr rfl
  obtain ⟨hworker, hpassword, hsize, hlast, hidle⟩ := h.mining.client.later
  obtain hdrop | hsame := hmain
  · have hdown : ¬ 0 ≤ (l.miner.step (.lost .main)).pool.src.main.fd := by
      rw [hdrop]
      exact Int.not_le.mpr (drop_down _)
    refine h.keep (h.mining.session rfl ?_ fun hup => absurd hup hdown) (fun hup => absurd hup hdown) ?_
    · rw [hdrop]
      exact ⟨hworker, hpassword, hsize, hlast, fun _ => rfl⟩
    · rw [hdrop]
      exact ⟨rfl, rfl, rfl⟩
  · refine h.keep (h.mining.session rfl ?_ fun hup _ => ?_) (fun _ => hsame) ?_
    · rw [hsame]
      exact ⟨hworker, hpassword, hsize, hlast, hidle⟩
    · rw [hsame] at hup ⊢
      exact ⟨hup, fun h => ⟨h, rfl⟩⟩
    · rw [hsame]
      exact ⟨rfl, rfl, rfl⟩

theorem targetFor_length (d : Double) : (targetFor d).length = 32 := length_target (dscaled_ne_zero d)

theorem ConnOk.heard_le {live : Option Stratum} {c : Conn}
    (h : ConnOk lib chain difficulty target worker password live c) : c.heard ≤ c.ledger.length := by
  obtain ⟨_, _, htalk, -⟩ := h.talk
  obtain ⟨past, here, pend, hledger, hheard, -⟩ := htalk.ledger
  rw [hledger, ← hheard, List.length_append, List.length_append]
  omega

theorem graded_submits (c : Conn) (line : List Byte) {e : Entry} (he : e.verdict = none) (b : Bool) :
    (c.submits line e).graded b = c.graded b := by
  change (c.ledger ++ [e]).countP _ = _
  rw [List.countP_append, List.countP_singleton, he]
  rfl

theorem heardOf_submits {c : Conn} (h : c.heard ≤ c.ledger.length) (line : List Byte) (e : Entry)
    (b : Bool) : (c.submits line e).heardOf b = c.heardOf b := by
  change ((c.ledger ++ [e]).take c.heard).countP _ = _
  rw [List.take_append_of_le_length h]
  rfl

theorem Linked.submit (h : Linked lib chain difficulty target worker password l steps)
    (hlib : lib.Agrees) (hsteps : 3 * (steps + 1) < 2 ^ 53) {nonce hashTop64 : U64} {c : Conn}
    (hwork : l.miner.pool.haveWork = true)
    (hs : Submits l.miner.pool.src l.miner.pool.ctx nonce hashTop64 .main)
    (hc : l.conns.getLast? = some c) :
    let e : Entry := ⟨l.miner.pool.ctx, nonce, !l.miner.past.behind && !l.miner.past.dead, none⟩
    ConnOk lib chain difficulty target worker password (some (submitted l.main))
      (c.submits (l.shareLine (shareOf l.miner.pool.src .main nonce)) e) := by
  intro e
  have hup : 0 ≤ l.main.fd := Int.not_lt.mp hs.up
  have hok := h.live hup hc
  have hfits := h.mining.shareFits hs.sess nonce
  have hlast := h.mining.client.lastId
  have hnext : l.main.nextId.toNat + 1 < 2 ^ 64 := by
    change l.main.nextId.toNat ≤ 3 * steps at hlast
    omega
  have hline : l.shareLine (shareOf l.miner.pool.src .main nonce) =
      submitLine (l.main.nextId + 1) worker (shareOf l.miner.pool.src .main nonce).jobId
        (shareOf l.miner.pool.src .main nonce).en2 (shareOf l.miner.pool.src .main nonce).ntime
        (shareOf l.miner.pool.src .main nonce).nonce := by
    rw [Link.shareLine, show l.main.worker = worker from h.mining.client.worker]
  rw [hline]
  refine hok.submit hnext hfits rfl (fun _ => ?_) fun hsound => ?_
  · obtain ⟨-, -, -, htarget⟩ := h.mining.offered hs.sess
    have hlen := (powCompare_length l.miner.pool.src.chain l.miner.pool.ctx.ss4 nonce).trans
      (targetFor_length (.round difficulty.val)).symm
    have hmeets := hs.meets
    rw [htarget, Miner.hashMeetsTarget_iff hlen, h.mining.chain] at hmeets
    exact hmeets
  · have hboth : l.miner.past.behind = false ∧ l.miner.past.dead = false := by
      simpa [e] using hsound
    obtain ⟨hhave, htime, hmessages⟩ := h.mining.sound hwork hs.sess hboth.1 hboth.2 hup
    obtain ⟨reqs, resps, -, hfollows⟩ := hok.talk
    obtain ⟨hen1, -, t, hjobs, hjob⟩ := (hfollows l.main rfl).hasJob hhave
    refine ⟨t.job, ?_, ?_⟩
    · rw [hjobs, hfits.jobId]
      exact List.lookup_cons_self
    · have hheader := gradeHeader_eq hlib hmessages nonce
      have hfixture : fixtureJob l.miner.pool.src.main.job = t.job := by
        change fixtureJob l.main.job = t.job
        rw [hjob]
        rfl
      change l.miner.pool.src.main.en1 = _ at hen1
      rw [hfixture, hen1, ← htime] at hheader
      exact hheader

theorem step_silent {e : Event} (he : e.session? ≠ some .main) (hshare : l.share? e = none) :
    l.step lib (.loop e) = { l with miner := l.miner.step e } := by
  rw [Link.step, if_neg he, hshare]

theorem step_share {e : Event} (he : e.session? ≠ some .main) {share : Share} {entry : Entry}
    (hshare : l.share? e = some (share, entry)) {cs : List Conn} {c : Conn}
    (hcs : l.conns = cs ++ [c]) :
    l.step lib (.loop e) =
      { l with miner := l.miner.step e, conns := cs ++ [c.submits (l.shareLine share) entry] } := by
  have hc : l.conns.getLast? = some c := List.getLast?_eq_some_iff.mpr ⟨cs, hcs⟩
  rw [Link.step, if_neg he, hshare, hc]
  dsimp only
  rw [hcs, List.dropLast_concat]

theorem Linked.silent (h : Linked lib chain difficulty target worker password l steps) {e : Event}
    (he : e.session? ≠ some .main) (hshare : l.share? e = none)
    (hstep : (l.miner.step e).pool.src.main = l.main ∧
      Mining chain difficulty worker password (l.miner.step e) (steps + 1)) :
    Linked lib chain difficulty target worker password (l.step lib (.loop e)) (steps + 1) := by
  rw [step_silent he hshare]
  exact h.same hstep.2 hstep.1

theorem Linked.sent (h : Linked lib chain difficulty target worker password l steps)
    (hlib : lib.Agrees) (hsteps : 3 * (steps + 1) < 2 ^ 53) {nonce hashTop64 : U64}
    (hwork : l.miner.pool.haveWork = true)
    (hs : Submits l.miner.pool.src l.miner.pool.ctx nonce hashTop64 .main)
    (hmain : (l.miner.step (.candidate nonce hashTop64 true)).pool.src.main =
      (stratumSubmit l.main true).1)
    (heff : (l.miner.pool.react (.candidate nonce hashTop64 true)).2 =
      .submitted (shareOf l.miner.pool.src .main nonce)) :
    Linked lib chain difficulty target worker password
      (l.step lib (.loop (.candidate nonce hashTop64 true))) (steps + 1) := by
  have hup : 0 ≤ l.main.fd := Int.not_lt.mp hs.up
  have hsent : (l.miner.step (.candidate nonce hashTop64 true)).pool.src.main = submitted l.main := by
    obtain ⟨hd, -⟩ | ⟨-, hd, -⟩ | ⟨-, -, hd⟩ := stratumSubmit_cases l.main true
    · exact absurd hd hs.up
    · cases hd
    · exact hmain.trans hd
  have hshare : l.share? (.candidate nonce hashTop64 true) =
      some (shareOf l.miner.pool.src .main nonce, ⟨l.miner.pool.ctx, nonce,
        !l.miner.past.behind && !l.miner.past.dead, none⟩) := by
    rw [Link.share?, heff]
    rfl
  obtain ⟨cs, c, hcs, -⟩ := h.last hup
  have hc : l.conns.getLast? = some c := List.getLast?_eq_some_iff.mpr ⟨cs, hcs⟩
  have hok := h.submit hlib hsteps hwork hs hc
  rw [← hsent] at hok
  rw [step_share (e := .candidate nonce hashTop64 true) (Option.some_ne_none _).symm hshare hcs]
  refine h.goesOn (n := 1) (k := fun _ => 0) (Nat.le_refl 1) hcs (h.mining.candidate nonce hashTop64 true) hok
    (graded_submits c _ rfl) (List.length_append ..)
    (heardOf_submits (h.live hup hc).heard_le _ _) ?_
  rw [hsent]
  exact ⟨rfl, (BitVec.add_zero _).symm, (BitVec.add_zero _).symm⟩

theorem Linked.unsent (h : Linked lib chain difficulty target worker password l steps)
    {nonce hashTop64 : U64} (hlive : ¬ l.main.fd < 0)
    (hmain : (l.miner.step (.candidate nonce hashTop64 false)).pool.src.main =
      (stratumSubmit l.main false).1) :
    Linked lib chain difficulty target worker password
      (l.step lib (.loop (.candidate nonce hashTop64 false))) (steps + 1) := by
  have hdown : (l.miner.step (.candidate nonce hashTop64 false)).pool.src.main =
      drop { l.main with nextId := l.main.nextId + 1 } := by
    obtain ⟨hd, -⟩ | ⟨-, -, hd⟩ | ⟨-, hd, -⟩ := stratumSubmit_cases l.main false
    · exact absurd hd hlive
    · exact hmain.trans hd
    · cases hd
  rw [step_silent (e := .candidate nonce hashTop64 false) (Option.some_ne_none _).symm rfl]
  refine h.keep (h.mining.candidate nonce hashTop64 false) (fun hup => ?_)
    (by rw [hdown]; exact ⟨rfl, rfl, rfl⟩)
  rw [hdown] at hup
  exact absurd (drop_down _) (Int.not_lt.mpr hup)

theorem Linked.candidate (h : Linked lib chain difficulty target worker password l steps)
    (hlib : lib.Agrees) (hsteps : 3 * (steps + 1) < 2 ^ 53) (nonce hashTop64 : U64) (sendOk : Bool) :
    Linked lib chain difficulty target worker password
      (l.step lib (.loop (.candidate nonce hashTop64 sendOk))) (steps + 1) := by
  obtain ⟨hmain, hnone⟩ | ⟨hwork, hs, hmain, heff⟩ :=
    react_candidate_main l.miner.pool nonce hashTop64 sendOk
  · have hshare : l.share? (.candidate nonce hashTop64 sendOk) = none := by
      cases sendOk with
      | false => rfl
      | true =>
        rw [Link.share?]
        split
        · rename_i share heff
          exact if_neg (hnone share heff)
        · rfl
    exact h.silent (Option.some_ne_none _).symm hshare
      ⟨hmain, h.mining.candidate nonce hashTop64 sendOk⟩
  · cases sendOk with
    | false => exact h.unsent hs.up hmain
    | true => exact h.sent hlib hsteps hwork hs hmain heff

theorem Linked.ready (h : Linked lib chain difficulty target worker password l steps)
    (hready : stratumReady l.main = true) :
    l.main.job.jobId = jobName 1 ∧ l.main.difficulty = .round difficulty.val := by
  rw [stratumReady, decide_eq_true_eq] at hready
  obtain ⟨cs, c, -, hok⟩ := h.last hready.1
  obtain ⟨reqs, resps, -, hfollows⟩ := hok.talk
  obtain ⟨-, hdiff, t, -, hjob⟩ := (hfollows l.main rfl).hasJob hready.2.2.2
  refine ⟨?_, hdiff⟩
  rw [hjob]
  rfl

theorem Linked.loop (h : Linked lib chain difficulty target worker password l steps)
    (hlib : lib.Agrees) (hsteps : 3 * (steps + 1) < 2 ^ 53) (e : Event) :
    Linked lib chain difficulty target worker password (l.step lib (.loop e)) (steps + 1) := by
  by_cases he : e.session? = some .main
  · rw [Link.step, if_pos he]
    exact h.later
  · cases e with
    | line x text now =>
      cases x with
      | main => exact absurd rfl he
      | dev => exact h.silent he rfl (h.mining.dev (e := .line .dev text now) rfl)
    | lost x =>
      cases x with
      | main => exact absurd rfl he
      | dev => exact h.silent he rfl (h.mining.dev (e := .lost .dev) rfl)
    | dial x now env =>
      cases x with
      | main => exact absurd rfl he
      | dev => exact h.silent he rfl (h.mining.dev (e := .dial .dev now env) rfl)
    | work t now accepts => exact h.silent he rfl (h.mining.work t now accepts h.ready)
    | candidate nonce hashTop64 sendOk => exact h.candidate hlib hsteps nonce hashTop64 sendOk

theorem step_dial {w : Watched} (hdown : ¬ 0 ≤ w.pool.src.main.fd) (now : U64) (env : DialEnv) :
    (w.step (.dial .main now env)).pool.src.main = (dial w.pool.src.main now env).session := by
  have hreact : w.pool.react (.dial .main now env) = ({ w.pool with
      src := w.pool.src.setSession .main (dial w.pool.src.main now env).session }, .none) := by
    refine if_pos ⟨rfl, ?_⟩
    have hnot := mt (isUp_main w.pool.src).mp hdown
    rw [Bool.not_eq_true] at hnot
    rw [hnot]
    rfl
  change (w.pool.react (.dial .main now env)).1.src.main = _
  rw [hreact]
  rfl

theorem client_handshake {s : Stratum} (h : Client worker password s steps) (hdown : s.fd < 0)
    (addr : List Byte) {env : DialEnv} (hsock : ¬ env.socket < 0) :
    Client worker password (handshake (connecting s addr env.socket) env).1 (steps + 1) ∧
      (handshake (connecting s addr env.socket) env).1.reconnects = s.reconnects + 1 ∧
      (handshake (connecting s addr env.socket) env).1.sharesSubmitted = s.sharesSubmitted ∧
      (handshake (connecting s addr env.socket) env).1.sharesAccepted = s.sharesAccepted ∧
      (handshake (connecting s addr env.socket) env).1.sharesRejected = s.sharesRejected := by
  obtain ⟨hworker, hpassword, hsize, hlast, hidle⟩ := h
  have hsucc (n : U64) : (n + 1).toNat ≤ n.toNat + 1 := by
    rw [BitVec.toNat_add]
    exact Nat.mod_le _ _
  have hone := hsucc s.nextId
  have htwo := hsucc (s.nextId + 1)
  have hthree := hsucc (s.nextId + 1 + 1)
  obtain hh | hh | hh | hh := handshake_cases (connecting s addr env.socket) env hsock <;> rw [hh]
  · exact ⟨⟨hworker, hpassword, hsize, hone.trans (by omega), fun _ => rfl⟩, rfl, rfl, rfl, rfl⟩
  · exact ⟨⟨hworker, hpassword, hsize, htwo.trans (by omega), fun _ => rfl⟩, rfl, rfl, rfl, rfl⟩
  · exact ⟨⟨hworker, hpassword, hsize, hthree.trans (by omega), fun _ => rfl⟩, rfl, rfl, rfl, rfl⟩
  · exact ⟨⟨hworker, hpassword, hsize, hthree.trans (by omega), fun _ => hidle hdown⟩, rfl, rfl, rfl, rfl⟩

theorem Linked.opened (h : Linked lib chain difficulty target worker password l steps) {w : Watched}
    {c : Conn} (hmining : Mining chain difficulty worker password w (steps + 1))
    (hok : ConnOk lib chain difficulty target worker password
      (if w.pool.src.main.fd < 0 then none else some w.pool.src.main) c) (hledger : c.ledger = [])
    (hcounts : w.pool.src.main.sharesSubmitted = l.main.sharesSubmitted ∧
      w.pool.src.main.sharesAccepted = l.main.sharesAccepted ∧
      w.pool.src.main.sharesRejected = l.main.sharesRejected) :
    Linked lib chain difficulty target worker password
      { l with miner := w, conns := l.conns ++ [c] } (steps + 1) := by
  obtain ⟨hsubmitted, haccepted, hrejected⟩ := hcounts
  have hnew (f : Conn → Nat) (hf : f c = 0) :
      (l.conns.map f).sum = ((l.conns ++ [c]).map f).sum := by
    rw [List.map_append, List.sum_append, List.map_singleton, List.sum_singleton, hf, Nat.add_zero]
  have hgraded (b : Bool) : c.graded b = 0 := by
    rw [Conn.graded, hledger]
    rfl
  have hheard (b : Bool) : c.heardOf b = 0 := by
    rw [Conn.heardOf, hledger, List.take_nil]
    rfl
  refine ⟨hmining, h.served, fun d hd => ?_, fun hup => ⟨l.conns, c, rfl, ?_⟩,
    ⟨h.counts.submits, h.counts.accepted.trans (hnew _ (hgraded true)),
      h.counts.rejected.trans (hnew _ (hgraded false)),
      hsubmitted.trans (h.counts.sharesSubmitted.trans
        (congrArg _ (hnew _ (congrArg List.length hledger)))),
      haccepted.trans (h.counts.sharesAccepted.trans (congrArg _ (hnew _ (hheard true)))),
      hrejected.trans (h.counts.sharesRejected.trans (congrArg _ (hnew _ (hheard false))))⟩,
    (hnew (fun c => c.ledger.length) (congrArg List.length hledger)).symm.trans_le
      (Nat.le_succ_of_le h.shares)⟩
  · obtain hd | hd := List.mem_append.mp hd
    · exact h.conns d hd
    · rw [List.mem_singleton.mp hd]
      exact hok.forget
  · have hlive : ¬ w.pool.src.main.fd < 0 := Int.not_lt.mpr hup
    rw [if_neg hlive] at hok
    exact hok

theorem Linked.dial (h : Linked lib chain difficulty target worker password l steps)
    (hworker : worker.length ≤ 159) (hpassword : password.length ≤ 159)
    (hsteps : 3 * (steps + 1) < 2 ^ 53) (now : U64) (env : DialEnv) (extranonce1 : Vector Byte 4) :
    Linked lib chain difficulty target worker password (l.step lib (.dial now env extranonce1))
      (steps + 1) := by
  rw [Link.step]
  split
  case isTrue => exact h.later
  case isFalse hisUp =>
    have hnot : ¬ 0 ≤ l.main.fd := mt (isUp_main _).mpr hisUp
    have hdown : l.main.fd < 0 := Int.not_le.mp hnot
    have hmain : (l.miner.step (.dial .main now env)).pool.src.main =
        (Miner.dial l.main now env).session := step_dial hnot now env
    obtain ⟨addr, hsent, hsession⟩ | ⟨addr, hsock, hsession, hsent⟩ := dial_sent l.main now env
    · -- nothing is sent, and the session stays down
      rw [if_pos hsent]
      obtain ⟨hw, hp, hsize, hlast, hidle⟩ := h.mining.client.later
      have hstill : (l.miner.step (.dial .main now env)).pool.src.main.fd = l.main.fd ∧
          Client worker password (l.miner.step (.dial .main now env)).pool.src.main (steps + 1) ∧
          (l.miner.step (.dial .main now env)).pool.src.main.sharesSubmitted = l.main.sharesSubmitted ∧
          (l.miner.step (.dial .main now env)).pool.src.main.sharesAccepted = l.main.sharesAccepted ∧
          (l.miner.step (.dial .main now env)).pool.src.main.sharesRejected = l.main.sharesRejected := by
        rw [hmain]
        obtain hs | hs | hs := hsession
        · rw [hs]
          exact ⟨rfl, ⟨hw, hp, hsize, hlast, hidle⟩, rfl, rfl, rfl⟩
        · rw [hs]
          exact ⟨rfl, ⟨hw, hp, hsize, hlast, hidle⟩, rfl, rfl, rfl⟩
        · rw [hs]
          exact ⟨rfl, ⟨hw, hp, hsize, hlast, hidle⟩, rfl, rfl, rfl⟩
      obtain ⟨hfd, hclient, hcounts⟩ := hstill
      have hnever (hup : 0 ≤ (l.miner.step (.dial .main now env)).pool.src.main.fd) : False := by
        rw [hfd] at hup
        exact hnot hup
      exact h.keep (h.mining.session rfl hclient fun hup _ => (hnever hup).elim)
        (fun hup => (hnever hup).elim) hcounts
    · obtain ⟨hclient, hreconnects, hcounts⟩ := client_handshake (s := l.main) h.mining.client hdown addr hsock
      have hmain' : (l.miner.step (.dial .main now env)).pool.src.main =
          (handshake (connecting l.main addr env.socket) env).1 := hmain.trans hsession
      rw [← hmain'] at hclient hreconnects hcounts
      have hlast : l.main.nextId.toNat ≤ 3 * steps := h.mining.client.lastId
      have hmining : Mining chain difficulty worker password (l.miner.step (.dial .main now env))
          (steps + 1) := by
        refine h.mining.session rfl hclient fun _ hsame => ?_
        rw [hreconnects] at hsame
        have hne (n : U64) : n + 1 ≠ n := by bv_omega
        exact absurd hsame (hne _)
      have hopened := connOk_opened (s := connecting l.main addr env.socket) lib chain difficulty target
        extranonce1 env hsock ((congrArg List.length h.mining.client.worker).trans_le hworker)
        ((congrArg List.length h.mining.client.password).trans_le hpassword)
        (show l.main.nextId.toNat + 3 < 2 ^ 53 by omega) (h.mining.client.idle hdown)
      rw [show (connecting l.main addr env.socket).worker = worker from h.mining.client.worker,
        show (connecting l.main addr env.socket).password = password from h.mining.client.password,
        ← hmain', ← hsent] at hopened
      split
      case isTrue hnone =>
        have hfall : ¬ 0 ≤ (l.miner.step (.dial .main now env)).pool.src.main.fd := by
          intro hup
          obtain ⟨n, htake, hall⟩ := handshake_sends (s := connecting l.main addr env.socket) env hsock
          rw [← hmain', ← htake, ← hsent, hnone] at hall
          cases hall (Int.not_lt.mpr hup)
        exact h.keep hmining (fun hup => absurd hup hfall) hcounts
      case isFalse => exact h.opened hmining hopened rfl hcounts

end Steps

section Runs

variable {lib : Hashlib} (hlib : lib.Agrees) (host : List Byte) (port : Int)
  {worker password : List Byte} (hworker : worker.length ≤ 159) (hpassword : password.length ≤ 159)
  (hplain : ∀ b ∈ worker ++ password, Json.Plain b) (dev : Option Stratum) (chain : Chain)
  (difficulty : Number) (acceptTarget : Nat) {target : Int}
  (htarget : difficultyToTarget (.round difficulty.val) = some target)

def meeting (worker password : List Byte) : Link :=
  linkInit (stratumInit host port worker password) dev (.start chain difficulty acceptTarget)

include hworker hpassword in
theorem linked_meeting : Linked lib chain difficulty target worker password
    (meeting host port dev chain difficulty acceptTarget worker password) 0 where
  mining := Mining.init dev ⟨List.take_of_length_le hworker, List.take_of_length_le hpassword, rfl,
    Nat.zero_le _, fun _ => rfl⟩
  served := ⟨rfl, rfl⟩
  conns := fun c hc => absurd hc List.not_mem_nil
  last := fun hup => absurd (show (0 : Int) ≤ -1 from hup) (by decide)
  counts := ⟨rfl, rfl, rfl, rfl, rfl, rfl⟩
  shares := Nat.le_refl 0

include hlib hworker hpassword hplain htarget

theorem Linked.step {l : Link} {steps : Nat}
    (h : Linked lib chain difficulty target worker password l steps) (hsteps : 3 * (steps + 1) < 2 ^ 53)
    (e : LinkEvent) : Linked lib chain difficulty target worker password (l.step lib e) (steps + 1) := by
  cases e with
  | dial now env extranonce1 => exact h.dial hworker hpassword hsteps now env extranonce1
  | hear now => exact h.hear now
  | lost => exact h.lost
  | loop e => exact h.loop hlib hsteps e
  | serve i t => exact h.serve hlib htarget hworker hplain i t
  | hangUp i => exact h.hangUp i

theorem Linked.run {l : Link} {steps : Nat}
    (h : Linked lib chain difficulty target worker password l steps) (es : List LinkEvent)
    (hsteps : 3 * (steps + es.length) < 2 ^ 53) :
    Linked lib chain difficulty target worker password (Machine.run (Link.step lib) l es)
      (steps + es.length) := by
  induction es generalizing l steps with
  | nil => exact h
  | cons e es ih =>
    rw [List.length_cons] at hsteps ⊢
    have hstep := h.step hlib hworker hpassword hplain chain difficulty htarget (by omega) e
    have hrun := ih hstep (by omega)
    rw [Nat.add_right_comm] at hrun
    exact hrun

omit hlib hworker hpassword hplain htarget in
theorem graded_le (c : Conn) : c.graded true + c.graded false ≤ c.ledger.length := by
  rw [Conn.graded, Conn.graded]
  induction c.ledger with
  | nil => exact le_refl 0
  | cons e es ih =>
    rw [List.countP_cons, List.countP_cons, List.length_cons]
    cases e.verdict with
    | none => simpa using ih.trans (Nat.le_succ _)
    | some b => cases b <;> simp <;> omega

/-- If a thread takes a line, it answers. -/
def Served (lib : Hashlib) (l : Link) (e : LinkEvent) : Prop :=
  ∀ i t c line rest, e = .serve i t → l.conns[i]? = some c → c.up = line :: rest →
    Answers (handleLine lib l.server c.handler line t)

theorem linked_run (es : List LinkEvent) (hsteps : 3 * es.length < 2 ^ 53) :
    Linked lib chain difficulty target worker password (Machine.run (Link.step lib)
      (meeting host port dev chain difficulty acceptTarget worker password) es) es.length := by
  have hlinked : Linked lib chain difficulty target worker password
      (meeting host port dev chain difficulty acceptTarget worker password) 0 :=
    linked_meeting host port hworker hpassword dev chain difficulty acceptTarget
  have hrun := hlinked.run hlib hworker hpassword hplain chain difficulty htarget es (by omega)
  rw [Nat.zero_add] at hrun
  exact hrun

/-- Both sides count the same shares, and the miner no verdict that was not given. -/
theorem shares_accounted (es : List LinkEvent) (hsteps : 3 * es.length < 2 ^ 53) :
    let l := Machine.run (Link.step lib)
      (meeting host port dev chain difficulty acceptTarget worker password) es
    Counts l.server l.main l.conns ∧ l.main.sharesAccepted.toNat ≤ l.server.accepted ∧
      l.main.sharesRejected.toNat ≤ l.server.rejected ∧
      l.server.submits ≤ l.main.sharesSubmitted.toNat := by
  intro l
  have hlinked := linked_run hlib host port hworker hpassword hplain dev chain difficulty acceptTarget
    htarget es hsteps
  have hcounts : Counts l.server l.main l.conns :=
    hlinked.counts.counts (hlinked.shares.trans_lt (by omega))
  have hheard (b : Bool) : (l.conns.map (Conn.heardOf b)).sum ≤ (l.conns.map (Conn.graded b)).sum :=
    List.sum_le_sum fun c _ => (List.take_sublist _ _).countP_le
  have hgraded : (l.conns.map (Conn.graded true)).sum + (l.conns.map (Conn.graded false)).sum ≤
      (l.conns.map fun c => c.ledger.length).sum := by
    rw [← List.sum_map_add]
    exact List.sum_le_sum fun c _ => graded_le c
  refine ⟨hcounts, ?_, ?_, ?_⟩
  · rw [hcounts.sharesAccepted, hcounts.accepted]
    exact hheard true
  · rw [hcounts.sharesRejected, hcounts.rejected]
    exact hheard false
  · rw [hcounts.submits, hcounts.accepted, hcounts.rejected, hcounts.sharesSubmitted]
    exact hgraded

/-- The verdict on a sound share is the one its hash deserves, and where the miner's target is
no easier than the server's it is never a rejection. -/
theorem sound_shares (es : List LinkEvent) (hsteps : 3 * es.length < 2 ^ 53) :
    let l := Machine.run (Link.step lib)
      (meeting host port dev chain difficulty acceptTarget worker password) es
    ∀ c ∈ l.conns, ∀ e ∈ c.ledger, e.sound = true → ∀ b, e.verdict = some b →
      (b = true ↔ (beVal (powCompare chain e.ctx.ss4 e.nonce) : Int) ≤ target) ∧
        ((beVal (targetFor (.round difficulty.val)) : Int) ≤ target → b = true) := by
  intro l c hc e he hsound b hb
  have hok := (linked_run hlib host port hworker hpassword hplain dev chain difficulty acceptTarget
    htarget es hsteps).conns c hc
  obtain ⟨_, _, htalk, -⟩ := hok.talk
  have hright := htalk.right e he b hb hsound
  refine ⟨hright, fun hle => hright.mpr ?_⟩
  exact (Int.ofNat_le.mpr (hok.worth e he hsound)).trans hle

end Runs

section Demo

def demoDifficulty : Number where
  sign := []
  int := ascii "2"
  frac := []
  exp := ascii "e-09"
  isSign := by decide +kernel
  isInt := by decide +kernel
  isFrac := by decide +kernel
  isExp := by decide +kernel

def blankTemplate : Template := ⟨Vector.replicate 32 0, Vector.replicate 39 0⟩

def demoMeeting : Link :=
  meeting (ascii "fixture") 3333 none .sia demoDifficulty 0 (ascii "w") (ascii "x")

def demoServe : LinkEvent := .serve 0 blankTemplate

def demoShare : List LinkEvent :=
  .dial 1000 demoEnv (Vector.replicate 4 7) :: List.replicate 3 demoServe ++
    List.replicate 5 (.hear 1000) ++
    [.loop (.work 1000 1000 88), .loop (.candidate 10 778858810042583541 true)]

theorem demo_target : ∃ target, difficultyToTarget (.round demoDifficulty.val) = some target ∧
    (beVal (targetFor (.round demoDifficulty.val)) : Int) ≤ target := by
  have hsome : (difficultyToTarget (.round demoDifficulty.val)).any (fun target =>
      (beVal (targetFor (.round demoDifficulty.val)) : Int) ≤ target) = true := by decide +kernel
  obtain ⟨target, htarget, hle⟩ := (Option.any_eq_true _ _).mp hsome
  exact ⟨target, htarget, of_decide_eq_true hle⟩

theorem shares_accounted_share :
    let l := Machine.run (Link.step .miner) demoMeeting (demoShare ++ [demoServe, .hear 1001])
    Counts l.server l.main l.conns ∧ l.main.sharesAccepted.toNat ≤ l.server.accepted ∧
      l.main.sharesRejected.toNat ≤ l.server.rejected ∧
      l.server.submits ≤ l.main.sharesSubmitted.toNat := by
  obtain ⟨target, htarget, -⟩ := demo_target
  rw [demoMeeting]
  exact shares_accounted Hashlib.miner_agrees (ascii "fixture") 3333
    (show (ascii "w").length ≤ 159 by decide) (show (ascii "x").length ≤ 159 by decide) (by decide) none
    .sia demoDifficulty 0 htarget (demoShare ++ [demoServe, .hear 1001]) (by decide)

theorem sound_shares_share :
    let l := Machine.run (Link.step .miner) demoMeeting (demoShare ++ [demoServe, .hear 1001])
    (∃ c ∈ l.conns, ∃ e ∈ c.ledger, e.sound = true ∧ e.verdict.isSome = true) ∧
      ∀ c ∈ l.conns, ∀ e ∈ c.ledger, e.sound = true → ∀ b, e.verdict = some b → b = true := by
  intro l
  obtain ⟨target, htarget, hle⟩ := demo_target
  have hany : l.conns.any (fun c => c.ledger.any fun e => e.sound && e.verdict.isSome) = true := by
    decide +kernel
  have hsound := sound_shares Hashlib.miner_agrees (ascii "fixture") 3333
    (show (ascii "w").length ≤ 159 by decide) (show (ascii "x").length ≤ 159 by decide) (by decide) none
    .sia demoDifficulty 0 htarget (demoShare ++ [demoServe, .hear 1001]) (by decide)
  refine ⟨?_, fun c hc e he hs b hb => (hsound c hc e he hs b hb).2 hle⟩
  obtain ⟨c, hc, hcany⟩ := List.any_eq_true.mp hany
  obtain ⟨e, he, hboth⟩ := List.any_eq_true.mp hcany
  exact ⟨c, hc, e, he, Bool.and_eq_true_iff.mp hboth⟩

end Demo

end OspreyBlake2b.Zynq
