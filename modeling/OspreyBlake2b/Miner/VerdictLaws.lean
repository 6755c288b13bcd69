import OspreyBlake2b.Lib.DoubleLaws
import OspreyBlake2b.Miner.SessionLaws
import OspreyBlake2b.Miner.Verdicts
import OspreyBlake2b.Miner.WalkerLaws

/-! Every verdict on a share is counted once and nothing else is: an answer is told
apart by its id alone, so this is about which ids are out at any time. -/

namespace OspreyBlake2b.Miner

open OspreyBlake2b.Lib OspreyBlake2b.Lib.JsonText OspreyBlake2b.Lib.Machine

theorem name_of_key {m : Member} {k : String} (hk : ∀ c ∈ ascii k, Json.Plain c)
    (h : m.key.val = ascii k) : m.name = some (ascii k) := by
  rw [← h] at hk
  rw [Member.name_plain hk, h]

theorem find_named {o : Object} {k : String} (hk : ∀ c ∈ ascii k, Json.Plain c)
    (hplain : ∀ m ∈ o.named k, m.key.val = ascii k) :
    o.members.find? (fun m => m.key.val = ascii k) = (o.named k).head? := by
  rw [← List.head?_filter, Object.named]
  refine congrArg List.head? (List.filter_congr fun m hm => ?_)
  rw [decide_eq_decide]
  constructor
  · exact name_of_key hk
  · intro h
    exact hplain m (List.mem_filter.mpr ⟨hm, decide_eq_true h⟩)

theorem jsGet_named {o : Object} {k : String} (hk : ∀ c ∈ ascii k, Json.Plain c)
    (hplain : ∀ m ∈ o.named k, m.key.val = ascii k) :
    o.named k = [] ∧ jsGet o.text k = none ∨ ∃ m ms r, o.named k = m :: ms ∧
      jsGet o.text k = some (m.value.val ++ r) ∧ isDelim (deref r) = true := by
  have hfind := find_named hk hplain
  obtain ⟨m, r, hm, hget, hr⟩ | ⟨hnone, hget⟩ := jsGet_finds o k
  · obtain ⟨ms, hms⟩ := List.head?_eq_some_iff.mp (hfind.symm.trans hm)
    exact .inr ⟨m, ms, r, hms, hget, hr⟩
  · exact .inl ⟨List.head?_eq_none_iff.mp (hfind.symm.trans hnone), hget⟩

theorem plain_method : ∀ c ∈ ascii "method", Json.Plain c := by decide

theorem plain_id : ∀ c ∈ ascii "id", Json.Plain c := by decide

theorem plain_result : ∀ c ∈ ascii "result", Json.Plain c := by decide

theorem handler_answer (a : Answer) : handler a.object.text = .reply := by
  have hplain : ∀ m ∈ a.object.named "method", m.key.val = ascii "method" := by
    simp [a.noMethod]
  obtain ⟨-, hget⟩ | ⟨m, ms, r, hms, -⟩ := jsGet_named plain_method hplain
  · rw [handler, hget]
  · rw [a.noMethod] at hms
    cases hms

theorem handler_notice {n : Notice} (h : n.Plain) : handler n.object.text ≠ .reply := by
  obtain ⟨m, hm, hkey⟩ := h
  obtain ⟨m', r, -, hget, -⟩ | ⟨hnone, -⟩ := jsGet_finds n.object "method"
  · rw [handler, hget]
    dsimp only
    split
    · simp
    · split
      · simp
      · split_ifs <;> simp
  · have hmem := List.mem_of_mem_filter hm
    exact absurd hkey (by simpa using List.find?_eq_none.mp hnone m hmem)

theorem jsNum_answer {a : Answer} (h : a.Plain) : ∃ v, jsGet a.object.text "id" = some v ∧
    jsNum v = .round a.id.toNat := by
  obtain ⟨m, n, hid, hvalue, hval⟩ := a.idMember
  obtain ⟨hnil, -⟩ | ⟨m', ms, r, hms, hget, hr⟩ := jsGet_named plain_id (h "id" (by simp))
  · rw [hid] at hnil
    cases hnil
  · rw [hid] at hms
    cases hms
    refine ⟨_, hget, ?_⟩
    rw [hvalue, jsNum_number n hr, hval]

theorem jsTrue_answer {a : Answer} (h : a.Plain) :
    jsGet a.object.text "result" = none ∧ a.result = false ∨
      ∃ r, jsGet a.object.text "result" = some r ∧ jsTrue r = a.result := by
  obtain ⟨hnil, hget⟩ | ⟨m, ms, r, hms, hget, -⟩ := jsGet_named plain_result (h "result" (by simp))
  · obtain ⟨-, hfalse⟩ | ⟨m, hone, -⟩ := a.resultMember
    · exact .inl ⟨hget, hfalse⟩
    · rw [hone] at hnil
      cases hnil
  · obtain ⟨hnil, -⟩ | ⟨m', hone, htrue⟩ := a.resultMember
    · rw [hnil] at hms
      cases hms
    · rw [hone] at hms
      cases hms
      exact .inr ⟨_, hget, (jsTrue_value m.value.property r).trans htrue.symm⟩

structure Ids where
  nextId : U64
  subId : U64
  authId : U64
  suggestDiffId : U64

structure Tally where
  ids : Ids
  submitted : U64
  accepted : U64
  rejected : U64

def Stratum.ids (s : Stratum) : Ids := ⟨s.nextId, s.subId, s.authId, s.suggestDiffId⟩

def Stratum.tally (s : Stratum) : Tally :=
  ⟨s.ids, s.sharesSubmitted, s.sharesAccepted, s.sharesRejected⟩

/-- An id that is not one of the last handshake's is taken for a share's. -/
def Ids.Claims (t : Ids) (id : U64) : Prop := id = t.subId ∨ id = t.authId ∨ id = t.suggestDiffId

instance (t : Ids) : DecidablePred t.Claims := fun id =>
  inferInstanceAs (Decidable (id = t.subId ∨ id = t.authId ∨ id = t.suggestDiffId))

def Tally.verdict (t : Tally) (isTrue : Bool) : Tally :=
  { t with
    accepted := if isTrue then t.accepted + 1 else t.accepted
    rejected := if isTrue then t.rejected else t.rejected + 1 }

section Frame

variable (s : Stratum)

theorem tally_onSubscribe (result : List Byte) : (onSubscribe s result).tally = s.tally := by
  obtain hs | ⟨e, hs | hs | ⟨size, hs⟩⟩ := onSubscribe_cases s result <;> rw [hs] <;> rfl

theorem tally_answer {a : Answer} (h : a.Plain) :
    (onReply s a.object.text).tally =
      if s.ids.Claims (Double.round a.id.toNat).toU64 then s.tally
      else s.tally.verdict a.result := by
  obtain ⟨v, hget, hnum⟩ := jsNum_answer h
  rw [onReply, hget]
  dsimp only
  rw [hnum]
  by_cases hsub : (Double.round a.id.toNat).toU64 = s.subId
  · rw [if_pos hsub, if_pos (show s.ids.Claims _ from .inl hsub)]
    cases jsGet a.object.text "result" with
    | none => rfl
    | some r =>
      dsimp only
      split
      · exact tally_onSubscribe s r
      · rfl
  · by_cases hauth : (Double.round a.id.toNat).toU64 = s.authId
    · rw [if_neg hsub, if_pos hauth, if_pos (show s.ids.Claims _ from .inr (.inl hauth))]
      rfl
    · by_cases hsug : (Double.round a.id.toNat).toU64 = s.suggestDiffId
      · rw [if_neg hsub, if_neg hauth, if_pos hsug,
          if_pos (show s.ids.Claims _ from .inr (.inr hsug))]
      · have hno : ¬ s.ids.Claims (Double.round a.id.toNat).toU64 := by
          rintro (h | h | h)
          · exact hsub h
          · exact hauth h
          · exact hsug h
        rw [if_neg hsub, if_neg hauth, if_neg hsug, if_neg hno, Tally.verdict]
        obtain ⟨hres, hfalse⟩ | ⟨r, hres, htrue⟩ := jsTrue_answer h
        · rw [hres, hfalse]
          rfl
        · rw [hres, ← htrue]
          dsimp only
          by_cases hv : jsTrue r = true
          · rw [if_pos hv, hv]
            rfl
          · rw [if_neg hv, Bool.eq_false_of_not_eq_true hv]
            rfl

theorem tally_notice {line : List Byte} (h : handler line ≠ .reply) (now : U64) :
    (onLine s line now).tally = s.tally := by
  rw [onLine_eq]
  cases hk : handler line with
  | ignored => rfl
  | notify params =>
    change (onNotify s params).tally = _
    obtain hs | ⟨j, -, hs⟩ := onNotify_cases s params
    · rw [hs]
    · rw [hs]
      rfl
  | setDifficulty params =>
    change (onSetDifficulty s params).tally = _
    obtain hs | ⟨d, hs⟩ := onSetDifficulty_cases s params
    · rw [hs]
    · rw [hs]
      rfl
  | setExtranonce params =>
    change (onSetExtranonce s params).tally = _
    obtain hs | ⟨e, hs | ⟨size, hs⟩⟩ := onSetExtranonce_cases s params <;> rw [hs] <;> rfl
  | reconnect params =>
    change (onReconnect s params now).tally = _
    obtain ⟨-, buf, hs⟩ | ⟨out, port, wait, -, -, hs⟩ := onReconnect_cases s params now <;>
      rw [hs] <;> rfl
  | reply => exact absurd hk h

def Ids.handshake (t : Ids) : Ids where
  nextId := t.nextId + 1 + 1 + 1
  subId := t.nextId + 1
  authId := t.nextId + 1 + 1
  suggestDiffId := t.nextId + 1 + 1 + 1

theorem tally_dial (hdown : s.fd < 0) (now : U64) (e : DialEnv) :
    (dial s now e).session.sharesSubmitted = s.sharesSubmitted ∧
      (dial s now e).session.sharesAccepted = s.sharesAccepted ∧
      (dial s now e).session.sharesRejected = s.sharesRejected ∧
      (¬ (dial s now e).session.fd < 0 → (dial s now e).session.ids = s.ids.handshake) := by
  by_cases hwait : now < s.retryAt
  · rw [dial_wait s hwait]
    exact ⟨rfl, rfl, rfl, fun hup => absurd hdown hup⟩
  · obtain ⟨-, addr, -, hs | hs | ⟨hsock, hs⟩⟩ := dial_cases s hwait e
    · rw [hs]
      exact ⟨rfl, rfl, rfl, fun hup => absurd hdown hup⟩
    · rw [hs]
      exact ⟨rfl, rfl, rfl, fun hup => absurd hdown hup⟩
    · rw [hs]
      obtain hh | hh | hh | hh := handshake_cases (connecting s addr e.socket) e hsock <;> rw [hh]
      · exact ⟨rfl, rfl, rfl, fun hup => absurd (drop_down _) hup⟩
      · exact ⟨rfl, rfl, rfl, fun hup => absurd (drop_down _) hup⟩
      · exact ⟨rfl, rfl, rfl, fun hup => absurd (drop_down _) hup⟩
      · exact ⟨rfl, rfl, rfl, fun _ => rfl⟩

/-- The requests of a connection are the lines its handshake sent. -/
theorem handshake_sent (e : DialEnv) (hup : ¬ s.fd < 0) (h : ¬ (handshake s e).1.fd < 0) :
    (handshake s e).2 = handshakeLines s := by
  revert h
  rw [handshake_eq s e hup]
  cases e.sendSubscribe with
  | false => exact fun h => absurd (drop_down _) h
  | true =>
    cases e.sendAuthorize with
    | false => exact fun h => absurd (drop_down _) h
    | true =>
      cases e.sendSuggest with
      | false => exact fun h => absurd (drop_down _) h
      | true => exact fun _ => rfl

end Frame

def Request.Matches (t : Ids) (id : U64) : Request → Prop
  | .subscribe => id = t.subId
  | .authorize => id = t.authId
  | .suggestDifficulty => id = t.suggestDiffId
  | .submit => t.suggestDiffId < id

/-- On a connection: the ids of its handshake are exact as doubles, and every share's
came later. -/
structure Fresh (t : Ids) (pending : List (U64 × Request)) : Prop where
  sub : t.subId < t.authId
  auth : t.authId < t.suggestDiffId
  exact : t.suggestDiffId.toNat < 2 ^ 53
  last : t.suggestDiffId ≤ t.nextId
  known : ∀ p ∈ pending, p.2.Matches t p.1
  issued : ∀ p ∈ pending, p.1 ≤ t.nextId
  nodup : (pending.map Prod.fst).Nodup

theorem Fresh.claims_iff {t : Ids} {pending : List (U64 × Request)} (h : Fresh t pending)
    {id : U64} {k : Request} (hp : (id, k) ∈ pending) :
    t.Claims (Double.round id.toNat).toU64 ↔ k ≠ .submit := by
  have hsub := h.sub
  have hauth := h.auth
  have hexact := h.exact
  have hmatch := h.known _ hp
  simp only [BitVec.lt_def] at hsub hauth
  cases k with
  | subscribe =>
    have hid : id = t.subId := hmatch
    rw [hid, Double.toU64_round t.subId (by omega)]
    exact ⟨fun _ => by simp, fun _ => .inl rfl⟩
  | authorize =>
    have hid : id = t.authId := hmatch
    rw [hid, Double.toU64_round t.authId (by omega)]
    exact ⟨fun _ => by simp, fun _ => .inr (.inl rfl)⟩
  | suggestDifficulty =>
    have hid : id = t.suggestDiffId := hmatch
    rw [hid, Double.toU64_round t.suggestDiffId (by omega)]
    exact ⟨fun _ => by simp, fun _ => .inr (.inr rfl)⟩
  | submit =>
    change t.suggestDiffId < id at hmatch
    rw [BitVec.lt_def] at hmatch
    have hlate : t.suggestDiffId.toNat < (Double.round id.toNat).toU64.toNat := by
      obtain hlt | hge := Nat.lt_or_ge id.toNat (2 ^ 53)
      · rwa [Double.toU64_round _ hlt]
      · exact hexact.trans_le (Double.le_toU64_round hge)
    refine ⟨?_, fun hne => absurd rfl hne⟩
    rintro (hid | hid | hid) <;> rw [hid] at hlate <;> omega

theorem fresh_handshake {s : Stratum} (h : s.nextId.toNat + 3 < 2 ^ 53) :
    Fresh s.ids.handshake (handshakeRequests s) := by
  have hone : (s.nextId + 1).toNat = s.nextId.toNat + 1 := toNat_succ (by omega)
  have htwo : (s.nextId + 1 + 1).toNat = s.nextId.toNat + 2 := by
    rw [toNat_succ (by omega), hone]
  have hthree : (s.nextId + 1 + 1 + 1).toNat = s.nextId.toNat + 3 := by
    rw [toNat_succ (by omega), htwo]
  have hlt : s.nextId + 1 < s.nextId + 1 + 1 ∧ s.nextId + 1 + 1 < s.nextId + 1 + 1 + 1 := by
    rw [BitVec.lt_def, BitVec.lt_def]
    omega
  constructor
  · exact hlt.1
  · exact hlt.2
  · change (s.nextId + 1 + 1 + 1).toNat < 2 ^ 53
    omega
  · exact BitVec.le_refl _
  · simp [handshakeRequests, Request.Matches, Ids.handshake, Stratum.ids]
  · have hle : s.nextId + 1 ≤ s.nextId + 1 + 1 + 1 ∧ s.nextId + 1 + 1 ≤ s.nextId + 1 + 1 + 1 := by
      rw [BitVec.le_def, BitVec.le_def]
      omega
    simp only [handshakeRequests, List.forall_mem_cons, List.not_mem_nil]
    exact ⟨hle.1, hle.2, BitVec.le_refl _, by simp⟩
  · have hne {a b : U64} (hab : a.toNat ≠ b.toNat) : a ≠ b := fun heq => hab (congrArg _ heq)
    simp only [handshakeRequests, List.map_cons, List.map_nil, List.nodup_cons, List.mem_cons,
      List.not_mem_nil, or_false, not_or, not_false_eq_true, List.nodup_nil, and_true]
    exact ⟨⟨hne (by omega), hne (by omega)⟩, hne (by omega)⟩

theorem Fresh.submitted {t : Ids} {pending : List (U64 × Request)} (h : Fresh t pending)
    (hlast : t.nextId.toNat + 1 < 2 ^ 64) :
    Fresh { t with nextId := t.nextId + 1 } (pending ++ [(t.nextId + 1, .submit)]) := by
  have hlt : t.nextId < t.nextId + 1 := by
    rw [BitVec.lt_def, toNat_succ hlast]
    exact Nat.lt_succ_self _
  constructor
  · exact h.sub
  · exact h.auth
  · exact h.exact
  · exact BitVec.le_trans h.last (BitVec.le_of_lt hlt)
  · intro p hp
    obtain hp | hp := List.mem_append.mp hp
    · have hmatch := h.known p hp
      revert hmatch
      cases p.2 <;> exact id
    · rw [List.mem_singleton.mp hp]
      have hlast : t.suggestDiffId.toNat ≤ t.nextId.toNat := h.last
      exact BitVec.lt_def.mpr (hlast.trans_lt hlt)
  · intro p hp
    obtain hp | hp := List.mem_append.mp hp
    · exact BitVec.le_trans (h.issued p hp) (BitVec.le_of_lt hlt)
    · rw [List.mem_singleton.mp hp]
      exact BitVec.le_refl _
  · rw [List.map_append, List.nodup_append]
    refine ⟨h.nodup, by simp, fun a ha b hb hab => ?_⟩
    obtain ⟨p, hp, rfl⟩ := List.mem_map.mp ha
    have hissued := h.issued p hp
    rw [hab, List.mem_singleton.mp hb] at hissued
    exact absurd hissued (BitVec.not_le.mpr hlt)

theorem Fresh.filter {t : Ids} {pending : List (U64 × Request)} (h : Fresh t pending)
    (f : U64 × Request → Bool) : Fresh t (pending.filter f) where
  sub := h.sub
  auth := h.auth
  exact := h.exact
  last := h.last
  known p hp := h.known p (List.mem_of_mem_filter hp)
  issued p hp := h.issued p (List.mem_of_mem_filter hp)
  nodup := h.nodup.sublist (List.filter_sublist.map _)

def openShares (pending : List (U64 × Request)) : Nat :=
  (pending.filter fun p => p.2 = .submit).length

structure Counted (t : Tallied) : Prop where
  submitted : t.session.sharesSubmitted = BitVec.ofNat 64 t.submitted
  accepted : t.session.sharesAccepted = BitVec.ofNat 64 t.accepted
  rejected : t.session.sharesRejected = BitVec.ofNat 64 t.rejected
  bound : t.accepted + t.rejected + openShares t.pending ≤ t.submitted
  up : ¬ t.session.fd < 0 → Fresh t.session.ids t.pending
  down : t.session.fd < 0 → t.pending = []

variable {t : Tallied}

theorem openShares_filter_le (pending : List (U64 × Request)) (f : U64 × Request → Bool) :
    openShares (pending.filter f) ≤ openShares pending := by
  rw [openShares, openShares, List.filter_comm]
  exact List.length_filter_le f _

theorem openShares_filter_lt {pending : List (U64 × Request)} {id : U64}
    (h : (id, .submit) ∈ pending) :
    openShares (pending.filter fun p => p.1 ≠ id) < openShares pending := by
  rw [openShares, openShares, List.filter_comm, List.length_filter_lt_length_iff_exists]
  exact ⟨(id, .submit), List.mem_filter.mpr ⟨h, by simp⟩, by simp⟩

theorem Counted.of_tally (h : Counted t) {s' : Stratum} (htally : s'.tally = t.session.tally)
    (hfd : ¬ s'.fd < 0 → ¬ t.session.fd < 0) :
    Counted { t with session := s', pending := if s'.fd < 0 then [] else t.pending } := by
  have hids : s'.ids = t.session.ids := congrArg Tally.ids htally
  constructor
  · exact (congrArg Tally.submitted htally).trans h.submitted
  · exact (congrArg Tally.accepted htally).trans h.accepted
  · exact (congrArg Tally.rejected htally).trans h.rejected
  · have hbound := h.bound
    dsimp only
    split
    · exact le_trans (Nat.add_le_add_left (Nat.zero_le _) _) hbound
    · exact hbound
  · intro hup
    dsimp only
    rw [if_neg hup, hids]
    exact h.up (hfd hup)
  · intro hdown
    exact if_pos hdown

theorem lookup_pending {id : U64} (h : id ∈ t.pending.map Prod.fst) :
    ∃ k, t.pending.lookup id = some k ∧ (id, k) ∈ t.pending := by
  have hsome : (t.pending.lookup id).isSome := by
    obtain ⟨p, hp, hfst⟩ := List.mem_map.mp h
    exact List.lookup_isSome_iff.mpr ⟨p, hp, by simp [hfst]⟩
  obtain ⟨k, hk⟩ := Option.isSome_iff_exists.mp hsome
  obtain ⟨l₁, l₂, hl, -⟩ := List.lookup_eq_some_iff.mp hk
  exact ⟨k, hk, by simp [hl]⟩

theorem counted_answer (h : Counted t) {a : Answer} (hid : a.id ∈ t.pending.map Prod.fst)
    (hplain : a.Plain) (now : U64) : Counted (t.step (.answer a now)) := by
  have hup : ¬ t.session.fd < 0 := by
    intro hdown
    rw [h.down hdown] at hid
    cases hid
  have hline : t.session.step (.line a.object.text now) = onReply t.session a.object.text := by
    rw [Stratum.step, onLine_eq, handler_answer]
    rfl
  have hfd : ¬ (onReply t.session a.object.text).fd < 0 := by rwa [onReply_fd]
  have htally := tally_answer t.session hplain
  obtain ⟨k, hlook, hmem⟩ := lookup_pending hid
  have hfresh := h.up hup
  have hclaims := hfresh.claims_iff hmem
  rw [Tallied.step]
  simp only [PoolEvent.toSession, hline, if_neg hfd, Tallied.count, Tallied.answered, hlook]
  by_cases hk : k = .submit
  · have hno : ¬ t.session.ids.Claims (Double.round a.id.toNat).toU64 := fun hc => hclaims.mp hc hk
    have hfewer := openShares_filter_lt (hk ▸ hmem)
    have hbound := h.bound
    rw [if_neg hno, Tally.verdict] at htally
    rw [if_pos (congrArg some hk)]
    have hids : (onReply t.session a.object.text).ids = t.session.ids := congrArg Tally.ids htally
    have hone : a.result.toNat + (!a.result).toNat = 1 := by cases a.result <;> rfl
    constructor
    · exact (congrArg Tally.submitted htally).trans h.submitted
    · refine (congrArg Tally.accepted htally).trans ?_
      rw [BitVec.ofNat_add, ← h.accepted]
      cases a.result with
      | false => exact (BitVec.add_zero _).symm
      | true => rfl
    · refine (congrArg Tally.rejected htally).trans ?_
      rw [BitVec.ofNat_add, ← h.rejected]
      cases a.result with
      | false => rfl
      | true => exact (BitVec.add_zero _).symm
    · dsimp only
      exact le_trans (by omega) hbound
    · dsimp only
      rw [hids]
      exact fun _ => hfresh.filter _
    · exact fun hdown => absurd hdown hfd
  · rw [if_pos (hclaims.mpr hk)] at htally
    rw [if_neg fun heq => hk (Option.some.inj heq)]
    have hkept := h.of_tally htally fun _ => hup
    rw [if_neg hfd] at hkept
    constructor
    · exact hkept.submitted
    · exact hkept.accepted
    · exact hkept.rejected
    · exact le_trans (Nat.add_le_add_left (openShares_filter_le _ _) _) hkept.bound
    · exact fun hup => (hkept.up hup).filter _
    · exact fun hdown => absurd hdown hfd

theorem counted_dial (h : Counted t) (now : U64) (env : DialEnv)
    (hexact : t.Regular (.dial now env)) : Counted (t.step (.dial now env)) := by
  rw [Tallied.step]
  simp only [PoolEvent.toSession, Stratum.step, Tallied.count]
  by_cases hdown : t.session.fd < 0
  · obtain ⟨hsubmitted, haccepted, hrejected, hids⟩ := tally_dial t.session hdown now env
    have hbound := h.bound
    rw [h.down hdown] at hbound
    simp only [if_pos hdown]
    constructor
    · exact hsubmitted.trans h.submitted
    · exact haccepted.trans h.accepted
    · exact hrejected.trans h.rejected
    · dsimp only
      split <;> exact hbound
    · intro hup
      dsimp only
      rw [if_neg hup, hids hup]
      exact fresh_handshake (hexact hdown hup)
    · exact fun hdown => if_pos hdown
  · simp only [if_neg hdown]
    exact h

theorem counted_submit (h : Counted t) (ok : Bool) (hlast : t.Regular (.submit ok)) :
    Counted (t.step (.submit ok)) := by
  rw [Tallied.step]
  simp only [PoolEvent.toSession, Stratum.step, Tallied.count]
  obtain ⟨hdown, hs⟩ | ⟨hup, hok, hs⟩ | ⟨hup, hok, hs⟩ := stratumSubmit_cases t.session ok
  · simp only [hs, hdown, if_true, decide_true, Bool.not_true, Bool.and_false, Bool.toNat_false,
      Nat.add_zero]
    rw [← h.down hdown]
    exact h
  · subst hok
    simp only [hs, if_pos (drop_down _), Bool.false_and, Bool.toNat_false, Nat.add_zero]
    constructor
    · exact h.submitted
    · exact h.accepted
    · exact h.rejected
    · exact le_trans (Nat.add_le_add_left (Nat.zero_le _) _) h.bound
    · exact fun hup => absurd (drop_down _) hup
    · exact fun _ => rfl
  · subst hok
    have hbound := h.bound
    have hmore : openShares (t.pending ++ [(t.session.nextId + 1, .submit)]) =
        openShares t.pending + 1 := by
      simp [openShares]
    simp only [hs, hup, if_false, decide_false, Bool.not_false, Bool.and_self, Bool.toNat_true]
    constructor
    · rw [BitVec.ofNat_add, ← h.submitted]
      rfl
    · exact h.accepted
    · exact h.rejected
    · dsimp only
      rw [hmore]
      omega
    · exact fun _ => (h.up hup).submitted (hlast hup)
    · exact fun hdown => absurd hdown hup

theorem counted_step (h : Counted t) (e : PoolEvent) (hallow : t.Allows e) (hreg : t.Regular e) :
    Counted (t.step e) := by
  cases e with
  | dial now env => exact counted_dial h now env hreg
  | answer a now => exact counted_answer h hallow hreg now
  | notice n now =>
    exact h.of_tally (tally_notice t.session (handler_notice hreg) now) fun _ => hallow
  | left rx => exact h.of_tally rfl id
  | lost => exact h.of_tally rfl fun hup => absurd (drop_down _) hup
  | submit ok => exact counted_submit h ok hreg

theorem counted_tallied (host : List Byte) (port : Int) (worker password : List Byte) :
    Counted (tallied (stratumInit host port worker password)) :=
  ⟨rfl, rfl, rfl, Nat.le_refl _, fun hup => absurd (show (-1 : Int) < 0 by decide) hup, fun _ => rfl⟩

theorem tallied_session (t : Tallied) (es : List PoolEvent) :
    (run Tallied.step t es).session = run Stratum.step t.session (es.map PoolEvent.toSession) :=
  run_simulates (fun _ _ => rfl) t es

theorem Counted.other_answer (h : Counted t) {a : Answer} {k : Request}
    (hlook : t.pending.lookup a.id = some k) (hk : k ≠ .submit) (hplain : a.Plain) (now : U64) :
    (onLine t.session a.object.text now).tally = t.session.tally := by
  obtain ⟨l₁, l₂, hl, -⟩ := List.lookup_eq_some_iff.mp hlook
  have hmem : (a.id, k) ∈ t.pending := by simp [hl]
  have hup : ¬ t.session.fd < 0 := by
    intro hdown
    rw [h.down hdown] at hmem
    cases hmem
  rw [onLine_eq, handler_answer]
  exact (tally_answer t.session hplain).trans (if_pos (((h.up hup).claims_iff hmem).mpr hk))

/-- For every run from `stratum_init` in which the pool answers each request at most once
and sends nothing else without a method. -/
theorem verdicts_counted (host : List Byte) (port : Int) (worker password : List Byte)
    (es : List PoolEvent)
    (hes : Along Tallied.step (fun t e => t.Allows e ∧ t.Regular e)
      (tallied (stratumInit host port worker password)) es) :
    let s := stratumInit host port worker password
    let s' := run Stratum.step s (es.map PoolEvent.toSession)
    let t := run Tallied.step (tallied s) es
    (t.submitted < 2 ^ 64 → s'.sharesAccepted.toNat = t.accepted ∧
      s'.sharesRejected.toNat = t.rejected ∧
      s'.sharesAccepted.toNat + s'.sharesRejected.toNat ≤ s'.sharesSubmitted.toNat) ∧
      (t.pending.map Prod.fst).Nodup ∧
      ∀ before a now after k, es = before ++ .answer a now :: after →
        (run Tallied.step (tallied s) before).pending.lookup a.id = some k → k ≠ .submit →
        let u := run Stratum.step s (before.map PoolEvent.toSession)
        (onLine u a.object.text now).sharesAccepted = u.sharesAccepted ∧
          (onLine u a.object.text now).sharesRejected = u.sharesRejected := by
  intro s s' t
  have hstep (t : Tallied) (e : PoolEvent) (h : Counted t) (hreg : t.Allows e ∧ t.Regular e) :
      Counted (t.step e) := counted_step h e hreg.1 hreg.2
  have hinit := counted_tallied host port worker password
  have h : Counted t := Along.run_invariant hstep hinit hes
  have hs' : t.session = s' := tallied_session _ es
  have hbound := h.bound
  refine ⟨fun hlt => ?_, ?_, ?_⟩
  · have haccepted := toNat_of_eq_ofNat h.accepted (by omega)
    have hrejected := toNat_of_eq_ofNat h.rejected (by omega)
    rw [← hs', haccepted, hrejected, toNat_of_eq_ofNat h.submitted hlt]
    exact ⟨rfl, rfl, by omega⟩
  · by_cases hdown : t.session.fd < 0
    · rw [h.down hdown]
      exact List.nodup_nil
    · exact (h.up hdown).nodup
  · intro before a now after k hsplit hlook hk u
    subst hsplit
    obtain ⟨hbefore, ⟨-, hplain⟩, -⟩ := along_append.mp hes
    have hu := Along.run_invariant hstep hinit hbefore
    have htally := hu.other_answer hlook hk hplain now
    rw [tallied_session] at htally
    exact ⟨congrArg Tally.accepted htally, congrArg Tally.rejected htally⟩

def written {k : List Byte} (hk : isBody k = true) (v : Value) : Member where
  before := noWhite
  key := ⟨k, hk⟩
  behind := noWhite
  ahead := noWhite
  value := v
  after := noWhite

theorem body_id : isBody (ascii "id") = true := by decide +kernel

theorem body_escaped : isBody (ascii "\\u0069d") = true := by decide +kernel

theorem body_result : isBody (ascii "result") = true := by decide +kernel

theorem body_error : isBody (ascii "error") = true := by decide +kernel

def echoObject {k : List Byte} (hk : isBody k = true) (id : U64) (result : Value) : Object where
  lead := noWhite
  inner := noWhite
  members := [written hk ⟨_, (Number.ofNat id.toNat).derives⟩, written body_result result,
    written body_error Value.null]
  trail := noWhite

theorem named_echoObject {k : List Byte} (hk : isBody k = true)
    (hname : (Json.parseStr (k.length + 1) (k ++ [char '"'])).map Prod.fst = some (ascii "id"))
    (id : U64) (result : Value) :
    (echoObject hk id result).named "method" = [] ∧
      (echoObject hk id result).named "id" =
        [written hk ⟨_, (Number.ofNat id.toNat).derives⟩] ∧
      (echoObject hk id result).named "result" = [written body_result result] := by
  have hid (v : Value) : (written hk v).name = some (ascii "id") := hname
  have hresult (v : Value) : (written body_result v).name = some (ascii "result") :=
    name_of_key plain_result rfl
  have herror (v : Value) : (written body_error v).name = some (ascii "error") :=
    name_of_key (by decide) rfl
  have hne : ascii "id" ≠ ascii "method" ∧ ascii "result" ≠ ascii "method" ∧
      ascii "error" ≠ ascii "method" ∧ ascii "result" ≠ ascii "id" ∧ ascii "error" ≠ ascii "id" ∧
      ascii "id" ≠ ascii "result" ∧ ascii "error" ≠ ascii "result" := by decide
  simp [Object.named, echoObject, hid, hresult, herror, hne]

def echoUnder {k : List Byte} (hk : isBody k = true)
    (hname : (Json.parseStr (k.length + 1) (k ++ [char '"'])).map Prod.fst = some (ascii "id"))
    (id : U64) (result : Value) : Answer where
  object := echoObject hk id result
  id := id
  result := decide (result.val = ascii "true")
  noMethod := (named_echoObject hk hname id result).1
  idMember := ⟨_, _, (named_echoObject hk hname id result).2.1, rfl, Number.val_ofNat _⟩
  resultMember := .inr ⟨_, (named_echoObject hk hname id result).2.2, rfl⟩

def echo (id : U64) (result : Value) : Answer := echoUnder body_id (by decide +kernel) id result

def escapedEcho (id : U64) (result : Value) : Answer :=
  echoUnder body_escaped (by decide +kernel) id result

/-- Every answer that repeats the id as it was sent is one the session reads. -/
theorem echo_plain (id : U64) (result : Value) : (echo id result).Plain := by
  obtain ⟨-, hid, hresult⟩ := named_echoObject body_id (by decide +kernel) id result
  intro k hk m hm
  obtain rfl | hk := List.mem_cons.mp hk
  · rw [show (echo id result).object = echoObject body_id id result from rfl, hid] at hm
    rw [List.mem_singleton.mp hm]
    rfl
  · rw [List.mem_singleton.mp hk] at hm ⊢
    rw [show (echo id result).object = echoObject body_id id result from rfl, hresult] at hm
    rw [List.mem_singleton.mp hm]
    rfl

def trueValue : Value := ⟨ascii "true", .bool true⟩

def tallySession : Stratum := stratumInit (ascii "pool") 3333 (ascii "w") (ascii "x")

def tallyEnv : DialEnv := ⟨some (ascii "10.0.0.1"), 3, true, true, true, true, true⟩

def twoShares : List PoolEvent :=
  [.dial 1000 tallyEnv, .submit true, .answer (echo 4 trueValue) 1001, .submit true,
    .answer (echo 5 Value.null) 1002, .answer (echo 2 trueValue) 1003,
    .answer (echo 3 trueValue) 1004]

theorem verdicts_counted_two :
    let s' := run Stratum.step tallySession (twoShares.map PoolEvent.toSession)
    Along Tallied.step (fun t e => t.Allows e ∧ t.Regular e) (tallied tallySession) twoShares ∧
      s'.sharesAccepted.toNat = 1 ∧ s'.sharesRejected.toNat = 1 := by
  intro s'
  have hes : Along Tallied.step (fun t e => t.Allows e ∧ t.Regular e) (tallied tallySession)
      twoShares := by decide +kernel
  have hcount : (run Tallied.step (tallied tallySession) twoShares).accepted = 1 ∧
      (run Tallied.step (tallied tallySession) twoShares).rejected = 1 ∧
      (run Tallied.step (tallied tallySession) twoShares).submitted < 2 ^ 64 := by decide +kernel
  obtain ⟨haccepted, hrejected, -⟩ :=
    (verdicts_counted (ascii "pool") 3333 (ascii "w") (ascii "x") twoShares hes).1 hcount.2.2
  exact ⟨hes, haccepted.trans hcount.1, hrejected.trans hcount.2.1⟩

def afterShares (t : Tallied) (n : Nat) : Tallied :=
  { t with
    session := { t.session with
      nextId := t.session.nextId + BitVec.ofNat 64 n
      sharesSubmitted := t.session.sharesSubmitted + BitVec.ofNat 64 n }
    submitted := t.submitted + n
    pending := t.pending ++ (List.range n).map fun i =>
      (t.session.nextId + BitVec.ofNat 64 i + 1, .submit) }

theorem step_submit (t : Tallied) (hup : ¬ t.session.fd < 0) :
    t.step (.submit true) =
      { t with
        session := { t.session with
          nextId := t.session.nextId + 1
          sharesSubmitted := t.session.sharesSubmitted + 1 }
        submitted := t.submitted + 1
        pending := t.pending ++ [(t.session.nextId + 1, .submit)] } := by
  have hs : t.session.step (.submit true) = { t.session with
      nextId := t.session.nextId + 1
      sharesSubmitted := t.session.sharesSubmitted + 1 } := by
    obtain ⟨hdown, -⟩ | ⟨-, hfalse, -⟩ | ⟨-, -, hs⟩ := stratumSubmit_cases t.session true
    · exact absurd hdown hup
    · cases hfalse
    · exact hs
  rw [Tallied.step]
  simp only [PoolEvent.toSession, hs, Tallied.count, hup, if_false, decide_false, Bool.not_false,
    Bool.and_self, Bool.toNat_true]

theorem run_submits (t : Tallied) (hup : ¬ t.session.fd < 0) (n : Nat) :
    run Tallied.step t (List.replicate n (.submit true)) = afterShares t n := by
  induction n with
  | zero => simp [run, afterShares]
  | succ n ih =>
    have hsplit : run Tallied.step t (List.replicate (n + 1) (.submit true)) =
        (run Tallied.step t (List.replicate n (.submit true))).step (.submit true) := by
      rw [List.replicate_succ', run_append]
      rfl
    have hnext (c : U64) : c + BitVec.ofNat 64 n + 1 = c + BitVec.ofNat 64 (n + 1) := by
      rw [BitVec.ofNat_add, ← BitVec.add_assoc]
      rfl
    rw [hsplit, ih, step_submit (afterShares t n) hup]
    simp only [afterShares, List.range_succ, List.map_append, List.map_singleton,
      List.append_assoc, hnext, Nat.add_assoc]

theorem along_submits (t : Tallied) (n : Nat) :
    Along Tallied.step Tallied.Allows t (List.replicate n (.submit true)) := by
  induction n generalizing t with
  | zero => trivial
  | succ n ih => exact ⟨trivial, ih _⟩

/-- How a run that the pool may have from `t` ends: the session's own counters beside the
verdicts that came in. -/
def Ends (t : Tallied) (es : List PoolEvent) (counters : U64 × U64) (verdicts : Nat × Nat) : Prop :=
  let t' := run Tallied.step t es
  Along Tallied.step Tallied.Allows t es ∧
    (t'.session.sharesAccepted, t'.session.sharesRejected) = counters ∧
    (t'.accepted, t'.rejected) = verdicts

instance (t : Tallied) (es : List PoolEvent) (counters : U64 × U64) (verdicts : Nat × Nat) :
    Decidable (Ends t es counters verdicts) :=
  inferInstanceAs (Decidable (_ ∧ _ ∧ _))

theorem Ends.submits {t : Tallied} (hup : ¬ t.session.fd < 0) {n : Nat} {es : List PoolEvent}
    {counters : U64 × U64} {verdicts : Nat × Nat} (h : Ends (afterShares t n) es counters verdicts) :
    Ends t (List.replicate n (.submit true) ++ es) counters verdicts := by
  have hrun : run Tallied.step t (List.replicate n (.submit true) ++ es) =
      run Tallied.step (afterShares t n) es := by
    rw [run_append, run_submits t hup n]
  rw [Ends, hrun]
  refine ⟨along_append.mpr ⟨along_submits t n, ?_⟩, h.2⟩
  rw [run_submits t hup]
  exact h.1

def connected : Tallied := (tallied tallySession).step (.dial 1000 tallyEnv)

theorem connected_up : ¬ connected.session.fd < 0 := by decide +kernel

theorem Ends.cons {t : Tallied} {e : PoolEvent} {es : List PoolEvent}
    {counters : U64 × U64} {verdicts : Nat × Nat} (hallow : t.Allows e)
    (h : Ends (t.step e) es counters verdicts) : Ends t (e :: es) counters verdicts :=
  ⟨⟨hallow, h.1⟩, h.2⟩

def escapedRun : List PoolEvent :=
  [.dial 1000 tallyEnv, .submit true, .answer (escapedEcho 4 trueValue) 1001]

/-- The handshake of the second connection begins with the id `2 ^ 53 + 1`. -/
def lateRun : List PoolEvent :=
  .dial 1000 tallyEnv :: (List.replicate (2 ^ 53 - 3) (.submit true) ++
    [.lost, .dial 2000 tallyEnv, .answer (echo 9007199254740993 Value.null) 2001])

/-- The last share has the id of the connection's subscribe, which is long answered. -/
def wrappedRun : List PoolEvent :=
  .dial 1000 tallyEnv :: .answer (echo 1 Value.null) 1001 ::
    (List.replicate (2 ^ 64 - 2) (.submit true) ++ [.answer (echo 1 trueValue) 1002])

theorem escaped_run : Ends (tallied tallySession) escapedRun (0, 0) (1, 0) := by decide +kernel

theorem Ends.lost {t : Tallied} {es : List PoolEvent} {counters : U64 × U64} {verdicts : Nat × Nat}
    (h : Ends { t with session := drop t.session, pending := [] } es counters verdicts) :
    Ends t (.lost :: es) counters verdicts :=
  ⟨⟨trivial, h.1⟩, h.2⟩

theorem late_run : Ends (tallied tallySession) lateRun (0, 1) (0, 0) := by
  have hlost : Ends
      { afterShares connected (2 ^ 53 - 3) with
        session := drop (afterShares connected (2 ^ 53 - 3)).session
        pending := [] }
      [.dial 2000 tallyEnv, .answer (echo 9007199254740993 Value.null) 2001] (0, 1) (0, 0) := by
    decide +kernel
  exact Ends.cons trivial (Ends.submits connected_up (Ends.lost hlost))

def answeredFirst : Tallied := connected.step (.answer (echo 1 Value.null) 1001)

theorem wrapped_lookup :
    (afterShares answeredFirst (2 ^ 64 - 2)).pending.lookup 1 = some .submit := by
  have hids : answeredFirst.pending = [(2, .authorize), (3, .suggestDifficulty)] ∧
      answeredFirst.session.nextId = 3 := by decide +kernel
  have hmem : (1 : U64) ∈ (afterShares answeredFirst (2 ^ 64 - 2)).pending.map Prod.fst := by
    rw [afterShares, hids.1, hids.2, List.map_append, List.map_map]
    refine List.mem_append_right _ (List.mem_map.mpr ⟨2 ^ 64 - 3, ?_, ?_⟩)
    · exact List.mem_range.mpr (by norm_num)
    · decide +kernel
  obtain ⟨k, hlook, hk⟩ := lookup_pending hmem
  rw [hlook]
  rw [afterShares, hids.1] at hk
  obtain hk | hk := List.mem_append.mp hk
  · revert hk
    cases k <;> decide
  · obtain ⟨i, -, hi⟩ := List.mem_map.mp hk
    rw [← (Prod.mk.inj hi).2]

theorem Ends.answer {t : Tallied} {a : Answer} {now : U64} {counters : U64 × U64}
    (hlook : t.pending.lookup a.id = some .submit)
    (hs : ((onLine t.session a.object.text now).sharesAccepted,
      (onLine t.session a.object.text now).sharesRejected) = counters) :
    Ends t [.answer a now] counters
      (t.accepted + a.result.toNat, t.rejected + (!a.result).toNat) := by
  have hmem : a.id ∈ t.pending.map Prod.fst := by
    obtain ⟨l₁, l₂, hl, -⟩ := List.lookup_eq_some_iff.mp hlook
    simp [hl]
  refine ⟨⟨hmem, trivial⟩, hs, ?_⟩
  change ((t.step (.answer a now)).accepted, (t.step (.answer a now)).rejected) = _
  rw [Tallied.step]
  simp only [Tallied.count, Tallied.answered, hlook, if_true]

theorem wrapped_run : Ends (tallied tallySession) wrappedRun (0, 0) (1, 0) := by
  have hup : ¬ answeredFirst.session.fd < 0 := by decide +kernel
  have hallows : connected.Allows (.answer (echo 1 Value.null) 1001) := by decide +kernel
  have hsession : ((onLine (afterShares answeredFirst (2 ^ 64 - 2)).session
        (echo 1 trueValue).object.text 1002).sharesAccepted,
      (onLine (afterShares answeredFirst (2 ^ 64 - 2)).session
        (echo 1 trueValue).object.text 1002).sharesRejected) = (0, 0) := by decide +kernel
  have hverdicts : (answeredFirst.accepted + (echo 1 trueValue).result.toNat,
      answeredFirst.rejected + (!(echo 1 trueValue).result).toNat) = (1, 0) := by decide +kernel
  have hlast : Ends (afterShares answeredFirst (2 ^ 64 - 2)) [.answer (echo 1 trueValue) 1002]
      (0, 0) (1, 0) := by
    have hid : (echo 1 trueValue).id = 1 := rfl
    rw [← hverdicts]
    refine Ends.answer ?_ hsession
    rw [hid]
    exact wrapped_lookup
  rw [wrappedRun]
  exact Ends.cons trivial (Ends.cons hallows (Ends.submits hup hlast))

theorem verdicts_miscounted :
    Ends (tallied tallySession) escapedRun (0, 0) (1, 0) ∧
      Ends (tallied tallySession) lateRun (0, 1) (0, 0) ∧
      Ends (tallied tallySession) wrappedRun (0, 0) (1, 0) :=
  ⟨escaped_run, late_run, wrapped_run⟩

end OspreyBlake2b.Miner
