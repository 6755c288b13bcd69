import OspreyBlake2b.Miner.PrefilterLaws
import OspreyBlake2b.Miner.WorksrcStratum
import OspreyBlake2b.Rtl.BoardLaws
import OspreyBlake2b.Rtl.ItemLine

/-! A work item's way through the board: from `worksrc_pack_item` over the line, the cores
and the arbiter back to `st_on_candidate`. -/

namespace OspreyBlake2b.Miner

open OspreyBlake2b.Lib OspreyBlake2b.Hash.Blake2b OspreyBlake2b.Rtl Rtl.Board Clocked

structure Packed (ctx : WorkCtx) (item : List Byte) : Prop where
  ss3_len : ctx.ss3.length = stage3Len
  ss4_len : ctx.ss4.length = stage4Len
  packed : worksrcPackItem ctx workItemLen = some item

section Slots

variable {ctx : WorkCtx} {item : List Byte}

theorem Packed.split (h : Packed ctx item) : ∃ pad : List Byte, pad.length = 80 ∧
    item = pad ++ (ctx.ss4 ++ leBytes 8 ctx.targetTop64) := by
  obtain ⟨h3, h4, hp⟩ := h
  rw [worksrcPackItem, if_pos rfl] at hp
  refine ⟨ctx.ss3 ++ List.replicate (slots * 8 - stage3Len) 0, ?_, ?_⟩
  · rw [List.length_append, h3, List.length_replicate]
    rfl
  · rw [← Option.some.inj hp, putTargetLe, List.append_assoc]

theorem Packed.length (h : Packed ctx item) : item.length = 168 := by
  obtain ⟨pad, hpad, rfl⟩ := h.split
  rw [List.length_append, List.length_append, hpad, h.ss4_len, leBytes_length]
  rfl

theorem Packed.target (h : Packed ctx item) :
    unpackTarget (leWord kRxBits item) = ctx.targetTop64 := by
  have hlen := h.length
  have hw : 8 * item.length ≤ kRxBits := by rw [hlen, kRxBits]
  have hslot := extract_leWord 160 8 item hw (by omega)
  obtain ⟨pad, hpad, rfl⟩ := h.split
  have hdrop : (pad ++ (ctx.ss4 ++ leBytes 8 ctx.targetTop64)).drop 160 =
      leBytes 8 ctx.targetTop64 := by
    rw [← List.append_assoc]
    apply List.drop_left'
    rw [List.length_append, hpad, h.ss4_len]
    rfl
  rw [hdrop, List.take_of_length_le (by simp)] at hslot
  exact hslot.trans (leWord_leBytes 8 _)

theorem Packed.slot (h : Packed ctx item) (k : Fin 10) :
    unpackStage4 (leWord kRxBits item) k = messageWords ctx.ss4 k := by
  have hlen := h.length
  have hw : 8 * item.length ≤ kRxBits := by rw [hlen, kRxBits]
  have hk := k.isLt
  have hslot := extract_leWord (8 * (10 + k.val)) 8 item hw (by omega)
  obtain ⟨pad, hpad, rfl⟩ := h.split
  have hdrop : ((pad ++ (ctx.ss4 ++ leBytes 8 ctx.targetTop64)).drop (8 * (10 + k.val))).take 8 =
      (ctx.ss4.drop (8 * k.val)).take 8 := by
    have h4 : ctx.ss4.length = 80 := h.ss4_len
    have hlong : 8 ≤ (ctx.ss4.drop (8 * k.val)).length := by
      rw [List.length_drop]
      omega
    rw [List.drop_append, List.drop_eq_nil_of_le (by omega), List.nil_append,
      show 8 * (10 + k.val) - pad.length = 8 * k.val by omega,
      List.drop_append_of_le_length (by omega), List.take_append_of_le_length hlong]
  rw [hdrop, ← Nat.mul_assoc] at hslot
  exact hslot

theorem Packed.unpack (h : Packed ctx item) :
    unpackStage4 (leWord kRxBits item) = messageWords ctx.ss4 := by
  funext k
  exact h.slot k

theorem Packed.nonceDigest (h : Packed ctx item) (nonce : U64) :
    nonceDigest (unpackStage4 (leWord kRxBits item)) nonce =
      blake2bNokey (putNonce ctx.ss4 nonce) 32 := by
  rw [h.unpack, Rtl.nonceDigest, headerBytes_messageWords ctx.ss4 nonce h.ss4_len]

def answer (ctx : WorkCtx) (nonce : U64) : U64 × U64 := (nonce, siaExpectedTop64 ctx.ss4 nonce)

def Passes (ctx : WorkCtx) (nonce : U64) : Prop :=
  top64 (siaPowCompare ctx.ss4 nonce) < ctx.targetTop64

theorem Packed.report (h : Packed ctx item) (d : Design n) (k : Fin (n + 1)) (q : Nat) :
    report d (leWord kRxBits item) k q = answer ctx (d.seed k + BitVec.ofNat 64 q) := by
  rw [Board.report, h.nonceDigest, answer, siaExpectedTop64, digestSlice,
    List.take_of_length_le (by simp)]

theorem Packed.solves_iff (h : Packed ctx item) (d : Design n) (k : Fin (n + 1)) (q : Nat) :
    Solves d (leWord kRxBits item) k q ↔ Passes ctx (d.seed k + BitVec.ofNat 64 q) := by
  have hword := stage4_word (messageWords ctx.ss4) (d.seed k + BitVec.ofNat 64 q)
  rw [Solves, Passes, h.target, h.unpack, ← hword, siaPowCompare,
    blake2bNokey_putNonce ctx.ss4 h.ss4_len, top64_reverse_digest]
  rfl

end Slots

section Board

open Uart

variable {K : ℕ+} {n : Nat} {d : Design n} {items : List (WorkCtx × List Byte)}
  {frames : List (Nat × Byte)} {σ : Nat → Board K n}

theorem trace_rx {aRx : Nat → Bool} (hσ : Trace (Board.step d) aRx σ) :
    Trace (GetWork.step (knotsUart K)) aRx fun t => (σ t).uart.rx := by
  intro t
  exact congrArg UartTop.rx (trace_uart hσ t)

theorem rx_reset (h0 : (σ 0).IsReset) : (σ 0).uart.rx = GetWork.reset (knotsUart K) :=
  congrArg UartTop.rx h0.uart

theorem item_data (h : Sends (knotsUart K) (items.map Prod.snd) frames)
    (hσ : Trace (Board.step d) (line K frames) σ) (h0 : (σ 0).IsReset) {j : Nat}
    (hj : j < items.length) :
    (σ (itemClk (knotsUart K) frames j)).WorkData = leWord kRxBits items[j].2 := by
  have hdata := (h.pulses (trace_rx hσ) (rx_reset h0)).2 j (by simpa using hj)
  rw [List.getElem_map] at hdata
  exact hdata

theorem item_works (h : Sends (knotsUart K) (items.map Prod.snd) frames)
    (hσ : Trace (Board.step d) (line K frames) σ) (h0 : (σ 0).IsReset) {j b : Nat}
    (hj : j < items.length) (hb : Current (knotsUart K) frames items.length 3 j b) :
    ItemWorks σ (itemClk (knotsUart K) frames j) b := by
  rw [← List.length_map Prod.snd] at hj hb
  exact h.works (trace_rx hσ) (rx_reset h0) hj hb

theorem granted_of_grant {t : Nat} {pr : U64 × U64} (aRx : Nat → Bool)
    (h : (σ t).uart.grant = some pr) : ∃ k, granted (arbIn aRx σ) (arb σ) k t = some pr := by
  rw [UartTop.grant] at h
  split at h
  · rename_i hvalid
    let ready := (arbIn aRx σ t).ResultReady
    have hgrant : (arb σ t).Grant ready ((arb σ t).GrantIdx ready) = true :=
      decide_eq_true ⟨hvalid, rfl⟩
    exact ⟨(arb σ t).GrantIdx ready, (if_pos hgrant).trans h⟩
  · cases h

theorem not_bad {g : Worksrc} {ctx : WorkCtx} {nonce hash : U64}
    (h : expectedTop64 g.chain ctx.ss4 nonce = hash) (sendOk : Bool) :
    (stOnCandidate g ctx nonce hash sendOk).2.1 ≠ .bad := by
  rw [stOnCandidate, if_neg (not_not_intro h)]
  split
  · simp
  · split
    · dsimp only
      split
      · simp
      · split <;> simp
    · simp

/-- Once an item has settled, what a core gets granted is what its slot still held and then
its solutions of the item, in order; one that is missing found the slot full.  The line
carries the granted pairs and nothing else, and the host takes none of the solutions for
noise. -/
theorem answers_genuine (hp : ∀ i ∈ items, Packed i.1 i.2)
    (h : Sends (knotsUart K) (items.map Prod.snd) frames)
    (hσ : Trace (Board.step d) (line K frames) σ) (h0 : (σ 0).IsReset) {R : Nat → Reader}
    (hR : Trace (Reader.step (K + 1)) (fun t => (σ t).uart.Tx) R) (hR0 : R 0 = Reader.init)
    {j t : Nat} (hj : j < items.length)
    (hb : Current (knotsUart K) frames items.length 3 j
      (settledClk 3 (itemClk (knotsUart K) frames j) + t)) :
    let ctx := items[j].1
    let from_ := settledClk 3 (itemClk (knotsUart K) frames j)
    (∀ k : Fin (n + 1), ∃ qs : List Nat, qs.Pairwise (· < ·) ∧
      (∀ q ∈ qs, q < t ∧ Passes ctx (d.seed k + BitVec.ofNat 64 q)) ∧
      history (granted (fun c => arbIn (line K frames) σ (from_ + c))
          (fun c => arb σ (from_ + c)) k) t <+:
        (arb σ from_).slot k ++ qs.map (fun q => answer ctx (d.seed k + BitVec.ofNat 64 q)) ∧
      ∀ q < t, Passes ctx (d.seed k + BitVec.ofNat 64 q) → q ∈ qs ∨ (arb σ (from_ + q)).Vld k = true) ∧
    (∀ c pr, (σ c).uart.grant = some pr →
      ∃ k, granted (arbIn (line K frames) σ) (arb σ) k c = some pr) ∧
    (∀ c, (R c).bytes <+: ((history (fun c => (σ c).uart.grant) c).flatMap UartTop.frame).map some) ∧
    ∀ g : Worksrc, g.chain = .knots → ∀ nonce sendOk,
      (stOnCandidate g ctx (answer ctx nonce).1 (answer ctx nonce).2 sendOk).2.1 ≠ .bad := by
  intro ctx from_
  have hpacked : Packed ctx items[j].2 := hp _ (List.getElem_mem _)
  have hdata := item_data h hσ h0 hj
  refine ⟨fun k => ?_, fun c pr => granted_of_grant _, fun c => ?_, fun g hg nonce =>
    not_bad (by rw [hg]; rfl)⟩
  · have hgrants := grants hσ k (item_works h hσ h0 hj hb)
    rw [hdata] at hgrants
    simp only [hpacked.solves_iff] at hgrants
    obtain ⟨qs, hqs⟩ := hgrants
    refine ⟨qs, hqs.1, hqs.2.1, ?_, hqs.2.2.2⟩
    have hmap : (fun q => answer ctx (d.seed k + BitVec.ofNat 64 q)) =
        report d (leWord kRxBits items[j].2) k := by
      funext q
      exact (hpacked.report d k q).symm
    rw [hmap]
    exact hqs.2.2.1
  · have hbaud : (σ 0).uart.txBaud = TxBaudGen.reset := congrArg UartTop.txBaud h0.uart
    have htx : (σ 0).uart.tx = Transmitter.reset kTxBytes := congrArg UartTop.tx h0.uart
    have hlink : Link (K : Nat) [] (σ 0).uart.txBaud (σ 0).uart.tx (R 0) := by
      rw [hbaud, htx, hR0]
      exact .idle rfl rfl
    exact (UartTop.link_run (trace_uart hσ) hR (hbaud ▸ ⟨Nat.zero_le _, nofun⟩) hlink c).bytes_sent

def easyCtx : WorkCtx := { zeroCtx with targetTop64 := BitVec.allOnes 64 }

def easyItem : List Byte :=
  easyCtx.ss3 ++ List.replicate (slots * 8 - stage3Len) 0 ++ easyCtx.ss4 ++
    putTargetLe easyCtx.targetTop64

def easyFrames : List (Nat × Byte) := easyItem.map fun b => (0, b)

theorem easy_packed : ∀ i ∈ [(easyCtx, easyItem)], Packed i.1 i.2 := by
  intro i hi
  obtain rfl := List.mem_singleton.mp hi
  exact ⟨rfl, rfl, rfl⟩

theorem easy_sends : Sends (knotsUart demoBit) ([(easyCtx, easyItem)].map Prod.snd) easyFrames where
  sizes b hb := by
    obtain rfl := List.mem_singleton.mp hb
    exact (easy_packed _ (List.mem_singleton_self _)).length
  bytes := by simp [easyFrames]
  gaps := clearGaps_tight easyItem
  slow := Nat.le_of_eq demoBit_eq.symm

theorem easy_current (b : Nat) : Current (knotsUart demoBit) easyFrames 1 3 0 b := by
  intro j hj h0
  omega

theorem success_exact_easy : ∃ d : Design 1, ∀ (k : Fin 2) (q : Nat),
    let σ := run (Board.step d) (line demoBit easyFrames) (zero demoBit 1)
    let o := ((σ (settledClk 3 (itemClk (knotsUart demoBit) easyFrames 0) + q)).core k).out
    (o.Success = true ↔ Passes easyCtx (d.seed k + BitVec.ofNat 64 q)) ∧
      (o.Success = true →
        (o.Nonce, o.HashTop64) = answer easyCtx (d.seed k + BitVec.ofNat 64 q)) := by
  obtain ⟨d⟩ : Nonempty (Design 1) := Design.nonempty_iff.mpr (by decide)
  refine ⟨d, fun k q => ?_⟩
  intro σ
  have hσ := trace_run (Board.step d) (line demoBit easyFrames) (zero demoBit 1)
  have hpacked : Packed easyCtx easyItem := easy_packed _ (List.mem_singleton_self _)
  have hdata : (σ (itemClk (knotsUart demoBit) easyFrames 0)).WorkData = leWord kRxBits easyItem :=
    item_data easy_sends hσ isReset_zero Nat.zero_lt_one
  have harrived := (item_works easy_sends hσ isReset_zero Nat.zero_lt_one (easy_current 0)).arrived
  have honly (u : Nat) (hu : (σ u).NewWork = true) :
      u = itemClk (knotsUart demoBit) easyFrames 0 := by
    obtain ⟨j, hj, rfl⟩ := ((easy_sends.pulses (trace_rx hσ) (rx_reset isReset_zero)).1 u).mp hu
    rw [Nat.lt_one_iff.mp hj]
  generalize itemClk (knotsUart demoBit) easyFrames 0 = p at hdata harrived honly ⊢
  have hclk : p + kPipeLength + 3 + q + 4 = settledClk 3 p + q := by
    rw [settledClk, outcomeClk]
    omega
  have hexact := success_exact hσ isReset_zero k (p + kPipeLength + 3 + q)
  rw [hclk] at hexact
  obtain ⟨hsilent, -⟩ | ⟨p', hp', hworks, hfilled⟩ := hexact
  · rw [hsilent p (by omega)] at harrived
    cases harrived
  · obtain rfl := honly p' hworks.arrived
    obtain hlt | ⟨q', hq, hiff, hpair⟩ := hfilled
    · omega
    · obtain rfl := Nat.add_left_cancel hq
      rw [hdata, hpacked.solves_iff] at hiff
      rw [hdata, hpacked.report] at hpair
      exact ⟨hiff, hpair⟩

theorem answers_genuine_demo : ∃ d : Design 1, ∀ t,
    let σ := run (Board.step d) (line demoBit easyFrames) (zero demoBit 1)
    let from_ := settledClk 3 (itemClk (knotsUart demoBit) easyFrames 0)
    ∀ k : Fin 2, ∃ qs : List Nat, qs.Pairwise (· < ·) ∧
      (∀ q ∈ qs, q < t ∧ Passes easyCtx (d.seed k + BitVec.ofNat 64 q)) ∧
      history (granted (fun c => arbIn (line demoBit easyFrames) σ (from_ + c))
          (fun c => arb σ (from_ + c)) k) t <+:
        (arb σ from_).slot k ++ qs.map (fun q => answer easyCtx (d.seed k + BitVec.ofNat 64 q)) ∧
      ∀ q < t, Passes easyCtx (d.seed k + BitVec.ofNat 64 q) →
        q ∈ qs ∨ (arb σ (from_ + q)).Vld k = true := by
  obtain ⟨d⟩ : Nonempty (Design 1) := Design.nonempty_iff.mpr (by decide)
  refine ⟨d, fun t => ?_⟩
  have hσ := trace_run (Board.step d) (line demoBit easyFrames) (zero demoBit 1)
  have hR := trace_run (Reader.step (demoBit + 1))
    (fun t => (run (Board.step d) (line demoBit easyFrames) (zero demoBit 1) t).uart.Tx) Reader.init
  exact (answers_genuine easy_packed easy_sends hσ isReset_zero hR rfl
    Nat.zero_lt_one (easy_current _)).1

/-- A power of two of cores tries every nonce once while the item is current, and finds
whatever the host would take, but for a hash that ties on the leading word. -/
theorem searches_all (hp : ∀ i ∈ items, Packed i.1 i.2)
    (h : Sends (knotsUart K) (items.map Prod.snd) frames)
    (hσ : Trace (Board.step d) (line K frames) σ) (h0 : (σ 0).IsReset) {m j : Nat}
    (hn : n + 1 = 2 ^ m) (hj : j < items.length)
    (hb : Current (knotsUart K) frames items.length 3 j
      (settledClk 3 (itemClk (knotsUart K) frames j) + 2 ^ (64 - m))) (v : U64) :
    let ctx := items[j].1
    ∃ (k : Fin (n + 1)) (q : Nat), 1 ≤ q ∧ q ≤ 2 ^ (64 - m) ∧ d.seed k + BitVec.ofNat 64 q = v ∧
      (∀ (k' : Fin (n + 1)) (q' : Nat), 1 ≤ q' → q' ≤ 2 ^ (64 - m) →
        d.seed k' + BitVec.ofNat 64 q' = v → k' = k ∧ q' = q) ∧
      let o := ((σ (settledClk 3 (itemClk (knotsUart K) frames j) + q)).core k).out
      (o.Success = true ↔ Passes ctx v) ∧
        (o.Success = true → (o.Nonce, o.HashTop64) = answer ctx v) ∧
        ∀ target, target.length = 32 → top64 target = ctx.targetTop64 →
          hashMeetsTarget (siaPowCompare ctx.ss4 v) target = true →
            ¬ TopWordTie (siaPowCompare ctx.ss4 v) target → o.Success = true := by
  intro ctx
  have hpacked : Packed ctx items[j].2 := hp _ (List.getElem_mem _)
  have hdata := item_data h hσ h0 hj
  obtain ⟨k, q, hpos, hle, hv, honly⟩ := d.covers hn v
  have hworks : ItemWorks σ (itemClk (knotsUart K) frames j)
      (settledClk 3 (itemClk (knotsUart K) frames j) + q) :=
    (item_works h hσ h0 hj hb).mono (Nat.add_le_add_left hle _)
  obtain ⟨hiff, hpair⟩ := shows hσ k hworks
  rw [hdata, hpacked.solves_iff, hv] at hiff
  rw [hdata, hpacked.report, hv] at hpair
  refine ⟨k, q, hpos, hle, hv, honly, hiff, hpair, ?_⟩
  intro target hlen htop hmeets htie
  apply hiff.mpr
  rw [Passes, ← htop]
  exact top64_lt_of_meets (by simp [siaPowCompare, hlen]) hmeets htie

theorem searches_all_demo : ∃ d : Design 1, ∀ v : U64,
    let σ := run (Board.step d) (line demoBit easyFrames) (zero demoBit 1)
    ∃ (k : Fin 2) (q : Nat), q ≤ 2 ^ 63 ∧ d.seed k + BitVec.ofNat 64 q = v ∧
      (((σ (settledClk 3 (itemClk (knotsUart demoBit) easyFrames 0) + q)).core k).out.Success = true ↔
        Passes easyCtx v) := by
  obtain ⟨d⟩ : Nonempty (Design 1) := Design.nonempty_iff.mpr (by decide)
  refine ⟨d, fun v => ?_⟩
  have hσ := trace_run (Board.step d) (line demoBit easyFrames) (zero demoBit 1)
  obtain ⟨k, q, -, hle, hv, -, hiff, -⟩ := searches_all (m := 1) easy_packed
    easy_sends hσ isReset_zero rfl Nat.zero_lt_one (easy_current _) v
  exact ⟨k, q, hle, hv, hiff⟩

end Board

end OspreyBlake2b.Miner
