import OspreyBlake2b.Miner.BoardReports
import OspreyBlake2b.Rtl.SiaBoard

namespace OspreyBlake2b.Miner

open OspreyBlake2b.Lib OspreyBlake2b.Hash.Blake2b OspreyBlake2b.Rtl OspreyBlake2b.Rtl.Uart Clocked

structure SiaPacked (ctx : WorkCtx) (item : List Byte) : Prop where
  ss4_len : ctx.ss4.length = stage4Len
  packed : worksrcPackItem ctx Chain.sia.itemLen = some item

def siaAnswer (ctx : WorkCtx) (nonce : U64) : U64 × U64 :=
  (nonce, siaChainExpectedTop64 ctx.ss4 nonce)

def SiaPasses (ctx : WorkCtx) (nonce : U64) : Prop :=
  top64 (siaChainPowCompare ctx.ss4 nonce) < ctx.targetTop64

section Slots

variable {ctx : WorkCtx} {item : List Byte}

theorem SiaPacked.split (h : SiaPacked ctx item) : item = ctx.ss4 ++ leBytes 8 ctx.targetTop64 := by
  have hp := h.packed
  have hlen : ¬ Chain.sia.itemLen = workItemLen := by decide
  have hsia : Chain.sia.itemLen = stage4Len + 8 := rfl
  rw [worksrcPackItem, if_neg hlen, if_pos hsia] at hp
  exact (Option.some.inj hp).symm

theorem SiaPacked.length (h : SiaPacked ctx item) : item.length = 88 := by
  rw [h.split, List.length_append, h.ss4_len, leBytes_length]
  rfl

theorem SiaPacked.target (h : SiaPacked ctx item) :
    unpackSiaTarget (leWord kSiaRxBits item) = ctx.targetTop64 := by
  have hlen := h.length
  have hw : 8 * item.length ≤ kSiaRxBits := by rw [hlen, kSiaRxBits]
  have hslot := extract_leWord 80 8 item hw (by omega)
  have hdrop : item.drop 80 = leBytes 8 ctx.targetTop64 := by
    rw [h.split]
    exact List.drop_left' h.ss4_len
  rw [hdrop, List.take_of_length_le (by simp)] at hslot
  exact hslot.trans (leWord_leBytes 8 _)

theorem SiaPacked.header (h : SiaPacked ctx item) :
    unpackHeader (leWord kSiaRxBits item) = messageWords ctx.ss4 := by
  funext k
  have hlen := h.length
  have h4 : ctx.ss4.length = 80 := h.ss4_len
  have hw : 8 * item.length ≤ kSiaRxBits := by rw [hlen, kSiaRxBits]
  have hk := k.isLt
  have hslot := extract_leWord (8 * k.val) 8 item hw (by omega)
  have hlong : 8 ≤ (ctx.ss4.drop (8 * k.val)).length := by
    rw [List.length_drop]
    omega
  rw [h.split, List.drop_append_of_le_length (by omega), List.take_append_of_le_length hlong,
    ← h.split, ← Nat.mul_assoc] at hslot
  exact hslot

theorem SiaPacked.shows_iff (h : SiaPacked ctx item) {nonce : U64} {o : Core}
    (hs : Shows siaTap (unpackHeader (leWord kSiaRxBits item))
      (unpackSiaTarget (leWord kSiaRxBits item)) nonce o) :
    (o.Success = true ↔ SiaPasses ctx nonce) ∧
      (o.Success = true → (o.NonceOut, o.HashTop64Out) = siaAnswer ctx nonce) := by
  have hword : byteReverse ((digestWords (messageWords ctx.ss4) nonce).get siaTap.word) =
      top64 (siaChainPowCompare ctx.ss4 nonce) := by
    rw [siaChainPowCompare, blake2bNokey_putNonce ctx.ss4 h.ss4_len, top64_digest]
    rfl
  obtain ⟨hsucc, hpair⟩ := hs
  rw [h.header] at hsucc hpair
  rw [h.target] at hsucc
  rw [hword] at hpair
  refine ⟨hsucc.trans ?_, hpair⟩
  rw [SiaPasses, ← hword]
  rfl

end Slots

section Board

open SiaBoard

variable {K : ℕ+} {kNonceSeed : U64} {items : List (WorkCtx × List Byte)}
  {frames : List (Nat × Byte)} {σ : Nat → SiaBoard K}

theorem sia_item_data (h : Sends (siaUart K) (items.map Prod.snd) frames)
    (hσ : Trace (SiaBoard.step kNonceSeed) (line K frames) σ) (h0 : (σ 0).IsReset) {j : Nat}
    (hj : j < items.length) :
    (σ (itemClk (siaUart K) frames j)).WorkData = leWord kSiaRxBits items[j].2 := by
  have hword := (h.pulses (SiaBoard.trace_rx hσ) h0.rx).2 j (by simpa using hj)
  rw [List.getElem_map] at hword
  exact hword

theorem sia_silent (h : Sends (siaUart K) (items.map Prod.snd) frames)
    (hσ : Trace (SiaBoard.step kNonceSeed) (line K frames) σ) (h0 : (σ 0).IsReset) {c : Nat}
    (hc : c ≤ itemClk (siaUart K) frames 0 + 1) : (σ c).core.Success = false := by
  cases c with
  | zero => exact h0.success
  | succ c =>
    have hzero : unpackSiaTarget (σ 0).WorkDataHeld = 0 := by
      rw [h0.held]
      exact BitVec.extractLsb'_zero
    apply (SiaBoard.feeds hσ).silent (SiaBoard.trace_core hσ) hzero
    intro u hu
    rw [← Bool.not_eq_true]
    intro hpulse
    obtain ⟨i, -, hi⟩ := ((h.pulses (SiaBoard.trace_rx hσ) h0.rx).1 u).mp hpulse
    cases i with
    | zero => omega
    | succ i =>
      have hlt : itemClk (siaUart K) frames 0 < itemClk (siaUart K) frames (i + 1) :=
        itemClk_lt (siaUart K) frames (Nat.succ_pos i)
      omega

theorem SiaBoard.sent_iff {s : SiaBoard K} {ctx : WorkCtx} {nonce : U64}
    (hsucc : s.core.Success = true ↔ SiaPasses ctx nonce)
    (hpair : s.core.Success = true → (s.core.NonceOut, s.core.HashTop64Out) = siaAnswer ctx nonce)
    (pr : U64 × U64) :
    s.sent = some pr ↔ s.tx.txState = .Idle ∧ SiaPasses ctx nonce ∧ pr = siaAnswer ctx nonce := by
  rw [SiaBoard.sent]
  constructor
  · intro hsent
    split at hsent
    · rename_i hgo
      refine ⟨hgo.1, hsucc.mp hgo.2, ?_⟩
      rw [← hpair hgo.2]
      exact (Option.some.inj hsent).symm
    · cases hsent
  · rintro ⟨hidle, hpass, rfl⟩
    have hon := hsucc.mpr hpass
    rw [if_pos ⟨hidle, hon⟩, hpair hon]

/-- Nothing is sent until the first item is in.  From when an item has settled to the next
one, the `q`-th nonce of the core is reported exactly when it passes the item's prefilter
and the transmitter is idle; the line carries what was sent and nothing else, and the host
takes none of it for noise. -/
theorem sia_answers (hp : ∀ i ∈ items, SiaPacked i.1 i.2)
    (h : Sends (siaUart K) (items.map Prod.snd) frames)
    (hσ : Trace (SiaBoard.step kNonceSeed) (line K frames) σ) (h0 : (σ 0).IsReset)
    {R : Nat → Reader} (hR : Trace (Reader.step (K + 1)) (fun t => (σ t).Tx) R)
    (hR0 : R 0 = Reader.init) {j q : Nat} (hj : j < items.length)
    (hb : Current (siaUart K) frames items.length 0 j
      (settledClk 0 (itemClk (siaUart K) frames j) + q)) :
    let ctx := items[j].1
    let s := σ (settledClk 0 (itemClk (siaUart K) frames j) + q)
    let nonce := kNonceSeed + BitVec.ofNat 64 q
    (s.core.Success = true ↔ SiaPasses ctx nonce) ∧
      (∀ pr, s.sent = some pr ↔
        s.tx.txState = .Idle ∧ SiaPasses ctx nonce ∧ pr = siaAnswer ctx nonce) ∧
      (∀ c ≤ itemClk (siaUart K) frames 0 + 1, (σ c).sent = none) ∧
      (∀ c, (R c).bytes <+: ((history (fun c => (σ c).sent) c).flatMap UartTop.frame).map some) ∧
      ∀ g : Worksrc, g.chain = .sia → ∀ sendOk,
        (stOnCandidate g ctx (siaAnswer ctx nonce).1 (siaAnswer ctx nonce).2 sendOk).2.1 ≠ .bad := by
  intro ctx s nonce
  have hpacked : SiaPacked ctx items[j].2 := hp _ (List.getElem_mem _)
  have hj' : j < (items.map Prod.snd).length := by simpa using hj
  have hworks := h.works (SiaBoard.trace_rx hσ) h0.rx hj' (by simpa using hb)
  have hshows : Shows siaTap (unpackHeader (leWord kSiaRxBits items[j].2))
      (unpackSiaTarget (leWord kSiaRxBits items[j].2)) nonce s.core := by
    rw [← sia_item_data h hσ h0 hj]
    rw [← outcomeClk_eq] at hworks
    have hs := hworks.shows (SiaBoard.feeds hσ) (SiaBoard.trace_core hσ) siaTap_wired
    rw [outcomeClk_eq] at hs
    exact hs
  obtain ⟨hsucc, hpair⟩ := hpacked.shows_iff hshows
  refine ⟨hsucc, SiaBoard.sent_iff hsucc hpair, fun c hc => ?_, SiaBoard.line_sent hσ h0 hR hR0,
    fun g hg => not_bad (by rw [hg]; rfl)⟩
  rw [SiaBoard.sent, sia_silent h hσ h0 hc]
  simp

def easySiaItem : List Byte := easyCtx.ss4 ++ putTargetLe easyCtx.targetTop64

def easySiaFrames : List (Nat × Byte) := easySiaItem.map fun b => (0, b)

theorem sia_answers_easy :
    let s := run (SiaBoard.step 0) (line demoBit easySiaFrames) (SiaBoard.zero demoBit)
      (settledClk 0 (itemClk (siaUart demoBit) easySiaFrames 0) + 3)
    s.core.Success = true ↔ SiaPasses easyCtx (0 + BitVec.ofNat 64 3) := by
  have hσ := trace_run (SiaBoard.step 0) (line demoBit easySiaFrames) (SiaBoard.zero demoBit)
  have hR := trace_run (Reader.step (demoBit + 1))
    (fun t => (run (SiaBoard.step 0) (line demoBit easySiaFrames) (SiaBoard.zero demoBit) t).Tx)
    Reader.init
  have hp : ∀ i ∈ [(easyCtx, easySiaItem)], SiaPacked i.1 i.2 := by
    intro i hi
    obtain rfl := List.mem_singleton.mp hi
    exact ⟨rfl, rfl⟩
  have hsends : Sends (siaUart demoBit) ([(easyCtx, easySiaItem)].map Prod.snd) easySiaFrames := by
    refine ⟨fun b hb => ?_, by simp [easySiaFrames], clearGaps_tight easySiaItem,
      Nat.le_of_eq demoBit_eq.symm⟩
    obtain rfl := List.mem_singleton.mp hb
    exact (hp _ (List.mem_singleton_self _)).length
  have hcurrent (b : Nat) : Current (siaUart demoBit) easySiaFrames 1 0 0 b := by
    intro j hj h0
    omega
  exact (sia_answers hp hsends hσ SiaBoard.isReset_zero hR rfl Nat.zero_lt_one (hcurrent _)).1

end Board

end OspreyBlake2b.Miner
