import OspreyBlake2b.Miner.BoardReports
import OspreyBlake2b.Miner.FrameSync
import OspreyBlake2b.Miner.WorkItemLaws

/-! `selftest_loopback` and `loopback_verify` of `miner/miner.c`: the search for the phase of
the FPGA's byte counter, and the check of what comes back. -/

namespace OspreyBlake2b.Miner

open OspreyBlake2b.Lib OspreyBlake2b.Lib.Clocked OspreyBlake2b.Rtl OspreyBlake2b.Rtl.Uart

def nonceGuard : U64 := 256

def nonceOffset (h : KnotsHeader) (r : FpgaResult) : Option Nat :=
  (List.range 512).find? fun off =>
    expectedHashTop64 (withNonce h (r.nonce + BitVec.ofNat 64 off)) = r.hashTop64

def windowOffset (h : KnotsHeader) (win : List Byte) : Option Nat :=
  if win.headD 0 ≠ 0x01#8 then none
  else
    match parseResult win with
    | none => none
    | some r => if 0 - r.nonce < nonceGuard then none else nonceOffset h r

structure Verified where
  window : Nat
  offset : Nat
  deriving DecidableEq

def loopbackVerify (h : KnotsHeader) (buf : List Byte) : Option Verified :=
  (List.range (buf.length + 1 - resultLen)).findSome? fun w =>
    (windowOffset h (buf.drop w)).map (Verified.mk w)

/-- One phase of the search as the UART has it: how many bytes of the item the transmitter
takes before it stalls, what `frame_sync` returns, and whether the pad byte gets out. -/
structure Probe where
  accepts : Nat
  sync : SyncResult
  padOut : Bool
  deriving DecidableEq

def Probe.verify (h : KnotsHeader) (p : Probe) : Option Verified :=
  if p.sync.rc = 0 ∧ resultLen ≤ p.sync.out.length then loopbackVerify h p.sync.out else none

def Probe.pad (p : Probe) : List Byte := if p.padOut then [0x00#8] else []

inductive Loopback where
  | pass (phase : Nat) (v : Verified)
  | stalled (phase : Nat)
  | exhausted
  deriving DecidableEq

/-- The result, and the bytes that went out, with a probe for every phase there is time for. -/
def selftestLoopback (h : KnotsHeader) (item : List Byte) : Nat → List Probe → Loopback × List Byte
  | _, [] => (.exhausted, [])
  | phase, p :: ps =>
    if p.accepts < item.length then (.stalled phase, item.take p.accepts)
    else
      match p.verify h with
      | some v => (.pass phase v, item)
      | none =>
        let after := selftestLoopback h item (phase + 1) ps
        (after.1, item ++ p.pad ++ after.2)

section Verify

variable {h : KnotsHeader} {s : Stages} {buf : List Byte}

theorem expectedHashTop64_withNonce (hs : stageInputs h = some s) (n : U64) :
    expectedHashTop64 (withNonce h n) = siaExpectedTop64 s.ss4 n := by
  rw [expectedHashTop64, stageInputs_withNonce hs]
  rfl

theorem nonceOffset_isSome {n : U64} (hs : stageInputs h = some s) :
    (nonceOffset h ⟨true, n, siaExpectedTop64 s.ss4 n⟩).isSome = true := by
  rw [nonceOffset, List.find?_isSome]
  refine ⟨0, List.mem_range.mpr (by decide), ?_⟩
  rw [BitVec.add_zero, expectedHashTop64_withNonce hs]
  exact decide_eq_true rfl

theorem parseResult_frame (n hash : U64) (bs : List Byte) :
    parseResult (UartTop.frame (n, hash) ++ bs) = some ⟨true, n, hash⟩ := by
  have hn : leWord 64 (leBytes 8 n) = n := leWord_leBytes 8 n
  have hh : leWord 64 (leBytes 8 hash) = hash := leWord_leBytes 8 hash
  have htake : ((leBytes 8 hash) ++ bs).take 8 = leBytes 8 hash := List.take_left' (by simp)
  rw [UartTop.frame_eq]
  simp [parseResult, List.drop_append, hn, hh, htake]

theorem frame_length (p : U64 × U64) : (UartTop.frame p).length = resultLen := leBytes_length _ _

theorem windowOffset_isSome {n : U64} (hs : stageInputs h = some s)
    (hguard : ¬ 0 - n < nonceGuard) (bs : List Byte) :
    (windowOffset h (UartTop.frame (n, siaExpectedTop64 s.ss4 n) ++ bs)).isSome = true := by
  have hflag : (UartTop.frame (n, siaExpectedTop64 s.ss4 n) ++ bs).headD 0 = 0x01#8 := by
    rw [UartTop.frame_eq]
    rfl
  rw [windowOffset, if_neg (not_not_intro hflag), parseResult_frame]
  dsimp only
  rw [if_neg hguard]
  exact nonceOffset_isSome hs

theorem loopbackVerify_isSome {n : U64} (hs : stageInputs h = some s)
    (hguard : ¬ 0 - n < nonceGuard)
    (hmem : UartTop.frame (n, siaExpectedTop64 s.ss4 n) <:+: buf) :
    (loopbackVerify h buf).isSome = true := by
  obtain ⟨before, after, rfl⟩ := hmem
  rw [loopbackVerify, List.findSome?_isSome_iff]
  refine ⟨before.length, List.mem_range.mpr ?_, ?_⟩
  · rw [List.length_append, List.length_append, frame_length]
    omega
  · rw [Option.isSome_map, List.append_assoc, List.drop_left]
    exact windowOffset_isSome hs hguard after

end Verify

section Search

variable {h : KnotsHeader} {item : List Byte} {probes : List Probe}

def Probe.sent (item : List Byte) (p : Probe) : List Byte := item ++ p.pad

def pads (probes : List Probe) : Nat := probes.countP Probe.padOut

theorem length_sent (item : List Byte) (probes : List Probe) :
    (probes.flatMap (Probe.sent item)).length = item.length * probes.length + pads probes := by
  induction probes with
  | nil => rfl
  | cons p ps ih =>
    have hpad : p.pad.length = if p.padOut then 1 else 0 := by
      rw [Probe.pad]
      split <;> rfl
    rw [List.flatMap_cons, List.length_append, ih, Probe.sent, List.length_append, hpad, pads,
      pads, List.countP_cons, List.length_cons, Nat.mul_succ]
    omega

theorem selftestLoopback_pass {phase s : Nat} {v : Verified} {bytes : List Byte}
    (hpass : selftestLoopback h item phase probes = (.pass s v, bytes)) :
    ∃ k < probes.length, s = phase + k ∧
      bytes = (probes.take k).flatMap (Probe.sent item) ++ item := by
  induction probes generalizing phase bytes with
  | nil => cases congrArg Prod.fst hpass
  | cons p ps ih =>
    rw [selftestLoopback] at hpass
    split at hpass
    · cases congrArg Prod.fst hpass
    · split at hpass
      · obtain ⟨hr, rfl⟩ := Prod.mk.inj hpass
        obtain ⟨rfl, -⟩ := Loopback.pass.inj hr
        exact ⟨0, Nat.zero_lt_succ _, rfl, rfl⟩
      · obtain ⟨hr, rfl⟩ := Prod.mk.inj hpass
        have hrest : selftestLoopback h item (phase + 1) ps =
            (.pass s v, (selftestLoopback h item (phase + 1) ps).2) := Prod.ext hr rfl
        obtain ⟨k, hk, hs, hbytes⟩ := ih hrest
        refine ⟨k + 1, Nat.succ_lt_succ hk, by omega, ?_⟩
        simp only [hbytes, List.take_succ_cons, List.flatMap_cons, Probe.sent, List.append_assoc]

theorem selftestLoopback_reaches (phase : Nat) {k : Nat} (hk : k < probes.length)
    (hout : ∀ p ∈ probes, item.length ≤ p.accepts)
    (hverify : (probes[k].verify h).isSome = true) :
    ∃ s v bytes, s ≤ phase + k ∧ selftestLoopback h item phase probes = (.pass s v, bytes) := by
  induction probes generalizing phase k with
  | nil => exact absurd hk (Nat.not_lt_zero k)
  | cons p ps ih =>
    rw [List.forall_mem_cons] at hout
    rw [selftestLoopback, if_neg (Nat.not_lt.mpr hout.1)]
    cases hp : p.verify h with
    | some v => exact ⟨phase, v, item, Nat.le_add_right _ _, rfl⟩
    | none =>
      cases k with
      | zero =>
        rw [List.getElem_cons_zero, hp] at hverify
        cases hverify
      | succ k =>
        obtain ⟨s, v, bytes, hs, he⟩ := ih (phase + 1) (Nat.lt_of_succ_lt_succ hk) hout.2
          hverify
        refine ⟨s, v, item ++ p.pad ++ bytes, by omega, ?_⟩
        rw [he]

end Search

section Aligned

variable {h : KnotsHeader} {item : List Byte} {probes : List Probe} {g : Generics}
  {frames : List (Nat × Byte)} {σ : Nat → GetWork g} {c N : Nat} {w : BitVec (g.kRxBytes * 8)}

/-- From the passing phase on the part takes one word from every item: the item itself if the
counter stood at zero, else the end of the item before and the beginning of this one. -/
theorem search_aligns {s : Nat} {v : Verified} {bytes : List Byte} {work : List (List Byte)}
    (hpass : selftestLoopback h item 0 probes = (.pass s v, bytes))
    (hsizes : ∀ b ∈ item :: work, b.length = g.kRxBytes)
    (hline : frames.map Prod.snd = bytes ++ work.flatten) (hslow : 32 ≤ g.kBitTimeInClks)
    (hσ : Trace (GetWork.step g) (line g.kBitTimeInClks frames) σ)
    (hq : Quiet (σ 0) c (N % g.kRxBytes) w) (hc : c ≤ g.kBitTimeInClks)
    (hclear : ClearFrom g.kBitTimeInClks c frames) :
    let m := (N + pads (probes.take s)) % g.kRxBytes
    let start := g.kRxBytes * s + pads (probes.take s)
    (∀ t, pulseClk g.kBitTimeInClks frames start ≤ t →
      ((σ t).NewWork = true ↔ ∃ j < (item :: work).length, t = packetClk g frames start m j)) ∧
    (m = 0 → ∀ j b, (item :: work)[j]? = some b →
      (σ (packetClk g frames start m j)).WorkData = leWord (g.kRxBytes * 8) b) ∧
    ∀ j b b', (item :: work)[j]? = some b → (item :: work)[j + 1]? = some b' →
      (σ (packetClk g frames start m (j + 1))).WorkData =
        leWord (g.kRxBytes * 8) (b.drop (g.kRxBytes - m) ++ b'.take (g.kRxBytes - m)) := by
  intro m start
  obtain ⟨k, hk, hs, hbytes⟩ := selftestLoopback_pass hpass
  rw [Nat.zero_add] at hs
  subst hs
  have hitem : item.length = g.kRxBytes := hsizes item List.mem_cons_self
  have hstart : ((probes.take s).flatMap (Probe.sent item)).length = start := by
    rw [length_sent, hitem, List.length_take, Nat.min_eq_left hk.le]
  have hphase : (N + start) % g.kRxBytes = m := by
    rw [Nat.add_left_comm, Nat.mul_add_mod]
  rw [hbytes, List.append_assoc, ← List.flatten_cons] at hline
  refine ⟨fun t ht => ?_, fun hm j b hb => ?_, fun j b b' hb hb' => ?_⟩
  · rw [← hstart] at ht
    have hpulse := packet_pulses hslow hσ hq hc hclear hsizes hline ht
    rwa [hstart, hphase] at hpulse
  · rw [hm, ← hstart]
    exact packet_aligned hslow hσ hq hc hclear hsizes hline hb
  · rw [← hstart]
    exact packet_rotated hslow hσ hq hc hclear hsizes hline (Nat.mod_lt _ g.kRxBytes_pos) hb hb'

end Aligned

section Finds

variable {h : KnotsHeader} {st : Stages} {probes : List Probe}

theorem buildWorkItem_packs (hs : stageInputs h = some st) (t : U64) : ∃ item,
    buildWorkItem h t = some item ∧ Packed ⟨st.ss3, st.ss4, t, true⟩ item := by
  refine ⟨_, ?_, ss3_length hs, ss4_length hs, rfl⟩
  rw [buildWorkItem, hs]
  rfl

theorem pads_take (hout : ∀ p ∈ probes, p.padOut = true) {k : Nat} (hk : k ≤ probes.length) :
    pads (probes.take k) = k := by
  have hall : pads (probes.take k) = (probes.take k).length :=
    List.countP_eq_length.mpr fun p hp => hout p (List.mem_of_mem_take hp)
  rw [hall, List.length_take, Nat.min_eq_left hk]

theorem phase_unique {R : Nat} (hR : 0 < R) (N : Nat) :
    ∃ k < R, ∀ k' < R, ((N + k') % R = 0 ↔ k' = k) := by
  have hmod := Nat.mod_lt N hR
  refine ⟨(R - N % R) % R, Nat.mod_lt _ hR, fun k' hk' => ?_⟩
  rw [← Nat.mod_add_mod]
  obtain h0 | hpos := Nat.eq_zero_or_pos (N % R)
  · rw [h0, Nat.sub_zero, Nat.mod_self, Nat.zero_add, Nat.mod_eq_of_lt hk']
  · rw [Nat.mod_eq_of_lt (a := R - N % R) (by omega)]
    obtain hlt | hge := Nat.lt_or_ge (N % R + k') R
    · rw [Nat.mod_eq_of_lt hlt]
      omega
    · rw [Nat.mod_eq_sub_mod hge, Nat.mod_eq_of_lt (by omega)]
      omega

/-- If every byte gets out, the phases go once through all the places the part's counter can
stand at, and the search does not get past the right one when the part answers there with a
nonce that is not next to its seed. -/
theorem search_finds (hs : stageInputs h = some st) (t : U64) (N : Nat)
    (hlen : probes.length = workItemLen)
    (hout : ∀ p ∈ probes, workItemLen ≤ p.accepts ∧ p.padOut = true) :
    ∃ item, buildWorkItem h t = some item ∧ Packed ⟨st.ss3, st.ss4, t, true⟩ item ∧
      ∃ k p, probes[k]? = some p ∧
        (∀ k' < workItemLen, ((N + pads (probes.take k')) % workItemLen = 0 ↔ k' = k)) ∧
        ∀ n, ¬ 0 - n < nonceGuard → p.sync.rc = 0 →
          UartTop.frame (answer ⟨st.ss3, st.ss4, t, true⟩ n) <:+: p.sync.out →
          ∃ s v bytes, s ≤ k ∧ selftestLoopback h item 0 probes = (.pass s v, bytes) := by
  obtain ⟨item, hitem, hpacked⟩ := buildWorkItem_packs hs t
  obtain ⟨k, hk, honly⟩ := phase_unique (R := workItemLen) (by decide) N
  have hk' : k < probes.length := hlen ▸ hk
  refine ⟨item, hitem, hpacked, k, probes[k], List.getElem?_eq_getElem hk', ?_, ?_⟩
  · intro k' hlt
    rw [pads_take (fun p hp => (hout p hp).2) (by omega)]
    exact honly k' hlt
  · intro n hguard hrc hframe
    have hlong : resultLen ≤ probes[k].sync.out.length := by
      rw [← frame_length (answer ⟨st.ss3, st.ss4, t, true⟩ n)]
      exact hframe.length_le
    have hverify : (probes[k].verify h).isSome = true := by
      rw [Probe.verify, if_pos ⟨hrc, hlong⟩]
      exact loopbackVerify_isSome hs hguard hframe
    have haccepts : ∀ p ∈ probes, item.length ≤ p.accepts := by
      rw [hpacked.length]
      exact fun p hp => (hout p hp).1
    obtain ⟨s, v, bytes, hle, hpass⟩ := selftestLoopback_reaches 0 hk' haccepts hverify
    exact ⟨s, v, bytes, by omega, hpass⟩

end Finds

def loopbackHeader : KnotsHeader :=
  { knotsHeaderInit with nBits := 0x1903c2d4, mHeight := 969859 }

def loopbackTarget : U64 := 0x00FFFFFFFFFFFFFF

def answering (st : Stages) : Probe :=
  ⟨workItemLen, ⟨0, UartTop.frame (1, siaExpectedTop64 st.ss4 1), some .syncGap, ⟨[], []⟩⟩, true⟩

theorem search_finds_answering : ∃ st item s v bytes,
    stageInputs loopbackHeader = some st ∧ buildWorkItem loopbackHeader loopbackTarget = some item ∧
      selftestLoopback loopbackHeader item 0 (List.replicate workItemLen (answering st)) =
        (.pass s v, bytes) := by
  obtain ⟨st, hs⟩ := stageInputs_isSome (h := loopbackHeader) (by decide)
  obtain ⟨item, hitem, -, k, p, hp, -, hfinds⟩ := search_finds (N := 5) hs loopbackTarget
    (List.length_replicate (a := answering st)) fun p hp => by
      rw [List.eq_of_mem_replicate hp]
      exact ⟨Nat.le_refl _, rfl⟩
  obtain rfl := List.eq_of_mem_replicate (List.mem_of_getElem? hp)
  obtain ⟨s, v, bytes, -, hpass⟩ := hfinds 1 (by decide) rfl ⟨[], [], by simp [answering, answer]⟩
  exact ⟨st, item, s, v, bytes, hs, hitem, hpass⟩

theorem answering_verifies {st : Stages} (hs : stageInputs loopbackHeader = some st) :
    ((answering st).verify loopbackHeader).isSome = true := by
  have hmem : UartTop.frame (1, siaExpectedTop64 st.ss4 1) <:+: (answering st).sync.out :=
    List.infix_refl _
  have hlong : resultLen ≤ (answering st).sync.out.length := by
    rw [← frame_length (1, siaExpectedTop64 st.ss4 1)]
    exact hmem.length_le
  rw [Probe.verify, if_pos ⟨rfl, hlong⟩]
  exact loopbackVerify_isSome hs (by decide) hmem

theorem search_aligns_answering : ∃ st item v,
    stageInputs loopbackHeader = some st ∧ buildWorkItem loopbackHeader loopbackTarget = some item ∧
      selftestLoopback loopbackHeader item 0 [answering st] = (.pass 0 v, item) ∧
      let frames := (item ++ item).map fun b => (0, b)
      (run (GetWork.step (knotsUart demoBit)) (line demoBit frames)
          (GetWork.reset (knotsUart demoBit)) (packetClk (knotsUart demoBit) frames 0 0 1)).WorkData =
        leWord kRxBits item := by
  obtain ⟨st, hs⟩ := stageInputs_isSome (h := loopbackHeader) (by decide)
  obtain ⟨item, hitem, hpacked⟩ := buildWorkItem_packs hs loopbackTarget
  have hlen : item.length = workItemLen := hpacked.length
  have haccepts : ∀ p ∈ [answering st], item.length ≤ p.accepts := by
    intro p hp
    rw [List.mem_singleton.mp hp, hlen]
    exact Nat.le_refl _
  obtain ⟨s, v, bytes, hle, hpass⟩ :=
    selftestLoopback_reaches 0 (Nat.zero_lt_one : 0 < [answering st].length) haccepts
      (answering_verifies hs)
  obtain rfl := Nat.le_zero.mp hle
  obtain ⟨k, hk, h0, hbytes⟩ := selftestLoopback_pass hpass
  obtain rfl : k = 0 := by omega
  obtain rfl : bytes = item := hbytes
  refine ⟨st, bytes, v, hs, hitem, hpass, ?_⟩
  intro frames
  have hsizes : ∀ b ∈ [bytes, bytes], b.length = (knotsUart demoBit).kRxBytes := by
    intro b hb
    obtain rfl : b = bytes := by simpa using hb
    exact hlen
  have hline : frames.map Prod.snd = bytes ++ [bytes].flatten := by simp [frames]
  have hslow : 32 ≤ (knotsUart demoBit).kBitTimeInClks := Nat.le_of_eq demoBit_eq.symm
  have hσ := trace_run (GetWork.step (knotsUart demoBit)) (line demoBit frames)
    (GetWork.reset (knotsUart demoBit))
  obtain ⟨-, haligned, -⟩ := search_aligns (N := 0) hpass hsizes hline hslow hσ
    (reset_quiet (knotsUart demoBit)) (Nat.zero_le _)
    ((clearGaps_tight (bytes ++ bytes)).clearFrom hslow)
  exact haligned rfl 1 bytes rfl

end OspreyBlake2b.Miner
