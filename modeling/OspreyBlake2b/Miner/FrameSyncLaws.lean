import OspreyBlake2b.Lib.Blocks
import OspreyBlake2b.Miner.FrameSync
import Mathlib.Data.List.GetD

/-! What `frame_sync` hands back, and what the assembler makes of it.  The state of
the collection loop is a function of the polls made so far: the bytes they
delivered, and 200 us for every empty poll since the last byte. -/

namespace OspreyBlake2b.Miner

open OspreyBlake2b.Lib

def received (p : List (Option Byte)) : List Byte := p.filterMap id

def trailing (p : List (Option Byte)) : Nat := (p.reverse.takeWhile Option.isNone).length

@[simp] theorem received_nil : received [] = [] := rfl

@[simp] theorem received_append (p q : List (Option Byte)) :
    received (p ++ q) = received p ++ received q := by
  simp [received]

@[simp] theorem received_cons_some (b : Byte) (p : List (Option Byte)) :
    received (some b :: p) = b :: received p := by
  simp [received]

@[simp] theorem received_cons_none (p : List (Option Byte)) :
    received (none :: p) = received p := by
  simp [received]

@[simp] theorem received_map_some (bs : List Byte) : received (bs.map some) = bs := by
  simp [received]

theorem trailing_append_some (p : List (Option Byte)) (b : Byte) :
    trailing (p ++ [some b]) = 0 := by
  simp [trailing]

theorem trailing_append_none (p : List (Option Byte)) :
    trailing (p ++ [none]) = trailing p + 1 := by
  simp [trailing]

def NoGap (p : List (Option Byte)) : Prop := ∀ q, q <+: p → trailing q < 15

def FirstGap (p : List (Option Byte)) : Prop :=
  ∃ p', p = p' ++ [none] ∧ NoGap p' ∧ trailing p = 15

def InTime (deadline : Nat) (c : List Nat) (p : List (Option Byte)) : Prop :=
  c.length = p.length ∧ ∀ t ∈ c, t ≤ deadline

theorem NoGap.nil : NoGap [] := by
  intro q hq
  rw [List.prefix_nil.mp hq]
  exact Nat.zero_lt_succ 14

theorem NoGap.append {p : List (Option Byte)} (h : NoGap p) (x : Option Byte)
    (hx : trailing (p ++ [x]) < 15) : NoGap (p ++ [x]) := by
  intro q hq
  obtain rfl | hq := List.prefix_concat_iff.mp hq
  · exact hx
  · exact h q hq

theorem NoGap.init {p : List (Option Byte)} {x : Option Byte} (h : NoGap (p ++ [x])) : NoGap p :=
  fun q hq => h q (hq.trans (List.prefix_append p [x]))

theorem InTime.append {deadline t : Nat} {c : List Nat} {p : List (Option Byte)}
    (h : InTime deadline c p) (x : Option Byte) (ht : t ≤ deadline) :
    InTime deadline (c ++ [t]) (p ++ [x]) := by
  refine ⟨by simp [h.1], fun u hu => ?_⟩
  obtain hu | hu := List.mem_append.mp hu
  · exact h.2 u hu
  · rw [List.mem_singleton.mp hu]
    exact ht

theorem InTime.exists_snoc {deadline : Nat} {c : List Nat} {p : List (Option Byte)}
    {x : Option Byte} (h : InTime deadline c (p ++ [x])) : ∃ c' t, c = c' ++ [t] := by
  have hne : c ≠ [] := by
    intro e
    have := h.1
    simp [e] at this
  exact ⟨_, _, (List.dropLast_concat_getLast hne).symm⟩

theorem InTime.init {deadline t : Nat} {c : List Nat} {p : List (Option Byte)} {x : Option Byte}
    (h : InTime deadline (c ++ [t]) (p ++ [x])) : InTime deadline c p :=
  ⟨by simpa using h.1, fun u hu => h.2 u (List.mem_append_left _ hu)⟩

section Collect

variable {deadline : Nat}

theorem collect_some {t idleUs : Nat} {buf : List Byte} (ht : t ≤ deadline) (quietOk : Bool)
    (b : Byte) (clock : List Nat) (polls : List (Option Byte)) (h : buf.length + 1 < nsync) :
    collect deadline quietOk buf idleUs (t :: clock) (some b :: polls) =
      collect deadline quietOk (buf ++ [b]) 0 clock polls := by
  have hlt : buf.length < nsync := by omega
  rw [collect, if_pos ht]
  simp only [if_pos hlt, List.length_append, List.length_singleton]
  rw [if_neg (by omega)]

theorem collect_none {t n : Nat} {buf : List Byte} (ht : t ≤ deadline) (quietOk : Bool)
    (clock : List Nat) (polls : List (Option Byte)) (hn : n + 1 < 15) (h : buf.length < nsync) :
    collect deadline quietOk buf (200 * n) (t :: clock) (none :: polls) =
      collect deadline quietOk buf (200 * (n + 1)) clock polls := by
  have hmod : (200 * n + 200) % 2 ^ 32 = 200 * (n + 1) := by
    rw [Nat.mod_eq_of_lt (by omega), Nat.mul_succ]
  rw [collect, if_pos ht]
  simp only [hmod]
  rw [if_neg (by omega), if_neg (by omega), if_neg (by omega)]

theorem collect_late {t idleUs : Nat} {buf : List Byte} (ht : deadline < t) (quietOk : Bool)
    (clock : List Nat) (polls : List (Option Byte)) :
    collect deadline quietOk buf idleUs (t :: clock) polls = some (.dense buf, ⟨clock, polls⟩) := by
  rw [collect.eq_def]
  exact if_neg (by omega)

theorem collect_fifteenth {t : Nat} (buf : List Byte) (ht : t ≤ deadline) (clock : List Nat)
    (polls : List (Option Byte)) :
    collect deadline true buf (200 * 14) (t :: clock) (none :: polls) =
      some (if 0 < buf.length then .gap buf else .quiet, ⟨clock, polls⟩) := by
  rw [collect, if_pos ht]
  by_cases hpos : 0 < buf.length
  · simp [hpos]
  · have hzero : buf.length = 0 := by omega
    simp [hzero]

theorem collect_open (quietOk : Bool) (c : List Nat) (p : List (Option Byte)) (clock : List Nat)
    (polls : List (Option Byte)) (hc : InTime deadline c p) (hp : NoGap p)
    (hlen : (received p).length < nsync) :
    collect deadline quietOk [] 0 (c ++ clock) (p ++ polls) =
      collect deadline quietOk (received p) (200 * trailing p) clock polls := by
  induction p using List.reverseRecOn generalizing c clock polls with
  | nil =>
    rw [List.length_eq_zero_iff.mp hc.1]
    rfl
  | append_singleton p x ih =>
    obtain ⟨c, t, rfl⟩ := hc.exists_snoc
    have ht : t ≤ deadline := hc.2 t (by simp)
    have hlen' : (received p).length < nsync := by
      refine lt_of_le_of_lt ?_ hlen
      simp
    rw [List.append_assoc, List.append_assoc, ih c _ _ hc.init hp.init hlen']
    cases x with
    | some b =>
      rw [List.singleton_append, List.singleton_append, collect_some ht quietOk b _ _ (by simpa using hlen),
        trailing_append_some]
      simp
    | none =>
      have hx := hp _ (List.prefix_refl _)
      rw [trailing_append_none] at hx
      rw [List.singleton_append, List.singleton_append, collect_none ht quietOk _ _ hx hlen',
        trailing_append_none]
      simp

inductive CollectRun (deadline : Nat) :
    List Nat → List (Option Byte) → List (Option Byte) → CollectEnd → Tapes → Prop where
  | gap (c clock p polls) (hc : InTime deadline c p) (hp : FirstGap p)
      (hpos : 0 < (received p).length) (hlen : (received p).length < nsync) :
      CollectRun deadline (c ++ clock) (p ++ polls) p (.gap (received p)) ⟨clock, polls⟩
  | quiet (c clock p polls) (hc : InTime deadline c p) (hp : FirstGap p)
      (hzero : received p = []) :
      CollectRun deadline (c ++ clock) (p ++ polls) p .quiet ⟨clock, polls⟩
  | full (c clock p polls) (hc : InTime deadline c p) (hp : NoGap p)
      (hlen : (received p).length = nsync) :
      CollectRun deadline (c ++ clock) (p ++ polls) p (.dense (received p)) ⟨clock, polls⟩
  | late (c t clock p polls) (hc : InTime deadline c p) (hp : NoGap p)
      (hlen : (received p).length < nsync) (ht : deadline < t) :
      CollectRun deadline (c ++ t :: clock) (p ++ polls) p (.dense (received p)) ⟨clock, polls⟩

theorem collect_run {e : CollectEnd} {d : Tapes} (clock : List Nat) {c : List Nat}
    {p polls : List (Option Byte)} (hc : InTime deadline c p) (hp : NoGap p)
    (hlen : (received p).length < nsync)
    (h : collect deadline true (received p) (200 * trailing p) clock polls = some (e, d)) :
    ∃ p', CollectRun deadline (c ++ clock) (p ++ polls) p' e d := by
  induction clock generalizing c p polls with
  | nil => simp [collect] at h
  | cons t clock ih =>
    by_cases ht : t ≤ deadline
    · cases polls with
      | nil => simp [collect, ht] at h
      | cons x polls =>
        have ec : c ++ t :: clock = (c ++ [t]) ++ clock := by simp
        have ep : p ++ x :: polls = (p ++ [x]) ++ polls := by simp
        cases x with
        | some b =>
          have hnew : NoGap (p ++ [some b]) := hp.append _ (by simp [trailing_append_some])
          obtain hlt | hge := Nat.lt_or_ge ((received p).length + 1) nsync
          · rw [collect_some ht true b _ _ hlt] at h
            rw [ec, ep]
            apply ih (hc.append _ ht) hnew (by simpa using hlt)
            rw [trailing_append_some]
            simpa using h
          · rw [collect, if_pos ht] at h
            simp only [if_pos hlen, List.length_append, List.length_singleton, if_pos hge,
              Option.some.injEq, Prod.mk.injEq] at h
            obtain ⟨rfl, rfl⟩ := h
            refine ⟨p ++ [some b], ?_⟩
            rw [ec, ep, show received p ++ [b] = received (p ++ [some b]) by simp]
            exact .full _ _ _ _ (hc.append _ ht) hnew (by simp; omega)
        | none =>
          obtain hlt | hge := Nat.lt_or_ge (trailing p + 1) 15
          · have hnew : NoGap (p ++ [none]) := hp.append _ (by rwa [trailing_append_none])
            rw [collect_none ht true _ _ hlt hlen] at h
            rw [ec, ep]
            apply ih (hc.append _ ht) hnew (by simpa using hlen)
            rw [trailing_append_none]
            simpa using h
          · have h14 : trailing p = 14 := by
              have := hp p (List.prefix_refl p)
              omega
            have hgap : FirstGap (p ++ [none]) := ⟨p, rfl, hp, by rw [trailing_append_none, h14]⟩
            rw [h14, collect_fifteenth _ ht, Option.some.injEq, Prod.mk.injEq] at h
            obtain ⟨rfl, rfl⟩ := h
            have er : received p = received (p ++ [none]) := by simp
            refine ⟨p ++ [none], ?_⟩
            rw [ec, ep]
            by_cases hpos : 0 < (received p).length
            · rw [if_pos hpos, er]
              exact .gap _ _ _ _ (hc.append _ ht) hgap (by rwa [← er]) (by rwa [← er])
            · rw [if_neg hpos]
              apply CollectRun.quiet _ _ _ _ (hc.append _ ht) hgap
              rw [← er]
              exact List.length_eq_zero_iff.mp (by omega)
    · have ht : deadline < t := by omega
      rw [collect_late ht, Option.some.injEq, Prod.mk.injEq] at h
      obtain ⟨rfl, rfl⟩ := h
      exact ⟨p, .late c t clock p polls hc hp hlen ht⟩

theorem collect_gap (c : List Nat) (p : List (Option Byte)) (clock : List Nat)
    (polls : List (Option Byte)) (hc : InTime deadline c p) (hp : FirstGap p)
    (hpos : 0 < (received p).length) (hlen : (received p).length < nsync) :
    collect deadline true [] 0 (c ++ clock) (p ++ polls) =
      some (.gap (received p), ⟨clock, polls⟩) := by
  obtain ⟨p, rfl, hp', h15⟩ := hp
  rw [trailing_append_none] at h15
  obtain ⟨c, t, rfl⟩ := hc.exists_snoc
  rw [List.append_assoc, List.append_assoc,
    collect_open true c p _ _ hc.init hp' (by simpa using hlen),
    show trailing p = 14 by omega]
  have h := collect_fifteenth (received p) (hc.2 t (by simp)) clock polls
  rw [if_pos (by simpa using hpos)] at h
  simpa using h

end Collect

theorem skipBytes_received {skipDeadline skip : Nat} {clock : List Nat}
    {polls : List (Option Byte)} {d : Tapes}
    (h : skipBytes skipDeadline skip clock polls = some (true, d)) :
    ∃ q, polls = q ++ d.polls ∧ (received q).length = skip := by
  induction polls generalizing skip clock with
  | nil =>
    rw [skipBytes] at h
    split at h
    · rename_i hs
      simp only [Option.some.injEq, Prod.mk.injEq, true_and] at h
      exact ⟨[], by simp [← h, hs]⟩
    · simp at h
  | cons x polls ih =>
    rw [skipBytes.eq_def] at h
    split at h
    · rename_i hs
      simp only [Option.some.injEq, Prod.mk.injEq, true_and] at h
      exact ⟨[], by simp [← h, hs]⟩
    · cases x with
      | some b =>
        obtain ⟨q, hq, hl⟩ := ih h
        exact ⟨some b :: q, by simp [hq], by simp [hl]; omega⟩
      | none =>
        cases clock with
        | nil => simp at h
        | cons t clock =>
          simp only at h
          split at h
          · simp at h
          · obtain ⟨q, hq, hl⟩ := ih h
            exact ⟨none :: q, by simp [hq], by simpa using hl⟩

theorem readBack_received {want rdDeadline : Nat} {out out' : List Byte} {clock : List Nat}
    {polls : List (Option Byte)} {d : Tapes} (hout : out.length ≤ want)
    (h : readBack want rdDeadline out clock polls = some (out', d)) :
    (∃ q, polls = q ++ d.polls ∧ out' = out ++ received q) ∧ out'.length ≤ want := by
  induction clock generalizing out polls with
  | nil =>
    rw [readBack.eq_def] at h
    split at h
    · simp at h
    · simp only [Option.some.injEq, Prod.mk.injEq] at h
      obtain ⟨rfl, rfl⟩ := h
      exact ⟨⟨[], by simp⟩, hout⟩
  | cons t clock ih =>
    rw [readBack.eq_def] at h
    split at h
    case isFalse =>
      simp only [Option.some.injEq, Prod.mk.injEq] at h
      obtain ⟨rfl, rfl⟩ := h
      exact ⟨⟨[], by simp⟩, hout⟩
    case isTrue hlt =>
      simp only at h
      split at h
      case isFalse =>
        simp only [Option.some.injEq, Prod.mk.injEq] at h
        obtain ⟨rfl, rfl⟩ := h
        exact ⟨⟨[], by simp⟩, hout⟩
      case isTrue =>
        match polls, h with
        | some b :: polls, h =>
          obtain ⟨⟨q, hq, hr⟩, hle⟩ := ih (by simpa using hlt) h
          exact ⟨⟨some b :: q, by simp [hq], by simp [hr]⟩, hle⟩
        | none :: polls, h =>
          obtain ⟨⟨q, hq, hr⟩, hle⟩ := ih hout h
          exact ⟨⟨none :: q, by simp [hq], by simp [hr]⟩, hle⟩

/-- The dense path hands back at most eight frames, and on success they are the
last bytes it consumed, after the skip. -/
theorem dense_spec {buf : List Byte} {d : Tapes} {r : SyncResult}
    (h : dense true buf d = some r) :
    r.out.length ≤ syncbufLen ∧
      (r.rc = 0 → ∃ p₂ p₃, d.polls = p₂ ++ p₃ ++ r.rest.polls ∧ r.out = received p₃ ∧
        (received p₂).length =
          (bestResidue buf + resultLen - buf.length % resultLen) % resultLen) := by
  obtain ⟨clock, polls⟩ := d
  simp only [dense] at h
  split at h
  · obtain rfl := Option.some.inj h
    simp
  split at h
  · obtain rfl := Option.some.inj h
    simp
  cases clock with
  | nil => simp at h
  | cons t clock =>
    simp only at h
    split at h
    · simp at h
    · obtain rfl := Option.some.inj h
      simp
    · rename_i d hskip
      obtain ⟨p₂, hp₂, hl⟩ := skipBytes_received hskip
      obtain ⟨clock', polls'⟩ := d
      cases clock' with
      | nil => simp at h
      | cons t' clock' =>
        simp only [if_true, Option.map_eq_some_iff] at h
        obtain ⟨⟨out, d⟩, hread, rfl⟩ := h
        obtain ⟨⟨p₃, hp₃, hout⟩, hle⟩ := readBack_received (Nat.zero_le _) hread
        refine ⟨hle, fun _ => ⟨p₂, p₃, ?_, by simpa using hout, hl⟩⟩
        rw [hp₂, hp₃, List.append_assoc]

/-- An idle gap that ends the collection after more bytes than `syncbuf` holds. -/
def LateGap (clock : List Nat) (polls : List (Option Byte)) : Prop :=
  ∃ t c p, t :: c <+: clock ∧ p <+: polls ∧ InTime (t + 1) c p ∧ FirstGap p ∧
    syncbufLen < (received p).length ∧ (received p).length < nsync

theorem mainFrameSync_gap {t : Nat} {c clock : List Nat} {p polls : List (Option Byte)}
    (hc : InTime (t + 1) c p) (hp : FirstGap p) (hpos : 0 < (received p).length)
    (hlen : (received p).length < nsync) :
    mainFrameSync ⟨t :: c ++ clock, p ++ polls⟩ =
      some ⟨0, received p, some .syncGap, ⟨clock, polls⟩⟩ := by
  simp only [mainFrameSync, frameSync, List.cons_append, collect_gap c p clock polls hc hp hpos hlen,
    if_true]

theorem mainFrameSync_cases {clock : List Nat} {polls : List (Option Byte)} {r : SyncResult}
    (h : mainFrameSync ⟨clock, polls⟩ = some r) :
    ∃ t clock' p e d, clock = t :: clock' ∧ CollectRun (t + 1) clock' polls p e d ∧
      match e with
      | .gap buf => r = ⟨0, buf, some .syncGap, d⟩
      | .quiet => r = ⟨0, [], some .syncQuiet, d⟩
      | .dense buf => dense true buf d = some r := by
  cases clock with
  | nil => simp [mainFrameSync, frameSync] at h
  | cons t clock =>
    simp only [mainFrameSync, frameSync] at h
    match hcol : collect (t + 1) true [] 0 clock polls, h with
    | some (e, d), h =>
      obtain ⟨p, hrun⟩ := collect_run (p := []) (c := []) clock ⟨rfl, by simp⟩ NoGap.nil
        (by simp [nsync]) hcol
      refine ⟨t, clock, p, e, d, rfl, by simpa using hrun, ?_⟩
      cases e with
      | gap buf => exact (Option.some.inj h).symm
      | quiet => exact (Option.some.inj h).symm
      | dense buf => exact h

theorem not_lateGap_of_fits {clock : List Nat} {polls : List (Option Byte)} {r : SyncResult}
    (h : mainFrameSync ⟨clock, polls⟩ = some r) (hle : r.out.length ≤ syncbufLen) :
    ¬ LateGap clock polls := by
  rintro ⟨t, c, p, ⟨clock', rfl⟩, ⟨polls', rfl⟩, hc, hp, hbig, hlen⟩
  rw [mainFrameSync_gap hc hp (by omega) hlen] at h
  obtain rfl := Option.some.inj h
  exact absurd hle (by simpa using hbig)

theorem fits_of_not_lateGap {clock : List Nat} {polls : List (Option Byte)} {r : SyncResult}
    (h : mainFrameSync ⟨clock, polls⟩ = some r) (hlate : ¬ LateGap clock polls) :
    r.out.length ≤ syncbufLen := by
  obtain ⟨t, clock', p, e, d, rfl, hrun, hr⟩ := mainFrameSync_cases h
  cases hrun with
  | gap c clock p polls hc hp hpos hlen =>
    rw [hr]
    by_contra hbig
    exact hlate ⟨t, c, p, ⟨clock, rfl⟩, ⟨polls, rfl⟩, hc, hp, by simpa using hbig, hlen⟩
  | quiet c clock p polls hc hp hzero =>
    rw [hr]
    simp
  | full c clock p polls hc hp hlen => exact (dense_spec hr).1
  | late c u clock p polls hc hp hlen hu => exact (dense_spec hr).1

theorem frame_sync_fits_iff (clock : List Nat) (polls : List (Option Byte)) (r : SyncResult)
    (h : mainFrameSync ⟨clock, polls⟩ = some r) :
    r.out.length ≤ syncbufLen ↔ ¬ LateGap clock polls :=
  ⟨not_lateGap_of_fits h, fits_of_not_lateGap h⟩

def countFrame (n : Nat) : List Byte :=
  0x01#8 :: (List.range 16).map fun i => BitVec.ofNat 8 (16 * n + i + 2)

def spacedPolls : List (Option Byte) :=
  ((List.range 3).flatMap fun n => (countFrame n).map some ++ [none]) ++ List.replicate 14 none

theorem frame_sync_fits_spaced :
    let clock := List.replicate 69 0
    let r : SyncResult := ⟨0, (List.range 3).flatMap countFrame, some .syncGap, ⟨[], []⟩⟩
    mainFrameSync ⟨clock, spacedPolls⟩ = some r ∧ ¬ LateGap clock spacedPolls :=
  have h : mainFrameSync ⟨List.replicate 69 0, spacedPolls⟩ =
      some ⟨0, (List.range 3).flatMap countFrame, some .syncGap, ⟨[], []⟩⟩ := by decide +kernel
  ⟨h, (frame_sync_fits_iff _ _ _ h).mp (by decide +kernel)⟩

/-- Nine frames back to back, then silence: 153 bytes for a buffer of 136. -/
theorem frame_sync_overruns_syncbuf :
    let frame := (0x01#8 :: List.replicate 16 0x00#8).map some
    let polls := (List.replicate 9 frame).flatten ++ List.replicate 15 none
    (mainFrameSync ⟨List.replicate 169 0, polls⟩).map (fun r => (r.rc, r.out.length)) =
      some (0, 153) := by
  decide +kernel

section Assemble

theorem parseResult_eq_none {f : List Byte} : parseResult f = none ↔ f.headD 0 ≠ 0x01#8 := by
  simp [parseResult]

theorem feed_frame (f : List Byte) (s : Assembler) (hs : s.synced = true)
    (hf : s.frame.length + f.length < resultLen) :
    f.foldl Assembler.feed s = { s with frame := s.frame ++ f } := by
  induction f generalizing s with
  | nil => simp
  | cons b f ih =>
    have hb : s.feed b = { s with frame := s.frame ++ [b] } := by
      simp only [List.length_cons] at hf
      have hne : (s.frame ++ [b]).length ≠ resultLen := by
        simp only [List.length_append, List.length_singleton]
        omega
      simp only [Assembler.feed, hs, if_true, if_neg hne]
    rw [List.foldl_cons, hb, ih { s with frame := s.frame ++ [b] } hs (by simp at hf ⊢; omega)]
    simp

theorem feed_group (f : List Byte) (s : Assembler) (hs : s.synced = true) (hz : s.frame = [])
    (hf : f.length = resultLen) :
    f.foldl Assembler.feed s =
      if parseResult f = none then
        if s.badRun + 1 ≥ 3 then
          { s with synced := false, badRun := 0, frame := [], groups := s.groups ++ [f] }
        else { s with badRun := s.badRun + 1, frame := [], groups := s.groups ++ [f] }
      else { s with badRun := 0, frame := [], groups := s.groups ++ [f] } := by
  obtain ⟨f, b, rfl⟩ : ∃ f' b, f = f' ++ [b] := by
    have hne : f ≠ [] := by
      intro e
      simp [e, resultLen] at hf
    exact ⟨_, _, (List.dropLast_concat_getLast hne).symm⟩
  have hlt : s.frame.length + f.length < resultLen := by
    simp only [List.length_append, List.length_singleton] at hf
    simp only [hz, List.length_nil]
    omega
  rw [List.foldl_append, feed_frame f s hs hlt]
  simp only [List.foldl_cons, List.foldl_nil, Assembler.feed, hs, if_true, hz, List.nil_append, hf]

theorem feed_groups_grow (bs : List Byte) (s : Assembler) :
    s.groups <+: (bs.foldl Assembler.feed s).groups := by
  induction bs generalizing s with
  | nil => exact List.prefix_refl _
  | cons b bs ih =>
    refine List.IsPrefix.trans ?_ (ih (s.feed b))
    simp only [Assembler.feed]
    split_ifs <;> simp

theorem feed_good_group (f : List Byte) (s : Assembler) (hs : s.synced = true) (hz : s.frame = [])
    (hf : f.length = resultLen) (hhead : f.headD 0 = 0x01#8) :
    f.foldl Assembler.feed s = { s with badRun := 0, frame := [], groups := s.groups ++ [f] } := by
  rw [feed_group f s hs hz hf, if_neg]
  rw [parseResult_eq_none]
  exact fun h => h hhead

theorem feed_aligned (frames : List (List Byte)) (bs : List Byte) (s : Assembler)
    (hs : s.synced = true) (hz : s.frame = [])
    (hframes : ∀ f ∈ frames, f.length = resultLen ∧ f.headD 0 = 0x01#8)
    (hbs : bs <+: frames.flatten) :
    ∀ grp ∈ (bs.foldl Assembler.feed s).groups, grp ∈ s.groups ∨ grp ∈ frames := by
  induction frames generalizing bs s with
  | nil =>
    rw [List.flatten_nil, List.prefix_nil] at hbs
    rw [hbs]
    intro grp hg
    exact .inl hg
  | cons f frames ih =>
    obtain ⟨hf, hhead⟩ := hframes f List.mem_cons_self
    rw [List.flatten_cons] at hbs
    obtain hlt | hge := Nat.lt_or_ge bs.length resultLen
    · rw [feed_frame bs s hs (by simpa [hz] using hlt)]
      intro grp hg
      exact .inl hg
    · obtain ⟨bs', rfl⟩ : f <+: bs :=
        List.prefix_of_prefix_length_le (List.prefix_append f _) hbs (by omega)
      rw [List.foldl_append, feed_good_group f s hs hz hf hhead]
      intro grp hg
      have := ih bs' { s with badRun := 0, frame := [], groups := s.groups ++ [f] } hs rfl (fun f' hf' => hframes f' (List.mem_cons_of_mem f hf'))
        ((List.prefix_append_right_inj f).mp hbs) grp hg
      simp only [List.mem_append, List.mem_singleton] at this
      simp only [List.mem_cons]
      tauto

theorem feed_first_group (f bs : List Byte) (s : Assembler) (hs : s.synced = true)
    (hz : s.frame = []) (hf : f.length = resultLen) :
    f ∈ ((f ++ bs).foldl Assembler.feed s).groups := by
  rw [List.foldl_append]
  refine (feed_groups_grow bs _).subset ?_
  rw [feed_group f s hs hz hf]
  split_ifs <;> simp

theorem feed_flags (k : Nat) (bs : List Byte) (s : Assembler) (hs : s.synced = true)
    (hz : s.frame = []) (hk : resultLen * (k + 1) ≤ bs.length)
    (hgood : ∀ grp ∈ (bs.foldl Assembler.feed s).groups, grp.headD 0 = 0x01#8) :
    bs.getD (resultLen * k) 0 = 0x01#8 := by
  induction k generalizing bs s with
  | zero =>
    have hlen : (bs.take resultLen).length = resultLen := by simpa using hk
    have hmem := feed_first_group (bs.take resultLen) (bs.drop resultLen) s hs hz hlen
    rw [List.take_append_drop] at hmem
    have h := hgood _ hmem
    cases bs with
    | nil => exact h
    | cons b bs => exact h
  | succ k ih =>
    have hlen : (bs.take resultLen).length = resultLen := by
      rw [List.length_take]
      simp only [resultLen] at hk ⊢
      omega
    have hmem := feed_first_group (bs.take resultLen) (bs.drop resultLen) s hs hz hlen
    have hsplit := List.take_append_drop resultLen bs
    rw [hsplit] at hmem
    have hhead := hgood _ hmem
    rw [← hsplit, List.foldl_append, feed_good_group _ s hs hz hlen hhead] at hgood
    have hk' : resultLen * (k + 1) ≤ (bs.drop resultLen).length := by
      simp only [List.length_drop, resultLen] at hk ⊢
      omega
    have h := ih (bs.drop resultLen)
      { s with badRun := 0, frame := [], groups := s.groups ++ [bs.take resultLen] } hs rfl hk' hgood
    rw [List.getD_eq_getElem?_getD, List.getElem?_drop, ← List.getD_eq_getElem?_getD] at h
    rw [← h, Nat.mul_succ, Nat.add_comm]

end Assemble

/-- The polls deliver a reply stream: frames with flag 0x01, cut `off` bytes in,
with 15 empty polls in a row only at a frame boundary. -/
structure IsReply (off : Nat) (frames : List (List Byte)) (polls : List (Option Byte)) : Prop where
  frame : ∀ f ∈ frames, f.length = resultLen ∧ f.headD 0 = 0x01#8
  bytes : received polls <+: frames.flatten.drop off
  gaps : ∀ q, q <+: polls → 15 ≤ trailing q → (off + (received q).length) % resultLen = 0

def AssemblesFrames (off : Nat) (polls : List (Option Byte)) (r : SyncResult) : Prop :=
  ∀ badRun frames future, IsReply off frames (polls ++ future) →
    ∃ groups, assembled badRun r.out future = some groups ∧ ∀ grp ∈ groups, grp ∈ frames

section Boundary

variable {off : Nat} {frames : List (List Byte)} {polls : List (Option Byte)}

theorem replay_eq {pre out : List Byte} (hsplit : received polls = pre ++ out)
    (future : List (Option Byte)) :
    out.drop (out.length - out.length / resultLen * resultLen) ++ received future =
      (received (polls ++ future)).drop
        ((received polls).length - out.length / resultLen * resultLen) := by
  have hle : out.length / resultLen * resultLen ≤ out.length := Nat.div_mul_le_self _ _
  rw [received_append, hsplit, List.length_append, Nat.add_sub_assoc hle, List.append_assoc,
    List.drop_length_add_append, List.drop_append_of_le_length (Nat.sub_le _ _)]

theorem replayStart_mod {total n : Nat} (h : n ≤ total) :
    (off + (total - n / resultLen * resultLen)) % resultLen = (off + total) % resultLen := by
  have hle : n / resultLen * resultLen ≤ total := le_trans (Nat.div_mul_le_self _ _) h
  rw [← Nat.add_sub_assoc hle, Nat.mul_comm]
  exact Nat.sub_mul_mod (by rw [Nat.mul_comm]; omega)

theorem assembles_of_boundary {r : SyncResult} {pre : List Byte}
    (hsplit : received polls = pre ++ r.out) (hfit : r.out.length ≤ syncbufLen)
    (hbound : (off + (received polls).length) % resultLen = 0) : AssemblesFrames off polls r := by
  intro badRun frames future hreply
  have hle : r.out.length ≤ (received polls).length := by
    rw [hsplit, List.length_append]
    omega
  rw [← replayStart_mod hle] at hbound
  obtain ⟨j, hj⟩ := Nat.dvd_of_mod_eq_zero hbound
  have hbs := hreply.bytes.drop
    ((received polls).length - r.out.length / resultLen * resultLen)
  rw [← replay_eq hsplit, List.drop_drop, hj,
    Blocks.drop_flatten (fun f hf => (hreply.frame f hf).1) j] at hbs
  refine ⟨_, if_pos hfit, fun grp hg => ?_⟩
  have := feed_aligned (frames.drop j) _ ⟨true, badRun, [], []⟩ rfl rfl
    (fun f hf => hreply.frame f (List.mem_of_mem_drop hf)) hbs grp hg
  obtain h | h := this
  · exact absurd h List.not_mem_nil
  · exact List.mem_of_mem_drop h

def zeroFrame : List Byte := 0x01#8 :: List.replicate 16 0

theorem zeroFrames_getD (m i : Nat) (hi : i < resultLen * m) (hmod : i % resultLen ≠ 0) :
    (List.replicate m zeroFrame).flatten.getD i 0 = 0 := by
  induction m generalizing i with
  | zero => omega
  | succ m ih =>
    have hz : zeroFrame.length = resultLen := rfl
    rw [List.replicate_succ, List.flatten_cons]
    obtain h | h := Nat.lt_or_ge i resultLen
    · rw [List.getD_append _ _ _ _ (by omega)]
      rw [Nat.mod_eq_of_lt h] at hmod
      obtain ⟨i, rfl⟩ := Nat.exists_eq_succ_of_ne_zero hmod
      have hlt : i < (List.replicate 16 (0 : Byte)).length := by
        simp only [List.length_replicate]
        simp only [resultLen] at h
        omega
      rw [zeroFrame, List.getD_cons_succ, List.getD_eq_getElem _ _ hlt, List.getElem_replicate]
    · rw [List.getD_append_right _ _ _ _ (by omega), hz]
      apply ih
      · rw [Nat.mul_succ] at hi
        omega
      · rwa [← Nat.mod_eq_sub_mod h]

theorem IsReply.pad (h : IsReply off frames polls) (m : Nat) :
    IsReply off (frames ++ List.replicate m zeroFrame) polls where
  frame f hf := by
    obtain hf | hf := List.mem_append.mp hf
    · exact h.frame f hf
    · rw [List.eq_of_mem_replicate hf]
      exact ⟨rfl, rfl⟩
  bytes := by
    rw [List.flatten_append]
    exact h.bytes.trans ((List.prefix_append _ _).drop off)
  gaps := h.gaps

def unread (off : Nat) (frames : List (List Byte)) (polls : List (Option Byte)) :
    List (Option Byte) :=
  ((frames.flatten.drop off).drop (received polls).length).map some

theorem IsReply.received_unread (h : IsReply off frames polls) :
    received (polls ++ unread off frames polls) = frames.flatten.drop off := by
  rw [received_append, unread, received_map_some]
  nth_rewrite 1 [List.prefix_iff_eq_take.mp h.bytes]
  rw [List.take_append_drop]

theorem IsReply.complete (h : IsReply off frames polls) :
    IsReply off frames (polls ++ unread off frames polls) where
  frame := h.frame
  bytes := by rw [h.received_unread]
  gaps q hq hgap := by
    obtain hq' | ⟨t, rfl⟩ := List.prefix_or_prefix_of_prefix hq (List.prefix_append polls _)
    · exact h.gaps q hq' hgap
    · obtain ⟨bs, -, rfl⟩ := List.prefix_map_iff.mp ((List.prefix_append_right_inj polls).mp hq)
      cases bs using List.reverseRecOn with
      | nil => exact h.gaps _ (by simp) hgap
      | append_singleton bs b =>
        rw [List.map_append, ← List.append_assoc, List.map_singleton, trailing_append_some] at hgap
        omega

/-- A sync that stops inside a frame assembles something else once the payload
bytes that follow are zero. -/
theorem boundary_of_assembles {r : SyncResult} {pre : List Byte}
    (hsplit : received polls = pre ++ r.out) (hreply : IsReply off frames polls)
    (h : AssemblesFrames off polls r) :
    r.out.length ≤ syncbufLen ∧ (off + (received polls).length) % resultLen = 0 := by
  have hlong := hreply.pad (off + (received polls).length + 2)
  have hflat := Blocks.length_flatten fun f hf => (hreply.frame f hf).1
  have hall := Blocks.length_flatten fun f hf => (hlong.frame f hf).1
  obtain ⟨groups, hgroups, hmem⟩ := h 0 _ _ hlong.complete
  rw [assembled] at hgroups
  split at hgroups
  case isFalse => simp at hgroups
  case isTrue hfit =>
    refine ⟨hfit, ?_⟩
    have hle : r.out.length ≤ (received polls).length := by
      rw [hsplit, List.length_append]
      omega
    by_contra hmod
    rw [← replayStart_mod hle] at hmod
    have hstart : (received polls).length - r.out.length / resultLen * resultLen ≤
        (received polls).length := Nat.sub_le _ _
    have hbs := replay_eq hsplit (unread off
      (frames ++ List.replicate (off + (received polls).length + 2) zeroFrame) polls)
    rw [hlong.received_unread, List.drop_drop] at hbs
    generalize (received polls).length - r.out.length / resultLen * resultLen = start at *
    have hlen : resultLen * (frames.length + 1) ≤ ((frames ++ List.replicate
        (off + (received polls).length + 2) zeroFrame).flatten.drop (off + start)).length := by
      rw [List.length_drop, hall, List.length_append, List.length_replicate]
      simp only [resultLen]
      omega
    have hflag := feed_flags frames.length _ ⟨true, 0, [], []⟩ rfl rfl hlen fun grp hg => by
      rw [← hbs] at hg
      obtain rfl := Option.some.inj hgroups
      exact (hlong.frame grp (hmem grp hg)).2
    rw [List.getD_eq_getElem?_getD, List.getElem?_drop, ← List.getD_eq_getElem?_getD,
      List.flatten_append, List.getD_append_right _ _ _ _ (by omega), hflat,
      Nat.add_sub_cancel, zeroFrames_getD _ _ (by simp only [resultLen]; omega) hmod] at hflag
    exact absurd hflag (by decide)

end Boundary

structure FirstMost (buf : List Byte) (b : Nat) : Prop where
  lt : b < resultLen
  most : ∀ i, i < resultLen → bucket buf i ≤ bucket buf b
  first : ∀ i, i < b → bucket buf i < bucket buf b

theorem bestResidue_loop (buf : List Byte) (k best : Nat) (n : Nat) (hk : best < k)
    (hmost : ∀ i, i < k → bucket buf i ≤ bucket buf best)
    (hfirst : ∀ i, i < best → bucket buf i < bucket buf best) :
    let b := (List.range' k n).foldl
      (fun best i => if bucket buf i > bucket buf best then i else best) best
    b < k + n ∧ (∀ i, i < k + n → bucket buf i ≤ bucket buf b) ∧
      ∀ i, i < b → bucket buf i < bucket buf b := by
  induction n generalizing k best with
  | zero => exact ⟨hk, hmost, hfirst⟩
  | succ n ih =>
    rw [List.range'_succ, List.foldl_cons, show k + (n + 1) = k + 1 + n by omega]
    split
    · rename_i hgt
      apply ih (k + 1) k (Nat.lt_succ_self k)
      · intro i hi
        obtain h | rfl := Nat.lt_succ_iff_lt_or_eq.mp hi
        · exact (lt_of_le_of_lt (hmost i h) hgt).le
        · exact le_refl _
      · intro i hi
        exact lt_of_le_of_lt (hmost i hi) hgt
    · rename_i hle
      apply ih (k + 1) best (by omega) _ hfirst
      intro i hi
      obtain h | rfl := Nat.lt_succ_iff_lt_or_eq.mp hi
      · exact hmost i h
      · omega

theorem bestResidue_firstMost (buf : List Byte) : FirstMost buf (bestResidue buf) := by
  obtain ⟨hlt, hmost, hfirst⟩ := bestResidue_loop buf 1 0 16 (by omega)
    (fun i hi => by rw [Nat.lt_one_iff.mp hi]) (fun i hi => absurd hi (Nat.not_lt_zero i))
  exact ⟨hlt, hmost, hfirst⟩

def DenseWindow (clock : List Nat) (p : List (Option Byte)) : Prop :=
  ∃ t c, t :: c <+: clock ∧ InTime (t + 1) c p ∧ NoGap p ∧
    ((received p).length = nsync ∨
      (received p).length < nsync ∧ ∃ u, t + 1 < u ∧ t :: c ++ [u] <+: clock)

def skipTo (b got : Nat) : Nat := (b + resultLen - got % resultLen) % resultLen

/-- On the histogram path the winning residue `b` and the number of bytes read
back must add up to a frame boundary; on the gap path the bytes must fit. -/
def SyncAligned (off : Nat) (clock : List Nat) (polls : List (Option Byte)) : Prop :=
  ¬ LateGap clock polls ∧
    ∀ p₁ p₂ p₃ b, polls = p₁ ++ p₂ ++ p₃ → DenseWindow clock p₁ → FirstMost (received p₁) b →
      (received p₂).length = skipTo b (received p₁).length →
      (off + b + (received p₃).length) % resultLen = 0

theorem skipTo_mod (off b got n : Nat) :
    (off + b + n) % resultLen = (off + (got + skipTo b got + n)) % resultLen := by
  simp only [skipTo, resultLen]
  omega

/-- On every path the bytes handed back are the last ones consumed, and the path
decides what else is known about the place where the call stopped. -/
theorem mainFrameSync_boundary {off : Nat} {clock : List Nat} {frames : List (List Byte)}
    {polls : List (Option Byte)} {r : SyncResult} (h : mainFrameSync ⟨clock, polls⟩ = some r)
    (h0 : r.rc = 0) (hrest : r.rest.polls = []) (hreply : IsReply off frames polls) :
    (∃ pre, received polls = pre ++ r.out) ∧
      ((off + (received polls).length) % resultLen = 0 ∨
        ∃ p₁ p₂ p₃ b, polls = p₁ ++ p₂ ++ p₃ ∧ DenseWindow clock p₁ ∧ FirstMost (received p₁) b ∧
          (received p₂).length = skipTo b (received p₁).length) := by
  obtain ⟨t, clock', p, e, d, rfl, hrun, hr⟩ := mainFrameSync_cases h
  cases hrun with
  | gap c clock p polls hc hp hpos hlen =>
    obtain rfl := hr
    obtain rfl : polls = [] := hrest
    obtain ⟨-, -, -, h15⟩ := id hp
    refine ⟨⟨[], by simp⟩, .inl ?_⟩
    simpa using hreply.gaps p (by simp) (le_of_eq h15.symm)
  | quiet c clock p polls hc hp hzero =>
    obtain rfl := hr
    obtain rfl : polls = [] := hrest
    obtain ⟨-, -, -, h15⟩ := id hp
    refine ⟨⟨[], by simp [hzero]⟩, .inl ?_⟩
    simpa using hreply.gaps p (by simp) (le_of_eq h15.symm)
  | full c clock p polls hc hp hlen =>
    obtain ⟨p₂, p₃, hpolls, hout, hskip⟩ := (dense_spec hr).2 h0
    rw [hrest, List.append_nil] at hpolls
    obtain rfl : polls = p₂ ++ p₃ := hpolls
    refine ⟨⟨received (p ++ p₂), by simp [hout]⟩, .inr ⟨p, p₂, p₃, _, by simp, ?_,
      bestResidue_firstMost _, hskip⟩⟩
    exact ⟨t, c, ⟨clock, rfl⟩, hc, hp, .inl hlen⟩
  | late c u clock p polls hc hp hlen hu =>
    obtain ⟨p₂, p₃, hpolls, hout, hskip⟩ := (dense_spec hr).2 h0
    rw [hrest, List.append_nil] at hpolls
    obtain rfl : polls = p₂ ++ p₃ := hpolls
    refine ⟨⟨received (p ++ p₂), by simp [hout]⟩, .inr ⟨p, p₂, p₃, _, by simp, ?_,
      bestResidue_firstMost _, hskip⟩⟩
    exact ⟨t, c, ⟨u :: clock, rfl⟩, hc, hp, .inr ⟨hlen, u, hu, ⟨clock, by simp⟩⟩⟩

theorem sync_assembles_frames_iff (off : Nat) (clock : List Nat) (frames : List (List Byte))
    (polls : List (Option Byte)) (r : SyncResult) (h : mainFrameSync ⟨clock, polls⟩ = some r)
    (h0 : r.rc = 0) (hrest : r.rest.polls = []) (hreply : IsReply off frames polls) :
    AssemblesFrames off polls r ↔ SyncAligned off clock polls := by
  obtain ⟨⟨pre, hsplit⟩, hpath⟩ := mainFrameSync_boundary h h0 hrest hreply
  constructor
  · intro hall
    obtain ⟨hfit, hbound⟩ := boundary_of_assembles hsplit hreply hall
    refine ⟨not_lateGap_of_fits h hfit, fun p₁ p₂ p₃ b hpolls _ _ hskip => ?_⟩
    rw [skipTo_mod off b (received p₁).length, ← hskip]
    rwa [hpolls, received_append, received_append, List.length_append, List.length_append] at hbound
  · rintro ⟨hlate, hres⟩
    apply assembles_of_boundary hsplit (fits_of_not_lateGap h hlate)
    obtain hbound | ⟨p₁, p₂, p₃, b, hpolls, hwin, hb, hskip⟩ := hpath
    · exact hbound
    · have hmod := hres p₁ p₂ p₃ b hpolls hwin hb hskip
      rw [skipTo_mod off b (received p₁).length, ← hskip] at hmod
      rwa [hpolls, received_append, received_append, List.length_append, List.length_append]

theorem IsReply.steady {off : Nat} {frames : List (List Byte)}
    (h : ∀ f ∈ frames, f.length = resultLen ∧ f.headD 0 = 0x01#8) :
    IsReply off frames ((frames.flatten.drop off).map some) := by
  have hstart : IsReply off frames [] :=
    { frame := h
      bytes := List.nil_prefix
      gaps := fun q hq h15 => by
        rw [List.prefix_nil.mp hq] at h15
        exact absurd h15 (by decide) }
  have hreply := hstart.complete
  rwa [unread, received_nil, List.length_nil, List.drop_zero, List.nil_append] at hreply

theorem sync_assembles_dense :
    let clock := List.replicate 651 0
    let frames := (List.range 39).map countFrame
    let polls := (frames.flatten.drop 5).map some
    IsReply 5 frames polls ∧ ∃ r, mainFrameSync ⟨clock, polls⟩ = some r ∧
      r.out = (frames.drop 31).flatten ∧ (AssemblesFrames 5 polls r ↔ SyncAligned 5 clock polls) := by
  intro clock frames polls
  have hframe (f : List Byte) (hf : f ∈ frames) : f.length = resultLen ∧ f.headD 0 = 0x01#8 := by
    obtain ⟨n, -, rfl⟩ := List.mem_map.mp hf
    exact ⟨by simp [countFrame, resultLen], rfl⟩
  have hreply : IsReply 5 frames polls := .steady hframe
  have hrun : (mainFrameSync ⟨clock, polls⟩).any (fun r =>
      r.rc = 0 ∧ r.rest.polls = [] ∧ r.out = (frames.drop 31).flatten) = true := by decide +kernel
  simp only [Option.any_eq_true, decide_eq_true_eq] at hrun
  obtain ⟨r, hr, h0, hrest, hout⟩ := hrun
  exact ⟨hreply, r, hr, hout, sync_assembles_frames_iff 5 clock frames polls r hr h0 hrest hreply⟩

/-- A dense stream whose nonce byte 4 is 0x01 in every frame, first read at that
byte: its residue ties with the flag's and comes first. -/
theorem sync_locks_onto_payload :
    let frame := [0x01#8, 0, 0, 0, 0x01#8] ++ List.replicate 12 0
    let frames := List.replicate 40 frame
    let polls := (frames.flatten.drop 4).map some
    IsReply 4 frames polls ∧
      ∃ r groups, mainFrameSync ⟨List.replicate 660 0, polls⟩ = some r ∧ r.rc = 0 ∧
        assembled 0 r.out r.rest.polls = some groups ∧ ∃ grp ∈ groups, grp ∉ frames := by
  intro frame frames polls
  have hreply : IsReply 4 frames polls := .steady fun f hf => by
    rw [List.eq_of_mem_replicate hf]
    decide
  refine ⟨hreply, ?_⟩
  have hrun : ((mainFrameSync ⟨List.replicate 660 0, polls⟩).bind fun r =>
      if r.rc = 0 then assembled 0 r.out r.rest.polls else none).any
        (fun groups => groups.any fun grp => grp ∉ frames) = true := by decide +kernel
  simp only [Option.any_eq_true, Option.bind_eq_some_iff, List.any_eq_true,
    decide_eq_true_eq] at hrun
  obtain ⟨groups, ⟨r, hr, hg⟩, grp, hmem, hnot⟩ := hrun
  split at hg
  · rename_i h0
    exact ⟨r, groups, hr, h0, hg, grp, hmem, hnot⟩
  · simp at hg

end OspreyBlake2b.Miner
