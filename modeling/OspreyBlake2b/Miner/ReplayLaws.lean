import OspreyBlake2b.Miner.FrameSyncLaws

/-! What becomes of the frames that a sync consumes.  A frame lies whole in the bytes of
the call, and is owed to `parse_result`, or only a part of it was read. -/

namespace OspreyBlake2b.Miner

open OspreyBlake2b.Lib

section Schedule

variable {p q : List (Option Byte)}

def arrivals (p : List (Option Byte)) : List Bool := p.map Option.isSome

theorem trailing_arrivals (p : List (Option Byte)) :
    trailing p = ((arrivals p).reverse.takeWhile fun a => !a).length := by
  rw [trailing, arrivals, ← List.map_reverse, List.takeWhile_map, List.length_map]
  congr 2
  funext x
  cases x <;> rfl

theorem received_arrivals (p : List (Option Byte)) :
    (received p).length = (arrivals p).count true := by
  induction p with
  | nil => rfl
  | cons x p ih =>
    cases x with
    | none => simpa [arrivals] using ih
    | some b => simpa [arrivals] using ih

theorem NoGap.of_arrivals (h : NoGap p) (hq : arrivals q = arrivals p) : NoGap q := by
  intro q' hpre
  have hcut : arrivals q' = arrivals (p.take q'.length) := by
    rw [List.prefix_iff_eq_take.mp hpre, arrivals, List.map_take, ← arrivals, hq, arrivals,
      ← List.map_take, ← arrivals, List.length_take, min_eq_left hpre.length_le]
  rw [trailing_arrivals, hcut, ← trailing_arrivals]
  exact h _ (List.take_prefix _ _)

theorem FirstGap.of_arrivals (h : FirstGap p) (hq : arrivals q = arrivals p) : FirstGap q := by
  have htrail : trailing q = trailing p := by rw [trailing_arrivals, hq, ← trailing_arrivals]
  obtain ⟨p', rfl, hno, h15⟩ := h
  rw [arrivals, arrivals, List.map_append] at hq
  obtain ⟨q', last, rfl, hq', hlast⟩ := List.map_eq_append_iff.mp hq
  obtain ⟨x, rfl, hx⟩ := List.map_eq_singleton_iff.mp hlast
  obtain rfl : x = none := Option.not_isSome_iff_eq_none.mp (by rw [hx]; decide)
  exact ⟨q', rfl, hno.of_arrivals hq', htrail.trans h15⟩

theorem exists_delivery (p : List (Option Byte)) {bs : List Byte}
    (hlen : bs.length = (received p).length) : ∃ q, arrivals q = arrivals p ∧ received q = bs := by
  induction p generalizing bs with
  | nil => exact ⟨[], rfl, (List.length_eq_zero_iff.mp hlen).symm⟩
  | cons x p ih =>
    cases x with
    | none =>
      obtain ⟨q, hq, hbs⟩ := ih hlen
      exact ⟨none :: q, congrArg (List.cons false) hq, hbs⟩
    | some b =>
      obtain _ | ⟨b', bs⟩ := bs
      · cases hlen
      · obtain ⟨q, hq, hbs⟩ := ih (Nat.succ.inj hlen)
        exact ⟨some b' :: q, congrArg (List.cons true) hq, by rw [received_cons_some, hbs]⟩

end Schedule

section Groups

variable (s : Assembler)

theorem feed_groups_le (bs : List Byte) :
    resultLen * (bs.foldl Assembler.feed s).groups.length +
        (bs.foldl Assembler.feed s).frame.length ≤
      resultLen * s.groups.length + s.frame.length + bs.length := by
  induction bs generalizing s with
  | nil => exact le_refl _
  | cons b bs ih =>
    refine le_trans (ih (s.feed b)) ?_
    have hone : resultLen * (s.feed b).groups.length + (s.feed b).frame.length ≤
        resultLen * s.groups.length + s.frame.length + 1 := by
      have hsnoc : (s.frame ++ [b]).length = s.frame.length + 1 := by simp
      have hgroups : (s.groups ++ [s.frame ++ [b]]).length = s.groups.length + 1 := by simp
      simp only [Assembler.feed, resultLen]
      split_ifs
      all_goals try simp only [List.length_nil, hgroups]
      all_goals omega
    rw [List.length_cons]
    omega

theorem feed_frames {fs : List (List Byte)} (hs : s.synced = true) (hz : s.frame = [])
    (hfs : ∀ f ∈ fs, f.length = resultLen ∧ f.headD 0 = 0x01#8) :
    (fs.flatten.foldl Assembler.feed s).groups = s.groups ++ fs := by
  induction fs generalizing s with
  | nil => simp
  | cons f fs ih =>
    obtain ⟨hf, hhead⟩ := hfs f List.mem_cons_self
    rw [List.flatten_cons, List.foldl_append, feed_good_group f s hs hz hf hhead,
      ih { s with badRun := 0, frame := [], groups := s.groups ++ [f] } hs rfl
        fun f hf => hfs f (List.mem_cons_of_mem _ hf), List.append_assoc, List.singleton_append]

theorem feed_unsynced (bs : List Byte) (hs : s.synced = false) :
    bs.foldl Assembler.feed s = s := by
  induction bs with
  | nil => rfl
  | cons b bs ih =>
    have hb : s.feed b = s := by simp [Assembler.feed, hs]
    rw [List.foldl_cons, hb, ih]

theorem feed_group_heads (bs : List Byte) (hz : s.frame = []) :
    ∀ grp ∈ (bs.foldl Assembler.feed s).groups, grp ∈ s.groups ∨
      ∃ k, resultLen * (k + 1) ≤ bs.length ∧ grp.headD 0 = bs.getD (resultLen * k) 0 := by
  induction hn : bs.length using Nat.strong_induction_on generalizing bs s with
  | h n ih =>
    obtain hs | hs := Bool.eq_false_or_eq_true s.synced
    rotate_left
    · rw [feed_unsynced s bs hs]
      exact fun grp hg => .inl hg
    obtain hlt | hge := Nat.lt_or_ge bs.length resultLen
    · rw [feed_frame bs s hs (by simpa [hz] using hlt)]
      exact fun grp hg => .inl hg
    · have hlen : (bs.take resultLen).length = resultLen := by
        rw [List.length_take, min_eq_left hge]
      have hrest : (bs.drop resultLen).length < n := by
        rw [List.length_drop, hn]
        simp only [resultLen] at hge ⊢
        omega
      have hnext : ((bs.take resultLen).foldl Assembler.feed s).frame = [] ∧
          ((bs.take resultLen).foldl Assembler.feed s).groups = s.groups ++ [bs.take resultLen] := by
        rw [feed_group _ s hs hz hlen]
        split_ifs <;> exact ⟨rfl, rfl⟩
      intro grp hg
      rw [← List.take_append_drop resultLen bs, List.foldl_append] at hg
      obtain hold | ⟨k, hk, hhead⟩ := ih _ hrest _ _ hnext.1 rfl grp hg
      · rw [hnext.2, List.mem_append, List.mem_singleton] at hold
        refine hold.imp_right fun hgrp => ⟨0, by simpa using hn ▸ hge, ?_⟩
        rw [hgrp]
        cases bs <;> rfl
      · refine .inr ⟨k + 1, ?_, ?_⟩
        · rw [List.length_drop] at hk
          simp only [resultLen] at hk hge ⊢
          omega
        · rw [hhead, List.getD_eq_getElem?_getD, List.getElem?_drop, ← List.getD_eq_getElem?_getD,
            Nat.mul_succ, Nat.add_comm]

end Groups

/-- A stream of well-formed frames, first read `off` bytes in. -/
structure IsStream (off : Nat) (frames : List (List Byte)) (polls : List (Option Byte)) : Prop where
  frame : ∀ f ∈ frames, f.length = resultLen ∧ f.headD 0 = 0x01#8
  bytes : received polls <+: frames.flatten.drop off

structure Synced (clock : List Nat) (polls : List (Option Byte)) (r : SyncResult) : Prop where
  run : mainFrameSync ⟨clock, polls⟩ = some r
  ok : r.rc = 0
  all : r.rest.polls = []

def completeFrames (off n : Nat) (frames : List (List Byte)) : List (List Byte) :=
  (frames.take ((off + n) / resultLen)).drop ((off + (resultLen - 1)) / resultLen)

/-- The replay alone, without a byte of a later poll, hands every complete frame to
`parse_result`, in order and as often as it was received. -/
def Replays (off : Nat) (frames : List (List Byte)) (polls : List (Option Byte)) (badRun : Nat)
    (r : SyncResult) : Prop :=
  ∃ groups, assembled badRun r.out [] = some groups ∧
    (completeFrames off (received polls).length frames).Sublist groups ∧
    ∀ f ∈ completeFrames off (received polls).length frames,
      groups.count f = (completeFrames off (received polls).length frames).count f

def EndsOnGap (clock : List Nat) (polls : List (Option Byte)) : Prop :=
  (∃ t c, t :: c <+: clock ∧ InTime (t + 1) c polls) ∧ FirstGap polls

/-- The call ends on silence, with no more bytes than `syncbuf` holds, and at the end of
a frame unless it read no whole one. -/
structure KeepsFrames (off : Nat) (clock : List Nat) (polls : List (Option Byte)) : Prop where
  gap : EndsOnGap clock polls
  fits : (received polls).length ≤ syncbufLen
  boundary : (off + (received polls).length) % resultLen = 0 ∨
    (off + (received polls).length) / resultLen ≤ (off + (resultLen - 1)) / resultLen

section Replay

variable {off : Nat} {frames : List (List Byte)} {clock : List Nat} {polls : List (Option Byte)}
  {r : SyncResult}

theorem IsStream.enough (h : IsStream off frames polls) (hpos : 0 < (received polls).length) :
    off + (received polls).length ≤ resultLen * frames.length := by
  have hle := h.bytes.length_le
  rw [List.length_drop, Blocks.length_flatten fun f hf => (h.frame f hf).1] at hle
  omega

theorem IsStream.complete_length (h : IsStream off frames polls) :
    (completeFrames off (received polls).length frames).length =
      (off + (received polls).length) / resultLen - (off + (resultLen - 1)) / resultLen := by
  rw [completeFrames, List.length_drop, List.length_take]
  obtain hzero | hpos := Nat.eq_zero_or_pos (received polls).length
  · rw [hzero]
    simp only [resultLen]
    omega
  · have henough := h.enough hpos
    have hle : (off + (received polls).length) / resultLen ≤ frames.length :=
      Nat.div_le_of_le_mul henough
    rw [min_eq_left hle]

theorem dense_rc {buf : List Byte} {d : Tapes} (h : dense true buf d = some r) (h0 : r.rc = 0) :
    resultLen * 4 ≤ buf.length := by
  by_contra hlt
  rw [dense] at h
  dsimp only at h
  rw [if_pos (by omega)] at h
  obtain rfl := Option.some.inj h
  cases h0

theorem Synced.path (h : Synced clock polls r) :
    EndsOnGap clock polls ∧ r.out = received polls ∨
      ∃ p p₂ p₃, polls = p ++ (p₂ ++ p₃) ∧ resultLen * 4 ≤ (received p).length ∧
        r.out = received p₃ := by
  obtain ⟨t, clock', p, e, d, rfl, hrun, hr⟩ := mainFrameSync_cases h.run
  cases hrun with
  | gap c clock p polls hc hp hpos hlen =>
    obtain rfl := hr
    obtain rfl : polls = [] := h.all
    rw [List.append_nil]
    exact .inl ⟨⟨⟨t, c, ⟨clock, rfl⟩, hc⟩, hp⟩, rfl⟩
  | quiet c clock p polls hc hp hzero =>
    obtain rfl := hr
    obtain rfl : polls = [] := h.all
    rw [List.append_nil]
    exact .inl ⟨⟨⟨t, c, ⟨clock, rfl⟩, hc⟩, hp⟩, hzero.symm⟩
  | full c clock p polls hc hp hlen | late c u clock p polls hc hp hlen hu =>
    obtain ⟨p₂, p₃, hpolls, hout, -⟩ := (dense_spec hr).2 h.ok
    rw [h.all, List.append_nil] at hpolls
    exact .inr ⟨p, p₂, p₃, congrArg (p ++ ·) hpolls, dense_rc hr h.ok, hout⟩

theorem Synced.out_le (h : Synced clock polls r) : r.out.length ≤ (received polls).length := by
  obtain ⟨-, hout⟩ | ⟨p, p₂, p₃, rfl, -, hout⟩ := h.path
  · rw [hout]
  · rw [hout, received_append, received_append, List.length_append, List.length_append]
    omega

/-- The histogram eats four frames before it reads back as many bytes as it hands on. -/
theorem histogram_loses {p p₂ p₃ : List (Option Byte)}
    (hs : IsStream off frames (p ++ (p₂ ++ p₃))) (hlong : resultLen * 4 ≤ (received p).length)
    (hout : r.out = received p₃) (badRun : Nat) :
    ¬ Replays off frames (p ++ (p₂ ++ p₃)) badRun r := by
  rintro ⟨groups, hgroups, hsub, -⟩
  have hcount := hsub.length_le
  rw [hs.complete_length, received_append, received_append, List.length_append,
    List.length_append] at hcount
  have hfed : resultLen * groups.length ≤ r.out.length := by
    rw [assembled] at hgroups
    split at hgroups
    · obtain rfl := Option.some.inj hgroups
      refine le_trans (Nat.le_add_right _ _) (le_trans (feed_groups_le _ _) ?_)
      simp [resultLen]
    · cases hgroups
  rw [hout] at hfed
  simp only [resultLen] at hcount hfed hlong
  omega

theorem IsStream.replayed_eq (hs : IsStream off frames polls)
    (hpos : 0 < (received polls).length)
    (hbound : (off + (received polls).length) % resultLen = 0) :
    (received polls).drop
        ((received polls).length - (received polls).length / resultLen * resultLen) =
      (completeFrames off (received polls).length frames).flatten := by
  have henough := hs.enough hpos
  have htake := List.prefix_iff_eq_take.mp hs.bytes
  generalize (received polls).length = n at *
  have hj : off + (n - n / resultLen * resultLen) =
      resultLen * ((off + (resultLen - 1)) / resultLen) := by
    simp only [resultLen] at hbound ⊢
    omega
  have hn : n - (n - n / resultLen * resultLen) = resultLen * (n / resultLen) := by
    simp only [resultLen]
    omega
  have hm : (off + n) / resultLen - (off + (resultLen - 1)) / resultLen = n / resultLen := by
    simp only [resultLen] at hbound ⊢
    omega
  rw [htake, List.drop_take, List.drop_drop, hj, hn,
    Blocks.drop_flatten (fun f hf => (hs.frame f hf).1) _,
    Blocks.take_flatten (fun f hf => (hs.frame f (List.mem_of_mem_drop hf)).1) _,
    completeFrames, List.drop_take, hm]

theorem KeepsFrames.replays (hk : KeepsFrames off clock polls) (hs : IsStream off frames polls)
    (h : Synced clock polls r) (badRun : Nat) : Replays off frames polls badRun r := by
  have hcount := hs.complete_length
  obtain hnone | hsome := Nat.eq_zero_or_pos (completeFrames off (received polls).length frames).length
  · have hfit : r.out.length ≤ syncbufLen := le_trans h.out_le hk.fits
    have hnil := List.length_eq_zero_iff.mp hnone
    refine ⟨_, if_pos hfit, ?_, ?_⟩
    · rw [hnil]
      exact List.nil_sublist _
    · rw [hnil]
      exact fun f hf => absurd hf List.not_mem_nil
  · have hpos : 0 < (received polls).length := by
      by_contra hzero
      rw [Nat.eq_zero_of_not_pos hzero] at hcount hsome
      simp only [resultLen, Nat.add_zero] at hcount
      omega
    have hbound : (off + (received polls).length) % resultLen = 0 := by
      refine hk.boundary.resolve_right fun hle => ?_
      omega
    have hfits := hk.fits
    obtain ⟨⟨t, c, ⟨rest, rfl⟩, hc⟩, hgap⟩ := hk.gap
    have hrun : mainFrameSync ⟨t :: c ++ rest, polls ++ []⟩ = _ :=
      mainFrameSync_gap hc hgap hpos (lt_of_le_of_lt hfits (by decide))
    rw [List.append_nil, h.run] at hrun
    obtain rfl := Option.some.inj hrun
    have hgroups : assembled badRun (received polls) [] =
        some (completeFrames off (received polls).length frames) := by
      rw [assembled, if_pos hfits]
      dsimp only
      rw [hs.replayed_eq hpos hbound, List.filterMap_nil, List.append_nil, feed_frames _ rfl rfl]
      · rfl
      · exact fun f hf => hs.frame f (List.mem_of_mem_take (List.mem_of_mem_drop hf))
    exact ⟨_, hgroups, List.Sublist.refl _, fun f _ => rfl⟩

/-- On a gap inside a frame every group of zero frames starts with a payload byte. -/
theorem gap_inside_loses (hgap : EndsOnGap clock polls)
    (hfits : (received polls).length ≤ syncbufLen)
    (hmod : (off + (received polls).length) % resultLen ≠ 0)
    (hsome : (off + (resultLen - 1)) / resultLen < (off + (received polls).length) / resultLen) :
    ∃ frames q r, arrivals q = arrivals polls ∧ IsStream off frames q ∧ Synced clock q r ∧
      ¬ Replays off frames q 0 r := by
  obtain ⟨⟨t, c, ⟨rest, rfl⟩, hc⟩, hfirst⟩ := hgap
  have hframes : ∀ f ∈ List.replicate (off + (received polls).length) zeroFrame,
      f.length = resultLen ∧ f.headD 0 = 0x01#8 := by
    intro f hf
    rw [List.eq_of_mem_replicate hf]
    exact ⟨rfl, rfl⟩
  have hall := Blocks.length_flatten fun f hf => (hframes f hf).1
  rw [List.length_replicate] at hall
  have hbs : (((List.replicate (off + (received polls).length) zeroFrame).flatten.drop off).take
      (received polls).length).length = (received polls).length := by
    rw [List.length_take, List.length_drop, hall]
    simp only [resultLen]
    omega
  obtain ⟨q, hq, hrec⟩ := exists_delivery polls hbs
  have hn : (received q).length = (received polls).length := by rw [hrec, hbs]
  have hstream : IsStream off (List.replicate (off + (received polls).length) zeroFrame) q :=
    ⟨hframes, hrec ▸ List.take_prefix _ _⟩
  have hpos : 0 < (received polls).length := by
    by_contra hzero
    rw [Nat.eq_zero_of_not_pos hzero] at hsome
    simp only [resultLen, Nat.add_zero] at hsome
    omega
  have hqlen : q.length = polls.length := by simpa [arrivals] using congrArg List.length hq
  have hrun : mainFrameSync ⟨t :: c ++ rest, q ++ []⟩ = _ :=
    mainFrameSync_gap ⟨hc.1.trans hqlen.symm, hc.2⟩ (hfirst.of_arrivals hq) (hn ▸ hpos)
      (lt_of_le_of_lt (hn ▸ hfits) (by decide))
  rw [List.append_nil] at hrun
  refine ⟨_, q, _, hq, hstream, ⟨hrun, rfl, rfl⟩, ?_⟩
  rintro ⟨groups, hgroups, hsub, -⟩
  have hcount := hstream.complete_length
  rw [hn] at hcount hsub
  obtain ⟨f, hf⟩ := List.exists_mem_of_length_pos (hcount ▸ Nat.sub_pos_of_lt hsome)
  obtain rfl : f = zeroFrame :=
    List.eq_of_mem_replicate (List.mem_of_mem_take (List.mem_of_mem_drop hf))
  rw [assembled] at hgroups
  split at hgroups
  · obtain rfl := Option.some.inj hgroups
    obtain hold | ⟨k, hk, hhead⟩ := feed_group_heads _ _ rfl _ (hsub.subset hf)
    · exact absurd hold List.not_mem_nil
    · rw [List.filterMap_nil, List.append_nil] at hk hhead
      rw [List.length_drop, hn] at hk
      rw [List.getD_eq_getElem?_getD, List.getElem?_drop, hrec, List.getElem?_take_of_lt,
        List.getElem?_drop, ← List.getD_eq_getElem?_getD, zeroFrames_getD] at hhead
      · exact absurd hhead (by decide)
      all_goals
        rw [hbs] at *
        simp only [resultLen] at *
        omega
  · cases hgroups

/-- At one schedule the call hands on every complete frame, whatever the frames hold,
if and only if the schedule keeps them. -/
theorem sync_keeps_frames_iff (hs : IsStream off frames polls) (h : Synced clock polls r) :
    (∀ frames' polls' r' badRun, arrivals polls' = arrivals polls → IsStream off frames' polls' →
        Synced clock polls' r' → Replays off frames' polls' badRun r') ↔
      KeepsFrames off clock polls := by
  constructor
  · intro hall
    obtain ⟨hgap, hout⟩ | ⟨p, p₂, p₃, rfl, hlong, hout⟩ := h.path
    · have hfits : (received polls).length ≤ syncbufLen := by
        obtain ⟨groups, hgroups, -⟩ := hall frames polls r 0 rfl hs h
        rw [assembled, hout] at hgroups
        split at hgroups
        · assumption
        · cases hgroups
      refine ⟨hgap, hfits, ?_⟩
      by_contra hneither
      rw [not_or, Nat.not_le] at hneither
      obtain ⟨frames', q, r', hq, hstream, hsync, hlost⟩ :=
        gap_inside_loses hgap hfits hneither.1 hneither.2
      exact hlost (hall frames' q r' 0 hq hstream hsync)
    · exact absurd (hall frames _ r 0 rfl hs h) (histogram_loses hs hlong hout 0)
  · intro hk frames' polls' r' badRun hq hs' h'
    have hn : (received polls').length = (received polls).length := by
      rw [received_arrivals, hq, ← received_arrivals]
    have hlen : polls'.length = polls.length := by simpa [arrivals] using congrArg List.length hq
    obtain ⟨⟨⟨t, c, hclock, hc⟩, hfirst⟩, hfits, hbound⟩ := hk
    have hk' : KeepsFrames off clock polls' :=
      ⟨⟨⟨t, c, hclock, hc.1.trans hlen.symm, hc.2⟩, hfirst.of_arrivals hq⟩, hn ▸ hfits, hn ▸ hbound⟩
    exact hk'.replays hs' h' badRun

end Replay

theorem sync_keeps_spaced :
    let clock := List.replicate 69 0
    KeepsFrames 0 clock spacedPolls ∧
      ∀ frames' polls' r' badRun, arrivals polls' = arrivals spacedPolls →
        IsStream 0 frames' polls' → Synced clock polls' r' → Replays 0 frames' polls' badRun r' := by
  intro clock
  have hstream : IsStream 0 ((List.range 3).map countFrame) spacedPolls :=
    ⟨by decide +kernel, by decide +kernel⟩
  have hsync : Synced clock spacedPolls
      ⟨0, (List.range 3).flatMap countFrame, some .syncGap, ⟨[], []⟩⟩ :=
    ⟨by decide +kernel, rfl, rfl⟩
  have hnogap : ∀ q ∈ spacedPolls.dropLast.inits, trailing q < 15 := by decide +kernel
  have hfirst : FirstGap spacedPolls :=
    ⟨spacedPolls.dropLast, by decide +kernel,
      fun q hq => hnogap q ((List.mem_inits q _).mpr hq), by decide +kernel⟩
  have hkeeps : KeepsFrames 0 clock spacedPolls :=
    ⟨⟨⟨0, List.replicate 68 0, List.prefix_rfl, by decide +kernel, by decide +kernel⟩, hfirst⟩,
      by decide +kernel, by decide +kernel⟩
  exact ⟨hkeeps, (sync_keeps_frames_iff hstream hsync).mpr hkeeps⟩

theorem dense_sync_loses_frames :
    let frames := List.replicate 39 zeroFrame
    let polls := frames.flatten.map some
    IsStream 0 frames polls ∧
      ∃ r, Synced (List.replicate 651 0) polls r ∧ ¬ Replays 0 frames polls 0 r := by
  intro frames polls
  have hstream : IsStream 0 frames polls := by
    constructor
    · intro f hf
      rw [List.eq_of_mem_replicate hf]
      exact ⟨rfl, rfl⟩
    · rw [received_map_some, List.drop_zero]
  refine ⟨hstream, ?_⟩
  have hrun : (mainFrameSync ⟨List.replicate 651 0, polls⟩).any (fun r =>
      r.rc = 0 ∧ r.rest.polls = [] ∧
        (assembled 0 r.out []).any fun groups => groups.length = 8) = true := by decide +kernel
  simp only [Option.any_eq_true, decide_eq_true_eq] at hrun
  obtain ⟨r, hr, h0, hrest, groups, hgroups, height⟩ := hrun
  refine ⟨r, ⟨hr, h0, hrest⟩, ?_⟩
  rintro ⟨groups', hgroups', hsub, -⟩
  rw [hgroups] at hgroups'
  obtain rfl := Option.some.inj hgroups'
  have hle := hsub.length_le
  rw [hstream.complete_length, height] at hle
  exact absurd hle (by decide +kernel)

end OspreyBlake2b.Miner
