import OspreyBlake2b.Miner.SessionLaws
import OspreyBlake2b.Miner.WorksrcStratum

/-! What a session stores fits its arrays in every state, so the arbitrary transaction
of every work item fits the buffers of `sia_stratum.c`. -/

namespace OspreyBlake2b.Miner

open OspreyBlake2b.Lib OspreyBlake2b.Lib.Machine OspreyBlake2b.Hash.Blake2b

theorem hexUpTo_length {v out : List Byte} {maxlen : Nat} (h : hexUpTo v maxlen = some out) :
    out.length ≤ maxlen := by
  rw [hexUpTo] at h
  dsimp only at h
  split at h
  · cases h
    exact jsHex_length v maxlen
  · cases h

theorem mapM_length {A B : Type} {f : A → Option B} {as : List A} {bs : List B}
    (h : as.mapM f = some bs) : bs.length = as.length := by
  induction as generalizing bs with
  | nil =>
    cases h
    rfl
  | cons a as ih =>
    rw [List.mapM_cons] at h
    obtain ⟨b, -, h⟩ := Option.bind_eq_some_iff.mp h
    obtain ⟨rest, hrest, h⟩ := Option.bind_eq_some_iff.mp h
    cases h
    rw [List.length_cons, List.length_cons, ih hrest]

theorem guard_eq_some {p : Prop} [Decidable p] {u : Unit} :
    (guard p : Option Unit) = some u ↔ p := by
  rw [guard]
  split <;> simp_all

structure Parsed (params : List Byte) (j : StratumJob) : Prop where
  count : jsCount params ≥ 9
  jobId : ∃ p, jsElem params 0 = some p ∧ jsStr p 64 = (j.jobId, true)
  prevhash : ∃ p, jsElem params 1 = some p ∧ hexExact p 32 = some j.prevhash
  coinb1 : ∃ p, jsElem params 2 = some p ∧ hexUpTo p stratumMaxCb = some j.coinb1
  coinb2 : ∃ p, jsElem params 3 = some p ∧ hexUpTo p stratumMaxCb = some j.coinb2
  branches : ∃ p, jsElem params 4 = some p ∧ (0 ≤ jsCount p ∧ jsCount p ≤ stratumMaxBranches) ∧
    ((List.range (jsCount p).toNat).mapM fun i => do
      let e ← jsElem p i
      hexExact e 32) = some j.branches
  nbits : ∃ p bits, jsElem params 6 = some p ∧ hexExact p 4 = some bits ∧
    j.nbits = leWord 32 bits.toList
  ntime : ∃ p, jsElem params 7 = some p ∧ hexExact p 8 = some j.ntime
  clean : j.clean = match jsElem params 8 with
    | some v => jsTrue v
    | none => true
  seq : j.seq = 0

theorem parseJob_eq_some {params : List Byte} {j : StratumJob} :
    parseJob params = some j ↔ Parsed params j := by
  constructor
  · intro h
    rw [parseJob] at h
    obtain ⟨_, hcount, h⟩ := Option.bind_eq_some_iff.mp h
    obtain ⟨pJob, hJob, h⟩ := Option.bind_eq_some_iff.mp h
    obtain ⟨pPrev, hPrev, h⟩ := Option.bind_eq_some_iff.mp h
    obtain ⟨pCb1, hCb1, h⟩ := Option.bind_eq_some_iff.mp h
    obtain ⟨pCb2, hCb2, h⟩ := Option.bind_eq_some_iff.mp h
    obtain ⟨pBr, hBr, h⟩ := Option.bind_eq_some_iff.mp h
    obtain ⟨pBits, hBits, h⟩ := Option.bind_eq_some_iff.mp h
    obtain ⟨pNtime, hNtime, h⟩ := Option.bind_eq_some_iff.mp h
    obtain ⟨_, hok, h⟩ := Option.bind_eq_some_iff.mp h
    obtain ⟨prevhash, hprevhash, h⟩ := Option.bind_eq_some_iff.mp h
    obtain ⟨coinb1, hcoinb1, h⟩ := Option.bind_eq_some_iff.mp h
    obtain ⟨coinb2, hcoinb2, h⟩ := Option.bind_eq_some_iff.mp h
    obtain ⟨_, hnb, h⟩ := Option.bind_eq_some_iff.mp h
    obtain ⟨branches, hbranches, h⟩ := Option.bind_eq_some_iff.mp h
    obtain ⟨ntime, hntime, h⟩ := Option.bind_eq_some_iff.mp h
    obtain ⟨bits, hbits, h⟩ := Option.bind_eq_some_iff.mp h
    cases h
    exact ⟨guard_eq_some.mp hcount, ⟨pJob, hJob, Prod.ext rfl (guard_eq_some.mp hok)⟩,
      ⟨pPrev, hPrev, hprevhash⟩, ⟨pCb1, hCb1, hcoinb1⟩, ⟨pCb2, hCb2, hcoinb2⟩,
      ⟨pBr, hBr, guard_eq_some.mp hnb, hbranches⟩, ⟨pBits, bits, hBits, hbits, rfl⟩,
      ⟨pNtime, hNtime, hntime⟩, rfl, rfl⟩
  · intro h
    obtain ⟨pJob, hJob, hjobId⟩ := h.jobId
    obtain ⟨pPrev, hPrev, hprevhash⟩ := h.prevhash
    obtain ⟨pCb1, hCb1, hcoinb1⟩ := h.coinb1
    obtain ⟨pCb2, hCb2, hcoinb2⟩ := h.coinb2
    obtain ⟨pBr, hBr, hnb, hbranches⟩ := h.branches
    obtain ⟨pBits, bits, hBits, hbits, hnbits⟩ := h.nbits
    obtain ⟨pNtime, hNtime, hntime⟩ := h.ntime
    have hclean := h.clean
    have hseq := h.seq
    cases j
    have hid := (congrArg Prod.fst hjobId).symm
    have hok : (jsStr pJob 64).2 = true := congrArg Prod.snd hjobId
    dsimp only at hclean hseq hnbits hid
    subst hclean hseq hnbits hid
    rw [parseJob]
    refine Option.bind_eq_some_iff.mpr ⟨(), guard_eq_some.mpr h.count, ?_⟩
    refine Option.bind_eq_some_iff.mpr ⟨pJob, hJob, ?_⟩
    refine Option.bind_eq_some_iff.mpr ⟨pPrev, hPrev, ?_⟩
    refine Option.bind_eq_some_iff.mpr ⟨pCb1, hCb1, ?_⟩
    refine Option.bind_eq_some_iff.mpr ⟨pCb2, hCb2, ?_⟩
    refine Option.bind_eq_some_iff.mpr ⟨pBr, hBr, ?_⟩
    refine Option.bind_eq_some_iff.mpr ⟨pBits, hBits, ?_⟩
    refine Option.bind_eq_some_iff.mpr ⟨pNtime, hNtime, ?_⟩
    refine Option.bind_eq_some_iff.mpr ⟨(), guard_eq_some.mpr hok, ?_⟩
    refine Option.bind_eq_some_iff.mpr ⟨_, hprevhash, ?_⟩
    refine Option.bind_eq_some_iff.mpr ⟨_, hcoinb1, ?_⟩
    refine Option.bind_eq_some_iff.mpr ⟨_, hcoinb2, ?_⟩
    refine Option.bind_eq_some_iff.mpr ⟨(), guard_eq_some.mpr hnb, ?_⟩
    refine Option.bind_eq_some_iff.mpr ⟨_, hbranches, ?_⟩
    refine Option.bind_eq_some_iff.mpr ⟨_, hntime, ?_⟩
    refine Option.bind_eq_some_iff.mpr ⟨_, hbits, ?_⟩
    rfl

/-- The arrays of `stratum_job_t`; `job_id` ends in a NUL of its own. -/
structure JobLimits (j : StratumJob) : Prop where
  coinb1 : j.coinb1.length ≤ stratumMaxCb
  coinb2 : j.coinb2.length ≤ stratumMaxCb
  branches : j.branches.length ≤ stratumMaxBranches
  jobId : j.jobId.length < 64 ∧ 0 ∉ j.jobId

structure Limits (s : Stratum) : Prop where
  extranonce1 : s.extranonce1.length = stratumMaxEn1
  en1Len : s.en1Len ≤ stratumMaxEn1
  job : JobLimits s.job

theorem parseJob_limits {params : List Byte} {j : StratumJob} (h : parseJob params = some j) :
    JobLimits j := by
  have hparsed := parseJob_eq_some.mp h
  obtain ⟨pJob, -, hjobId⟩ := hparsed.jobId
  obtain ⟨pCb1, -, hcoinb1⟩ := hparsed.coinb1
  obtain ⟨pCb2, -, hcoinb2⟩ := hparsed.coinb2
  obtain ⟨pBr, -, hnb, hbranches⟩ := hparsed.branches
  have hstr : (jsStr pJob 64).1.length < 64 ∧ 0 ∉ (jsStr pJob 64).1 := jsStr_spec (by decide)
  rw [hjobId] at hstr
  have hlen := mapM_length hbranches
  rw [List.length_range] at hlen
  have hle : (jsCount pBr).toNat ≤ stratumMaxBranches := by omega
  exact ⟨hexUpTo_length hcoinb1, hexUpTo_length hcoinb2, hlen.trans_le hle, hstr⟩

theorem parseNotify_limits {s : Stratum} {params : List Byte} {j : StratumJob}
    (h : parseNotify s params = some j) : JobLimits j := by
  obtain ⟨j', hj', rfl⟩ := Option.map_eq_some_iff.mp h
  have hlim := parseJob_limits hj'
  exact ⟨hlim.coinb1, hlim.coinb2, hlim.branches, hlim.jobId⟩

theorem overwrite_length {buf bytes : List Byte} (h : bytes.length ≤ buf.length) :
    (overwrite buf bytes).length = buf.length := by
  rw [overwrite, List.length_append, List.length_drop]
  omega

theorem Limits.of_same {s s' : Stratum} (h : Limits s) (hen1 : s'.extranonce1 = s.extranonce1)
    (hlen : s'.en1Len = s.en1Len) (hjob : s'.job = s.job) : Limits s' :=
  ⟨hen1 ▸ h.extranonce1, hlen ▸ h.en1Len, hjob ▸ h.job⟩

theorem Limits.overwrite {s : Stratum} (h : Limits s) (e : List Byte) :
    (overwrite s.extranonce1 (jsHex e stratumMaxEn1).1).length = stratumMaxEn1 := by
  have hfit : (jsHex e stratumMaxEn1).1.length ≤ s.extranonce1.length :=
    (jsHex_length e stratumMaxEn1).trans_eq h.extranonce1.symm
  exact (overwrite_length hfit).trans h.extranonce1

theorem limits_onSubscribe {s : Stratum} (h : Limits s) (result : List Byte) :
    Limits (onSubscribe s result) := by
  obtain hs | ⟨e, hs | hs | ⟨size, hs⟩⟩ := onSubscribe_cases s result <;> rw [hs]
  · exact h
  · exact ⟨h.overwrite e, h.en1Len, h.job⟩
  · exact ⟨h.overwrite e, jsHex_length e stratumMaxEn1, h.job⟩
  · exact ⟨h.overwrite e, jsHex_length e stratumMaxEn1, h.job⟩

theorem limits_onLine {s : Stratum} (h : Limits s) (line : List Byte) (now : U64) :
    Limits (onLine s line now) := by
  rw [onLine_eq]
  cases handler line with
  | ignored => exact h
  | notify params =>
    change Limits (onNotify s params)
    obtain hs | ⟨j, hj, hs⟩ := onNotify_cases s params <;> rw [hs]
    · exact h
    · exact ⟨h.extranonce1, h.en1Len, parseNotify_limits hj⟩
  | setDifficulty params =>
    change Limits (onSetDifficulty s params)
    obtain hs | ⟨d, hs⟩ := onSetDifficulty_cases s params <;> rw [hs]
    · exact h
    · exact h.of_same rfl rfl rfl
  | setExtranonce params =>
    change Limits (onSetExtranonce s params)
    obtain hs | ⟨e, hs | ⟨size, hs⟩⟩ := onSetExtranonce_cases s params <;> rw [hs]
    · exact h
    · exact ⟨h.overwrite e, h.en1Len, h.job⟩
    · exact ⟨h.overwrite e, jsHex_length e stratumMaxEn1, h.job⟩
  | reconnect params =>
    change Limits (onReconnect s params now)
    obtain ⟨-, buf, hs⟩ | ⟨out, port, wait, -, -, hs⟩ := onReconnect_cases s params now <;> rw [hs]
    · exact h.of_same rfl rfl rfl
    · exact h.of_same rfl rfl rfl
  | reply =>
    change Limits (onReply s line)
    obtain hs | ⟨r, hs⟩ | ⟨b, hs⟩ | hs | hs := onReply_cases s line <;> rw [hs]
    · exact h
    · exact limits_onSubscribe h r
    · exact h.of_same rfl rfl rfl
    · exact h.of_same rfl rfl rfl
    · exact h.of_same rfl rfl rfl

theorem limits_dial {s : Stratum} (h : Limits s) (now : U64) (e : DialEnv) :
    Limits (dial s now e).session := by
  by_cases hwait : now < s.retryAt
  · rw [dial_wait s hwait]
    exact h
  · obtain ⟨-, addr, -, hs | hs | ⟨hsock, hs⟩⟩ := dial_cases s hwait e
    · rw [hs]
      exact h.of_same rfl rfl rfl
    · rw [hs]
      exact h.of_same rfl rfl rfl
    · obtain hh | hh | hh | hh := handshake_cases (connecting s addr e.socket) e hsock <;>
        rw [hs, hh] <;> exact h.of_same rfl rfl rfl

theorem limits_step {s : Stratum} (h : Limits s) (e : SessionEvent) : Limits (s.step e) := by
  cases e with
  | dial now env =>
    rw [Stratum.step]
    split
    · exact limits_dial h now env
    · exact h
  | line text now => exact limits_onLine h text now
  | left rx => exact h.of_same rfl rfl rfl
  | lost => exact h.of_same rfl rfl rfl
  | submit ok =>
    obtain ⟨-, hs⟩ | ⟨-, -, hs⟩ | ⟨-, -, hs⟩ := stratumSubmit_cases s ok <;> rw [Stratum.step, hs]
    · exact h
    · exact h.of_same rfl rfl rfl
    · exact h.of_same rfl rfl rfl

theorem limits_run {s : Stratum} (h : Limits s) (es : List SessionEvent) :
    Limits (run Stratum.step s es) := by
  have hstep (s : Stratum) (e : SessionEvent) (h : Limits s) : Limits (s.step e) := limits_step h e
  exact run_invariant hstep h es

theorem limits_zeroJob : JobLimits zeroJob := ⟨by decide, by decide, by decide, by decide⟩

theorem limits_init (host : List Byte) (port : Int) (worker password : List Byte) :
    Limits (stratumInit host port worker password) :=
  ⟨List.length_replicate, Nat.zero_le _, limits_zeroJob⟩

theorem en2Bytes_bounds {s : Stratum} (hfits : en2Len s ≤ stratumMaxEn2) (c : U64) :
    1 ≤ (en2Bytes (en2Len s) c).length ∧ (en2Bytes (en2Len s) c).length ≤ stratumMaxEn2 := by
  rw [en2Bytes_length]
  refine ⟨?_, hfits⟩
  rw [en2Len]
  split <;> omega

section Builders

variable {s : Stratum} {en2 : List Byte}

theorem arbtx_room (h : Limits s) (hen2 : en2.length ≤ stratumMaxEn2) :
    s.job.coinb1.length + s.en1.length + en2.length + s.job.coinb2.length ≤ 4 * stratumMaxCb := by
  have hcb1 : s.job.coinb1.length ≤ 512 := h.job.coinb1
  have hcb2 : s.job.coinb2.length ≤ 512 := h.job.coinb2
  have hen2' : en2.length ≤ 32 := hen2
  have hlen : s.en1Len ≤ 32 := h.en1Len
  have hen1 : s.en1.length ≤ 32 := by
    rw [Stratum.en1, List.length_take]
    omega
  rw [stratumMaxCb]
  omega

theorem siaArbtx_fits (h : Limits s) (hen2 : en2.length ≤ stratumMaxEn2) :
    siaArbtx s.job s.en1 en2 (4 * stratumMaxCb) =
      some (s.job.coinb1 ++ s.en1 ++ en2 ++ s.job.coinb2) :=
  if_neg (Nat.not_lt.mpr (arbtx_room h hen2))

theorem siaArbtxLeaf_whole (h : Limits s) (hen2 : en2.length ≤ stratumMaxEn2) :
    siaArbtxLeaf (s.job.coinb1 ++ s.en1 ++ en2 ++ s.job.coinb2) =
      blake2bNokey ([0x00#8] ++ s.job.coinb1 ++ s.en1 ++ en2 ++ s.job.coinb2) 32 := by
  have hwhole : (s.job.coinb1 ++ s.en1 ++ en2 ++ s.job.coinb2).length ≤ 4 * stratumMaxCb := by
    simpa only [List.length_append] using arbtx_room h hen2
  rw [siaArbtxLeaf, List.take_of_length_le hwhole]
  simp only [List.append_assoc]

end Builders

/-- From `stratum_init`, in any order of lines, dials, losses and submits; and for every
item that `build_from` starts from the session that is left. -/
theorem session_limits (host : List Byte) (port : Int) (worker password : List Byte)
    (es : List SessionEvent) (counter : U64) :
    let s := run Stratum.step (stratumInit host port worker password) es
    let en2 := en2Bytes (en2Len s) counter
    let arbtx := s.job.coinb1 ++ s.en1 ++ en2 ++ s.job.coinb2
    let leaf := blake2bNokey ([0x00#8] ++ s.job.coinb1 ++ s.en1 ++ en2 ++ s.job.coinb2) 32
    let root := siaMerkleRoot s.job leaf
    Limits s ∧ (en2Len s ≤ stratumMaxEn2 →
      1 ≤ en2.length ∧ en2.length ≤ stratumMaxEn2 ∧
        siaArbtx s.job s.en1 en2 (4 * stratumMaxCb) = some arbtx ∧ siaArbtxLeaf arbtx = leaf ∧
        siaBuildHeader s.job s.en1 en2 = some (headerOf s.job root, root) ∧
        siaBuildStages s.job s.en1 en2 =
          if arbtx.length + 1 ≠ stage3Len then none
          else some ⟨[0x00#8] ++ arbtx, headerOf s.job root, root⟩) := by
  intro s en2 arbtx leaf root
  have hlim : Limits s := limits_run (limits_init host port worker password) es
  refine ⟨hlim, fun hfits => ?_⟩
  have hen2 := en2Bytes_bounds hfits counter
  have harb := siaArbtx_fits hlim hen2.2
  have hleaf := siaArbtxLeaf_whole hlim hen2.2
  refine ⟨hen2.1, hen2.2, harb, hleaf, ?_, ?_⟩
  · simp only [siaBuildHeader, en2, harb, Option.bind_eq_bind, Option.bind_some, hleaf]
    rfl
  · simp only [siaBuildStages, en2, harb, Option.bind_eq_bind, Option.bind_some, hleaf]
    rfl

def subscribedEvents : List SessionEvent :=
  [.dial 1000 ⟨some (ascii "10.0.0.1"), 3, true, true, true, true, true⟩,
    .line (ascii "\x7b\"id\":1,\"result\":[[],\"aabb\",4],\"error\":null\x7d") 1000,
    .line (ascii "\x7b\"id\":2,\"result\":true,\"error\":null\x7d") 1000,
    .line (ascii "\x7b\"method\":\"mining.notify\",\"params\":[\"A\",\"" ++
      List.replicate 64 (char '1') ++ ascii "\",\"0102\",\"0e0f\",[\"" ++ List.replicate 64 (char '2') ++
      ascii "\"],\"\",\"d4c20319\",\"0000000012345678\",true]\x7d") 1001,
    .submit true]

theorem session_limits_subscribed :
    let s := run Stratum.step (stratumInit (ascii "pool") 3333 (ascii "w") (ascii "x")) subscribedEvents
    Limits s ∧ s.job.branches.length = 1 ∧ en2Len s = 4 ∧
      siaArbtx s.job s.en1 (en2Bytes (en2Len s) 0x11223344#64) (4 * stratumMaxCb) =
        some [1, 2, 0xaa, 0xbb, 0x11, 0x22, 0x33, 0x44, 0x0e, 0x0f] ∧
      (siaBuildHeader s.job s.en1 (en2Bytes (en2Len s) 0x11223344#64)).isSome = true := by
  have hsession := session_limits (ascii "pool") 3333 (ascii "w") (ascii "x") subscribedEvents 0x11223344#64
  have hrun : ∃ s, s = run Stratum.step (stratumInit (ascii "pool") 3333 (ascii "w") (ascii "x"))
      subscribedEvents ∧ s.job.branches.length = 1 ∧ en2Len s = 4 ∧
      s.job.coinb1 ++ s.en1 ++ en2Bytes (en2Len s) 0x11223344#64 ++ s.job.coinb2 =
        [1, 2, 0xaa, 0xbb, 0x11, 0x22, 0x33, 0x44, 0x0e, 0x0f] :=
    ⟨_, rfl, by decide +kernel, by decide +kernel, by decide +kernel⟩
  obtain ⟨s, hs, hbranch, hlen, harbtx⟩ := hrun
  rw [← hs] at hsession ⊢
  have hfits : en2Len s ≤ stratumMaxEn2 := by
    rw [hlen]
    decide
  obtain ⟨hlim, hbuild⟩ := hsession
  obtain ⟨-, -, hfit, -, hheader, -⟩ := hbuild hfits
  rw [harbtx] at hfit
  exact ⟨hlim, hbranch, hlen, hfit, Option.isSome_iff_exists.mpr ⟨_, hheader⟩⟩

end OspreyBlake2b.Miner
