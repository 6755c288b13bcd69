import OspreyBlake2b.Rtl.Pipeline

/-! The mining pipelines compute BLAKE2b: the value that leaves the last mixer is
the compression of the header with the nonce in word 4. -/

namespace OspreyBlake2b.Rtl

open OspreyBlake2b.Lib OspreyBlake2b.Hash.Blake2b

def headerWords (B : Fin 10 → U64) (n : U64) : List U64 :=
  List.ofFn fun i => if i = 4 then n else B i

def headerBytes (B : Fin 10 → U64) (n : U64) : List Byte :=
  (headerWords B n).flatMap (leBytes 8)

@[simp] theorem headerBytes_length (B : Fin 10 → U64) (n : U64) :
    (headerBytes B n).length = 80 := by
  simp [headerBytes, headerWords]

def headerBlock (B : Fin 10 → U64) (n : U64) : Vector U64 16 :=
  loadBlock (headerBytes B n ++ List.replicate 48 0)

theorem headerBlock_eq_msg (i : CoreIn) (n : U64) (k : Fin 16) :
    (headerBlock i.BlockHeader n).get k = if k ≠ kNonceSigmaIdx then Msg i k else n := by
  rw [headerBlock, headerBytes, loadBlock_words]
  by_cases h4 : k = kNonceSigmaIdx
  · subst h4
    simp [headerWords, kNonceSigmaIdx]
  · rw [if_pos h4, Msg]
    by_cases hk : k.val < 10
    · have h4' : (⟨k.val, hk⟩ : Fin 10) ≠ 4 := by
        intro e
        have hv : k.val = 4 := congrArg Fin.val e
        exact h4 (Fin.ext hv)
      rw [List.getD_eq_getElem _ _ (by simpa [headerWords] using hk), dif_pos hk]
      simp only [headerWords, List.getElem_ofFn, if_neg h4']
    · rw [List.getD_eq_default _ _ (by simpa [headerWords] using hk), dif_neg hk]

theorem kSigma_eq_sigma (r : Fin 12) (p : Fin 16) :
    kSigma (Fin.ofNat 10 r.val) p = (sigma.get r).get p := by
  revert r p
  decide

theorem nonceLag_eq (r : Fin 12) (p : Fin 16)
    (h : kSigma (Fin.ofNat 10 r.val) p = kNonceSigmaIdx) :
    nonceLag r = 8 * r.val + operandDelay p := by
  revert r p
  decide

/-- The constants wired into the first mixer are BLAKE2b's initial working words
for a final block of 80 bytes and a 32-byte digest. -/
theorem initLanes_eq : initLanes = lanes (initV (paramBlock 32) 80 true) := by
  decide

section Pipeline

/-- The states of a core that grinds one header against one target: `B` and `T`
are held, `Enable` is low at edge 0 and high from edge 1 on. -/
structure Grinds (tap : Tap) (kNonceSeed : U64) (B : Fin 10 → U64) (T : U64)
    (σ : Nat → Core) : Prop where
  load : σ 1 = (σ 0).step tap kNonceSeed ⟨false, B, T⟩
  count : ∀ t, 1 ≤ t → σ (t + 1) = (σ t).step tap kNonceSeed ⟨true, B, T⟩

variable {tap : Tap} {kNonceSeed : U64} {B : Fin 10 → U64} {T : U64} {σ : Nat → Core}

theorem Grinds.trace (h : Grinds tap kNonceSeed B T σ) :
    Clocked.Trace (Core.step tap kNonceSeed) (fun t => ⟨t != 0, B, T⟩) σ := by
  intro t
  cases t with
  | zero => exact h.load
  | succ t => exact h.count (t + 1) (by omega)

theorem Grinds.nonce (h : Grinds tap kNonceSeed B T σ) (r : Fin 12) (t : Nat) :
    (σ (t + 1)).Nonce r =
      kNonceSeed - BitVec.ofNat 64 (nonceLag r) + BitVec.ofNat 64 t := by
  induction t with
  | zero => simp [h.load, Core.step]
  | succ t ih =>
    rw [h.count (t + 1) (by omega)]
    simp only [Core.step, if_true, ih]
    rw [BitVec.add_assoc, BitVec.ofNat_add t 1]
    rfl

theorem Grinds.feed_eq (h : Grinds tap kNonceSeed B T σ) (q : Nat) (r : Fin 12) (p : Fin 16)
    {t : Nat} (ht : t = q + 8 * r.val + operandDelay p + 1) (e : Bool) :
    feed ⟨e, B, T⟩ (σ t) r p =
      operands (headerBlock B (kNonceSeed + BitVec.ofNat 64 q)) r p := by
  have hb := headerBlock_eq_msg ⟨e, B, T⟩ (kNonceSeed + BitVec.ofNat 64 q)
    (kSigma (Fin.ofNat 10 r.val) p)
  simp only [operands, ← kSigma_eq_sigma, hb, feed]
  by_cases hk : kSigma (Fin.ofNat 10 r.val) p = kNonceSigmaIdx
  · simp only [hk, ne_eq, not_true_eq_false, if_false]
    rw [ht, h.nonce, nonceLag_eq r p hk, Nat.add_assoc q, BitVec.ofNat_add q]
    generalize BitVec.ofNat 64 (8 * r.val + operandDelay p) = d
    generalize BitVec.ofNat 64 q = e
    rw [BitVec.add_comm e d, ← BitVec.add_assoc, BitVec.sub_add_cancel]
  · rw [if_pos hk, if_pos hk]

theorem piped_core (tap : Tap) (kNonceSeed : U64) {input : Nat → CoreIn} {σ : Nat → Core}
    (hσ : Clocked.Trace (Core.step tap kNonceSeed) input σ) :
    Piped initLanes (fun t => (σ t).mixer1) (fun t => (σ t).mixer2)
      fun t => feed (input t) (σ t) where
  mixer1 t r j := by rw [hσ t]; rfl
  mixer2 t r j := by rw [hσ t]; rfl

theorem Grinds.leaves (h : Grinds tap kNonceSeed B T σ) (q : Nat) :
    Carries (fun t => undiagonal (outLanes ((σ t).mixer2 11))) (q + 1 + kPipeLength)
      (lanes (rounds (headerBlock B (kNonceSeed + BitVec.ofNat 64 q))
        (initV (paramBlock 32) 80 true))) := by
  have hp := piped_core tap kNonceSeed h.trace
  rw [initLanes_eq] at hp
  apply hp.leaves_rounds
  intro r p
  exact h.feed_eq q r p (by omega) _

/-- A tap is wired to a digest word when its lanes hold the two working words
that the compression folds into it. -/
structure Tap.Wired (tap : Tap) : Prop where
  word_lt : tap.word.val < 4
  aLane_eq : tap.aLane.val = tap.word.val
  cLane_eq : tap.cLane = tap.aLane + 2

theorem stage4Tap_wired : stage4Tap.Wired := ⟨by decide, rfl, rfl⟩

theorem siaTap_wired : siaTap.Wired := ⟨by decide, rfl, rfl⟩

def digestWords (B : Fin 10 → U64) (n : U64) : Vector U64 8 :=
  compress (paramBlock 32) (headerBytes B n ++ List.replicate 48 0) 80 true

theorem kHin_eq_paramBlock : kHin = (paramBlock 32).get := by decide

theorem Grinds.hash0_eq (h : Grinds tap kNonceSeed B T σ) (hw : tap.Wired) (q : Nat) :
    hash0 tap (σ (q + kPipeLength + 2)) =
      (digestWords B (kNonceSeed + BitVec.ofNat 64 q)).get tap.word := by
  have hdly : (σ (q + kPipeLength + 2)).A2OutDly = ((σ (q + kPipeLength + 1)).mixer2 11 tap.aLane).A3 := by
    rw [h.count _ (by omega)]
    rfl
  have hout := h.leaves q
  rw [show q + 1 + kPipeLength = q + kPipeLength + 1 by omega] at hout
  obtain ⟨ha, -, -, hc⟩ := hout tap.aLane
  simp only [undiagonal, outLanes, lanes, ← hw.cLane_eq] at ha hc
  have hlt := hw.word_lt
  simp only [hash0, hdly, ha, hc, digestWords, compress, kHin_eq_paramBlock, headerBlock,
    hw.aLane_eq, Fin.getElem_fin, get_getElem, Vector.getElem_ofFn, BitVec.xor_assoc]

theorem Grinds.nonceOut_eq (h : Grinds tap kNonceSeed B T σ) (q : Nat) :
    (σ (q + kPipeLength + 2)).Nonce 0 - BitVec.ofNat 64 (kPipeLength + 1) =
      kNonceSeed + BitVec.ofNat 64 q := by
  rw [h.nonce, Nat.add_assoc q, BitVec.ofNat_add q, ← BitVec.add_assoc, BitVec.add_sub_cancel]
  simp [nonceLag]

theorem Grinds.output (h : Grinds tap kNonceSeed B T σ) (hw : tap.Wired) (q : Nat) :
    let n := kNonceSeed + BitVec.ofNat 64 q
    let w := (digestWords B n).get tap.word
    let o := σ (q + kPipeLength + 3)
    (o.Success = true ↔ tap.compared w < T) ∧
      (o.Success = true → o.NonceOut = n ∧ o.HashTop64Out = byteReverse w) := by
  intro n w o
  have ho : o = (σ (q + kPipeLength + 2)).step tap kNonceSeed ⟨true, B, T⟩ := h.count _ (by omega)
  have hH : hash0 tap (σ (q + kPipeLength + 2)) = w := h.hash0_eq hw q
  have hN := h.nonceOut_eq q
  simp only [ho, Core.step, hH, hN, decide_eq_true_eq]
  refine ⟨trivial, fun hlt => ?_⟩
  rw [if_pos hlt, if_pos hlt]
  exact ⟨rfl, rfl⟩

end Pipeline

theorem blake2bNokey_header (B : Fin 10 → U64) (n : U64) :
    blake2bNokey (headerBytes B n) 32 = emit (digestWords B n) 32 := by
  rw [blake2bNokey_short _ _ (by simp), headerBytes_length]
  rfl

def digestSlice (D : List Byte) (i : Nat) : List Byte := (D.drop i).take 8

theorem digestSlice_header (B : Fin 10 → U64) (n : U64) (k : Nat) (hk : k < 4) :
    digestSlice (blake2bNokey (headerBytes B n) 32) (8 * k) = leBytes 8 (digestWords B n)[k] := by
  rw [blake2bNokey_header, digestSlice, emit_word _ _ _ (by omega) (by omega)]

theorem toNat_append_byte {w : Nat} (x : BitVec w) (b : Byte) :
    (x ++ b).toNat = x.toNat * 256 + b.toNat := by
  rw [BitVec.toNat_append, ← Nat.shiftLeft_add_eq_or_of_lt b.isLt, Nat.shiftLeft_eq]

theorem byteReverse_eq (w : U64) : byteReverse w = beWord 64 (leBytes 8 w) := by
  apply BitVec.eq_of_toNat_eq
  have hb : leBytes 8 w = [w.extractLsb' 0 8, w.extractLsb' 8 8, w.extractLsb' 16 8,
      w.extractLsb' 24 8, w.extractLsb' 32 8, w.extractLsb' 40 8, w.extractLsb' 48 8,
      w.extractLsb' 56 8] := by
    simp only [← BitVec.setWidth_ushiftRight_eq_extractLsb]
    rfl
  rw [beWord_toNat _ _ (by simp), hb]
  simp only [byteReverse, toNat_append_byte, beVal_cons, beVal_nil, List.length_cons,
    List.length_nil]
  omega

def grindInput (B : Fin 10 → U64) (T : U64) (t : Nat) : CoreIn := ⟨t != 0, B, T⟩

theorem grinds_run (tap : Tap) (kNonceSeed : U64) (B : Fin 10 → U64) (T : U64) (s₀ : Core) :
    Grinds tap kNonceSeed B T (Clocked.run (Core.step tap kNonceSeed) (grindInput B T) s₀) where
  load := rfl
  count t ht := by
    rw [Clocked.run_succ, grindInput, bne_iff_ne.mpr (by omega)]

theorem cores_compute_blake2b (B : Fin 10 → U64) (kNonceSeed T : U64) (s₀ : Core) (i : Nat) :
    let n := kNonceSeed + BitVec.ofNat 64 i
    let D := blake2bNokey (headerBytes B n) 32
    let knots := Clocked.run (stage4CoreStep kNonceSeed) (grindInput B T) s₀
      (2 + (kPipeLength + 1) + i)
    let sia := Clocked.run (siaCoreStep kNonceSeed) (grindInput B T) s₀
      (2 + (kPipeLength + 1) + i)
    ((knots.Success = true ↔ leWord 64 (digestSlice D 24) < T) ∧
      (knots.Success = true →
        knots.NonceOut = n ∧ knots.HashTop64Out = beWord 64 (digestSlice D 24))) ∧
    ((sia.Success = true ↔ beWord 64 (digestSlice D 0) < T) ∧
      (sia.Success = true →
        sia.NonceOut = n ∧ sia.HashTop64Out = beWord 64 (digestSlice D 0))) := by
  intro n D knots sia
  have ht : 2 + (kPipeLength + 1) + i = i + kPipeLength + 3 := by omega
  have hk := (grinds_run stage4Tap kNonceSeed B T s₀).output stage4Tap_wired i
  have hs := (grinds_run siaTap kNonceSeed B T s₀).output siaTap_wired i
  have h3 : digestSlice D 24 = leBytes 8 (digestWords B n)[3] := digestSlice_header B n 3 (by omega)
  have h0 : digestSlice D 0 = leBytes 8 (digestWords B n)[0] := digestSlice_header B n 0 (by omega)
  rw [← ht] at hk hs
  rw [h3, h0, ← byteReverse_eq, ← byteReverse_eq,
    show leWord 64 (leBytes 8 (digestWords B n)[3]) = _ from leWord_leBytes 8 _]
  exact ⟨hk, hs⟩

end OspreyBlake2b.Rtl
