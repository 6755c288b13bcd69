import OspreyBlake2b.Rtl.Top
import OspreyBlake2b.Rtl.CoreLaws

/-! Stage 3 settles to the digest of its message, and taking that digest from the
work item instead is invisible once both pipelines have filled. -/

namespace OspreyBlake2b.Rtl

open OspreyBlake2b.Lib OspreyBlake2b.Hash.Blake2b Clocked

section Stage3

variable {input : Nat → Fin 10 → U64} {σ : Nat → Stage3Core}

theorem piped_stage3 (hσ : Trace Stage3Core.step input σ) :
    Piped stage3InitLanes (fun t => (σ t).mixer1) (fun t => (σ t).mixer2)
      fun t => stage3Feed (input t) where
  mixer1 t r j := by rw [hσ t]; rfl
  mixer2 t r j := by rw [hσ t]; rfl

theorem stage3InitLanes_eq : stage3InitLanes = lanes (initV (paramBlock 32) 52 true) := by
  decide

theorem HashOut_eq (s : Stage3Core) (j : Fin 4) :
    s.HashOut j = kHin (Fin.castAdd 4 j) ^^^ s.A2OutDly j ^^^ (s.mixer2 11 (j + 2)).C3 := by
  fin_cases j <;> rfl

/-- A 52-byte message in slots 0 to 6; the caller zeroes the other three. -/
def stage3Slots (m : List Byte) (k : Fin 10) : U64 :=
  if k.val < 7 then load64 (m.drop (8 * k.val)) else 0

def stage3Block (m : List Byte) : List Byte := m ++ List.replicate (128 - m.length) 0

theorem load64_padded {m : List Byte} (hm : m.length = 52) (n k : Nat) :
    load64 ((m ++ List.replicate n 0).drop (8 * k)) =
      if k < 7 then load64 (m.drop (8 * k)) else 0 := by
  split
  · rw [List.drop_append_of_le_length (by omega), load64_append_zeros]
  · rw [List.drop_append, List.drop_eq_nil_of_le (by omega), List.nil_append,
      List.drop_replicate, load64, List.take_replicate, leWord_zeros]

theorem stage3Msg_slots {m : List Byte} (hm : m.length = 52) (k : Fin 16) :
    stage3Msg (stage3Slots m) k = (loadBlock (stage3Block m)).get k := by
  simp only [loadBlock, stage3Block, get_getElem, Vector.getElem_ofFn, Nat.mul_comm k.val,
    load64_padded hm, stage3Msg, stage3Slots]
  split
  · rfl
  · rw [if_neg (by omega)]

def stage3Words (m : List Byte) : Vector U64 8 := compress (paramBlock 32) (stage3Block m) 52 true

theorem stage3Words_eq {m : List Byte} (hm : m.length = 52) (k : Fin 4) :
    (stage3Words m)[k.val] = leWord 64 (digestSlice (blake2bNokey m 32) (8 * k.val)) := by
  rw [blake2bNokey_short _ _ (by omega), digestSlice, emit_word _ _ _ (by omega) (by omega)]
  simp only [hm, stage3Words, stage3Block]
  exact (leWord_leBytes 8 _).symm

theorem stage3_settles (hσ : Trace Stage3Core.step input σ) {m : List Byte} (hm : m.length = 52)
    {a t : Nat} (hin : ∀ t, a ≤ t → input t = stage3Slots m) (ht : a + (kPipeLength + 1) ≤ t)
    (k : Fin 4) : (σ t).HashOut k = (stage3Words m)[k.val] := by
  obtain ⟨b, rfl⟩ := Nat.exists_eq_add_of_le ht
  have hp := piped_stage3 hσ
  rw [stage3InitLanes_eq] at hp
  have hout := hp.leaves_rounds (a := a + b) (m := loadBlock (stage3Block m)) (by
    intro r p
    rw [hin _ (by omega), stage3Feed, stage3Msg_slots hm, operands, kSigma_eq_sigma])
  obtain ⟨ha, -, -, hc⟩ := hout k
  simp only [undiagonal, outLanes, lanes] at ha hc
  have ht' : a + (kPipeLength + 1) + b = a + b + kPipeLength + 1 := by omega
  have hdly : (σ (a + b + kPipeLength + 1)).A2OutDly k =
      ((σ (a + b + kPipeLength)).mixer2 11 k).A3 := by rw [hσ]; rfl
  rw [ht', HashOut_eq, hdly, ha, hc]
  simp only [stage3Words, compress, kHin_eq_paramBlock, Vector.getElem_ofFn, BitVec.xor_assoc,
    Fin.getElem_fin, get_getElem, Fin.val_castAdd]

end Stage3

section Agree

variable {tap : Tap} {kNonceSeed : U64} {i j : Nat → CoreIn} {σ τ : Nat → Core}

theorem nonces_agree (hσ : Trace (Core.step tap kNonceSeed) i σ)
    (hτ : Trace (Core.step tap kNonceSeed) j τ) (hen : ∀ t, (i t).Enable = (j t).Enable)
    {a : Nat} (ha : (σ a).Nonce = (τ a).Nonce) (t : Nat) : (σ (a + t)).Nonce = (τ (a + t)).Nonce := by
  induction t with
  | zero => exact ha
  | succ t ih =>
    rw [← Nat.add_assoc, hσ, hτ]
    simp only [Core.step, hen, ih]

theorem nonces_reload (hσ : Trace (Core.step tap kNonceSeed) i σ)
    (hτ : Trace (Core.step tap kNonceSeed) j τ) {a : Nat} (hi : (i a).Enable = false)
    (hj : (j a).Enable = false) : (σ (a + 1)).Nonce = (τ (a + 1)).Nonce := by
  rw [hσ, hτ]
  funext r
  simp only [Core.step, hi, hj, Bool.false_eq_true, if_false]

variable {a : Nat}

theorem hash0_agree (hσ : Trace (Core.step tap kNonceSeed) i σ)
    (hτ : Trace (Core.step tap kNonceSeed) j τ) (hij : ∀ t, a ≤ t → i t = j t)
    (hn : ∀ t, a ≤ t → (σ t).Nonce = (τ t).Nonce) :
    hash0 tap (σ (a + kPipeLength + 1)) = hash0 tap (τ (a + kPipeLength + 1)) := by
  have hs := (piped_core tap kNonceSeed hσ).leaves (a := a) fun _ _ => rfl
  have ht := (piped_core tap kNonceSeed hτ).leaves (a := a)
    (x := fun r p => feed (i (a + 8 * r.val + operandDelay p)) (σ (a + 8 * r.val + operandDelay p)) r p)
    (by
      intro r p
      simp only [feed, hij (a + 8 * r.val + operandDelay p) (by omega),
        hn (a + 8 * r.val + operandDelay p) (by omega)])
  have hc : tap.cLane + 2 + 2 = tap.cLane := by
    generalize tap.cLane = c
    revert c
    decide
  have hsa := (hs tap.aLane).1
  have hta := (ht tap.aLane).1
  have hsc := (hs (tap.cLane + 2)).2.2.2
  have htc := (ht (tap.cLane + 2)).2.2.2
  simp only [undiagonal, outLanes, hc] at hsa hta hsc htc
  have hdly : ∀ {i : Nat → CoreIn} {σ : Nat → Core}, Trace (Core.step tap kNonceSeed) i σ →
      (σ (a + kPipeLength + 1)).A2OutDly = ((σ (a + kPipeLength)).mixer2 11 tap.aLane).A3 := by
    intro i σ hσ
    rw [hσ]
    rfl
  rw [hash0, hash0, hdly hσ, hdly hτ, hsa, hta, hsc, htc]

theorem cores_agree (hσ : Trace (Core.step tap kNonceSeed) i σ)
    (hτ : Trace (Core.step tap kNonceSeed) j τ) (hij : ∀ t, a ≤ t → i t = j t)
    (hn : ∀ t, a ≤ t → (σ t).Nonce = (τ t).Nonce) {t : Nat} (ht : a + (kPipeLength + 2) ≤ t) :
    (σ t).Success = (τ t).Success ∧ (σ t).NonceOut = (τ t).NonceOut ∧
      (σ t).HashTop64Out = (τ t).HashTop64Out := by
  obtain ⟨b, rfl⟩ := Nat.exists_eq_add_of_le ht
  have hh := hash0_agree (a := a + b) hσ hτ (fun t h => hij t (by omega))
    fun t h => hn t (by omega)
  have ht' : a + (kPipeLength + 2) + b = a + b + kPipeLength + 1 + 1 := by omega
  rw [ht', hσ, hτ]
  simp only [Core.step, hh, hij (a + b + kPipeLength + 1) (by omega),
    hn (a + b + kPipeLength + 1) (by omega), and_self]

end Agree

section Bypass

variable {kNonceSeed : U64} {input : Nat → TopIn} {on : Nat → Top true} {off : Nat → Top false}

theorem trace_stage4 {b : Bool} {σ : Nat → Top b} (hσ : Trace (Top.step kNonceSeed) input σ) :
    Trace (Core.step stage4Tap kNonceSeed) (fun t => (σ t).coreIn (input t))
      fun t => (σ t).stage4 := by
  intro t
  exact congrArg Top.stage4 (hσ t)

theorem trace_stage3 (hon : Trace (Top.step kNonceSeed) input on) :
    Trace Stage3Core.step (fun t => (input t).Stage3In) fun t => (on t).stage3 := by
  intro t
  exact congrArg Top.stage3 (hon t)

theorem coreIn_enable {b : Bool} (i : TopIn) (s : Top b) : (s.coreIn i).Enable = i.Enable := rfl

structure Carried (i : TopIn) (m : List Byte) : Prop where
  stage3In : i.Stage3In = stage3Slots m
  digest : ∀ k : Fin 4, i.Stage4In ⟨k.val + 6, by omega⟩ =
    leWord 64 (digestSlice (blake2bNokey m 32) (8 * k.val))

theorem coreIn_agree (hon : Trace (Top.step kNonceSeed) input on) {m : List Byte}
    (hm : m.length = 52) {a : Nat} (hin : ∀ t, a ≤ t → Carried (input t) m) {t : Nat}
    (ht : a + (kPipeLength + 1) ≤ t) : (on t).coreIn (input t) = (off t).coreIn (input t) := by
  have hhash : ∀ k, Stage3Core.HashOut (on t).stage3 k =
      (input t).Stage4In ⟨k.val + 6, by omega⟩ := by
    intro k
    rw [(hin t (by omega)).digest k, ← stage3Words_eq hm]
    exact stage3_settles (trace_stage3 hon) hm (fun t h => (hin t h).stage3In) ht k
  have hA : HashA true (input t).Stage4In (on t).stage3 =
      HashA false (input t).Stage4In (off t).stage3 := by
    funext k
    rw [HashA, hhash]
    fin_cases k <;> rfl
  rw [Top.coreIn, Top.coreIn, hA]

theorem tops_nonces_agree (hon : Trace (Top.step kNonceSeed) input on)
    (hoff : Trace (Top.step kNonceSeed) input off) {a : Nat}
    (hn : (on 0).stage4.Nonce = (off 0).stage4.Nonce ∨ ∃ t, t < a ∧ (input t).Enable = false)
    {t : Nat} (ht : a ≤ t) : (on t).stage4.Nonce = (off t).stage4.Nonce := by
  have hs := trace_stage4 hon
  have ho := trace_stage4 hoff
  have hen : ∀ t, ((on t).coreIn (input t)).Enable = ((off t).coreIn (input t)).Enable := by
    intro t
    rw [coreIn_enable, coreIn_enable]
  obtain h0 | ⟨b, hb, hlow⟩ := hn
  · have h := nonces_agree hs ho hen h0 t
    rwa [Nat.zero_add] at h
  · have hreload := nonces_reload (a := b) hs ho (by rw [coreIn_enable, hlow])
      (by rw [coreIn_enable, hlow])
    have h := nonces_agree hs ho hen hreload (t - (b + 1))
    rwa [Nat.add_sub_cancel' (by omega)] at h

/-- Both pipelines filled, the two configurations cannot be told apart. -/
theorem tops_agree (hon : Trace (Top.step kNonceSeed) input on)
    (hoff : Trace (Top.step kNonceSeed) input off) {m : List Byte} (hm : m.length = 52) {a : Nat}
    (hin : ∀ t, a ≤ t → Carried (input t) m)
    (hn : (on 0).stage4.Nonce = (off 0).stage4.Nonce ∨
      ∃ t, t < a + (kPipeLength + 1) ∧ (input t).Enable = false)
    {t : Nat} (ht : a + (kPipeLength + 1) + (kPipeLength + 2) ≤ t) : (on t).out = (off t).out := by
  obtain ⟨h1, h2, h3⟩ := cores_agree (trace_stage4 hon) (trace_stage4 hoff)
    (fun t h => coreIn_agree hon hm hin h) (fun t h => tops_nonces_agree hon hoff hn h) ht
  rw [Top.out, Top.out, h1, h2, h3]

end Bypass

end OspreyBlake2b.Rtl
