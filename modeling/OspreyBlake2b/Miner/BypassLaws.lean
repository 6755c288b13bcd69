import OspreyBlake2b.Miner.WorkItemLaws
import OspreyBlake2b.Miner.WorksrcStratumLaws
import OspreyBlake2b.Rtl.TopLaws

/-! Every Knots work item carries the digest of its own stage-3 message, whoever
built it, so the part may take that digest from the item. -/

namespace OspreyBlake2b.Miner

open OspreyBlake2b.Lib OspreyBlake2b.Hash.Blake2b OspreyBlake2b.Rtl Clocked

/-- The work items the host can push on the Knots chain: from a header by
`stage_inputs`, or from a stratum job that `build_from` accepts. -/
inductive KnotsItem : WorkCtx → Prop
  | solo {h : KnotsHeader} {s : Stages} (t : U64) :
      stageInputs h = some s → KnotsItem ⟨s.ss3, s.ss4, t, true⟩
  | pool {g : Worksrc} {x : Sess} {isDev : Bool} {ctx : WorkCtx} :
      g.chain = .knots → (buildFrom g x isDev).2 = some ctx → KnotsItem ctx

structure Digested (ss3 ss4 : List Byte) : Prop where
  ss3_len : ss3.length = stage3Len
  ss4_len : ss4.length = stage4Len
  digest : ss4.drop 48 = blake2bNokey ss3 32

theorem siaMerkleRoot_leaf {j : StratumJob} (h : j.branches.length = 0) (leaf : List Byte) :
    siaMerkleRoot j leaf = leaf := by
  rw [siaMerkleRoot, List.length_eq_zero_iff.mp h, List.foldl_nil]

theorem siaBuildStages_digested {j : StratumJob} {en1 en2 : List Byte} {st : BuiltStages}
    (h : siaBuildStages j en1 en2 = some st) (hb : j.branches.length = 0) :
    Digested st.ss3 st.ss4 := by
  simp only [siaBuildStages, Option.bind_eq_bind, Option.bind_eq_some_iff] at h
  obtain ⟨arbtx, -, h⟩ := h
  split at h
  · cases h
  rename_i hlen
  obtain rfl := Option.some.inj h
  have hfit : arbtx.length ≤ 4 * stratumMaxCb := by
    have : stage3Len = 52 := rfl
    have : stratumMaxCb = 512 := rfl
    omega
  have hroot : siaMerkleRoot j (siaArbtxLeaf arbtx) = blake2bNokey ([0x00#8] ++ arbtx) 32 := by
    rw [siaMerkleRoot_leaf hb, siaArbtxLeaf, List.take_of_length_le hfit]
  constructor
  · rw [List.length_append, Nat.add_comm]
    exact not_not.mp hlen
  · simp [headerOf, hroot, stage4Len]
  · rw [headerOf, hroot]
    exact List.drop_left' (by simp)

theorem buildMessages_digested {j : StratumJob} {en1 en2 ss3 ss4 : List Byte}
    (h : buildMessages .knots j en1 en2 = some (ss3, ss4)) : Digested ss3 ss4 := by
  simp only [buildMessages, Option.bind_eq_some_iff] at h
  obtain ⟨st, hst, h⟩ := h
  split at h
  · cases h
  rename_i hb
  cases h
  exact siaBuildStages_digested hst (not_not.mp hb)

theorem KnotsItem.digested {ctx : WorkCtx} (h : KnotsItem ctx) : Digested ctx.ss3 ctx.ss4 := by
  cases h with
  | solo t hs => exact ⟨ss3_length hs, ss4_length hs, ss4_digest hs⟩
  | pool hchain hbuilt =>
    rename_i g x isDev
    have h := (buildFrom_cases g x isDev).2
    rw [hbuilt] at h
    have hm := h.messages
    rw [hchain] at hm
    exact buildMessages_digested hm

theorem unpack_slot {item : List Byte} (h : item.length = workItemLen) (k : Nat) (hk : k ≤ 21) :
    (leWord kRxBits item).extractLsb' (64 * k) 64 = load64 (item.drop (8 * k)) := by
  have hlen : item.length = 168 := h
  have hw : 8 * item.length ≤ kRxBits := by rw [hlen, kRxBits]
  have hs := extract_leWord (8 * k) 8 item hw (by omega)
  rw [← Nat.mul_assoc] at hs
  exact hs

theorem load64_left {as : List Byte} {n : Nat} (h : n + 8 ≤ as.length) (bs : List Byte) :
    load64 ((as ++ bs).drop n) = load64 (as.drop n) := by
  have hfit : 8 ≤ (as.drop n).length := by
    rw [List.length_drop]
    omega
  rw [List.drop_append_of_le_length (by omega), load64, load64,
    List.take_append_of_le_length hfit]

theorem Digested.carried {ctx : WorkCtx} {item : List Byte} (h : Digested ctx.ss3 ctx.ss4)
    (hp : worksrcPackItem ctx workItemLen = some item) (e : Bool) (t : U64) :
    Carried ⟨e, unpackStage3 (leWord kRxBits item), unpackStage4 (leWord kRxBits item), t⟩
      ctx.ss3 := by
  obtain ⟨h3, h4, hd⟩ := h
  rw [worksrcPackItem, if_pos rfl] at hp
  obtain rfl := Option.some.inj hp
  generalize hpad : ctx.ss3 ++ List.replicate (slots * 8 - stage3Len) 0 = pad
  have hlen : pad.length = 80 := by
    rw [← hpad, List.length_append, h3, List.length_replicate]
    rfl
  have hitem : (pad ++ ctx.ss4 ++ putTargetLe ctx.targetTop64).length = workItemLen := by
    rw [List.length_append, List.length_append, hlen, h4, putTargetLe, leBytes_length]
    rfl
  constructor
  · funext k
    apply (unpack_slot hitem k.val (by omega)).trans
    rw [List.append_assoc, load64_left (by omega), ← hpad, load64_padded h3]
    rfl
  · intro k
    apply (unpack_slot hitem (10 + (k.val + 6)) (by omega)).trans
    rw [List.append_assoc, List.drop_append,
      List.drop_eq_nil_of_le (by omega), List.nil_append,
      load64_left (by rw [h4, stage4Len]; omega), digestSlice, ← hd, List.drop_drop, load64, hlen,
      show 8 * (10 + (k.val + 6)) - 80 = 48 + 8 * k.val by omega]

/-- A packed Knots item reaches the ports of the part from clock `a` on; `Enable`
and the target are free. -/
def Delivered (item : List Byte) (a : Nat) (input : Nat → TopIn) : Prop :=
  ∀ t, a ≤ t → (input t).Stage3In = unpackStage3 (leWord kRxBits item) ∧
    (input t).Stage4In = unpackStage4 (leWord kRxBits item)

theorem Delivered.carried {ctx : WorkCtx} {item : List Byte} {a : Nat} {input : Nat → TopIn}
    (h : Delivered item a input) (hd : Digested ctx.ss3 ctx.ss4)
    (hp : worksrcPackItem ctx workItemLen = some item) (t : Nat) (ht : a ≤ t) :
    Carried (input t) ctx.ss3 := by
  have hc := hd.carried hp (input t).Enable (input t).TargetTop64
  rw [← (h t ht).1, ← (h t ht).2] at hc
  exact hc

theorem stage3_bypass_invisible :
    (∀ ctx, KnotsItem ctx → ctx.ss3.length = stage3Len ∧ ctx.ss4.length = stage4Len ∧
      blake2bNokey ctx.ss3 32 = ctx.ss4.drop 48) ∧
    (∀ (m : List Byte) (input : Nat → Fin 10 → U64) (s₀ : Stage3Core) (a t : Nat),
      m.length = stage3Len → (∀ t, a ≤ t → input t = stage3Slots m) →
      a + (kPipeLength + 1) ≤ t → ∀ k : Fin 4, (run Stage3Core.step input s₀ t).HashOut k =
        leWord 64 (digestSlice (blake2bNokey m 32) (8 * k.val))) ∧
    (∀ (ctx : WorkCtx) (item : List Byte) (kNonceSeed : U64) (input : Nat → TopIn)
      (on : Top true) (off : Top false) (a t : Nat),
      KnotsItem ctx → worksrcPackItem ctx workItemLen = some item → Delivered item a input →
      (on.stage4.Nonce = off.stage4.Nonce ∨
        ∃ u, u < a + (kPipeLength + 1) ∧ (input u).Enable = false) →
      a + (kPipeLength + 1) + (kPipeLength + 2) ≤ t →
      (run (Top.step kNonceSeed) input on t).out = (run (Top.step kNonceSeed) input off t).out) := by
  refine ⟨?_, ?_, ?_⟩
  · intro ctx h
    exact ⟨h.digested.ss3_len, h.digested.ss4_len, h.digested.digest.symm⟩
  · intro m input s₀ a t hm hin ht k
    rw [← stage3Words_eq hm]
    exact stage3_settles (trace_run _ _ _) hm hin ht k
  · intro ctx item kNonceSeed input on off a t h hp hin hn ht
    exact tops_agree (trace_run _ _ _) (trace_run _ _ _) h.digested.ss3_len
      (hin.carried h.digested hp) hn ht

def fittingSrc : Worksrc :=
  worksrcStratumConfigure .knots
    { demoInit with job := { zeroJob with coinb1 := List.replicate 43 0x5a#8 } } none

def heldInput (item : List Byte) (t : Nat) : TopIn :=
  ⟨t != 0, unpackStage3 (leWord kRxBits item), unpackStage4 (leWord kRxBits item), 1⟩

theorem stage3_bypass_invisible_demo :
    (∃ ctx, (buildFrom fittingSrc .main false).2 = some ctx ∧
      blake2bNokey ctx.ss3 32 = ctx.ss4.drop 48) ∧
    ∃ s item, stageInputs knotsHeaderInit = some s ∧
      worksrcPackItem ⟨s.ss3, s.ss4, 1, true⟩ workItemLen = some item ∧
      ∀ (on : Top true) (off : Top false),
        (run (Top.step 0) (heldInput item) on 200).out =
          (run (Top.step 0) (heldInput item) off 200).out := by
  constructor
  · obtain ⟨ctx, h⟩ := Option.isSome_iff_exists.mp
      (show (buildFrom fittingSrc .main false).2.isSome = true by decide +kernel)
    exact ⟨ctx, h, (stage3_bypass_invisible.1 ctx (.pool rfl h)).2.2⟩
  · obtain ⟨s, hs⟩ := stageInputs_isSome (h := knotsHeaderInit) rfl
    refine ⟨s, _, hs, rfl, ?_⟩
    intro on off
    apply stage3_bypass_invisible.2.2 _ _ 0 _ on off 0 200 (.solo 1 hs) rfl
    · intro t _
      exact ⟨rfl, rfl⟩
    · exact .inr ⟨0, by decide, rfl⟩
    · decide

end OspreyBlake2b.Miner
