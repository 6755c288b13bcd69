import OspreyBlake2b.Hash.Blake2bLaws
import OspreyBlake2b.Miner.Gbt

namespace OspreyBlake2b.Miner

open OspreyBlake2b.Lib OspreyBlake2b.Hash.Blake2b OspreyBlake2b.Hash.Sha256

variable {h : KnotsHeader} {s : Stages}

theorem stageInputs_isSome (hmode : h.mFlags &&& 3 = 0) : ∃ s, stageInputs h = some s := by
  rw [stageInputs, if_neg (not_not_intro hmode)]
  exact ⟨_, rfl⟩

theorem mode_of_stageInputs (hs : stageInputs h = some s) : ¬ h.mFlags &&& 3 ≠ 0 := by
  intro hmode
  rw [stageInputs, if_pos hmode] at hs
  cases hs

theorem leBytes_halves (n : U64) :
    leBytes 8 n = leBytes 4 (n.setWidth 32) ++ leBytes 4 ((n >>> 32).setWidth 32) := by
  rw [leBytes_setWidth _ _ (by decide), leBytes_setWidth _ _ (by decide)]
  exact leBytes_add 4 4 n

theorem putNonce_words {prev c d e : List Byte} (hprev : prev.length = 32) (lo hi : U32) (n : U64) :
    putNonce (prev ++ leBytes 4 lo ++ leBytes 4 hi ++ c ++ d ++ e) n =
      prev ++ leBytes 4 (n.setWidth 32) ++ leBytes 4 ((n >>> 32).setWidth 32) ++ c ++ d ++ e := by
  have htake : (prev ++ leBytes 4 lo ++ leBytes 4 hi ++ c ++ d ++ e).take 32 = prev := by
    simp only [List.append_assoc]
    exact List.take_left' hprev
  have hdrop : (prev ++ leBytes 4 lo ++ leBytes 4 hi ++ c ++ d ++ e).drop 40 = c ++ d ++ e := by
    rw [List.append_assoc _ c, List.append_assoc _ (c ++ d)]
    exact List.drop_left' (by simp [hprev])
  rw [putNonce, htake, hdrop, leBytes_halves]
  simp only [List.append_assoc]

theorem stageInputs_withNonce (hs : stageInputs h = some s) (n : U64) :
    stageInputs (withNonce h n) = some { s with ss4 := putNonce s.ss4 n } := by
  have hmode := mode_of_stageInputs hs
  rw [stageInputs, if_neg hmode] at hs
  obtain rfl := Option.some.inj hs
  rw [stageInputs, if_neg (show ¬ (withNonce h n).mFlags &&& 3 ≠ 0 from hmode)]
  have hprev : (List.replicate 6 0 ++ (taggedHash "Bitcoin prevblock header, hashed"
      h.hashPrevBlock.toList.reverse).drop 6).length = 32 := by simp
  simp only [putNonce_words hprev]
  rfl

theorem ss3_length (hs : stageInputs h = some s) : s.ss3.length = stage3Len := by
  rw [stageInputs, if_neg (mode_of_stageInputs hs)] at hs
  obtain rfl := Option.some.inj hs
  simp [stage3Len]

theorem ss4_length (hs : stageInputs h = some s) : s.ss4.length = stage4Len := by
  rw [stageInputs, if_neg (mode_of_stageInputs hs)] at hs
  obtain rfl := Option.some.inj hs
  simp [stage4Len]

theorem ss4_digest (hs : stageInputs h = some s) : s.ss4.drop 48 = blake2bNokey s.ss3 32 := by
  rw [stageInputs, if_neg (mode_of_stageInputs hs)] at hs
  obtain rfl := Option.some.inj hs
  exact List.drop_left' (by simp)

theorem replicate_xor (bs : List Byte) (n : Nat) (h : bs.length ≤ n) :
    bs.zipWith (· ^^^ ·) (List.replicate n 0#8) = bs := by
  induction bs generalizing n with
  | nil => rfl
  | cons b bs ih =>
    obtain ⟨n, rfl⟩ := Nat.exists_eq_add_of_le' (Nat.lt_of_lt_of_le (Nat.succ_pos _) h)
    rw [List.replicate_succ, List.zipWith_cons_cons, ih n (by simpa using h), BitVec.xor_zero]

theorem xorMask_zero (hkey : h.mXorKey.toList.all (· = 0) = true) :
    xorMask h = List.replicate 32 0#8 := if_pos hkey

theorem nonce_slot {pad ss4 : List Byte} (hpad : pad.length = 80) (hss4 : ss4.length = 80)
    (tgt : List Byte) (n : U64) :
    (((pad ++ ss4 ++ tgt).take 112 ++ leBytes 8 n ++ (pad ++ ss4 ++ tgt).drop 120).drop 80).take 80 =
      putNonce ss4 n := by
  have htake : (pad ++ ss4 ++ tgt).take 112 = pad ++ ss4.take 32 := by
    rw [List.append_assoc, List.take_append, List.take_append, List.take_of_length_le (by omega),
      hpad, hss4]
    simp
  have hdrop : (pad ++ ss4 ++ tgt).drop 120 = ss4.drop 40 ++ tgt := by
    rw [List.append_assoc, List.drop_append, List.drop_append, List.drop_eq_nil_of_le (by omega),
      hpad, hss4]
    simp
  have hlen : (ss4.take 32 ++ leBytes 8 n ++ ss4.drop 40).length = 80 := by simp [hss4]
  rw [htake, hdrop, List.append_assoc, List.append_assoc, List.drop_left' hpad, putNonce,
    ← List.append_assoc, ← List.append_assoc, List.take_left' hlen]

theorem buildWork_packs (hmode : h.mFlags &&& 3 = 0) (g : Gbt) (now : U64) :
    ∃ ctx, (buildWork g now h).2 = some ctx ∧
      buildWorkItem (buildWork g now h).1.gbtHdr ctx.targetTop64 =
        worksrcPackItem ctx workItemLen := by
  obtain ⟨s, hs⟩ := stageInputs_isSome (h := { h with
    mExtranonce := (h.mExtranonce.set 0 (now.setWidth 8)).set 1 ((now >>> 8).setWidth 8) }) hmode
  refine ⟨_, by rw [buildWork, hs], ?_⟩
  rw [buildWork, hs, buildWorkItem, hs]
  rfl

/-- For every header of mode 0, every nonce and every target word. -/
theorem solo_message_agrees (h : KnotsHeader) (n t : U64) (hmode : h.mFlags &&& 3 = 0) :
    ∃ s sn item, stageInputs h = some s ∧ stageInputs (withNonce h n) = some sn ∧
      buildWorkItem h t = some item ∧
      worksrcPackItem ⟨s.ss3, s.ss4, t, true⟩ workItemLen = some item ∧
      sn.ss4 = ((item.take 112 ++ leBytes 8 n ++ item.drop 120).drop 80).take 80 ∧
      sn.ss3 = s.ss3 ∧ sn.hashA = s.hashA ∧
      expectedHashTop64 (withNonce h n) = siaExpectedTop64 s.ss4 n ∧
      (h.mXorKey.toList.all (· = 0) = true →
        getPowHash (withNonce h n) = some (siaPowCompare s.ss4 n)) ∧
      ∀ g now, ∃ ctx, (buildWork g now h).2 = some ctx ∧
        buildWorkItem (buildWork g now h).1.gbtHdr ctx.targetTop64 = worksrcPackItem ctx workItemLen := by
  obtain ⟨s, hs⟩ := stageInputs_isSome hmode
  have hn := stageInputs_withNonce hs n
  have hpad : (s.ss3 ++ List.replicate (slots * 8 - stage3Len) 0).length = 80 := by
    rw [List.length_append, ss3_length hs]
    rfl
  refine ⟨s, _, _, hs, hn, by rw [buildWorkItem, hs]; rfl, rfl, ?_, rfl, rfl, ?_, ?_, ?_⟩
  · exact (nonce_slot hpad (ss4_length hs) _ n).symm
  · rw [expectedHashTop64, hn]
    rfl
  · intro hkey
    have hmask := xorMask_zero (h := withNonce h n) hkey
    rw [getPowHash, hn, Option.map_some, hmask, replicate_xor _ _ (by simp)]
    rfl
  · exact buildWork_packs hmode

theorem solo_message_agrees_init :
    knotsHeaderInit.mFlags &&& 3 = 0 ∧ ∃ s, stageInputs knotsHeaderInit = some s ∧
      getPowHash (withNonce knotsHeaderInit 7) = some (siaPowCompare s.ss4 7) := by
  obtain ⟨s, -, -, hs, -, -, -, -, -, -, -, hpow, -⟩ := solo_message_agrees knotsHeaderInit 7 1 rfl
  exact ⟨rfl, s, hs, hpow (by decide)⟩

end OspreyBlake2b.Miner
