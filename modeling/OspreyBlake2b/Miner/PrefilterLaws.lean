import OspreyBlake2b.Rtl.CoreLaws
import OspreyBlake2b.Miner.SiaStratum

namespace OspreyBlake2b.Miner

open OspreyBlake2b.Lib OspreyBlake2b.Hash.Blake2b OspreyBlake2b.Rtl

def messageWords (ss4 : List Byte) (i : Fin 10) : U64 := load64 (ss4.drop (8 * i.val))

theorem leBytes_load64 (p : List Byte) (h : 8 ≤ p.length) : leBytes 8 (load64 p) = p.take 8 := by
  rw [load64]
  exact leBytes_leWord 8 _ (by simp [h])

theorem flatMap_messageWords (ss4 : List Byte) (k n : Nat) (h : 8 * (k + n) ≤ ss4.length) :
    ((List.range' k n).flatMap fun i => leBytes 8 (load64 (ss4.drop (8 * i)))) =
      (ss4.drop (8 * k)).take (8 * n) := by
  induction n generalizing k with
  | zero => simp
  | succ n ih =>
    rw [List.range'_succ, List.flatMap_cons, ih (k + 1) (by omega),
      leBytes_load64 _ (by simp; omega), Nat.mul_succ 8 n, Nat.add_comm (8 * n), List.take_add,
      List.drop_drop]
    rfl

theorem headerBytes_messageWords (ss4 : List Byte) (n : U64) (h : ss4.length = 80) :
    headerBytes (messageWords ss4) n = putNonce ss4 n := by
  have hlow := flatMap_messageWords ss4 0 4 (by omega)
  have hhigh := flatMap_messageWords ss4 5 5 (by omega)
  have hd : ss4.drop 40 = (ss4.drop (8 * 5)).take (8 * 5) := by
    rw [List.take_of_length_le (by simp [h])]
  rw [putNonce, hd, ← hhigh]
  have ht : ss4.take 32 = (ss4.drop (8 * 0)).take (8 * 4) := rfl
  rw [ht, ← hlow]
  simp [headerBytes, headerWords, messageWords, List.range'_succ]

theorem top64_toNat (t : List Byte) : (top64 t).toNat = beVal (t.take 8) :=
  beWord_toNat 64 _ (by simp; omega)

theorem hashMeetsTarget_iff {hash target : List Byte} (h : hash.length = target.length) :
    hashMeetsTarget hash target = true ↔ beVal hash ≤ beVal target := by
  rw [hashMeetsTarget, decide_eq_true_iff]
  exact memcmp_nonpos_iff h

/-- The host accepts a hash whose leading word already equals the target's. -/
def TopWordTie (hash target : List Byte) : Prop :=
  top64 hash = top64 target ∧ beVal (hash.drop 8) ≤ beVal (target.drop 8)

instance (hash target : List Byte) : Decidable (TopWordTie hash target) := inferInstanceAs (Decidable (_ ∧ _))

theorem TopWordTie.meets {hash target : List Byte} (hl : hash.length = target.length)
    (h : TopWordTie hash target) : hashMeetsTarget hash target = true := by
  obtain ⟨htop, hlow⟩ := h
  rw [hashMeetsTarget_iff hl]
  have ht := congrArg BitVec.toNat htop
  rw [top64_toNat, top64_toNat] at ht
  rw [← List.take_append_drop 8 hash, ← List.take_append_drop 8 target, beVal_append, beVal_append,
    ht, List.length_drop, List.length_drop, hl]
  exact Nat.add_le_add_left hlow _

theorem top64_lt_of_meets {hash target : List Byte} (hl : hash.length = target.length)
    (hm : hashMeetsTarget hash target = true) (hn : ¬ TopWordTie hash target) :
    top64 hash < top64 target := by
  rw [hashMeetsTarget_iff hl] at hm
  have htop := beVal_take_le 8 hl hm
  rw [← top64_toNat, ← top64_toNat] at htop
  apply lt_of_le_of_ne (a := (top64 hash).toNat) htop
  intro ht
  apply hn
  refine ⟨BitVec.eq_of_toNat_eq ht, ?_⟩
  rw [top64_toNat, top64_toNat] at ht
  rw [← List.take_append_drop 8 hash, ← List.take_append_drop 8 target, beVal_append, beVal_append,
    ht, List.length_drop, List.length_drop, hl] at hm
  exact Nat.le_of_add_le_add_left hm

/-- A strict 64-bit filter in front of a non-strict 256-bit check loses exactly
the hashes that tie on the leading word. -/
theorem meets_imp_lt_iff {hash target : List Byte} (hl : hash.length = target.length) :
    (hashMeetsTarget hash target = true → top64 hash < top64 target) ↔ ¬ TopWordTie hash target := by
  constructor
  · intro h tie
    have hlt := h (tie.meets hl)
    rw [tie.1] at hlt
    exact BitVec.lt_irrefl _ hlt
  · intro hn hm
    exact top64_lt_of_meets hl hm hn

theorem blake2bNokey_putNonce (ss4 : List Byte) (h : ss4.length = 80) (n : U64) :
    blake2bNokey (putNonce ss4 n) 32 = emit (digestWords (messageWords ss4) n) 32 := by
  rw [← headerBytes_messageWords ss4 n h, blake2bNokey_header]

theorem top64_reverse_digest (w : Vector U64 8) : top64 (emit w 32).reverse = w.get 3 := by
  have h24 : (emit w 32).drop 24 = leBytes 8 w[3] := by
    rw [← emit_word w 32 3 (by omega) (by omega), List.take_of_length_le (by simp [emit_length])]
  rw [top64, List.take_reverse, emit_length, h24, beWord_eq_leWord_reverse, List.reverse_reverse]
  exact leWord_leBytes 8 _

theorem top64_digest (w : Vector U64 8) : top64 (emit w 32) = byteReverse (w.get 0) := by
  have h0 : (emit w 32).take 8 = leBytes 8 w[0] := by
    rw [← emit_word w 32 0 (by omega) (by omega)]
    rfl
  rw [top64, h0, byteReverse_eq]
  rfl

theorem knots_success_iff (ss4 : List Byte) (h : ss4.length = 80) (kNonceSeed T : U64) (s₀ : Core)
    (i : Nat) :
    (Clocked.run (stage4CoreStep kNonceSeed) (grindInput (messageWords ss4) T) s₀
      (2 + (kPipeLength + 1) + i)).Success = true ↔
      top64 (siaPowCompare ss4 (kNonceSeed + BitVec.ofNat 64 i)) < T := by
  have ho := (grinds_run stage4Tap kNonceSeed (messageWords ss4) T s₀).output stage4Tap_wired i
  have ht : 2 + (kPipeLength + 1) + i = i + kPipeLength + 3 := by omega
  rw [siaPowCompare, blake2bNokey_putNonce ss4 h, top64_reverse_digest, ht]
  exact ho.1

theorem sia_success_iff (ss4 : List Byte) (h : ss4.length = 80) (kNonceSeed T : U64) (s₀ : Core)
    (i : Nat) :
    (Clocked.run (siaCoreStep kNonceSeed) (grindInput (messageWords ss4) T) s₀
      (2 + (kPipeLength + 1) + i)).Success = true ↔
      top64 (siaChainPowCompare ss4 (kNonceSeed + BitVec.ofNat 64 i)) < T := by
  have ho := (grinds_run siaTap kNonceSeed (messageWords ss4) T s₀).output siaTap_wired i
  have ht : 2 + (kPipeLength + 1) + i = i + kPipeLength + 3 := by omega
  rw [siaChainPowCompare, blake2bNokey_putNonce ss4 h, top64_digest, ht]
  exact ho.1

theorem prefilter_lossless_iff (ss4 : Vector Byte stage4Len) (target : Vector Byte 32)
    (kNonceSeed : U64) (s₀ : Core) (i : Nat) :
    let nonce := kNonceSeed + BitVec.ofNat 64 i
    let input := grindInput (messageWords ss4.toList) (top64 target.toList)
    let knots := Clocked.run (stage4CoreStep kNonceSeed) input s₀ (2 + (kPipeLength + 1) + i)
    let sia := Clocked.run (siaCoreStep kNonceSeed) input s₀ (2 + (kPipeLength + 1) + i)
    ((hashMeetsTarget (siaPowCompare ss4.toList nonce) target.toList = true →
        knots.Success = true) ↔
      ¬ TopWordTie (siaPowCompare ss4.toList nonce) target.toList) ∧
    ((hashMeetsTarget (siaChainPowCompare ss4.toList nonce) target.toList = true →
        sia.Success = true) ↔
      ¬ TopWordTie (siaChainPowCompare ss4.toList nonce) target.toList) := by
  intro nonce input knots sia
  have hss4 : ss4.toList.length = 80 := Vector.length_toList
  have hknots := knots_success_iff ss4.toList hss4 kNonceSeed (top64 target.toList) s₀ i
  have hsia := sia_success_iff ss4.toList hss4 kNonceSeed (top64 target.toList) s₀ i
  constructor
  · rw [hknots]
    exact meets_imp_lt_iff (by simp [siaPowCompare])
  · rw [hsia]
    exact meets_imp_lt_iff (by simp [siaChainPowCompare])

theorem prefilter_loses_a_solution :
    let ss4 := List.replicate 80 (0 : Byte)
    let target := siaPowCompare ss4 0
    hashMeetsTarget (siaPowCompare ss4 0) target = true ∧
      ∀ s₀, (Clocked.run (stage4CoreStep 0) (grindInput (messageWords ss4) (top64 target)) s₀
        (2 + (kPipeLength + 1) + 0)).Success = false := by
  intro ss4 target
  constructor
  · exact (hashMeetsTarget_iff rfl).mpr (le_refl _)
  · intro s₀
    have h := knots_success_iff ss4 (by simp [ss4]) 0 (top64 target) s₀ 0
    rw [← Bool.not_eq_true, h]
    exact BitVec.lt_irrefl _

end OspreyBlake2b.Miner
