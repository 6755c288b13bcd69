import OspreyBlake2b.Hash.Sha256
import OspreyBlake2b.Lib.Sha2

namespace OspreyBlake2b.Hash.Sha256

open OspreyBlake2b.Lib

theorem rotr_eq (x : U32) {n : Nat} (h : n < 32) : rotr x n = x.rotateRight n := by
  rw [rotr, BitVec.rotateRight_def, Nat.mod_eq_of_lt h]

theorem ep0_eq (x : U32) : ep0 x = Sha2.sha256.bigSigma0 x := by
  simp only [ep0, Sha2.sha256, rotr_eq x (show 2 < 32 by decide),
    rotr_eq x (show 13 < 32 by decide), rotr_eq x (show 22 < 32 by decide)]

theorem ep1_eq (x : U32) : ep1 x = Sha2.sha256.bigSigma1 x := by
  simp only [ep1, Sha2.sha256, rotr_eq x (show 6 < 32 by decide),
    rotr_eq x (show 11 < 32 by decide), rotr_eq x (show 25 < 32 by decide)]

theorem sig0_eq (x : U32) : sig0 x = Sha2.sha256.smallSigma0 x := by
  simp only [sig0, Sha2.sha256, rotr_eq x (show 7 < 32 by decide),
    rotr_eq x (show 18 < 32 by decide)]

theorem sig1_eq (x : U32) : sig1 x = Sha2.sha256.smallSigma1 x := by
  simp only [sig1, Sha2.sha256, rotr_eq x (show 17 < 32 by decide),
    rotr_eq x (show 19 < 32 by decide)]

theorem K_eq : K = (List.range 64).map Sha2.sha256.K := by
  have h : List.Forall₂ (IsRootBits 3 32) (primes.take 64) K := by decide +kernel
  exact (map_rootBits_prime (by decide) h).symm

def Regs.words (r : Regs) : Sha2.Words 32 := ⟨r.a, r.b, r.cc, r.dd, r.e, r.f, r.g, r.h⟩

theorem init_words : sha256Init.state.words = Sha2.sha256.H0 := by
  have h : List.Forall₂ (IsRootBits 2 32) (primes.take 8)
      [0x6a09e667#32, 0xbb67ae85#32, 0x3c6ef372#32, 0xa54ff53a#32,
        0x510e527f#32, 0x9b05688c#32, 0x1f83d9ab#32, 0x5be0cd19#32] := by decide +kernel
  replace h := map_rootBits_prime (by decide) h
  simp only [List.range_succ, List.range_zero, List.nil_append, List.cons_append, List.map_cons,
    List.map_nil, List.cons.injEq, and_true] at h
  obtain ⟨h0, h1, h2, h3, h4, h5, h6, h7⟩ := h
  simp only [Regs.words, sha256Init, Sha2.sha256, Sha2.Words.ofFn, h0, h1, h2, h3, h4, h5, h6, h7]

def scheduleStep (m : List U32) (k : Nat) : List U32 :=
  let i := k + 16
  m ++ [sig1 (m.getD (i - 2) 0) + m.getD (i - 7) 0 + sig0 (m.getD (i - 15) 0) + m.getD (i - 16) 0]

theorem scheduleStep_words (d : List Byte) (k : Nat) :
    scheduleStep ((List.range (k + 16)).map (Sha2.schedule Sha2.sha256 d)) k =
      (List.range (k + 1 + 16)).map (Sha2.schedule Sha2.sha256 d) := by
  have hget {t : Nat} (ht : t < k + 16) :
      ((List.range (k + 16)).map (Sha2.schedule Sha2.sha256 d)).getD t 0 =
        Sha2.schedule Sha2.sha256 d t := by
    rw [List.getD_eq_getElem _ _ (by simpa using ht), List.getElem_map, List.getElem_range]
  rw [scheduleStep, hget (by omega), hget (by omega), hget (by omega), hget (by omega), sig0_eq,
    sig1_eq, ← Sha2.schedule_of_ge (by omega), Nat.add_right_comm,
    List.range_succ (n := k + 16), List.map_append, List.map_singleton]

theorem schedule_eq (d : List Byte) :
    schedule d = (List.range 64).map (Sha2.schedule Sha2.sha256 d) := by
  have hloop (k : Nat) : (List.range k).foldl scheduleStep
      ((List.range 16).map fun i => beWord 32 ((d.drop (4 * i)).take 4)) =
        (List.range (k + 16)).map (Sha2.schedule Sha2.sha256 d) := by
    induction k with
    | zero =>
      apply List.map_congr_left
      intro t ht
      exact (Sha2.schedule_of_lt (List.mem_range.mp ht)).symm
    | succ k ih =>
      rw [← scheduleStep_words, ← ih, List.range_succ (n := k), List.foldl_append,
        List.foldl_cons, List.foldl_nil]
  exact hloop 48

theorem roundStep_words (r : Regs) (d : List Byte) (t : Nat) :
    (roundStep r (Sha2.sha256.K t) (Sha2.schedule Sha2.sha256 d t)).words =
      Sha2.round Sha2.sha256 d r.words t := by
  simp only [roundStep, Regs.words, Sha2.round, ep0_eq, ep1_eq]
  rfl

theorem sha256Transform_words (s : Regs) (d : List Byte) :
    (sha256Transform s d).words = Sha2.compress Sha2.sha256 s.words d := by
  have hrounds (ts : List Nat) (r : Regs) :
      (ts.foldl (fun r t => roundStep r (Sha2.sha256.K t) (Sha2.schedule Sha2.sha256 d t)) r).words =
        ts.foldl (Sha2.round Sha2.sha256 d) r.words := by
    induction ts generalizing r with
    | nil => rfl
    | cons t ts ih => rw [List.foldl_cons, List.foldl_cons, ih, roundStep_words]
  have hzip : K.zip (schedule d) =
      (List.range 64).map fun t => (Sha2.sha256.K t, Sha2.schedule Sha2.sha256 d t) := by
    rw [K_eq, schedule_eq, List.zip_map']
  simp only [sha256Transform, hzip, List.foldl_map, Sha2.compress, ← hrounds]
  rfl

theorem foldl_transform_words (s : Regs) (blocks : List (List Byte)) :
    (blocks.foldl sha256Transform s).words = blocks.foldl (Sha2.compress Sha2.sha256) s.words := by
  induction blocks generalizing s with
  | nil => rfl
  | cons d blocks ih => rw [List.foldl_cons, List.foldl_cons, ih, sha256Transform_words]

def absorb (s : Regs × U64) (block : List Byte) : Regs × U64 :=
  (sha256Transform s.1 block, s.2 + 512)

def Sha256Ctx.ofFeed (c : (Regs × U64) × List Byte) : Sha256Ctx := ⟨c.2, c.1.2, c.1.1⟩

theorem updateByte_ofFeed (c : (Regs × U64) × List Byte) (b : Byte) :
    updateByte (.ofFeed c) b = .ofFeed (Blocks.feed 64 absorb c b) := by
  by_cases hfull : (c.2 ++ [b]).length = 64
  · rw [Blocks.feed_full hfull]
    exact if_pos hfull
  · rw [Blocks.feed_open hfull]
    exact if_neg hfull

theorem foldl_absorb (s : Regs × U64) (blocks : List (List Byte)) :
    blocks.foldl absorb s =
      (blocks.foldl sha256Transform s.1, s.2 + BitVec.ofNat 64 (512 * blocks.length)) := by
  induction blocks generalizing s with
  | nil => simp
  | cons d blocks ih =>
    have hbits : s.2 + 512#64 + BitVec.ofNat 64 (512 * blocks.length) =
        s.2 + BitVec.ofNat 64 (512 * (blocks.length + 1)) := by
      rw [Nat.mul_succ, Nat.add_comm, BitVec.ofNat_add, BitVec.add_assoc]
    rw [List.foldl_cons, ih, absorb, List.foldl_cons, List.length_cons, ← hbits]
    dsimp only
    rfl

theorem sha256Update_init (m : List Byte) :
    sha256Update sha256Init m =
      ⟨Blocks.rest 64 m, BitVec.ofNat 64 (512 * (m.length / 64)),
        (Blocks.blocks 64 m).foldl sha256Transform sha256Init.state⟩ := by
  have hfeed : sha256Update sha256Init m =
      .ofFeed (m.foldl (Blocks.feed 64 absorb) ((sha256Init.state, 0), [])) := by
    change m.foldl updateByte (.ofFeed ((sha256Init.state, 0), [])) = _
    exact List.foldl_hom _ updateByte_ofFeed
  rw [hfeed, Blocks.foldl_feed (by decide), foldl_absorb, Blocks.length_blocks]
  simp [Sha256Ctx.ofFeed]

theorem sha256Update_append (c : Sha256Ctx) (xs ys : List Byte) :
    sha256Update c (xs ++ ys) = sha256Update (sha256Update c xs) ys := List.foldl_append

theorem foldl_sha256Update (c : Sha256Ctx) (parts : List (List Byte)) :
    parts.foldl sha256Update c = sha256Update c parts.flatten :=
  List.foldl_flatten.symm

theorem bitlen_eq (len : Nat) :
    BitVec.ofNat 64 (512 * (len / 64)) + BitVec.ofNat 64 (len % 64) * 8 =
      BitVec.ofNat 64 (8 * len) := by
  have hlen : 8 * len = 512 * (len / 64) + len % 64 * 8 := by omega
  rw [hlen, BitVec.ofNat_add, BitVec.ofNat_mul (len % 64)]
  rfl

def finalBlocks (data tail : List Byte) : List (List Byte) :=
  if data.length < 56 then
    [data ++ [0x80#8] ++ List.replicate (55 - data.length) 0 ++ tail]
  else
    [data ++ [0x80#8] ++ List.replicate (63 - data.length) 0, List.replicate 56 0 ++ tail]

theorem sha256Final_eq (c : Sha256Ctx) :
    sha256Final c =
      ((finalBlocks c.data (leBytes 8 (c.bitlen + BitVec.ofNat 64 c.data.length * 8)).reverse).foldl
        sha256Transform c.state).words.bytes := by
  simp only [sha256Final, finalBlocks]
  split
  · rfl
  · rfl

theorem finalBlocks_lengths {data tail : List Byte} (hdata : data.length < 64)
    (htail : tail.length = 8) : ∀ b ∈ finalBlocks data tail, b.length = 64 := by
  intro b hb
  rw [finalBlocks] at hb
  split at hb
  · obtain rfl := List.mem_singleton.mp hb
    simp
    omega
  · simp only [List.mem_cons, List.not_mem_nil, or_false] at hb
    obtain rfl | rfl := hb
    · simp
      omega
    · simp [htail]

theorem finalBlocks_flatten (m : List Byte) :
    (finalBlocks (Blocks.rest 64 m) (Sha2.bitLength 32 m.length)).flatten =
      Blocks.rest 64 m ++ ([0x80#8] ++ List.replicate (Sha2.zeros 32 m.length) 0 ++
        Sha2.bitLength 32 m.length) := by
  have hlen := Blocks.length_rest 64 m
  rw [finalBlocks, hlen]
  split
  · next h =>
    have hzeros : Sha2.zeros 32 m.length = 55 - m.length % 64 := by
      rw [Sha2.zeros]
      omega
    rw [hzeros]
    simp
  · next h =>
    have hzeros : Sha2.zeros 32 m.length = 63 - m.length % 64 + 56 := by
      rw [Sha2.zeros]
      omega
    rw [hzeros, List.replicate_add]
    simp

theorem sha256Final_update (m : List Byte) :
    sha256Final (sha256Update sha256Init m) = Sha2.hash Sha2.sha256 m := by
  have hlen := Blocks.length_rest 64 m
  have hlt : (Blocks.rest 64 m).length < 64 := hlen.trans_lt (Nat.mod_lt _ (by decide))
  have htail : (Sha2.bitLength 32 m.length).length = 8 := by simp [Sha2.bitLength]
  have hblocks : Blocks.blocks 64 (Sha2.pad 32 m) =
      Blocks.blocks 64 m ++
        finalBlocks (Blocks.rest 64 m) (Sha2.bitLength 32 m.length) := by
    rw [Sha2.pad, List.append_assoc, List.append_assoc,
      (Blocks.append_split (by decide) m _).1, ← List.append_assoc [0x80#8], ← finalBlocks_flatten,
      Blocks.blocks_flatten (by decide) (finalBlocks_lengths hlt htail)]
  have hhash : Sha2.hash Sha2.sha256 m =
      ((Blocks.blocks 64 (Sha2.pad 32 m)).foldl (Sha2.compress Sha2.sha256) Sha2.sha256.H0).bytes :=
    rfl
  rw [hhash, hblocks, sha256Final_eq, sha256Update_init, hlen, bitlen_eq, ← List.foldl_append,
    foldl_transform_words, init_words]
  rfl

theorem sha256_eq (m : List Byte) : sha256 m = Sha2.hash Sha2.sha256 m := sha256Final_update m

example : sha256 (ascii "abc") = [
    0xba#8, 0x78#8, 0x16#8, 0xbf#8, 0x8f#8, 0x01#8, 0xcf#8, 0xea#8,
    0x41#8, 0x41#8, 0x40#8, 0xde#8, 0x5d#8, 0xae#8, 0x22#8, 0x23#8,
    0xb0#8, 0x03#8, 0x61#8, 0xa3#8, 0x96#8, 0x17#8, 0x7a#8, 0x9c#8,
    0xb4#8, 0x10#8, 0xff#8, 0x61#8, 0xf2#8, 0x00#8, 0x15#8, 0xad#8] := by
  decide +kernel

/-- Incremental hashing does not see how the input is split, and computes SHA-256. -/
theorem incremental_is_sha256 (parts : List (List Byte)) (tag : String) (payload : List Byte) :
    sha256Final (parts.foldl sha256Update sha256Init) = Sha2.hash Sha2.sha256 parts.flatten ∧
    taggedHash tag payload =
      Sha2.hash Sha2.sha256 (Sha2.hash Sha2.sha256 (ascii tag) ++
        Sha2.hash Sha2.sha256 (ascii tag) ++ payload) := by
  constructor
  · rw [foldl_sha256Update, sha256Final_update]
  · simp only [← sha256_eq]
    rw [taggedHash]
    generalize sha256 (ascii tag) = th
    rw [sha256, sha256Update_append, sha256Update_append]

end OspreyBlake2b.Hash.Sha256
