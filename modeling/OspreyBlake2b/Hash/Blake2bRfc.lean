import OspreyBlake2b.Hash.Blake2bLaws
import OspreyBlake2b.Lib.Blake2
import OspreyBlake2b.Lib.Blocks

namespace OspreyBlake2b.Hash.Blake2b

open OspreyBlake2b.Lib

theorem rotr64_eq (x : U64) {n : Nat} (h : n < 64) : rotr64 x n = x.rotateRight n := by
  rw [rotr64, BitVec.rotateRight_def, Nat.mod_eq_of_lt h]

theorem iv_eq : iv.get = Blake2.blake2b.IV := by
  have h : List.Forall₂ (IsRootBits 2 64) (primes.take 8) iv.toList := by decide +kernel
  funext i
  have hi : i.val < iv.toList.length := i.isLt
  calc iv.get i = iv.toList[i.val] := rfl
    _ = iv.toList.getD i.val 0 := (List.getD_eq_getElem _ _ hi).symm
    _ = rootBits 2 64 (prime i.val) := (rootBits_prime (by decide) h i.isLt).symm

theorem sigma_eq (r : Fin 12) : (sigma.get r).get = Blake2.SIGMA (Fin.ofNat 10 r.val) := by
  revert r
  decide

section Stores

variable {n : Nat} {v : Vector α n} {i a b c d : Fin n}

theorem get_set (x : α) : (v.set i x i.isLt).get = Function.update v.get i x := by
  funext j
  rw [Function.update_apply, get_getElem, Vector.getElem_set]
  simp only [Fin.ext_iff, eq_comm (a := i.val), get_getElem]

theorem updates_eq {v : Fin n → α} (h : [a, b, c, d].Nodup) (wa xa wb xb wc xc wd xd : α) :
    let stored := Function.update (Function.update (Function.update (Function.update v a wa) d wd)
      c wc) b wb
    Function.update (Function.update (Function.update (Function.update stored a xa) d xd) c xc)
        b xb =
      Function.update (Function.update (Function.update (Function.update v a xa) b xb) c xc)
        d xd := by
  simp only [List.nodup_cons, List.mem_cons, List.not_mem_nil, or_false, not_or, not_false_eq_true,
    List.nodup_nil, and_true] at h
  obtain ⟨⟨hab, hac, had⟩, ⟨hbc, hbd⟩, hcd⟩ := h
  funext i
  simp only [Function.update_apply]
  split_ifs
  all_goals first | rfl | simp_all

end Stores

theorem G_eq (v : Fin 16 → U64) {a b c d : Fin 16} (h : [a, b, c, d].Nodup) (x y : U64) :
    Blake2.G Blake2.blake2b v a b c d x y =
      let q := mix ⟨v a, v b, v c, v d⟩ x y
      Function.update (Function.update (Function.update (Function.update v a q.a) b q.b) c q.c)
        d q.d := by
  rw [Blake2.G, updates_eq h]
  simp only [List.nodup_cons, List.mem_cons, List.not_mem_nil, or_false, not_or, not_false_eq_true,
    List.nodup_nil, and_true] at h
  obtain ⟨⟨hab, hac, had⟩, ⟨hbc, hbd⟩, hcd⟩ := h
  simp only [Blake2.blake2b, mix, rotr64_eq _ (show 32 < 64 by decide),
    rotr64_eq _ (show 24 < 64 by decide), rotr64_eq _ (show 16 < 64 by decide),
    rotr64_eq _ (show 63 < 64 by decide), Function.update_self, ne_eq, Function.update_of_ne,
    hab, hac, had, hbc, hbd, hcd, Ne.symm hab, Ne.symm hac, Ne.symm had, Ne.symm hbc, Ne.symm hbd,
    Ne.symm hcd, not_false_eq_true]

theorem G_rfc (m v : Vector U64 16) (r : Fin 12) (i : Fin 8) {a b c d : Fin 16}
    (h : [a, b, c, d].Nodup) :
    let s := Blake2.SIGMA (Fin.ofNat 10 r.val)
    (G m r i v a b c d).get =
      Blake2.G Blake2.blake2b v.get a b c d (m.get (s (Fin.ofNat 16 (2 * i.val))))
        (m.get (s (Fin.ofNat 16 (2 * i.val + 1)))) := by
  intro s
  have hs : s = (sigma.get r).get := (sigma_eq r).symm
  have hx : Fin.ofNat 16 (2 * i.val) = ⟨2 * i.val, by omega⟩ :=
    Fin.ext (Nat.mod_eq_of_lt (by omega))
  have hy : Fin.ofNat 16 (2 * i.val + 1) = ⟨2 * i.val + 1, by omega⟩ :=
    Fin.ext (Nat.mod_eq_of_lt (by omega))
  rw [G_eq _ h, hs, hx, hy, G]
  simp only [get_set]
  rfl

theorem round_rfc (m v : Vector U64 16) (r : Fin 12) :
    (round m v r).get = Blake2.round Blake2.blake2b m.get v.get r := by
  rw [round_eq, columns, diagonals]
  rw [G_rfc m _ r _ (by decide), G_rfc m _ r _ (by decide), G_rfc m _ r _ (by decide),
    G_rfc m _ r _ (by decide), G_rfc m _ r _ (by decide), G_rfc m _ r _ (by decide),
    G_rfc m _ r _ (by decide), G_rfc m _ r _ (by decide)]
  rfl

theorem rounds_rfc (m v : Vector U64 16) :
    (rounds m v).get =
      (List.range Blake2.blake2b.rounds).foldl (Blake2.round Blake2.blake2b m.get) v.get := by
  rw [rounds, show Blake2.blake2b.rounds = 12 from rfl, ← List.map_coe_finRange_eq_range,
    List.foldl_map]
  generalize List.finRange 12 = rs
  induction rs generalizing v with
  | nil => rfl
  | cons r rs ih => rw [List.foldl_cons, List.foldl_cons, ih, round_rfc]

theorem get_append (h : Vector U64 8) : (h ++ iv).get = Fin.append h.get Blake2.blake2b.IV := by
  rw [← iv_eq]
  funext i
  refine Fin.addCases (fun i => ?_) (fun i => ?_) i
  · rw [Fin.append_left]
    exact Vector.getElem_append_left i.isLt
  · rw [Fin.append_right]
    have hi : 8 + i.val - 8 = i.val := Nat.add_sub_cancel_left 8 i.val
    calc (h ++ iv).get (Fin.natAdd 8 i) = iv[8 + i.val - 8] :=
          Vector.getElem_append_right (by omega) (by omega)
      _ = iv.get i := by simp only [hi, get_getElem]

theorem compress_rfc (h : Vector U64 8) (block : List Byte) {t : Nat} (ht : t < 2 ^ 64)
    (last : Bool) :
    (compress h block (BitVec.ofNat 64 t) last).get =
      Blake2.F Blake2.blake2b h.get (loadBlock block).get t last := by
  have hhigh : t >>> 64 = 0 := by
    rw [Nat.shiftRight_eq_div_pow, Nat.div_eq_of_lt ht]
  have hinit : (initV h (BitVec.ofNat 64 t) last).get =
      let v := Function.update (h ++ iv).get 12 ((h ++ iv).get 12 ^^^ BitVec.ofNat 64 t)
      if last then Function.update v 14 (v 14 ^^^ BitVec.allOnes 64) else v := by
    cases last with
    | false => exact get_set (i := 12) _
    | true =>
      simp only [BitVec.xor_allOnes, ← get_set]
      rfl
  have hv := rounds_rfc (loadBlock block) (initV h (BitVec.ofNat 64 t) last)
  rw [hinit, get_append] at hv
  dsimp only at hv
  simp only [Blake2.F, hhigh, BitVec.xor_zero, Function.update_eq_self]
  rw [← hv, compress]
  generalize rounds (loadBlock block) (initV h (BitVec.ofNat 64 t) last) = v
  funext i
  rw [get_getElem, Vector.getElem_ofFn, ← BitVec.xor_assoc]
  simp only [get_getElem, Fin.val_castAdd, Fin.val_natAdd, Nat.add_comm 8, Fin.getElem_fin]

theorem loadBlock_take (block : List Byte) : loadBlock (block.take 128) = loadBlock block := by
  apply Vector.ext
  intro i hi
  simp only [loadBlock, Vector.getElem_ofFn, load64]
  rw [List.drop_take, List.take_take, Nat.min_eq_left (by omega)]

theorem block_rfc (inp : List Byte) (i : Nat) :
    Blake2.block 64 inp i = (loadBlock ((Blake2.pad 64 inp).drop (128 * i))).get := by
  funext j
  simp only [Blake2.block, loadBlock, get_getElem, Vector.getElem_ofFn, load64,
    List.drop_drop, Nat.mul_comm j.val]

def leading (len : Nat) : Nat := Blake2.blockCount 64 len - 1

theorem leading_of_le {len : Nat} (h : len ≤ 128) : leading len = 0 := by
  rw [leading, Blake2.blockCount]
  omega

theorem leading_of_gt {len : Nat} (h : 128 < len) : leading len = leading (len - 128) + 1 := by
  rw [leading, leading, Blake2.blockCount, Blake2.blockCount]
  omega

theorem absorb_eq (fuel : Nat) (h : Vector U64 8) (counter : U64) {rest : List Byte}
    (hfuel : rest.length ≤ fuel) :
    absorb fuel h counter rest =
      ((List.range (leading rest.length)).foldl (fun h i =>
        compress h ((rest.drop (128 * i)).take 128) (counter + BitVec.ofNat 64 (128 * (i + 1)))
          false) h,
        counter + BitVec.ofNat 64 (128 * leading rest.length),
        rest.drop (128 * leading rest.length)) := by
  induction fuel generalizing h counter rest with
  | zero =>
    rw [leading_of_le (by omega)]
    simp [absorb]
  | succ fuel ih =>
    rw [absorb]
    by_cases hlen : rest.length > 128
    · have hdrop (k : Nat) : (rest.drop 128).drop (128 * k) = rest.drop (128 * (k + 1)) := by
        rw [List.drop_drop, Nat.mul_succ, Nat.add_comm]
      have hcount (k : Nat) :
          counter + 128#64 + BitVec.ofNat 64 (128 * k) =
            counter + BitVec.ofNat 64 (128 * (k + 1)) := by
        rw [Nat.mul_succ, Nat.add_comm (128 * k), BitVec.ofNat_add, BitVec.add_assoc]
      rw [if_pos hlen, ih _ _ (by rw [List.length_drop]; omega), leading_of_gt hlen,
        List.length_drop, List.range_succ_eq_map, List.foldl_cons, List.foldl_map]
      simp only [hdrop, ← hcount]
      simp
    · rw [if_neg hlen, leading_of_le (by omega)]
      simp

theorem loadBlock_leading (inp : List Byte) {i : Nat} (hi : i < leading inp.length) :
    (loadBlock ((inp.drop (128 * i)).take 128)).get = Blake2.block 64 inp i := by
  have hle : 128 * (i + 1) ≤ inp.length := by
    rw [leading, Blake2.blockCount] at hi
    omega
  rw [block_rfc, ← loadBlock_take (List.drop _ (Blake2.pad 64 inp)), Blake2.pad,
    List.drop_append_of_le_length (by omega),
    List.take_append_of_le_length (by rw [List.length_drop]; omega)]

theorem loadBlock_last (inp : List Byte) :
    let rest := inp.drop (128 * leading inp.length)
    (loadBlock (rest ++ List.replicate (128 - rest.length) 0)).get =
      Blake2.block 64 inp (leading inp.length) := by
  have hle : 128 * leading inp.length ≤ inp.length := by
    rw [leading, Blake2.blockCount]
    omega
  have hzeros : 128 - (inp.length - 128 * leading inp.length) =
      2 * 64 * Blake2.blockCount 64 inp.length - inp.length := by
    rw [leading, Blake2.blockCount] at *
    omega
  dsimp only
  rw [block_rfc, Blake2.pad, List.drop_append_of_le_length hle, List.length_drop, hzeros]

theorem ofFn_get (v : Vector α n) : List.ofFn v.get = v.toList := by
  apply List.ext_getElem
  · simp
  · intro i h1 h2
    simp [get_getElem]

theorem emit_eq (h : Vector U64 8) {outlen : Nat} (hout : outlen ≤ 64) :
    emit h outlen = ((List.ofFn h.get).flatMap (leBytes 8)).take outlen := by
  rw [ofFn_get]
  apply List.ext_getElem?
  intro i
  by_cases hi : i < outlen
  · have hword : i / 8 < h.toList.length := by
      rw [Vector.length_toList]
      omega
    have hbyte : i % 8 < (leBytes 8 h.toList[i / 8]).length := by
      rw [leBytes_length]
      omega
    have hdrop := drop_words h.toList (i / 8)
    rw [List.drop_eq_getElem_cons hword, List.flatMap_cons] at hdrop
    have hget : ((h.toList.flatMap (leBytes 8)).drop (8 * (i / 8)))[i % 8]? = _ :=
      List.getElem?_drop
    rw [hdrop, List.getElem?_append_left hbyte, Nat.div_add_mod] at hget
    rw [List.getElem?_take_of_lt hi, ← hget, List.getElem?_eq_getElem hbyte]
    simp [emit, leBytes, hi, show i / 8 < 8 by omega]
  · rw [List.getElem?_eq_none (by rw [emit_length]; omega),
      List.getElem?_eq_none (by rw [List.length_take]; omega)]

theorem absorb_rfc {inp : List Byte} (hin : inp.length < 2 ^ 64) (h : Vector U64 8) :
    (absorb inp.length h 0 inp).1.get =
      (List.range (leading inp.length)).foldl (fun h i =>
        Blake2.F Blake2.blake2b h (Blake2.block 64 inp i) ((i + 1) * (2 * 64)) false) h.get := by
  have hle : 128 * leading inp.length ≤ inp.length := by
    rw [leading, Blake2.blockCount]
    omega
  have hloop (n : Nat) (hn : n ≤ leading inp.length) :
      ((List.range n).foldl (fun h i =>
        compress h ((inp.drop (128 * i)).take 128) (BitVec.ofNat 64 (128 * (i + 1))) false) h).get =
      (List.range n).foldl (fun h i =>
        Blake2.F Blake2.blake2b h (Blake2.block 64 inp i) ((i + 1) * (2 * 64)) false) h.get := by
    induction n with
    | zero => rfl
    | succ n ih =>
      rw [List.range_succ, List.foldl_append, List.foldl_append, ← ih (by omega), List.foldl_cons,
        List.foldl_cons, List.foldl_nil, List.foldl_nil, compress_rfc _ _ (by omega),
        loadBlock_leading inp (by omega), Nat.mul_comm 128]
  rw [absorb_eq _ _ _ (Nat.le_refl _), ← hloop _ (Nat.le_refl _)]
  simp only [BitVec.ofNat_eq_ofNat, BitVec.zero_add]

theorem absorb_rest (inp : List Byte) (h : Vector U64 8) :
    (absorb inp.length h 0 inp).2 =
      (BitVec.ofNat 64 (128 * leading inp.length), inp.drop (128 * leading inp.length)) := by
  rw [absorb_eq _ _ _ (Nat.le_refl _)]
  simp only [BitVec.ofNat_eq_ofNat, BitVec.zero_add]

/-- The RFC's BLAKE2b, for every message that a `size_t` counts and every length of digest. -/
theorem blake2bNokey_rfc (inp : List Byte) {outlen : Nat} (hin : inp.length < 2 ^ 64)
    (hout : outlen ≤ 64) :
    blake2bNokey inp outlen = Blake2.hash Blake2.blake2b inp outlen := by
  have hle : 128 * leading inp.length ≤ inp.length := by
    rw [leading, Blake2.blockCount]
    omega
  have hcounter : BitVec.ofNat 64 (128 * leading inp.length) +
      BitVec.ofNat 64 (inp.drop (128 * leading inp.length)).length = BitVec.ofNat 64 inp.length := by
    rw [← BitVec.ofNat_add, List.length_drop, Nat.add_sub_cancel' hle]
  have hparam : (paramBlock outlen).get =
      Function.update Blake2.blake2b.IV 0
        (Blake2.blake2b.IV 0 ^^^ 0x01010000#64 ^^^ BitVec.ofNat 64 outlen) := by
    rw [← iv_eq, BitVec.xor_assoc]
    exact get_set (i := 0) _
  simp only [blake2bNokey, absorb_rest, hcounter]
  rw [emit_eq _ hout, compress_rfc _ _ hin, loadBlock_last, absorb_rfc hin, hparam]
  rfl

theorem blake2bNokey_rfc_abc :
    Blake2.hash Blake2.blake2b [0x61#8, 0x62#8, 0x63#8] 64 = [
      0xba#8, 0x80#8, 0xa5#8, 0x3f#8, 0x98#8, 0x1c#8, 0x4d#8, 0x0d#8,
      0x6a#8, 0x27#8, 0x97#8, 0xb6#8, 0x9f#8, 0x12#8, 0xf6#8, 0xe9#8,
      0x4c#8, 0x21#8, 0x2f#8, 0x14#8, 0x68#8, 0x5a#8, 0xc4#8, 0xb7#8,
      0x4b#8, 0x12#8, 0xbb#8, 0x6f#8, 0xdb#8, 0xff#8, 0xa2#8, 0xd1#8,
      0x7d#8, 0x87#8, 0xc5#8, 0x39#8, 0x2a#8, 0xab#8, 0x79#8, 0x2d#8,
      0xc2#8, 0x52#8, 0xd5#8, 0xde#8, 0x45#8, 0x33#8, 0xcc#8, 0x95#8,
      0x18#8, 0xd3#8, 0x8a#8, 0xa8#8, 0xdb#8, 0xf1#8, 0x92#8, 0x5a#8,
      0xb9#8, 0x23#8, 0x86#8, 0xed#8, 0xd4#8, 0x00#8, 0x99#8, 0x23#8] := by
  have h := @blake2bNokey_rfc [0x61#8, 0x62#8, 0x63#8] 64 (by decide) (by decide)
  rw [← h]
  decide +kernel

end OspreyBlake2b.Hash.Blake2b
