import OspreyBlake2b.Lib.Digits
import OspreyBlake2b.Miner.Bech32
import Mathlib.Data.List.GetD

namespace OspreyBlake2b.Miner

open OspreyBlake2b.Lib

section Regroup

theorem beVal_inj {as bs : List Byte} (hlen : as.length = bs.length) (h : beVal as = beVal bs) :
    as = bs := by
  apply List.reverse_injective
  exact leVal_inj (by simpa using hlen) h

theorem beVal_concat (bs : List Byte) (b : Byte) : beVal (bs ++ [b]) = beVal bs * 256 + b.toNat := by
  rw [beVal_append, beVal_cons]
  simp

theorem shifted_in {g : Byte} (hg : g.toNat < 32) (acc : U32) {bits : Nat} (hbits : bits < 8) :
    ((acc <<< 5) ||| g.setWidth 32).toNat % 2 ^ (bits + 5) =
      acc.toNat % 2 ^ bits * 32 + g.toNat := by
  have hsym : (g.setWidth 32).toNat = g.toNat := BitVec.toNat_setWidth_of_le (by decide)
  have hor : ((acc <<< 5) ||| g.setWidth 32).toNat = acc.toNat * 32 % 2 ^ 32 + g.toNat := by
    rw [BitVec.toNat_or, BitVec.toNat_shiftLeft, hsym, Nat.shiftLeft_eq]
    have hdvd : acc.toNat * 2 ^ 5 % 2 ^ 32 = 2 ^ 5 * (acc.toNat % 2 ^ 27) := by omega
    rw [hdvd, ← Nat.two_pow_add_eq_or_of_lt hg]
    omega
  have hcut : acc.toNat * 32 % 2 ^ 32 % 2 ^ (bits + 5) = acc.toNat % 2 ^ bits * 32 := by
    rw [Nat.mod_mod_of_dvd _ (Nat.pow_dvd_pow 2 (by omega)), Nat.pow_add]
    exact Nat.mul_mod_mul_right 32 acc.toNat (2 ^ bits)
  have hlt : acc.toNat % 2 ^ bits < 2 ^ bits := Nat.mod_lt _ (Nat.two_pow_pos _)
  have hsplit : 2 ^ (bits + 5) = 2 ^ bits * 32 := Nat.pow_add 2 bits 5
  rw [hor, Nat.add_mod, hcut, Nat.mod_eq_of_lt (show g.toNat < 2 ^ (bits + 5) by omega)]
  exact Nat.mod_eq_of_lt (by omega)

theorem padding_zero_iff (acc : U32) {bits : Nat} (hbits : bits < 8) :
    (acc <<< (8 - bits)) &&& 0xff#32 = 0 ↔ acc.toNat % 2 ^ bits = 0 := by
  have hval : ((acc <<< (8 - bits)) &&& 0xff#32).toNat =
      acc.toNat % 2 ^ bits * 2 ^ (8 - bits) := by
    rw [BitVec.toNat_and, BitVec.toNat_shiftLeft, Nat.shiftLeft_eq]
    change acc.toNat * 2 ^ (8 - bits) % 2 ^ 32 &&& (2 ^ 8 - 1) = _
    have hsplit : 2 ^ 8 = 2 ^ bits * 2 ^ (8 - bits) := by
      rw [← Nat.pow_add]
      congr 1
      omega
    rw [Nat.and_two_pow_sub_one_eq_mod, Nat.mod_mod_of_dvd _ (by decide), hsplit,
      Nat.mul_mod_mul_right]
  rw [← BitVec.toNat_inj, hval]
  simp

theorem byte_out {g : Byte} (hg : g.toNat < 32) (acc : U32) {bits low : Nat} (hbits : bits < 8)
    (hlow : bits + 5 = low + 8) (out : List Byte) :
    let acc' := (acc <<< 5) ||| g.setWidth 32
    beVal (out ++ [(acc' >>> low).setWidth 8]) * 2 ^ low + acc'.toNat % 2 ^ low =
      (beVal out * 2 ^ bits + acc.toNat % 2 ^ bits) * 32 + g.toNat := by
  intro acc'
  have hin := shifted_in hg acc hbits
  have hbyte : ((acc' >>> low).setWidth 8).toNat = acc'.toNat / 2 ^ low % 256 := by
    rw [BitVec.toNat_setWidth, BitVec.toNat_ushiftRight, Nat.shiftRight_eq_div_pow]
  have hsplit : 2 ^ (bits + 5) = 2 ^ low * 256 := by
    rw [hlow, Nat.pow_add]
  have hpow : 2 ^ bits * 32 = 2 ^ low * 256 := by
    rw [← hsplit, Nat.pow_add]
  rw [hsplit, Nat.mod_mul] at hin
  rw [beVal_concat, hbyte]
  calc (beVal out * 256 + acc'.toNat / 2 ^ low % 256) * 2 ^ low + acc'.toNat % 2 ^ low
      = beVal out * (2 ^ low * 256) +
          (acc'.toNat % 2 ^ low + 2 ^ low * (acc'.toNat / 2 ^ low % 256)) := by ring
    _ = beVal out * (2 ^ bits * 32) + (acc.toNat % 2 ^ bits * 32 + g.toNat) := by rw [hin, hpow]
    _ = (beVal out * 2 ^ bits + acc.toNat % 2 ^ bits) * 32 + g.toNat := by ring

/-- What the loop returns, in numbers: the bytes hold the bits that were pending and
those of the groups, but for fewer than five zeros. -/
theorem convert5to8_iff {outsz : Nat} {gs : List Byte} (hgs : ∀ g ∈ gs, g.toNat < 32)
    (rest : List Byte) (acc : U32) {bits : Nat} (hbits : bits < 8) {out : List Byte}
    (hout : out.length ≤ outsz) (res : List Byte) :
    convert5to8 outsz gs.length (gs ++ rest) acc bits out = some res ↔
      ∃ pad < 5, res.length ≤ outsz ∧
        8 * res.length + pad = 8 * out.length + bits + 5 * gs.length ∧
        beVal res * 2 ^ pad = (beVal out * 2 ^ bits + acc.toNat % 2 ^ bits) * 32 ^ gs.length +
          bigVal 32 (gs.map BitVec.toNat) := by
  induction gs generalizing acc bits out with
  | nil =>
    simp only [List.length_nil, List.nil_append, convert5to8, List.map_nil, bigVal_nil, Nat.mul_zero,
      Nat.add_zero, Nat.pow_zero, Nat.mul_one]
    by_cases hpad : bits ≥ 5
    · rw [if_pos hpad]
      constructor
      · intro h
        cases h
      · rintro ⟨pad, hlt, -, hlen, -⟩
        omega
    · rw [if_neg hpad]
      have hmod : acc.toNat % 2 ^ bits < 2 ^ bits := Nat.mod_lt _ (Nat.two_pow_pos _)
      by_cases hzero : acc.toNat % 2 ^ bits = 0
      · rw [if_neg (not_not_intro ((padding_zero_iff acc hbits).mpr hzero)), hzero]
        constructor
        · intro h
          cases h
          exact ⟨bits, by omega, hout, rfl, rfl⟩
        · rintro ⟨pad, hlt, -, hlen, hval⟩
          have hpad' : pad = bits := by omega
          rw [hpad', Nat.add_zero] at hval
          have heq := Nat.eq_of_mul_eq_mul_right (Nat.two_pow_pos bits) hval
          rw [beVal_inj (by omega) heq]
      · rw [if_pos (mt (padding_zero_iff acc hbits).mp hzero)]
        constructor
        · intro h
          cases h
        · rintro ⟨pad, hlt, -, hlen, hval⟩
          have hpad' : pad = bits := by omega
          have hrem := congrArg (· % 2 ^ bits) hval
          simp only [hpad', Nat.mul_mod_left, Nat.mul_add_mod_self_right, Nat.mod_mod] at hrem
          exact absurd hrem.symm hzero
  | cons g gs ih =>
    have hg := hgs g List.mem_cons_self
    have hrest : ∀ g ∈ gs, g.toNat < 32 := fun g' hg' => hgs g' (List.mem_cons_of_mem g hg')
    have hvalue (v : Nat) : (v * 32 + g.toNat) * 32 ^ gs.length + bigVal 32 (gs.map BitVec.toNat) =
        v * 32 ^ (gs.length + 1) + bigVal 32 ((g :: gs).map BitVec.toNat) := by
      rw [List.map_cons, bigVal_cons, List.length_map, Nat.pow_succ]
      ring
    simp only [List.length_cons, List.cons_append, convert5to8, List.headD_cons, List.tail_cons]
    by_cases hbyte : bits + 5 ≥ 8
    · rw [if_pos hbyte]
      by_cases hfull : out.length ≥ outsz
      · rw [if_pos hfull]
        constructor
        · intro h
          cases h
        · rintro ⟨pad, hlt, hle, hlen, -⟩
          omega
      · have hout' : (out ++ [((acc <<< 5 ||| g.setWidth 32) >>> (bits + 5 - 8)).setWidth 8]).length ≤
            outsz := by
          rw [List.length_append, List.length_singleton]
          omega
        rw [if_neg hfull, ih hrest _ (by omega) hout', byte_out hg acc hbits (by omega), hvalue,
          List.length_append, List.length_singleton]
        have hcount (pad : Nat) :
            8 * res.length + pad = 8 * (out.length + 1) + (bits + 5 - 8) + 5 * gs.length ↔
              8 * res.length + pad = 8 * out.length + bits + 5 * (gs.length + 1) := by omega
        simp only [hcount]
    · have hpow : 2 ^ (bits + 5) = 2 ^ bits * 32 := Nat.pow_add 2 bits 5
      have hstep : beVal out * 2 ^ (bits + 5) + (acc.toNat % 2 ^ bits * 32 + g.toNat) =
          (beVal out * 2 ^ bits + acc.toNat % 2 ^ bits) * 32 + g.toNat := by
        rw [hpow]
        ring
      rw [if_neg hbyte, ih hrest _ (by omega) hout, shifted_in hg acc hbits, hstep, hvalue]
      have hcount (pad : Nat) :
          8 * res.length + pad = 8 * out.length + (bits + 5) + 5 * gs.length ↔
            8 * res.length + pad = 8 * out.length + bits + 5 * (gs.length + 1) := by omega
      simp only [hcount]

theorem convert5to8_count {outsz : Nat} (inlen : Nat) (groups : List Byte) (acc : U32) {bits : Nat}
    {out res : List Byte} (hout : out.length ≤ outsz)
    (h : convert5to8 outsz inlen groups acc bits out = some res) :
    res.length ≤ outsz ∧ 8 * out.length + bits + 5 * inlen ≤ 8 * res.length + 4 := by
  induction inlen generalizing groups acc bits out with
  | zero =>
    rw [convert5to8] at h
    split at h
    · cases h
    · split at h
      · cases h
      · cases h
        exact ⟨hout, by omega⟩
  | succ inlen ih =>
    rw [convert5to8] at h
    dsimp only at h
    split at h
    · split at h
      · cases h
      · obtain ⟨hle, hcount⟩ := ih _ _ (by rw [List.length_append, List.length_singleton]; omega) h
        rw [List.length_append, List.length_singleton] at hcount
        exact ⟨hle, by omega⟩
    · obtain ⟨hle, hcount⟩ := ih _ _ hout h
      exact ⟨hle, by omega⟩

def convert8to5 (program : List Byte) : List Nat :=
  let n := (8 * program.length + 4) / 5
  bigDigits 32 n (beVal program * 2 ^ (5 * n - 8 * program.length))

theorem convert8to5_length (program : List Byte) :
    (convert8to5 program).length = (8 * program.length + 4) / 5 := bigDigits_length

theorem convert8to5_lt (program : List Byte) : ∀ d ∈ convert8to5 program, d < 32 :=
  bigDigits_lt (by decide)

theorem convert8to5_iff {gs : List Byte} (hgs : ∀ g ∈ gs, g.toNat < 32) (program : List Byte) :
    (∃ pad < 5, 8 * program.length + pad = 5 * gs.length ∧
        beVal program * 2 ^ pad = bigVal 32 (gs.map BitVec.toNat)) ↔
      gs.map BitVec.toNat = convert8to5 program := by
  have hds : ∀ d ∈ gs.map BitVec.toNat, d < 32 := by
    intro d hd
    obtain ⟨g, hg, rfl⟩ := List.mem_map.mp hd
    exact hgs g hg
  have hfits {n pad : Nat} (hcount : 8 * program.length + pad = 5 * n) :
      beVal program * 2 ^ pad < 32 ^ n := by
    have hlt := beVal_lt program
    calc beVal program * 2 ^ pad
        < 256 ^ program.length * 2 ^ pad := Nat.mul_lt_mul_of_pos_right hlt (Nat.two_pow_pos pad)
      _ = 2 ^ (8 * program.length + pad) := by rw [Nat.pow_add, Nat.pow_mul]
      _ = 32 ^ n := by rw [hcount, Nat.pow_mul]
  constructor
  · rintro ⟨pad, hpad, hcount, hval⟩
    have hn : (8 * program.length + 4) / 5 = gs.length := by omega
    have hp : 5 * gs.length - 8 * program.length = pad := by omega
    simp only [convert8to5, hn, hp]
    exact (bigVal_eq_iff (by decide) hds (List.length_map _) (hfits hcount)).mp hval.symm
  · intro h
    have hn : gs.length = (8 * program.length + 4) / 5 := by
      rw [← convert8to5_length, ← h, List.length_map]
    have hcount : 8 * program.length + (5 * gs.length - 8 * program.length) = 5 * gs.length := by
      omega
    refine ⟨5 * gs.length - 8 * program.length, by omega, hcount, ?_⟩
    refine ((bigVal_eq_iff (by decide) hds (List.length_map _) (hfits hcount)).mpr ?_).symm
    rw [h, convert8to5, hn]

/-- Without a group between version and checksum four billion of them are asked for, and
the array for the program is full long before. -/
theorem convert_data_iff {data : List Byte} (hdata : ∀ g ∈ data, g.toNat < 32)
    (hlen : 6 ≤ data.length) (program : List Byte) :
    convert5to8 bech32MaxProgram (groupCount data.length) data.tail 0 0 [] = some program ↔
      program.length ≤ 40 ∧ 7 ≤ data.length ∧
        (data.tail.take (data.length - 7)).map BitVec.toNat = convert8to5 program := by
  by_cases hseven : 7 ≤ data.length
  · have hgs : ∀ g ∈ data.tail.take (data.length - 7), g.toNat < 32 := fun g hg =>
      hdata g (List.mem_of_mem_tail (List.mem_of_mem_take hg))
    have hn : (data.tail.take (data.length - 7)).length = groupCount data.length := by
      rw [List.length_take, List.length_tail, groupCount, if_neg (by omega)]
      omega
    have hiff : convert5to8 bech32MaxProgram _ _ 0 0 [] = some program ↔ _ :=
      convert5to8_iff hgs (data.tail.drop (data.length - 7)) 0 (by decide) (by decide) program
    rw [List.take_append_drop, hn] at hiff
    rw [hiff, ← convert8to5_iff hgs, hn]
    simp only [List.length_nil, beVal_nil, Nat.mul_zero, Nat.zero_mul, Nat.pow_zero, Nat.mod_one,
      Nat.zero_add, hseven, true_and]
    constructor
    · rintro ⟨pad, hpad, hle, hrest⟩
      exact ⟨hle, pad, hpad, hrest⟩
    · rintro ⟨hle, pad, hpad, hrest⟩
      exact ⟨pad, hpad, hle, hrest⟩
  · constructor
    · intro h
      have hcount := convert5to8_count _ _ _ (by decide) h
      rw [groupCount, if_pos (by omega), bech32MaxProgram] at hcount
      omega
    · rintro ⟨-, h, -⟩
      exact absurd h hseven

theorem bech32Program_iff {data : List Byte} (hdata : ∀ g ∈ data, g.toNat < 32)
    (hlen : 6 ≤ data.length) (program : List Byte) :
    bech32Program data = some program ↔
      (2 ≤ program.length ∧ program.length ≤ 40) ∧
        (data.headD 0 = 0 → program.length = 20 ∨ program.length = 32) ∧ 7 ≤ data.length ∧
        (data.tail.take (data.length - 7)).map BitVec.toNat = convert8to5 program := by
  have hconv := convert_data_iff hdata hlen
  rw [bech32Program]
  cases hc : convert5to8 bech32MaxProgram (groupCount data.length) data.tail 0 0 [] with
  | none =>
    refine iff_of_false (by simp) ?_
    rintro ⟨⟨-, hle⟩, -, hseven, hgroups⟩
    rw [(hconv program).mpr ⟨hle, hseven, hgroups⟩] at hc
    cases hc
  | some res =>
    obtain ⟨hle, hseven, hgroups⟩ := (hconv res).mp hc
    dsimp only
    constructor
    · intro h
      split at h
      · cases h
      · split at h
        · cases h
        · rename_i hrange hver
          cases h
          exact ⟨by omega, fun hv => by tauto, hseven, hgroups⟩
    · rintro ⟨hrange, hver, -, hsame⟩
      have heq := (hconv program).mpr ⟨hrange.2, hseven, hsame⟩
      rw [hc] at heq
      cases heq
      rw [if_neg (by omega), if_neg (by tauto)]

end Regroup

section Checksum

def polymodStep (chk : U32) (v : Byte) : U32 :=
  let top := chk >>> 25
  let chk := ((chk &&& 0x1ffffff#32) <<< 5) ^^^ v.setWidth 32
  (List.range 5).foldl (fun chk j =>
    if (top >>> j) &&& 1 ≠ 0 then chk ^^^ gen.getD j 0 else chk) chk

theorem polymod_eq (values : List Byte) : polymod values = values.foldl polymodStep 1#32 := rfl

theorem feedback_xor (top x y : U32) (js : List Nat) :
    js.foldl (fun chk j => if (top >>> j) &&& 1 ≠ 0 then chk ^^^ gen.getD j 0 else chk) (x ^^^ y) =
      js.foldl (fun chk j => if (top >>> j) &&& 1 ≠ 0 then chk ^^^ gen.getD j 0 else chk) x ^^^ y := by
  induction js generalizing x with
  | nil => rfl
  | cons j js ih =>
    rw [List.foldl_cons, List.foldl_cons]
    split
    · rw [← ih]
      congr 1
      rw [BitVec.xor_assoc, BitVec.xor_comm y, ← BitVec.xor_assoc]
    · exact ih x

theorem symbol_below {n : Nat} (hn : n < 2 ^ 25) {v : Byte} (hv : v.toNat < 32) :
    (BitVec.ofNat 32 n <<< 5) ^^^ v.setWidth 32 = BitVec.ofNat 32 (n * 32 + v.toNat) := by
  apply BitVec.eq_of_toNat_eq
  rw [BitVec.toNat_xor, BitVec.toNat_shiftLeft, BitVec.toNat_ofNat, BitVec.toNat_ofNat,
    BitVec.toNat_setWidth_of_le (by decide), Nat.shiftLeft_eq]
  have hshift : n % 2 ^ 32 * 2 ^ 5 % 2 ^ 32 = 2 ^ 5 * n := by omega
  have hsum : (n * 32 + v.toNat) % 2 ^ 32 = 2 ^ 5 * n + v.toNat := by omega
  rw [hshift, hsum]
  apply Nat.eq_of_testBit_eq
  intro i
  have hlow := Nat.testBit_two_pow_mul_add n (show v.toNat < 2 ^ 5 from hv) i
  have hhigh : (2 ^ 5 * n).testBit i = (decide (5 ≤ i) && n.testBit (i - 5)) := by
    rw [Nat.mul_comm, Nat.testBit_mul_two_pow]
  rw [Nat.testBit_xor, hlow, hhigh]
  by_cases hi : i < 5
  · simp [hi, Nat.not_le.mpr hi]
  · have hzero : v.toNat.testBit i = false := by
      apply Nat.testBit_lt_two_pow
      exact lt_of_lt_of_le hv (Nat.pow_le_pow_right (by decide : 0 < 2) (by omega : 5 ≤ i))
    simp [hi, hzero, Nat.not_lt.mp hi]

theorem and_xor_right (x y m : U32) : (x ^^^ y) &&& m = (x &&& m) ^^^ (y &&& m) := by
  apply BitVec.eq_of_getLsbD_eq
  intro i _
  simp [Bool.and_xor_distrib_right]

theorem polymodStep_xor (p : U32) {n : Nat} (hn : n < 2 ^ 25) {v : Byte} (hv : v.toNat < 32) :
    polymodStep (p ^^^ BitVec.ofNat 32 n) v =
      polymodStep p 0 ^^^ BitVec.ofNat 32 (n * 32 + v.toNat) := by
  have htop : BitVec.ofNat 32 n >>> 25 = 0#32 := by
    apply BitVec.eq_of_toNat_eq
    rw [BitVec.toNat_ushiftRight, BitVec.toNat_ofNat, Nat.shiftRight_eq_div_pow]
    change n % 2 ^ 32 / 2 ^ 25 = 0
    omega
  have hmask : BitVec.ofNat 32 n &&& 0x1ffffff#32 = BitVec.ofNat 32 n := by
    apply BitVec.eq_of_toNat_eq
    rw [BitVec.toNat_and, BitVec.toNat_ofNat]
    change n % 2 ^ 32 &&& (2 ^ 25 - 1) = n % 2 ^ 32
    rw [Nat.and_two_pow_sub_one_eq_mod]
    omega
  have hstate : ((p ^^^ BitVec.ofNat 32 n) &&& 0x1ffffff#32) <<< 5 ^^^ v.setWidth 32 =
      (((p &&& 0x1ffffff#32) <<< 5) ^^^ (0#8).setWidth 32) ^^^
        BitVec.ofNat 32 (n * 32 + v.toNat) := by
    rw [and_xor_right, hmask, BitVec.shiftLeft_xor_distrib, ← symbol_below hn hv]
    simp [BitVec.xor_assoc]
  rw [polymodStep, hstate, BitVec.ushiftRight_xor_distrib, htop, BitVec.xor_zero]
  exact feedback_xor _ _ _ _

theorem symbolVal_lt {cs : List Byte} (hcs : ∀ c ∈ cs, c.toNat < 32) :
    bigVal 32 (cs.map BitVec.toNat) < 32 ^ cs.length := by
  have hds : ∀ d ∈ cs.map BitVec.toNat, d < 32 := by
    intro d hd
    obtain ⟨c, hc, rfl⟩ := List.mem_map.mp hd
    exact hcs c hc
  have h := bigVal_lt (by decide) hds
  rwa [List.length_map] at h

/-- Up to six symbols act on the state like zeros, but for their number. -/
theorem foldl_symbols (p : U32) {cs : List Byte} (hcs : ∀ c ∈ cs, c.toNat < 32)
    (hlen : cs.length ≤ 6) :
    cs.foldl polymodStep p = (List.replicate cs.length 0).foldl polymodStep p ^^^
      BitVec.ofNat 32 (bigVal 32 (cs.map BitVec.toNat)) := by
  induction cs using List.reverseRecOn with
  | nil => simp
  | append_singleton cs c ih =>
    have hfront : ∀ c ∈ cs, c.toNat < 32 := fun c' hc' => hcs c' (List.mem_append_left _ hc')
    have hc : c.toNat < 32 := hcs c (by simp)
    rw [List.length_append, List.length_singleton] at hlen
    have hsmall : bigVal 32 (cs.map BitVec.toNat) < 2 ^ 25 :=
      lt_of_lt_of_le (symbolVal_lt hfront)
        ((Nat.pow_le_pow_right (by decide) (by omega : cs.length ≤ 5)).trans_eq (by rfl))
    rw [List.foldl_append, List.foldl_cons, List.foldl_nil, ih hfront (by omega),
      polymodStep_xor _ hsmall hc, List.length_append, List.length_singleton, List.replicate_succ',
      List.foldl_append, List.map_append, bigVal_append]
    simp

theorem high_foldl (top : U32) (js : List Nat) {x : U32} (hx : x >>> 30 = 0#32) :
    js.foldl (fun chk j => if (top >>> j) &&& 1 ≠ 0 then chk ^^^ gen.getD j 0 else chk) x >>> 30 =
      0#32 := by
  have hgen (j : Nat) : gen.getD j 0 >>> 30 = 0#32 := by
    obtain _ | _ | _ | _ | _ | j := j
    case succ.succ.succ.succ.succ => simp [gen]
    all_goals rfl
  induction js generalizing x with
  | nil => exact hx
  | cons j js ih =>
    rw [List.foldl_cons]
    split
    · apply ih
      rw [BitVec.ushiftRight_xor_distrib, hx, hgen]
      rfl
    · exact ih hx

theorem polymodStep_lt (p : U32) (v : Byte) : (polymodStep p v).toNat < 2 ^ 30 := by
  have hstate : (((p &&& 0x1ffffff#32) <<< 5) ^^^ v.setWidth 32) >>> 30 = 0#32 := by
    have hmask : (p &&& 0x1ffffff#32).toNat = p.toNat % 2 ^ 25 := by
      rw [BitVec.toNat_and]
      exact Nat.and_two_pow_sub_one_eq_mod _ 25
    have hleft : ((p &&& 0x1ffffff#32) <<< 5) >>> 30 = 0#32 := by
      apply BitVec.eq_of_toNat_eq
      rw [BitVec.toNat_ushiftRight, BitVec.toNat_shiftLeft, hmask, Nat.shiftLeft_eq,
        Nat.shiftRight_eq_div_pow]
      change p.toNat % 2 ^ 25 * 2 ^ 5 % 2 ^ 32 / 2 ^ 30 = 0
      omega
    have hright : v.setWidth 32 >>> 30 = 0#32 := by
      apply BitVec.eq_of_toNat_eq
      rw [BitVec.toNat_ushiftRight, BitVec.toNat_setWidth_of_le (by decide),
        Nat.shiftRight_eq_div_pow]
      change v.toNat / 2 ^ 30 = 0
      omega
    rw [BitVec.ushiftRight_xor_distrib, hleft, hright]
    rfl
  have hhigh := congrArg BitVec.toNat (high_foldl (p >>> 25) (List.range 5) hstate)
  rw [BitVec.toNat_ushiftRight, Nat.shiftRight_eq_div_pow] at hhigh
  exact (Nat.div_eq_zero_iff_lt (by decide)).mp hhigh

theorem polymod_lt (values : List Byte) : (polymod values).toNat < 2 ^ 30 := by
  rw [polymod_eq]
  induction values using List.reverseRecOn with
  | nil => decide
  | append_singleton values v =>
    rw [List.foldl_append]
    exact polymodStep_lt _ v

theorem polymod_iff (values : List Byte) {cs : List Byte} (hcs : ∀ c ∈ cs, c.toNat < 32)
    (hlen : cs.length = 6) {k : U32} (hk : k.toNat < 2 ^ 30) :
    polymod (values ++ cs) = k ↔ cs.map BitVec.toNat =
      bigDigits 32 6 (polymod (values ++ List.replicate 6 0) ^^^ k).toNat := by
  have hsplit : polymod (values ++ cs) = polymod (values ++ List.replicate 6 0) ^^^
      BitVec.ofNat 32 (bigVal 32 (cs.map BitVec.toNat)) := by
    rw [polymod_eq, polymod_eq, List.foldl_append, List.foldl_append, foldl_symbols _ hcs hlen.le,
      hlen]
  have hlt : bigVal 32 (cs.map BitVec.toNat) < 32 ^ 6 := hlen ▸ symbolVal_lt hcs
  have hx : (polymod (values ++ List.replicate 6 0) ^^^ k).toNat < 32 ^ 6 := by
    rw [BitVec.toNat_xor]
    exact Nat.xor_lt_two_pow (polymod_lt _) hk
  have hds : ∀ d ∈ cs.map BitVec.toNat, d < 32 := by
    intro d hd
    obtain ⟨c, hc, rfl⟩ := List.mem_map.mp hd
    exact hcs c hc
  have hnat : (BitVec.ofNat 32 (bigVal 32 (cs.map BitVec.toNat))).toNat =
      bigVal 32 (cs.map BitVec.toNat) := by
    rw [BitVec.toNat_ofNat]
    omega
  have hmove (p d : U32) : p ^^^ d = k ↔ d = p ^^^ k := by
    constructor <;> rintro rfl <;> rw [← BitVec.xor_assoc, BitVec.xor_self, BitVec.zero_xor]
  rw [hsplit, hmove, ← BitVec.toNat_inj, hnat]
  exact bigVal_eq_iff (by decide) hds (by simpa using hlen) hx

end Checksum

section Text

def symbolChar (d : Nat) : Byte := charset.getD d 0

theorem charset_index : ∀ d < 32, charsetIndex (symbolChar d) = some d := by decide +kernel

theorem charsetIndex_iff (c : Byte) (d : Nat) :
    charsetIndex c = some d ↔ d < 32 ∧ c = symbolChar d := by
  constructor
  · intro h
    obtain ⟨hlt, hc, -⟩ := List.findIdx?_eq_some_iff_getElem.mp h
    refine ⟨hlt, ?_⟩
    rw [symbolChar, List.getD_eq_getElem _ _ hlt]
    exact (of_decide_eq_true hc).symm
  · rintro ⟨hlt, rfl⟩
    exact charset_index d hlt

theorem symbols_iff (text : List Byte) (symbols : List Nat) :
    text.mapM charsetIndex = some symbols ↔
      (∀ d ∈ symbols, d < 32) ∧ text = symbols.map symbolChar := by
  induction text generalizing symbols with
  | nil =>
    constructor
    · intro h
      cases h
      simp
    · rintro ⟨-, h⟩
      rw [List.map_eq_nil_iff.mp h.symm]
      rfl
  | cons c text ih =>
    rw [List.mapM_cons]
    constructor
    · intro h
      obtain ⟨d, hd, h⟩ := Option.bind_eq_some_iff.mp h
      obtain ⟨ds, hds, h⟩ := Option.bind_eq_some_iff.mp h
      cases h
      obtain ⟨hlt, rfl⟩ := (charsetIndex_iff c d).mp hd
      obtain ⟨hall, rfl⟩ := (ih ds).mp hds
      simpa using ⟨hlt, hall⟩
    · rintro ⟨hall, h⟩
      obtain _ | ⟨d, ds⟩ := symbols
      · cases h
      · rw [List.map_cons, List.cons.injEq] at h
        have hd := (charsetIndex_iff c d).mpr ⟨hall d List.mem_cons_self, h.1⟩
        have hds := (ih ds).mpr ⟨fun d hd => hall d (List.mem_cons_of_mem _ hd), h.2⟩
        rw [hd, hds]
        rfl

def toUpper (c : Byte) : Byte := if isLower c then c - char 'a' + char 'A' else c

def plain (c : Byte) : Bool := 33 ≤ c ∧ c ≤ 126 ∧ isUpper c = false

theorem plain_symbolChar : ∀ d < 32, plain (symbolChar d) = true ∧ symbolChar d ≠ char '1' := by
  decide +kernel

theorem toUpper_toLower : ∀ c : Byte, isLower c = false → toUpper (toLower c) = c := by
  decide +kernel

theorem case_facts : ∀ c : Byte,
    isUpper (toLower c) = false ∧ isLower (toUpper c) = false ∧
      (isUpper c = false → toLower (toUpper c) = c) ∧
      (33 ≤ toLower c ∧ toLower c ≤ 126 ↔ 33 ≤ c ∧ c ≤ 126) := by
  decide +kernel

theorem map_fixed {f : Byte → Byte} {l : List Byte} (h : ∀ c ∈ l, f c = c) :
    l.map f = l := by
  rw [List.map_congr_left h, List.map_id']

theorem toLower_of_not_upper {c : Byte} (h : isUpper c = false) : toLower c = c := by
  rw [toLower, h]
  rfl

theorem one_case_iff {addr text : List Byte} (htext : ∀ c ∈ text, isUpper c = false) :
    addr.map toLower = text ∧ ¬ (addr.any isLower = true ∧ addr.any isUpper = true) ↔
      addr = text ∨ addr = text.map toUpper := by
  constructor
  · rintro ⟨rfl, hcase⟩
    rw [not_and_or, Bool.not_eq_true, Bool.not_eq_true, List.any_eq_false, List.any_eq_false] at hcase
    obtain hlower | hupper := hcase
    · right
      rw [List.map_map]
      refine (map_fixed ?_).symm
      exact fun c hc => toUpper_toLower c (by simpa using hlower c hc)
    · left
      refine (map_fixed ?_).symm
      exact fun c hc => toLower_of_not_upper (by simpa using hupper c hc)
  · rintro (rfl | rfl)
    · refine ⟨map_fixed fun c hc => toLower_of_not_upper (htext c hc), fun h => ?_⟩
      obtain ⟨c, hc, hup⟩ := List.any_eq_true.mp h.2
      rw [htext c hc] at hup
      cases hup
    · refine ⟨?_, fun h => ?_⟩
      · rw [List.map_map]
        exact map_fixed fun c hc => (case_facts c).2.2.1 (htext c hc)
      · obtain ⟨c, hc, hlow⟩ := List.any_eq_true.mp h.1
        obtain ⟨c', -, rfl⟩ := List.mem_map.mp hc
        rw [(case_facts c').2.1] at hlow
        cases hlow

theorem lastSep_iff (buf : List Byte) (k : Nat) :
    lastSep buf = some k ↔
      ∃ pre post, buf = pre ++ char '1' :: post ∧ char '1' ∉ post ∧ pre.length = k := by
  constructor
  · intro h
    obtain ⟨i, hi, rfl⟩ := Option.map_eq_some_iff.mp h
    obtain ⟨hlt, hsep, hbefore⟩ := List.findIdx?_eq_some_iff_getElem.mp hi
    have hcut : buf.reverse = buf.reverse.take i ++ char '1' :: buf.reverse.drop (i + 1) := by
      rw [← of_decide_eq_true hsep, ← List.drop_eq_getElem_cons hlt, List.take_append_drop]
    refine ⟨(buf.reverse.drop (i + 1)).reverse, (buf.reverse.take i).reverse, ?_, ?_, ?_⟩
    · have hback := congrArg List.reverse hcut
      rw [List.reverse_reverse, List.reverse_append, List.reverse_cons, List.append_assoc] at hback
      exact hback
    · intro hmem
      obtain ⟨j, hj, hget⟩ := List.mem_iff_getElem.mp (List.mem_reverse.mp hmem)
      rw [List.length_take] at hj
      rw [List.getElem_take] at hget
      exact hbefore j (by omega) (decide_eq_true hget)
    · rw [List.length_reverse, List.length_drop, List.length_reverse]
      omega
  · rintro ⟨pre, post, rfl, hpost, rfl⟩
    have hnone : post.reverse.findIdx? (· = char '1') = none := by
      rw [List.findIdx?_eq_none_iff]
      intro c hc
      exact decide_eq_false fun h => hpost (h ▸ List.mem_reverse.mp hc)
    rw [lastSep, List.reverse_append, List.reverse_cons, List.append_assoc, List.findIdx?_append,
      hnone]
    simp [List.findIdx?_cons]

theorem drop_sep (pre post : List Byte) :
    (pre ++ char '1' :: post).drop (pre.length + 1) = post := by
  rw [← List.drop_drop, List.drop_left]
  rfl

theorem bech32Split_iff (addr hrp text : List Byte) :
    bech32Split addr = some (hrp, text) ↔
      (8 ≤ addr.length ∧ addr.length ≤ 90) ∧ (∀ c ∈ addr, 33 ≤ c ∧ c ≤ 126) ∧
        ¬ (addr.any isLower = true ∧ addr.any isUpper = true) ∧
        addr.map toLower = hrp ++ char '1' :: text ∧ char '1' ∉ text ∧
        (1 ≤ hrp.length ∧ hrp.length ≤ 7) ∧ 6 ≤ text.length := by
  have hchars : (addr.any fun c => c < 33 ∨ c > 126) = true ↔ ¬ ∀ c ∈ addr, 33 ≤ c ∧ c ≤ 126 := by
    simp only [List.any_eq_true, decide_eq_true_eq, not_forall, not_and_or, BitVec.not_le,
      exists_prop]
  have hlen : (addr.map toLower).length = addr.length := List.length_map _
  rw [bech32Split]
  constructor
  · intro h
    split at h
    · cases h
    · rename_i hrange
      split at h
      · cases h
      · rename_i hprint
        split at h
        · cases h
        · rename_i hcase
          dsimp only at h
          split at h
          · cases h
          · rename_i k hk
            obtain ⟨pre, post, hsplit, hpost, rfl⟩ := (lastSep_iff _ _).mp hk
            split at h
            · cases h
            · split at h
              · cases h
              · rename_i hhrp hdata
                rw [hsplit] at h hlen
                rw [List.take_left, drop_sep] at h
                cases h
                rw [List.length_append, List.length_cons] at hlen
                exact ⟨by omega, not_not.mp (mt hchars.mpr hprint), hcase, hsplit, hpost,
                  by omega, by omega⟩
  · rintro ⟨hrange, hprint, hcase, hsplit, hpost, hhrp, htext⟩
    have hsep := (lastSep_iff _ _).mpr ⟨hrp, text, hsplit, hpost, rfl⟩
    rw [hsplit, List.length_append, List.length_cons] at hlen
    rw [if_neg (by omega), if_neg (mt hchars.mp (not_not_intro hprint)), if_neg hcase]
    simp only [hsep]
    rw [if_neg (by omega), if_neg (by omega), hsplit, List.take_left, drop_sep]

end Text

section Address

def symbolBytes (symbols : List Nat) : List Byte := symbols.map (BitVec.ofNat 8)

theorem symbolBytes_toNat {symbols : List Nat} (h : ∀ d ∈ symbols, d < 32) :
    (symbolBytes symbols).map BitVec.toNat = symbols := by
  rw [symbolBytes, List.map_map]
  have hid : ∀ d ∈ symbols, (BitVec.toNat ∘ BitVec.ofNat 8) d = d := by
    intro d hd
    have hlt := h d hd
    change d % 2 ^ 8 = d
    omega
  rw [List.map_congr_left hid, List.map_id']

theorem symbolBytes_lt {symbols : List Nat} (h : ∀ d ∈ symbols, d < 32) :
    ∀ g ∈ symbolBytes symbols, g.toNat < 32 := by
  intro g hg
  apply h
  rw [← symbolBytes_toNat h]
  exact List.mem_map_of_mem hg

def payload (a : Bech32Addr) : List Nat := a.witver :: convert8to5 a.program

def bech32Checksum (a : Bech32Addr) : List Nat :=
  bigDigits 32 6 (polymod (bech32Values a.hrp (symbolBytes (payload a)) ++ List.replicate 6 0) ^^^
    checksumConst a.witver).toNat

def bech32Encode (a : Bech32Addr) : List Byte :=
  a.hrp ++ char '1' :: (payload a ++ bech32Checksum a).map symbolChar

structure Segwit (a : Bech32Addr) : Prop where
  hrp : 1 ≤ a.hrp.length ∧ a.hrp.length ≤ 7
  hrpPlain : ∀ c ∈ a.hrp, plain c = true
  witver : a.witver ≤ 16
  program : 2 ≤ a.program.length ∧ a.program.length ≤ 40
  version0 : a.witver = 0 → a.program.length = 20 ∨ a.program.length = 32
  length : (bech32Encode a).length ≤ 90

theorem checksumConst_lt (witver : Nat) : (checksumConst witver).toNat < 2 ^ 30 := by
  rw [checksumConst]
  split <;> decide

theorem payload_lt {a : Bech32Addr} (h : a.witver ≤ 16) : ∀ d ∈ payload a, d < 32 := by
  intro d hd
  obtain rfl | hd := List.mem_cons.mp hd
  · omega
  · exact convert8to5_lt _ d hd

theorem bech32Checksum_lt (a : Bech32Addr) : ∀ d ∈ bech32Checksum a, d < 32 :=
  bigDigits_lt (by decide)

theorem bech32Values_append (hrp front cs : List Byte) :
    bech32Values hrp (front ++ cs) = bech32Values hrp front ++ cs := by
  simp [bech32Values]

theorem symbols_encode_iff {symbols : List Nat} (hsym : ∀ d ∈ symbols, d < 32)
    (hlen : 6 ≤ symbols.length) (a : Bech32Addr) :
    ((symbolBytes symbols).headD 0).toNat = a.witver ∧
        polymod (bech32Values a.hrp (symbolBytes symbols)) = checksumConst a.witver ∧
        bech32Program (symbolBytes symbols) = some a.program ↔
      (2 ≤ a.program.length ∧ a.program.length ≤ 40) ∧
        (a.witver = 0 → a.program.length = 20 ∨ a.program.length = 32) ∧
        symbols = payload a ++ bech32Checksum a := by
  have hdata := symbolBytes_lt hsym
  have hcount : (symbolBytes symbols).length = symbols.length := List.length_map _
  rw [bech32Program_iff hdata (by omega), hcount]
  obtain hshort | hseven := Nat.lt_or_ge symbols.length 7
  · refine iff_of_false (fun h => by omega) ?_
    rintro ⟨-, -, rfl⟩
    rw [List.length_append, payload, List.length_cons, bech32Checksum, bigDigits_length] at hshort
    omega
  obtain ⟨d, rest, rfl⟩ := List.exists_cons_of_length_pos (show 0 < symbols.length by omega)
  rw [List.length_cons] at hseven
  obtain ⟨groups, cs, rfl, hcs⟩ : ∃ groups cs, rest = groups ++ cs ∧ cs.length = 6 :=
    ⟨rest.take (rest.length - 6), rest.drop (rest.length - 6), (List.take_append_drop _ _).symm,
      by rw [List.length_drop]; omega⟩
  have hd : (BitVec.ofNat 8 d).toNat = d := by
    have hlt := hsym d List.mem_cons_self
    rw [BitVec.toNat_ofNat]
    omega
  have hgroups : ∀ g ∈ groups, g < 32 := fun g hg =>
    hsym g (List.mem_cons_of_mem _ (List.mem_append_left _ hg))
  have hcheck : ∀ c ∈ cs, c < 32 := fun c hc =>
    hsym c (List.mem_cons_of_mem _ (List.mem_append_right _ hc))
  -- version, groups and checksum, each at its place
  have hhead : ((symbolBytes (d :: (groups ++ cs))).headD 0).toNat = d := hd
  have hzero : (symbolBytes (d :: (groups ++ cs))).headD 0 = 0 ↔ d = 0 := by
    rw [← BitVec.toNat_inj, hhead]
    rfl
  have htake : (symbolBytes (d :: (groups ++ cs))).tail.take
      ((d :: (groups ++ cs)).length - 7) = symbolBytes groups := by
    have hn : (d :: (groups ++ cs)).length - 7 = groups.length := by
      rw [List.length_cons, List.length_append, hcs]
      omega
    rw [hn, symbolBytes, List.map_cons, List.tail_cons, List.map_append]
    exact List.take_left' (List.length_map _)
  have hvalues : bech32Values a.hrp (symbolBytes (d :: (groups ++ cs))) =
      bech32Values a.hrp (symbolBytes (d :: groups)) ++ symbolBytes cs := by
    rw [← bech32Values_append, symbolBytes, symbolBytes, symbolBytes, ← List.map_append,
      List.cons_append]
  have hpoly := polymod_iff (bech32Values a.hrp (symbolBytes (d :: groups))) (symbolBytes_lt hcheck)
    (by rw [symbolBytes, List.length_map, hcs]) (checksumConst_lt a.witver)
  rw [symbolBytes_toNat hcheck] at hpoly
  rw [hhead, hzero, htake, symbolBytes_toNat hgroups, hvalues, hpoly]
  constructor
  · rintro ⟨rfl, hsum, hrange, hver, -, rfl⟩
    exact ⟨hrange, hver, by rw [hsum, payload, List.cons_append]; rfl⟩
  · rintro ⟨hrange, hver, hall⟩
    rw [payload, List.cons_append, List.cons.injEq] at hall
    obtain ⟨rfl, hall⟩ := hall
    obtain ⟨rfl, rfl⟩ := List.append_inj' hall (by rw [hcs, bech32Checksum, bigDigits_length])
    refine ⟨rfl, rfl, hrange, hver, ?_, rfl⟩
    simpa using hseven

def beforeConvert (addr : List Byte) : Option (List Byte × List Byte) := do
  let (hrp, text) ← bech32Split addr
  let symbols ← text.mapM charsetIndex
  let data := symbols.map (BitVec.ofNat 8)
  let witver := (data.headD 0).toNat
  if (bech32Values hrp data).length > 128 then none
  else if polymod (bech32Values hrp data) ≠ checksumConst witver then none
  else if witver > 16 then none
  else return (hrp, data)

theorem bech32DecodeAddr_eq (addr : List Byte) :
    bech32DecodeAddr addr = (beforeConvert addr).bind fun r =>
      (bech32Program r.2).map fun program => ⟨r.1, (r.2.headD 0).toNat, program⟩ := by
  rw [bech32DecodeAddr, beforeConvert]
  cases bech32Split addr with
  | none => rfl
  | some r =>
    simp only [Option.bind_eq_bind, Option.bind_some]
    cases r.2.mapM charsetIndex with
    | none => rfl
    | some symbols =>
      simp only [Option.bind_some]
      split_ifs
      · rfl
      · rfl
      · rfl
      · cases hprogram : bech32Program (symbols.map (BitVec.ofNat 8)) with
        | none =>
          simp only [Option.pure_def, Option.bind_some, hprogram]
          rfl
        | some program =>
          simp only [Option.pure_def, Option.bind_some, hprogram]
          rfl

theorem beforeConvert_iff (addr hrp data : List Byte) :
    beforeConvert addr = some (hrp, data) ↔
      ∃ symbols, bech32Split addr = some (hrp, symbols.map symbolChar) ∧
        (∀ d ∈ symbols, d < 32) ∧ data = symbolBytes symbols ∧ (data.headD 0).toNat ≤ 16 ∧
        polymod (bech32Values hrp data) = checksumConst (data.headD 0).toNat := by
  rw [beforeConvert]
  constructor
  · intro h
    obtain ⟨⟨hrp, text⟩, hsplit, hrest⟩ := Option.bind_eq_some_iff.mp h
    clear h
    obtain ⟨symbols, hsymbols, h⟩ := Option.bind_eq_some_iff.mp hrest
    clear hrest
    obtain ⟨hsym, rfl⟩ := (symbols_iff _ _).mp hsymbols
    dsimp only at h
    split_ifs at h with hroom hpoly hver
    cases h
    exact ⟨symbols, hsplit, hsym, rfl, not_lt.mp hver, not_not.mp hpoly⟩
  · rintro ⟨symbols, hsplit, hsym, rfl, hver, hpoly⟩
    obtain ⟨hrange, -, -, hlower, -, hhrp, -⟩ := (bech32Split_iff _ _ _).mp hsplit
    have hroom : ¬ (bech32Values hrp (symbolBytes symbols)).length > 128 := by
      have hlen := congrArg List.length hlower
      simp only [List.length_map, List.length_append, List.length_cons] at hlen
      simp only [bech32Values, symbolBytes, List.length_append, List.length_map,
        List.length_singleton]
      omega
    have hsome := (symbols_iff _ symbols).mpr ⟨hsym, rfl⟩
    rw [symbolBytes] at hver hpoly hroom
    rw [hsplit, Option.bind_eq_bind, Option.bind_some]
    dsimp only
    rw [hsome, Option.bind_eq_bind, Option.bind_some]
    rw [if_neg hroom, if_neg (not_not_intro hpoly), if_neg (not_lt.mpr hver)]
    rfl

theorem bech32DecodeAddr_iff (addr : List Byte) (a : Bech32Addr) :
    bech32DecodeAddr addr = some a ↔
      ∃ symbols, bech32Split addr = some (a.hrp, symbols.map symbolChar) ∧
        (∀ d ∈ symbols, d < 32) ∧ a.witver ≤ 16 ∧
        ((symbolBytes symbols).headD 0).toNat = a.witver ∧
        polymod (bech32Values a.hrp (symbolBytes symbols)) = checksumConst a.witver ∧
        bech32Program (symbolBytes symbols) = some a.program := by
  rw [bech32DecodeAddr_eq]
  constructor
  · intro h
    obtain ⟨⟨hrp, data⟩, hbefore, h⟩ := Option.bind_eq_some_iff.mp h
    obtain ⟨program, hprogram, rfl⟩ := Option.map_eq_some_iff.mp h
    obtain ⟨symbols, hsplit, hsym, rfl, hver, hpoly⟩ := (beforeConvert_iff _ _ _).mp hbefore
    exact ⟨symbols, hsplit, hsym, hver, rfl, hpoly, hprogram⟩
  · rintro ⟨symbols, hsplit, hsym, hver, hhead, hpoly, hprogram⟩
    have hbefore := (beforeConvert_iff addr a.hrp (symbolBytes symbols)).mpr
      ⟨symbols, hsplit, hsym, rfl, by rw [hhead]; exact hver, by rw [hhead]; exact hpoly⟩
    rw [hbefore, Option.bind_some]
    dsimp only
    rw [hprogram, hhead]
    rfl

theorem encode_plain {a : Bech32Addr} (h : Segwit a) : ∀ c ∈ bech32Encode a, plain c = true := by
  intro c hc
  obtain hc | hc := List.mem_append.mp hc
  · exact h.hrpPlain c hc
  · obtain rfl | hc := List.mem_cons.mp hc
    · decide
    · obtain ⟨d, hd, rfl⟩ := List.mem_map.mp hc
      obtain hd | hd := List.mem_append.mp hd
      · exact (plain_symbolChar d (payload_lt h.witver d hd)).1
      · exact (plain_symbolChar d (bech32Checksum_lt a d hd)).1

def Spells (addr : List Byte) (a : Bech32Addr) : Prop :=
  Segwit a ∧ (addr = bech32Encode a ∨ addr = (bech32Encode a).map toUpper)

theorem not_upper_of_plain {c : Byte} (h : plain c = true) : isUpper c = false :=
  (of_decide_eq_true h).2.2

theorem Spells.lower {addr : List Byte} {a : Bech32Addr} (h : Spells addr a) :
    addr.map toLower = bech32Encode a :=
  ((one_case_iff fun c hc => not_upper_of_plain (encode_plain h.1 c hc)).mpr h.2).1

theorem decode_spells {addr : List Byte} {a : Bech32Addr} (h : bech32DecodeAddr addr = some a) :
    Spells addr a := by
  obtain ⟨symbols, hsplit, hsym, hver, hsame⟩ := (bech32DecodeAddr_iff addr a).mp h
  obtain ⟨hrange, hchars, hcase, hlower, -, hhrp, htext⟩ := (bech32Split_iff _ _ _).mp hsplit
  rw [List.length_map] at htext
  obtain ⟨hprogram, hver0, rfl⟩ := (symbols_encode_iff hsym htext a).mp hsame
  have hlen : (bech32Encode a).length ≤ 90 := by
    rw [bech32Encode, ← hlower, List.length_map]
    exact hrange.2
  have hplain : ∀ c ∈ a.hrp, plain c = true := by
    intro c hc
    have hmem : c ∈ addr.map toLower := hlower ▸ List.mem_append_left _ hc
    obtain ⟨c', hc', rfl⟩ := List.mem_map.mp hmem
    obtain ⟨hup, -, -, hprint⟩ := case_facts c'
    obtain ⟨hlo, hhi⟩ := hprint.mpr (hchars c' hc')
    exact decide_eq_true ⟨hlo, hhi, hup⟩
  have hseg : Segwit a := ⟨hhrp, hplain, hver, hprogram, hver0, hlen⟩
  exact ⟨hseg, (one_case_iff fun c hc => not_upper_of_plain (encode_plain hseg c hc)).mp
    ⟨hlower, hcase⟩⟩

theorem Spells.decode {addr : List Byte} {a : Bech32Addr} (h : Spells addr a) :
    bech32DecodeAddr addr = some a := by
  obtain ⟨hseg, hcases⟩ := h
  have hplain := encode_plain hseg
  obtain ⟨hlower, hcase⟩ :=
    (one_case_iff fun c hc => not_upper_of_plain (hplain c hc)).mpr hcases
  have hsym : ∀ d ∈ payload a ++ bech32Checksum a, d < 32 := by
    intro d hd
    obtain hd | hd := List.mem_append.mp hd
    · exact payload_lt hseg.witver d hd
    · exact bech32Checksum_lt a d hd
  have hsix : 6 ≤ (payload a ++ bech32Checksum a).length := by
    rw [List.length_append, bech32Checksum, bigDigits_length]
    omega
  have hlen := congrArg List.length hlower
  have hmax := hseg.length
  have hhrp := hseg.hrp
  rw [List.length_map] at hlen
  refine (bech32DecodeAddr_iff addr a).mpr ⟨payload a ++ bech32Checksum a, ?_, hsym, hseg.witver,
    (symbols_encode_iff hsym hsix a).mpr ⟨hseg.program, hseg.version0, rfl⟩⟩
  refine (bech32Split_iff _ _ _).mpr ⟨⟨?_, by omega⟩, ?_, hcase, hlower, ?_, hhrp, ?_⟩
  · rw [bech32Encode, List.length_append, List.length_cons, List.length_map] at hlen
    omega
  · intro c hc
    have hc' := of_decide_eq_true (hplain (toLower c) (hlower ▸ List.mem_map_of_mem hc))
    exact (case_facts c).2.2.2.mp ⟨hc'.1, hc'.2.1⟩
  · intro hmem
    obtain ⟨d, hd, hone⟩ := List.mem_map.mp hmem
    exact (plain_symbolChar d (hsym d hd)).2 hone
  · rwa [List.length_map]

def opWitver (witver : Nat) : Nat := if witver = 0 then 0x00 else 0x51 + (witver - 1)

theorem bech32Scriptpubkey_eq {a : Bech32Addr} (h : Segwit a) {outsz : Nat}
    (hroom : a.program.length + 2 ≤ outsz) :
    ∃ op push, bech32Scriptpubkey a outsz = some (op :: push :: a.program) ∧
      op.toNat = opWitver a.witver ∧ push.toNat = a.program.length := by
  have hver := h.witver
  have hprogram := h.program
  refine ⟨_, _, if_neg (by omega), ?_, ?_⟩
  · rw [opWitver]
    split
    · rfl
    · rw [BitVec.toNat_ofNat]
      omega
  · rw [BitVec.toNat_ofNat]
    omega

/-- The decoder accepts the spellings of segwit addresses and nothing else; what it reads
is the only triple spelt, and its script pays to the version and program in it. -/
theorem segwit_address (addr : List Byte) (a : Bech32Addr) :
    (bech32DecodeAddr addr = some a ↔ Spells addr a) ∧
      (bech32DecodeAddr addr = some a →
        addr.map toLower = bech32Encode a ∧ (∀ b, Spells addr b → b = a) ∧
          ∀ outsz ≥ a.program.length + 2, ∃ op push,
            bech32Scriptpubkey a outsz = some (op :: push :: a.program) ∧
              op.toNat = opWitver a.witver ∧ push.toNat = a.program.length) := by
  refine ⟨⟨decode_spells, Spells.decode⟩, fun h => ?_⟩
  have hspells := decode_spells h
  refine ⟨hspells.lower, fun b hb => ?_, fun outsz hroom => bech32Scriptpubkey_eq hspells.1 hroom⟩
  have hdecode := hb.decode
  rw [h] at hdecode
  exact (Option.some.inj hdecode).symm

theorem segwit_address_devfee :
    ∃ a, Spells (ascii "bc1qztsz84mn408vfklya05sgf8v4j2wtfrscszene") a ∧
      ∃ op push, bech32Scriptpubkey a 42 = some (op :: push :: a.program) ∧
        op.toNat = opWitver a.witver ∧ push.toNat = a.program.length := by
  obtain ⟨a, ha⟩ := Option.isSome_iff_exists.mp (show
    (bech32DecodeAddr (ascii "bc1qztsz84mn408vfklya05sgf8v4j2wtfrscszene")).isSome = true by
      decide +kernel)
  obtain ⟨hdecode, hread⟩ := segwit_address _ a
  have hspells := hdecode.mp ha
  have hprogram := hspells.1.program
  exact ⟨a, hspells, (hread ha).2.2 42 (by omega)⟩

end Address

end OspreyBlake2b.Miner
