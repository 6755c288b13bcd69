import OspreyBlake2b.Lib.ScriptNum
import OspreyBlake2b.Miner.Bech32Laws
import OspreyBlake2b.Miner.TemplateText
import OspreyBlake2b.Miner.Transaction

namespace OspreyBlake2b.Miner

open OspreyBlake2b.Lib OspreyBlake2b.Lib.Decoder OspreyBlake2b.Hash.Sha256

section Height

theorem heightLoop_zero (fuel : Nat) : heightLoop fuel 0 = [] := by
  cases fuel with
  | zero => rfl
  | succ fuel => rw [heightLoop, if_pos rfl]

theorem heightLoop_spec (fuel : Nat) (h : U32) (hfit : h.toNat < 256 ^ fuel) :
    leVal (heightLoop fuel h) = h.toNat ∧
      (h.toNat ≠ 0 → 256 ^ ((heightLoop fuel h).length - 1) ≤ h.toNat ∧
        0 < (heightLoop fuel h).length) ∧ (heightLoop fuel h).length ≤ fuel := by
  induction fuel generalizing h with
  | zero =>
    have hzero : h.toNat = 0 := by omega
    exact ⟨hzero.symm, fun hne => absurd hzero hne, le_refl 0⟩
  | succ fuel ih =>
    rw [heightLoop]
    split
    · rename_i hzero
      rw [hzero]
      exact ⟨rfl, fun hne => absurd rfl hne, Nat.zero_le _⟩
    · rename_i hne
      have hpos : h.toNat ≠ 0 := fun hz => hne (BitVec.eq_of_toNat_eq hz)
      have hshift : (h >>> 8).toNat = h.toNat / 256 := by
        rw [BitVec.toNat_ushiftRight, Nat.shiftRight_eq_div_pow]
      obtain ⟨hval, hlow, hlen⟩ := ih (h >>> 8) (by
        rw [hshift, Nat.pow_succ] at *
        omega)
      rw [hshift] at hval hlow
      refine ⟨?_, fun _ => ⟨?_, Nat.succ_pos _⟩, Nat.succ_le_succ hlen⟩
      · rw [leVal_cons, hval, BitVec.toNat_setWidth]
        omega
      · rw [List.length_cons, Nat.add_sub_cancel]
        by_cases hrest : h.toNat / 256 = 0
        · have hzero : h >>> 8 = 0 := BitVec.eq_of_toNat_eq (hshift.trans hrest)
          rw [hzero, heightLoop_zero]
          exact Nat.one_le_iff_ne_zero.mpr hpos
        · obtain ⟨hlow, hlength⟩ := hlow hrest
          obtain ⟨n, hn⟩ := Nat.exists_eq_succ_of_ne_zero (Nat.ne_of_gt hlength)
          rw [hn, Nat.succ_sub_one] at hlow
          rw [hn, Nat.pow_succ]
          omega

theorem toInt_eq_toNat {height : U32} (h : 1 ≤ height.toInt) :
    height.toInt = height.toNat ∧ 0 < height.toNat := by
  have hlt := height.isLt
  rw [BitVec.toInt_eq_toNat_cond] at h ⊢
  split at h
  · rename_i hsmall
    rw [if_pos hsmall]
    omega
  · omega

theorem pushHeight_encodes {height : U32} (h : 1 ≤ height.toInt) :
    ∃ bytes, pushHeight height = putPush bytes ∧
      Encodes height.toInt bytes ∧ 0 < bytes.length ∧ bytes.length ≤ 5 := by
  obtain ⟨hint, hpos⟩ := toInt_eq_toNat h
  obtain ⟨hval, hlow, hlen⟩ := heightLoop_spec 4 height height.isLt
  obtain ⟨hlow, hlength⟩ := hlow (Nat.ne_of_gt hpos)
  rw [hint, ← hval]
  rw [← hval] at hlow
  refine ⟨_, ?_, encodes_signed hlength hlow, ?_, ?_⟩
  · rw [pushHeight, putPush, if_neg (List.ne_nil_of_length_pos hlength)]
  · split
    · simp
    · exact hlength
  · split
    · rw [List.length_append, List.length_singleton]
      omega
    · omega

end Height

section Commitment

theorem hexBytes_unhex (hex : List Byte) (heven : hex.length % 2 = 0)
    (hhex : hex.all isHexDigit = true) : hexBytes hex = some (unhex hex) := by
  fun_induction unhex hex with
  | case1 hi lo ds ih =>
    simp only [List.all_cons, Bool.and_eq_true] at hhex
    obtain ⟨hhi, hlo, hds⟩ := hhex
    have ih := ih (by simpa [Nat.add_assoc] using heven) hds
    rw [hexBytes, hexval_of_isHexDigit hhi, hexval_of_isHexDigit hlo, ih]
    rfl
  | case2 hex hshort =>
    cases hex with
    | nil => rfl
    | cons c hex =>
      cases hex with
      | nil => simp at heven
      | cons d hex => exact absurd rfl (hshort c d hex)

end Commitment

def coinbaseTx (script spk wc : List Byte) (value : U64) : Tx where
  version := 2
  ins := [⟨Vector.replicate 32 0, 0xffffffff#32, script, 0xffffffff#32⟩]
  outs := ⟨value, spk⟩ :: if wc = [] then [] else [⟨0, wc⟩]
  witness := [[List.replicate 32 0]]
  lockTime := 0

theorem coinbaseOf_eq (script spk wc : List Byte) (value : U64) :
    let tx := coinbaseTx script spk wc value
    coinbaseOf script spk wc value =
      ⟨withWitness tx, withoutWitness tx, sha256d (withoutWitness tx)⟩ := by
  intro tx
  have hbody : putBody tx = coinbaseBody script spk wc value := by
    rw [coinbaseBody, putBody]
    by_cases hwc : wc = []
    · simp [tx, coinbaseTx, putList, putTxIn, putTxOut, putString, hwc]
    · simp [tx, coinbaseTx, putList, putTxIn, putTxOut, putString, hwc]
  have hwitness : putWitness tx = putCompact 1 ++ putCompact 32 ++ List.replicate 32 0 := by
    simp [tx, coinbaseTx, putWitness, putList, putString]
  rw [coinbaseOf, withWitness, withoutWitness, hbody, hwitness]
  simp [tx, coinbaseTx]

theorem coinbaseTx_fits {script spk wc : List Byte} (value : U64) (hscript : script.length ≤ 64)
    (hspk : spk.length ≤ 64) (hwc : wc.length ≤ 64) : Fits (coinbaseTx script spk wc value) := by
  refine ⟨by simp [coinbaseTx], by simp [coinbaseTx]; omega, ?_, ?_, rfl, by simp [coinbaseTx],
    by simp [coinbaseTx]⟩
  · rw [coinbaseTx]
    split <;> simp
  · rw [coinbaseTx]
    split <;> simp <;> omega

theorem putCompact_length (v : U64) : (putCompact v).length ≤ 9 := by
  rw [putCompact]
  split
  · simp
  split
  · simp
  split <;> simp

theorem coinbaseTx_length {script spk wc : List Byte} (value : U64) (hscript : script.length ≤ 64)
    (hspk : spk.length ≤ 64) (hwc : wc.length ≤ 64) :
    (withWitness (coinbaseTx script spk wc value)).length ≤ 1024 ∧
      (withoutWitness (coinbaseTx script spk wc value)).length ≤ 1024 := by
  have hstring {bs : List Byte} (h : bs.length ≤ 64) : (putString bs).length ≤ 73 := by
    have hcount := putCompact_length (BitVec.ofNat 64 bs.length)
    rw [putString, List.length_append]
    omega
  have hcount (n : Nat) := putCompact_length (BitVec.ofNat 64 n)
  have hin := hstring hscript
  have hout := hstring hspk
  have hcommitment := hstring hwc
  have hbody : (putBody (coinbaseTx script spk wc value)).length ≤ 500 := by
    have hins := hcount 1
    have houts := hcount 2
    rw [putBody, coinbaseTx]
    split
    · simp [putList, putTxIn, putTxOut]
      omega
    · simp [putList, putTxIn, putTxOut]
      omega
  have hwitness : (putWitness (coinbaseTx script spk wc value)).length ≤ 50 := by
    simp only [putWitness, coinbaseTx]
    decide
  rw [withWitness, withoutWitness]
  simp only [List.length_append, leBytes_length, List.length_cons, List.length_nil]
  omega

theorem scriptSig_reads {height : U32} (extranonce : U64) (h : 1 ≤ height.toInt) :
    ∃ bytes, times 2 readPush (scriptSig height extranonce) =
        some ([bytes, leBytes 8 extranonce], []) ∧
      Encodes height.toInt bytes ∧ (scriptSig height extranonce).length ≤ 64 := by
  obtain ⟨bytes, hpush, hencodes, hpos, hlen⟩ := pushHeight_encodes h
  have hscript : scriptSig height extranonce = [bytes, leBytes 8 extranonce].flatMap putPush := by
    simp [scriptSig, hpush, putPush]
  refine ⟨bytes, ?_, hencodes, ?_⟩
  · have hread : ∀ push ∈ [bytes, leBytes 8 extranonce], Reads readPush (putPush push) push := by
      intro push hmem
      rcases List.mem_pair.mp hmem with rfl | rfl
      · exact reads_push hpos (by omega)
      · exact reads_push (by simp) (by simp)
    have hboth := reads_times hread []
    rw [hscript]
    simpa using hboth
  · simp [hscript, putPush]
    omega

theorem coinbaseBuild_eq {address commitment spk : List Byte} {a : Bech32Addr} (value : U64)
    (height : U32) (extranonce : U64) (haddr : bech32DecodeAddr address = some a)
    (hspk : bech32Scriptpubkey a 64 = some spk) (heven : commitment.length % 2 = 0)
    (hhex : commitment.all isHexDigit = true) (hmax : (unhex commitment).length ≤ 64) :
    coinbaseBuild address value height extranonce commitment =
      .ok (coinbaseOf (scriptSig height extranonce) spk (unhex commitment) value) := by
  have hwc : coinbaseHex2bin commitment 64 = some (unhex commitment) := by
    rw [length_unhex] at hmax
    rw [coinbaseHex2bin, if_neg (by omega), if_neg (by omega), hexBytes_unhex _ heven hhex]
  simp only [coinbaseBuild, haddr, hspk, hwc]

/-- For every address that decodes, every height from 1 on and every commitment that
is absent or hexadecimal text of at most 64 bytes. -/
theorem coinbase_reads_back (address : List Byte) (a : Bech32Addr) (value : U64) (height : U32)
    (extranonce : U64) (commitment : List Byte) (haddr : bech32DecodeAddr address = some a)
    (hheight : 1 ≤ height.toInt) (heven : commitment.length % 2 = 0)
    (hhex : commitment.all isHexDigit = true) (hmax : (unhex commitment).length ≤ 64) :
    ∃ cb script bytes op push,
      coinbaseBuild address value height extranonce commitment = .ok cb ∧
        cb.raw.length ≤ 1024 ∧ cb.stripped.length ≤ 1024 ∧
        readTx cb.raw = some ({
          version := 2
          ins := [⟨Vector.replicate 32 0, 0xffffffff#32, script, 0xffffffff#32⟩]
          outs := ⟨value, op :: push :: a.program⟩ ::
            if commitment = [] then [] else [⟨0, unhex commitment⟩]
          witness := [[List.replicate 32 0]]
          lockTime := 0 }, []) ∧
        times 2 readPush script = some ([bytes, leBytes 8 extranonce], []) ∧
        Encodes height.toInt bytes ∧
        op.toNat = opWitver a.witver ∧ push.toNat = a.program.length ∧
        removeWitness cb.raw = some cb.stripped ∧ cb.txid = sha256d cb.stripped := by
  have hsegwit := (decode_spells haddr).1
  have hprogram := hsegwit.program
  have hroom : a.program.length + 2 ≤ 64 := by omega
  obtain ⟨op, push, hspk, hop, hpush⟩ := bech32Scriptpubkey_eq hsegwit hroom
  obtain ⟨bytes, hscript, hencodes, hlen⟩ := scriptSig_reads extranonce hheight
  have hspkLen : (op :: push :: a.program).length ≤ 64 := hroom
  have hfits := coinbaseTx_fits value hlen hspkLen hmax
  have hgiven : unhex commitment = [] ↔ commitment = [] := by
    rw [← List.length_eq_zero_iff, length_unhex, ← List.length_eq_zero_iff]
    omega
  refine ⟨_, scriptSig height extranonce, bytes, op, push,
    coinbaseBuild_eq value height extranonce haddr hspk heven hhex hmax, ?_⟩
  rw [coinbaseOf_eq]
  dsimp only
  have hlength := coinbaseTx_length value hlen hspkLen hmax
  refine ⟨hlength.1, hlength.2, ?_, hscript, hencodes, hop, hpush, removeWitness_withWitness hfits, rfl⟩
  rw [readTx_withWitness hfits, coinbaseTx]
  simp only [hgiven]

theorem coinbase_reads_back_devfee :
    ∃ cb script bytes, coinbaseBuild (ascii "bc1qztsz84mn408vfklya05sgf8v4j2wtfrscszene")
          312997000#64 128#32 7#64 [] = .ok cb ∧
        (∃ tx, readTx cb.raw = some (tx, []) ∧ tx.outs.length = 1) ∧
        times 2 readPush script = some ([bytes, leBytes 8 7#64], []) ∧
        Encodes (128#32).toInt bytes ∧ removeWitness cb.raw = some cb.stripped := by
  obtain ⟨a, ha⟩ := Option.isSome_iff_exists.mp (show
    (bech32DecodeAddr (ascii "bc1qztsz84mn408vfklya05sgf8v4j2wtfrscszene")).isSome = true by
      decide +kernel)
  obtain ⟨cb, script, bytes, op, push, hcb, -, -, hread, hscript, hencodes, -, -, hremove, -⟩ :=
    coinbase_reads_back _ a 312997000#64 128#32 7#64 [] ha (by decide) (by decide) (by decide)
      (by decide)
  exact ⟨cb, script, bytes, hcb, ⟨_, hread, rfl⟩, hscript, hencodes, hremove⟩

end OspreyBlake2b.Miner
