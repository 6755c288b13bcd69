import OspreyBlake2b.Lib.Checked
import OspreyBlake2b.Miner.Bech32Laws

namespace OspreyBlake2b.Miner

open OspreyBlake2b.Lib

/-- `convert5to8` on `data + i`, where only the symbols that were decoded may be read. -/
def convertChecked (outsz : Nat) (data : List Byte) : Nat → Nat → U32 → Nat → List Byte →
    Except Fault (Option (List Byte))
  | 0, _, acc, bits, out =>
    if bits ≥ 5 then return none
    else if (acc <<< (8 - bits)) &&& 0xff#32 ≠ 0 then return none
    else return some out
  | inlen + 1, i, acc, bits, out => do
    let v ← readAt data i
    let acc := (acc <<< 5) ||| v.setWidth 32
    if bits + 5 ≥ 8 then
      let bits := bits + 5 - 8
      if out.length ≥ outsz then return none
      else convertChecked outsz data inlen (i + 1) acc bits (out ++ [(acc >>> bits).setWidth 8])
    else convertChecked outsz data inlen (i + 1) acc (bits + 5) out

theorem convertChecked_eq {outsz : Nat} {data : List Byte} {inlen i : Nat}
    (h : i + inlen ≤ data.length) (acc : U32) (bits : Nat) (out : List Byte) :
    convertChecked outsz data inlen i acc bits out =
      .ok (convert5to8 outsz inlen (data.drop i) acc bits out) := by
  induction inlen generalizing i acc bits out with
  | zero =>
    rw [convertChecked, convert5to8]
    split_ifs <;> rfl
  | succ inlen ih =>
    have hi : i < data.length := by omega
    rw [convertChecked, readAt_ok hi, Fault.ok_bind, List.drop_eq_getElem_cons hi, convert5to8]
    simp only [List.headD_cons, List.tail_cons, ih (show i + 1 + inlen ≤ data.length by omega)]
    split_ifs <;> rfl

theorem convertChecked_six {data : List Byte} (h : data.length = 6) (n : Nat) :
    convertChecked bech32MaxProgram data (n + 6) 1 0 0 [] = .error (.read 6) := by
  obtain ⟨v, g₁, g₂, g₃, g₄, g₅, rfl⟩ : ∃ v g₁ g₂ g₃ g₄ g₅, data = [v, g₁, g₂, g₃, g₄, g₅] := by
    obtain _ | ⟨v, _ | ⟨g₁, _ | ⟨g₂, _ | ⟨g₃, _ | ⟨g₄, _ | ⟨g₅, _ | ⟨g₆, data⟩⟩⟩⟩⟩⟩⟩ := data
    all_goals simp at h ⊢
  simp only [convertChecked, readAt, bech32MaxProgram]
  rfl

/-- Whenever the decoder gets to `convert5to8`, the number of groups it passes is the
number of symbols between the version and the checksum, and no others are read. -/
def LengthsExact (addr : List Byte) : Prop :=
  ∀ hrp data, beforeConvert addr = some (hrp, data) →
    7 ≤ data.length ∧ 1 + groupCount data.length + 6 = data.length ∧
      ∃ r, convertChecked bech32MaxProgram data (groupCount data.length) 1 0 0 [] = .ok r

def emptyChecksum (hrp : List Byte) (k : U32) : List Nat :=
  bigDigits 32 6 (polymod (bech32Values hrp [] ++ List.replicate 6 0) ^^^ k).toNat

/-- The text behind the separator is a checksum of the prefix alone, and its first symbol
is a witness version that goes with it. -/
def ChecksumAlone (hrp text : List Byte) : Prop :=
  ∃ witver ≤ 16, (emptyChecksum hrp (checksumConst witver)).head? = some witver ∧
    text = (emptyChecksum hrp (checksumConst witver)).map symbolChar

theorem emptyChecksum_length (hrp : List Byte) (k : U32) : (emptyChecksum hrp k).length = 6 :=
  bigDigits_length

theorem emptyChecksum_lt (hrp : List Byte) (k : U32) : ∀ d ∈ emptyChecksum hrp k, d < 32 :=
  bigDigits_lt (by decide)

theorem headD_symbolBytes {symbols : List Nat} (hsym : ∀ d ∈ symbols, d < 32) :
    ((symbolBytes symbols).headD 0).toNat = symbols.headD 0 := by
  obtain _ | ⟨d, ds⟩ := symbols
  · rfl
  · have hlt := hsym d List.mem_cons_self
    exact Nat.mod_eq_of_lt (by omega)

theorem polymod_six_iff (hrp : List Byte) {symbols : List Nat} (hsym : ∀ d ∈ symbols, d < 32)
    (hlen : symbols.length = 6) (witver : Nat) :
    polymod (bech32Values hrp (symbolBytes symbols)) = checksumConst witver ↔
      symbols = emptyChecksum hrp (checksumConst witver) := by
  have h := polymod_iff (bech32Values hrp []) (symbolBytes_lt hsym)
    (by rw [symbolBytes, List.length_map, hlen]) (checksumConst_lt witver)
  rwa [symbolBytes_toNat hsym, ← bech32Values_append, List.nil_append] at h

theorem reaches_six_iff (hrp : List Byte) {symbols : List Nat} (hsym : ∀ d ∈ symbols, d < 32)
    (hlen : symbols.length = 6) :
    ((symbolBytes symbols).headD 0).toNat ≤ 16 ∧ polymod (bech32Values hrp (symbolBytes symbols)) =
        checksumConst ((symbolBytes symbols).headD 0).toNat ↔
      ChecksumAlone hrp (symbols.map symbolChar) := by
  rw [headD_symbolBytes hsym, polymod_six_iff hrp hsym hlen]
  constructor
  · rintro ⟨hver, hsum⟩
    refine ⟨symbols.headD 0, hver, ?_, by rw [← hsum]⟩
    rw [← hsum]
    obtain ⟨d, ds, rfl⟩ := List.exists_cons_of_length_pos (show 0 < symbols.length by omega)
    rfl
  · rintro ⟨witver, hver, hhead, htext⟩
    have hread := (symbols_iff _ symbols).mpr ⟨hsym, rfl⟩
    have hread' := (symbols_iff _ _).mpr ⟨emptyChecksum_lt hrp (checksumConst witver), htext⟩
    rw [hread, Option.some.injEq] at hread'
    rw [← hread'] at hhead
    obtain ⟨ds, rfl⟩ := List.head?_eq_some_iff.mp hhead
    exact ⟨hver, hread'⟩

theorem lengths_exact_of_seven {data : List Byte} (h : 7 ≤ data.length) :
    1 + groupCount data.length + 6 = data.length ∧
      ∃ r, convertChecked bech32MaxProgram data (groupCount data.length) 1 0 0 [] = .ok r := by
  have hcount : 1 + groupCount data.length + 6 = data.length := by
    rw [groupCount, if_neg (by omega)]
    omega
  exact ⟨hcount, _, convertChecked_eq (by omega) 0 0 []⟩

theorem lengths_exact_iff (addr : List Byte) :
    LengthsExact addr ↔
      ∀ hrp text, bech32Split addr = some (hrp, text) → ¬ ChecksumAlone hrp text := by
  constructor
  · rintro h hrp text hsplit ⟨witver, hver, hhead, rfl⟩
    have hlen := emptyChecksum_length hrp (checksumConst witver)
    have hlt := emptyChecksum_lt hrp (checksumConst witver)
    obtain ⟨hle, hpoly⟩ := (reaches_six_iff hrp hlt hlen).mpr ⟨witver, hver, hhead, rfl⟩
    obtain ⟨hseven, -, -⟩ := h hrp _ ((beforeConvert_iff _ _ _).mpr ⟨_, hsplit, hlt, rfl, hle, hpoly⟩)
    rw [symbolBytes, List.length_map, hlen] at hseven
    omega
  · intro h hrp data hbefore
    obtain ⟨symbols, hsplit, hsym, rfl, hver, hpoly⟩ := (beforeConvert_iff _ _ _).mp hbefore
    obtain ⟨-, -, -, -, -, -, hsix⟩ := (bech32Split_iff _ _ _).mp hsplit
    have hlen : (symbolBytes symbols).length = symbols.length := List.length_map _
    rw [List.length_map] at hsix
    obtain hseven | hshort := Nat.lt_or_ge 6 symbols.length
    · exact ⟨by omega, lengths_exact_of_seven (by omega)⟩
    · have halone := (reaches_six_iff hrp hsym (by omega)).mp ⟨hver, hpoly⟩
      exact absurd halone (h hrp _ hsplit)

/-- The prefix of the test network with its own checksum: the first symbol passes for
version 13, and the loop is to run over 2^32 - 1 groups. -/
theorem tb_checksum_reads_past :
    ¬ LengthsExact (ascii "tb1dclvmr") := by
  intro h
  have hbefore : beforeConvert (ascii "tb1dclvmr") =
      some (ascii "tb", symbolBytes [13, 24, 31, 12, 27, 3]) := by decide +kernel
  obtain ⟨-, -, r, hr⟩ := h _ _ hbefore
  have hsix : (symbolBytes [13, 24, 31, 12, 27, 3]).length = 6 := rfl
  have hfault := convertChecked_six hsix (2 ^ 32 - 7)
  rw [show groupCount (symbolBytes [13, 24, 31, 12, 27, 3]).length = 2 ^ 32 - 7 + 6 from rfl,
    hfault] at hr
  cases hr

end OspreyBlake2b.Miner
