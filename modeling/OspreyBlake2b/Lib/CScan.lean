import OspreyBlake2b.Lib.Double

/-! The C library's integer conversions, on a machine with a 32-bit `long`. -/

namespace OspreyBlake2b.Lib

/-- `strtoll (p, NULL, 10)`. -/
def strtoll (p : List Byte) : Int :=
  let (neg, p) := signed (p.dropWhile isspace)
  let v : Int := digitsVal 10 (p.takeWhile isDigit)
  if neg then max (-2 ^ 63) (-v) else min (2 ^ 63 - 1) v

/-- `strtoul (p, NULL, 16)`. -/
def strtoul16 (p : List Byte) : U32 :=
  let (neg, p) := signed (p.dropWhile isspace)
  let v := digitsVal 16 ((if startsCI "0x" p then p.drop 2 else p).takeWhile isHexDigit)
  if v ≥ 2 ^ 32 then BitVec.allOnes 32
  else if neg then -BitVec.ofNat 32 v
  else BitVec.ofNat 32 v

/-- `sscanf (p, "%2x", &v) == 1` with `(uint8_t) v`: blanks before the item do not
count, a sign does, and a lone `0x` is taken for 0. -/
def sscanf2x (p : List Byte) : Option Byte :=
  let p := p.dropWhile isspace
  let q := p.drop 1
  if deref p = char '+' then (hexval (deref q)).map (BitVec.ofNat 8)
  else if deref p = char '-' then (hexval (deref q)).map fun v => -BitVec.ofNat 8 v
  else
    match hexval (deref p), hexval (deref q) with
    | none, _ => none
    | some hi, some lo => some (BitVec.ofNat 8 (hi * 16 + lo))
    | some hi, none =>
      if startsCI "0x" p then some 0 else some (BitVec.ofNat 8 hi)

def terminated (p : List Byte) : Bool :=
  (signed (p.dropWhile isspace)).2.any fun c => !isDigit c

theorem signed_append {q : List Byte} (h : q ≠ []) (b : List Byte) :
    signed (q ++ b) = ((signed q).1, (signed q).2 ++ b) := by
  obtain ⟨c, q, rfl⟩ := List.exists_cons_of_ne_nil h
  simp only [signed, deref, List.cons_append, List.headD_cons, List.drop_one, List.tail_cons]
  split
  · rfl
  · split <;> rfl

theorem strtoll_append {p : List Byte} (h : terminated p = true) (b : List Byte) :
    strtoll (p ++ b) = strtoll p := by
  have hne : p.dropWhile isspace ≠ [] := by
    intro hnil
    rw [terminated, hnil] at h
    cases h
  have hdrop : (p ++ b).dropWhile isspace = p.dropWhile isspace ++ b := by
    rw [List.dropWhile_append, if_neg (by simpa using hne)]
  have htake : ((signed (p.dropWhile isspace)).2 ++ b).takeWhile isDigit =
      (signed (p.dropWhile isspace)).2.takeWhile isDigit := by
    rw [terminated] at h
    generalize (signed (p.dropWhile isspace)).2 = q at h
    induction q with
    | nil => cases h
    | cons c q ih =>
      rw [List.cons_append, List.takeWhile_cons, List.takeWhile_cons]
      split
      · rename_i hc
        rw [ih (by simpa [hc] using h)]
      · rfl
  simp only [strtoll, hdrop, signed_append hne, htake]

end OspreyBlake2b.Lib
