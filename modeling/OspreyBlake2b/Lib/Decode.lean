import OspreyBlake2b.Lib.Bytes

namespace OspreyBlake2b.Lib

abbrev Decoder := StateT (List Byte) Option

namespace Decoder

def word (w n : Nat) : Decoder (BitVec w) := fun bs =>
  if bs.length < n then none else some (leWord w (bs.take n), bs.drop n)

def bytes (n : Nat) : Decoder (Vector Byte n) := fun bs =>
  if h : n ≤ bs.length then some (⟨(bs.take n).toArray, by simp [h]⟩, bs.drop n) else none

def string (n : Nat) : Decoder (List Byte) := fun bs =>
  if bs.length < n then none else some (bs.take n, bs.drop n)

def times : Nat → Decoder A → Decoder (List A)
  | 0, _ => pure []
  | n + 1, d => do
    let a ← d
    let as ← times n d
    return a :: as

/-- `d` takes `a`, written as `text`, off whatever it stands in front of. -/
def Reads (d : Decoder A) (text : List Byte) (a : A) : Prop :=
  ∀ rest, d (text ++ rest) = some (a, rest)

theorem bind_of_eq {d : Decoder A} {bs rest : List Byte} {a : A} (h : d bs = some (a, rest))
    (f : A → Decoder B) : (d >>= f) bs = f a rest := by
  change (d bs).bind (fun p => f p.1 p.2) = _
  rw [h]
  rfl

theorem Reads.bind {d : Decoder A} {f : A → Decoder B} {text text' : List Byte} {a : A} {b : B}
    (h : Reads d text a) (h' : Reads (f a) text' b) : Reads (d >>= f) (text ++ text') b := by
  intro rest
  rw [List.append_assoc, bind_of_eq (h _) f]
  exact h' rest

theorem Reads.pure (a : A) : Reads (Pure.pure a) [] a := fun _ => rfl

theorem Reads.map {d : Decoder A} {text : List Byte} {a : A} (h : Reads d text a) (f : A → B) :
    Reads (f <$> d) text (f a) := by
  rw [map_eq_pure_bind, ← List.append_nil text]
  exact h.bind (.pure (f a))

theorem reads_string (bs : List Byte) : Reads (string bs.length) bs bs := by
  intro rest
  rw [string, if_neg (by simp), List.take_left' rfl, List.drop_left' rfl]

theorem reads_times {d : Decoder A} {f : A → List Byte} {as : List A}
    (h : ∀ a ∈ as, Reads d (f a) a) : Reads (times as.length d) (as.flatMap f) as := by
  induction as with
  | nil => exact .pure []
  | cons a as ih =>
    have htail := ih fun b hb => h b (List.mem_cons_of_mem a hb)
    exact (h a List.mem_cons_self).bind (htail.map (a :: ·))

theorem word_leBytes (n : Nat) (v : BitVec (8 * n)) (rest : List Byte) :
    word (8 * n) n (leBytes n v ++ rest) = some (v, rest) := by
  rw [word, if_neg (by simp), List.take_left' (by simp), List.drop_left' (by simp), leWord_leBytes]

theorem word_leBytes_of_lt {w n : Nat} {v : BitVec w} (hn : 8 * n ≤ w) (hv : v.toNat < 256 ^ n)
    (rest : List Byte) : word w n (leBytes n v ++ rest) = some (v, rest) := by
  have hword : leWord w (leBytes n v) = v := by
    apply BitVec.eq_of_toNat_eq
    rw [leWord_toNat _ _ (by simpa using hn), leVal_leBytes, Nat.mod_eq_of_lt hv]
  rw [word, if_neg (by simp), List.take_left' (by simp), List.drop_left' (by simp), hword]

theorem bytes_toList {n : Nat} (v : Vector Byte n) (rest : List Byte) :
    bytes n (v.toList ++ rest) = some (v, rest) := by
  rw [bytes, dif_pos (by simp)]
  congr 2
  · apply Vector.toList_inj.mp
    simp
  · exact List.drop_left' (by simp)

end Decoder

end OspreyBlake2b.Lib
