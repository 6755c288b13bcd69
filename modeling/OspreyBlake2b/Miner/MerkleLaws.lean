import OspreyBlake2b.Lib.Blocks
import OspreyBlake2b.Lib.Merkle
import OspreyBlake2b.Miner.Block

/-! `merkle_root` on the bytes of its buffer: every row is written over the row it is
read from, and what is left at the front is the root of the tree. -/

namespace OspreyBlake2b.Miner

open OspreyBlake2b.Lib OspreyBlake2b.Hash.Sha256

def idAt (buf : List Byte) (i : Nat) : List Byte := (buf.drop (32 * i)).take 32

def putId (buf : List Byte) (i : Nat) (id : List Byte) : List Byte :=
  buf.take (32 * i) ++ id ++ buf.drop (32 * i + id.length)

def hashPair (count : Nat) (buf : List Byte) (i : Nat) : List Byte :=
  let left := idAt buf (2 * i)
  let right := if 2 * i + 1 < count then idAt buf (2 * i + 1) else idAt buf (2 * i)
  putId buf i (sha256d (left ++ right))

def merkleRowBytes (count : Nat) (buf : List Byte) : List Byte :=
  (List.range ((count + 1) / 2)).foldl (hashPair count) buf

def merkleLoopBytes : Nat → Nat → List Byte → List Byte
  | 0, _, buf => buf
  | fuel + 1, count, buf =>
    if count > 1 then merkleLoopBytes fuel ((count + 1) / 2) (merkleRowBytes count buf) else buf

/-- `merkle_root` on a buffer of `count` ids; `none` is `-1`. -/
def merkleRootBytes (buf : List Byte) (count : Nat) : Option (List Byte) :=
  if count = 0 then none else some ((merkleLoopBytes count count buf).take 32)

def merkleNode (left right : List Byte) : List Byte := sha256d (left ++ right)

theorem merkleRow_eq (count : Nat) (ids : List (List Byte)) :
    merkleRow count ids = Merkle.rowInPlace merkleNode [] count ids := rfl

theorem merkleLoop_eq (fuel count : Nat) (ids : List (List Byte)) :
    merkleLoop fuel count ids = Merkle.loopInPlace merkleNode [] fuel count ids := by
  induction fuel generalizing count ids with
  | zero => rfl
  | succ fuel ih => rw [merkleLoop, Merkle.loopInPlace, merkleRow_eq, ih]

theorem merkleRow_length (count : Nat) (ids : List (List Byte)) :
    (merkleRow count ids).length = ids.length := by
  have hslots (slots : List Nat) (ids : List (List Byte)) :
      (slots.foldl (Merkle.writeSlot merkleNode [] count) ids).length = ids.length := by
    induction slots generalizing ids with
    | nil => rfl
    | cons i slots ih => rw [List.foldl_cons, ih, Merkle.writeSlot, List.length_set]
  exact hslots _ ids

theorem merkleLoop_length (fuel count : Nat) (ids : List (List Byte)) :
    (merkleLoop fuel count ids).length = ids.length := by
  induction fuel generalizing count ids with
  | zero => rfl
  | succ fuel ih =>
    rw [merkleLoop]
    split
    · rw [ih, merkleRow_length]
    · rfl

theorem merkleRoot_eq (ids : List (List Byte)) : merkleRoot ids = Merkle.root merkleNode ids := by
  rw [merkleRoot]
  by_cases h : ids = []
  · subst h
    rw [Merkle.root]
    rfl
  · have hpos := List.length_pos_of_ne_nil h
    have hlen := merkleLoop_length ids.length ids.length ids
    rw [if_neg (by omega), ← Merkle.loopInPlace_root (d := []) h, ← merkleLoop_eq]
    obtain ⟨id, slots, hloop⟩ := List.exists_cons_of_length_pos (hpos.trans_eq hlen.symm)
    rw [hloop]
    rfl

section Buffer

variable {ids : List (List Byte)}

def Slots (ids : List (List Byte)) : Prop := ∀ id ∈ ids, id.length = 32

theorem idAt_flatten (h : Slots ids) {i : Nat} (hi : i < ids.length) :
    idAt ids.flatten i = ids.getD i [] := by
  rw [idAt, Blocks.drop_flatten h, List.drop_eq_getElem_cons hi, List.flatten_cons,
    List.take_left' (h _ (List.getElem_mem hi)), List.getD_eq_getElem _ _ hi]

theorem putId_flatten (h : Slots ids) {i : Nat} (hi : i < ids.length) {id : List Byte}
    (hid : id.length = 32) : putId ids.flatten i id = (ids.set i id).flatten := by
  rw [putId, Blocks.take_flatten h, hid, ← Nat.mul_succ, Blocks.drop_flatten h,
    List.set_eq_take_append_cons_drop, if_pos hi, List.flatten_append, List.flatten_cons,
    List.append_assoc]

theorem Slots.set (h : Slots ids) (i : Nat) {id : List Byte} (hid : id.length = 32) :
    Slots (ids.set i id) := by
  intro x hx
  obtain hx | rfl := List.mem_or_eq_of_mem_set hx
  · exact h x hx
  · exact hid

theorem hashPair_flatten (h : Slots ids) {count i : Nat} (hcount : count ≤ ids.length)
    (hi : 2 * i < count) :
    hashPair count ids.flatten i = (Merkle.writeSlot merkleNode [] count ids i).flatten ∧
      Slots (Merkle.writeSlot merkleNode [] count ids i) := by
  have hright : (if 2 * i + 1 < count then idAt ids.flatten (2 * i + 1)
      else idAt ids.flatten (2 * i)) =
      if 2 * i + 1 < count then ids.getD (2 * i + 1) [] else ids.getD (2 * i) [] := by
    split
    · exact idAt_flatten h (by omega)
    · exact idAt_flatten h (by omega)
  refine ⟨?_, h.set i (sha256d_length _)⟩
  simp only [hashPair]
  rw [hright, idAt_flatten h (by omega), putId_flatten h (by omega) (sha256d_length _)]
  rfl

theorem merkleRowBytes_flatten (h : Slots ids) {count : Nat} (hcount : count ≤ ids.length) :
    merkleRowBytes count ids.flatten = (merkleRow count ids).flatten ∧
      Slots (merkleRow count ids) := by
  have hslots (k : Nat) (hk : k ≤ (count + 1) / 2) :
      let slots := (List.range k).foldl (Merkle.writeSlot merkleNode [] count) ids
      (List.range k).foldl (hashPair count) ids.flatten = slots.flatten ∧ Slots slots ∧
        slots.length = ids.length := by
    induction k with
    | zero => exact ⟨rfl, h, rfl⟩
    | succ k ih =>
      obtain ⟨hbytes, hs, hlen⟩ := ih (by omega)
      have hcount' : count ≤ _ := hcount.trans_eq hlen.symm
      obtain ⟨hpair, hnext⟩ := hashPair_flatten hs hcount' (show 2 * k < count by omega)
      simp only [List.range_succ, List.foldl_append, List.foldl_cons, List.foldl_nil, hbytes]
      exact ⟨hpair, hnext, by rw [Merkle.writeSlot, List.length_set, hlen]⟩
  obtain ⟨hbytes, hs, -⟩ := hslots _ (Nat.le_refl _)
  exact ⟨hbytes, hs⟩

theorem merkleLoopBytes_flatten (h : Slots ids) (fuel : Nat) {count : Nat}
    (hcount : count ≤ ids.length) :
    merkleLoopBytes fuel count ids.flatten = (merkleLoop fuel count ids).flatten ∧
      Slots (merkleLoop fuel count ids) := by
  induction fuel generalizing ids count with
  | zero => exact ⟨rfl, h⟩
  | succ fuel ih =>
    rw [merkleLoopBytes, merkleLoop]
    split
    · obtain ⟨hrow, hslots⟩ := merkleRowBytes_flatten h hcount
      rw [hrow]
      exact ih hslots (by rw [merkleRow_length]; omega)
    · exact ⟨rfl, h⟩

/-- Each row is written over the one it is read from, and the root is that of the tree. -/
theorem merkle_root_in_place (h : Slots ids) :
    merkleRootBytes ids.flatten ids.length = Merkle.root merkleNode ids := by
  rw [← merkleRoot_eq, merkleRootBytes, merkleRoot]
  split
  · rfl
  · obtain ⟨hbytes, hslots⟩ := merkleLoopBytes_flatten h ids.length (Nat.le_refl _)
    have hlen := merkleLoop_length ids.length ids.length ids
    obtain ⟨id, slots, hloop⟩ :=
      List.exists_cons_of_length_pos (show 0 < (merkleLoop ids.length ids.length ids).length by omega)
    rw [hloop] at hslots
    rw [hbytes, hloop, List.flatten_cons, List.take_left' (hslots id List.mem_cons_self)]
    rfl

theorem merkle_root_in_place_three :
    let a := List.replicate 32 0x11#8
    let b := List.replicate 32 0x22#8
    let c := List.replicate 32 0x33#8
    merkleRootBytes [a, b, c].flatten 3 =
      some (sha256d (sha256d (a ++ b) ++ sha256d (c ++ c))) := by
  intro a b c
  have hslots : Slots [a, b, c] := by
    intro id hid
    simp only [List.mem_cons, List.not_mem_nil, or_false] at hid
    obtain rfl | rfl | rfl := hid <;> rfl
  refine (merkle_root_in_place hslots).trans ?_
  simp [Merkle.root, Merkle.pairRow, merkleNode]

end Buffer

end OspreyBlake2b.Miner
