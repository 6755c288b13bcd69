import OspreyBlake2b.Lib.CText
import Mathlib.Data.List.Infix

/-! C code over NUL-terminated strings with every access checked.  A pointer is a
position, a read behind the NUL or a write behind the end of a buffer ends the run
with a `Fault`, and so does a loop that has taken more steps than the string has
bytes.  The laws compute the checked operations from those of `CText`, where a
pointer is the suffix it points at. -/

namespace OspreyBlake2b.Lib

inductive Fault where
  | read (i : Nat)
  | write (i : Nat)
  | endless
  deriving DecidableEq

@[simp] theorem Fault.ok_bind (a : A) (f : A → Except Fault B) : (Except.ok a >>= f) = f a := rfl

@[simp] theorem Fault.pure_eq (a : A) : (pure a : Except Fault A) = .ok a := rfl

def readAt (m : List Byte) (i : Nat) : Except Fault Byte :=
  match m[i]? with
  | some c => .ok c
  | none => .error (.read i)

/-- `out[o++] = c` for an array of `cap` elements of which `o` are written. -/
def store (cap : Nat) (out : List α) (c : α) : Except Fault (List α) :=
  if out.length < cap then .ok (out ++ [c]) else .error (.write out.length)

theorem readAt_ok {m : List Byte} {i : Nat} (h : i < m.length) : readAt m i = .ok m[i] := by
  rw [readAt, List.getElem?_eq_getElem h]

theorem store_ok {cap : Nat} {out : List α} (h : out.length < cap) (c : α) :
    store cap out c = .ok (out ++ [c]) := if_pos h

theorem foldlM_store {cap : Nat} (cs : List α) {out : List α} (h : out.length + cs.length ≤ cap) :
    cs.foldlM (store cap) out = .ok (out ++ cs) := by
  induction cs generalizing out with
  | nil => simp
  | cons c cs ih =>
    rw [List.length_cons] at h
    rw [List.foldlM_cons, store_ok (by omega), Fault.ok_bind,
      ih (by simp only [List.length_append, List.length_singleton]; omega), List.append_assoc]
    rfl

/-- A string as it lies in memory: the bytes before its NUL. -/
structure CString where
  text : List Byte
  noNul : 0 ∉ text

namespace CString

variable (t : CString)

def mem : List Byte := t.text ++ [0]

def read (p : Nat) : Except Fault Byte := readAt t.mem p

def bound : Nat := t.text.length + 1

/-- `while (f (*p)) p++;` -/
def skipWhileLoop (f : Byte → Bool) : Nat → Nat → Except Fault Nat
  | 0, _ => .error .endless
  | fuel + 1, p => do
    let c ← t.read p
    if f c then skipWhileLoop f fuel (p + 1) else return p

def skipWhile (f : Byte → Bool) (p : Nat) : Except Fault Nat := t.skipWhileLoop f t.bound p

/-- `memcmp (p, w, n) == 0` for the `n` bytes of `w`, all of which it may read. -/
def memEq (w : List Byte) (p : Nat) : Except Fault Bool := do
  let bs ← (List.range w.length).mapM fun i => t.read (p + i)
  return bs = w

/-- `strncmp (p, w, strlen (w)) == 0`, which stops at the first difference. -/
def startsAt : List Byte → Nat → Except Fault Bool
  | [], _ => return true
  | c :: w, p => do
    if (← t.read p) = c then startsAt w (p + 1) else return false

/-- What a library function is given that reads from `p` up to the NUL. -/
def rest (p : Nat) : Except Fault (List Byte) :=
  if p ≤ t.text.length then .ok (t.text.drop p) else .error (.read p)

def pos (s : List Byte) : Nat := t.text.length - s.length

variable {t} {s : List Byte}

theorem pos_le (s : List Byte) : t.pos s ≤ t.text.length := Nat.sub_le _ _

@[simp] theorem pos_text : t.pos t.text = 0 := Nat.sub_self _

theorem pos_drop {p : Nat} (h : p ≤ t.text.length) : t.pos (t.text.drop p) = p := by
  rw [pos, List.length_drop, Nat.sub_sub_self h]

theorem drop_pos (hs : s <:+ t.text) : t.text.drop (t.pos s) = s :=
  (List.suffix_iff_eq_drop.mp hs).symm

theorem pos_le_pos {r : List Byte} (h : r <:+ s) : t.pos s ≤ t.pos r :=
  Nat.sub_le_sub_left h.length_le _

theorem pos_lt_iff {r : List Byte} (hs : s <:+ t.text) : t.pos s < t.pos r ↔ r.length < s.length := by
  have := hs.length_le
  simp only [pos]
  omega

theorem pos_tail {c : Byte} (hs : c :: s <:+ t.text) : t.pos (c :: s) + 1 = t.pos s := by
  have := hs.length_le
  simp only [List.length_cons] at this
  simp only [pos, List.length_cons]
  omega

theorem pos_succ (hs : s <:+ t.text) (hne : s ≠ []) : t.pos s + 1 = t.pos (s.drop 1) := by
  obtain ⟨c, s, rfl⟩ := List.exists_cons_of_ne_nil hne
  exact pos_tail hs

theorem read_pos (hs : s <:+ t.text) : t.read (t.pos s) = .ok (deref s) := by
  obtain ⟨pre, hpre⟩ := hs
  have hpos : t.pos s = pre.length := by simp [pos, ← hpre]
  have hmem : t.mem = pre ++ (s ++ [0]) := by rw [mem, ← hpre, List.append_assoc]
  rw [read, readAt, hpos, hmem, List.getElem?_append_right (le_refl _), Nat.sub_self]
  cases s <;> rfl

theorem read_nil : t.read (t.pos []) = .ok 0 := read_pos List.nil_suffix

theorem read_cons {c : Byte} (hs : c :: s <:+ t.text) : t.read (t.pos (c :: s)) = .ok c :=
  read_pos hs

theorem head_ne_zero {c : Byte} (hs : c :: s <:+ t.text) : c ≠ 0 :=
  fun h => t.noNul (h ▸ hs.subset (List.mem_cons_self ..))

theorem tail_suffix {c : Byte} (hs : c :: s <:+ t.text) : s <:+ t.text :=
  (List.suffix_cons c s).trans hs

theorem length_lt_bound (hs : s <:+ t.text) : s.length < t.bound := Nat.lt_succ_of_le hs.length_le

theorem ne_nil_of_deref {c : Byte} (h : deref s = c) (hc : c ≠ 0) : s ≠ [] := by
  rintro rfl
  exact hc h.symm

theorem skipWhileLoop_eq {f : Byte → Bool} (h0 : f 0 = false) {fuel : Nat} (hs : s <:+ t.text)
    (hfuel : s.length < fuel) :
    t.skipWhileLoop f fuel (t.pos s) = .ok (t.pos (s.dropWhile f)) := by
  induction s generalizing fuel with
  | nil =>
    obtain _ | fuel := fuel
    · cases hfuel
    · rw [skipWhileLoop, read_nil, Fault.ok_bind, h0]
      rfl
  | cons c s ih =>
    obtain _ | fuel := fuel
    · cases hfuel
    · rw [skipWhileLoop, read_cons hs, Fault.ok_bind, List.dropWhile_cons]
      split
      · rw [pos_tail hs]
        exact ih (tail_suffix hs) (Nat.lt_of_succ_lt_succ hfuel)
      · rfl

theorem skipWhile_eq {f : Byte → Bool} (h0 : f 0 = false) (hs : s <:+ t.text) :
    t.skipWhile f (t.pos s) = .ok (t.pos (s.dropWhile f)) :=
  skipWhileLoop_eq h0 hs (length_lt_bound hs)

theorem mapM_read (hs : s <:+ t.text) {n : Nat} (h : n ≤ s.length) :
    ((List.range n).mapM fun i => t.read (t.pos s + i)) = .ok (s.take n) := by
  induction n with
  | zero => rfl
  | succ n ih =>
    have hpos : t.pos s + n = t.pos (s.drop n) := by
      have := hs.length_le
      simp only [pos, List.length_drop]
      omega
    have hread := read_pos ((List.drop_suffix n s).trans hs)
    rw [← hpos, List.drop_eq_getElem_cons h, deref, List.headD_cons] at hread
    rw [List.range_succ, List.mapM_append, ih (Nat.le_of_succ_le h), List.take_succ_eq_append_getElem h]
    simp [hread]

theorem memEq_eq (hs : s <:+ t.text) {w : List Byte} (h : w.length ≤ s.length) :
    t.memEq w (t.pos s) = .ok (s.take w.length = w) := by
  rw [memEq, mapM_read hs h]
  rfl

theorem startsAt_eq {w : List Byte} (hw : 0 ∉ w) (hs : s <:+ t.text) :
    t.startsAt w (t.pos s) = .ok (starts w s) := by
  induction w generalizing s with
  | nil => simp [startsAt, starts]
  | cons c w ih =>
    rw [List.mem_cons, not_or] at hw
    cases s with
    | nil =>
      rw [startsAt, read_nil, Fault.ok_bind, if_neg hw.1]
      simp [starts]
    | cons d s =>
      rw [startsAt, read_cons hs, Fault.ok_bind]
      by_cases hd : d = c
      · rw [if_pos hd, pos_tail hs, ih hw.2 (tail_suffix hs)]
        simp [starts, hd]
      · rw [if_neg hd]
        simp [starts, hd]

theorem rest_pos (hs : s <:+ t.text) : t.rest (t.pos s) = .ok s := by
  rw [rest, if_pos (pos_le s), drop_pos hs]

end CString

end OspreyBlake2b.Lib
