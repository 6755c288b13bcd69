import OspreyBlake2b.Hash.Blake2b

/-! `vendor/sia-fpga/MixG_FlopPipe_4.vhd`: the G function as a four-stage
pipeline that takes a new operand set on every clock. -/

namespace OspreyBlake2b.Rtl

open OspreyBlake2b.Lib OspreyBlake2b.Hash.Blake2b

structure MixIn where
  A : U64
  B : U64
  C : U64
  D : U64
  X : U64
  Y : U64

structure MixG where
  A0 : U64
  A1 : U64
  A2 : U64
  A3 : U64
  B0 : U64
  B1 : U64
  B2 : U64
  B0In : U64
  C0 : U64
  C1 : U64
  C2 : U64
  C3 : U64
  D0 : U64
  D1 : U64
  D2 : U64
  D3 : U64

/-- One rising edge.  The process variables `A` and `C` are assigned twice, so
the second assignments get their own names. -/
def MixG.step (i : MixIn) (s : MixG) : MixG :=
  let A := i.A + i.B + i.X
  let C := i.C + s.D0
  let A' := s.A1 + s.B0 + i.Y
  let C' := s.C1 + s.D2
  { B0In := i.B
    A0 := A
    D0 := (i.D ^^^ A).rotateRight 32
    C0 := C
    B0 := (s.B0In ^^^ C).rotateRight 24
    A1 := s.A0
    B1 := s.B0
    D1 := s.D0
    C1 := s.C0
    A2 := A'
    D2 := (s.D1 ^^^ A').rotateRight 16
    C2 := C'
    B2 := (s.B1 ^^^ C').rotateLeft 1
    A3 := s.A2
    C3 := s.C2
    D3 := s.D2 }

theorem rotateRight_eq_rotr64 (x : U64) (n : Nat) (h : n < 64) :
    x.rotateRight n = rotr64 x n := by
  rw [BitVec.rotateRight_def, Nat.mod_eq_of_lt h, rotr64]

theorem rotateLeft_one_eq_rotr64 (x : U64) : x.rotateLeft 1 = rotr64 x 63 := by
  rw [BitVec.rotateLeft_def, rotr64, BitVec.or_comm]

/-- The operands the pipeline combines when A, B, D and X enter at edge `t`: C is
read one edge later and Y two edges later. -/
def skewed (input : Nat → MixIn) (t : Nat) : Quad :=
  mix ⟨(input t).A, (input t).B, (input (t + 1)).C, (input t).D⟩
    (input t).X (input (t + 2)).Y

/-- A pipeline driven by `input` delivers `mix` four clocks later, with C one
clock behind the other three. -/
theorem MixG.latency (s : Nat → MixG) (input : Nat → MixIn)
    (h : ∀ t, s (t + 1) = (s t).step (input t)) (t : Nat) :
    (s (t + 4)).A3 = (skewed input t).a ∧ (s (t + 4)).B2 = (skewed input t).b ∧
      (s (t + 4)).D3 = (skewed input t).d ∧ (s (t + 5)).C3 = (skewed input t).c := by
  simp only [h, MixG.step, skewed, mix, ← rotateLeft_one_eq_rotr64,
    ← rotateRight_eq_rotr64 _ 16 (by omega), ← rotateRight_eq_rotr64 _ 24 (by omega),
    ← rotateRight_eq_rotr64 _ 32 (by omega), and_self]

end OspreyBlake2b.Rtl
