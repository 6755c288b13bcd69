import OspreyBlake2b.Lib.Bytes

namespace OspreyBlake2b.Lib.Dns

structure Label where
  bytes : List Byte
  pos : 0 < bytes.length
  le : bytes.length ≤ 63

def Label.wire (l : Label) : List Byte := BitVec.ofNat 8 l.bytes.length :: l.bytes

def labelsWire (ls : List Label) : List Byte := ls.flatMap Label.wire

inductive NameEnd where
  | root
  | pointer (hi lo : Byte) (mark : hi &&& 0xc0#8 = 0xc0#8)

def NameEnd.wire : NameEnd → List Byte
  | .root => [0]
  | .pointer hi lo _ => [hi, lo]

structure Name where
  labels : List Label
  tail : NameEnd

def Name.wire (n : Name) : List Byte := labelsWire n.labels ++ n.tail.wire

def be16 (v : BitVec 16) : List Byte := [(v >>> 8).setWidth 8, v.setWidth 8]

structure Question where
  name : Name
  type : BitVec 16
  cls : BitVec 16

def Question.wire (q : Question) : List Byte := q.name.wire ++ (be16 q.type ++ be16 q.cls)

structure Record where
  name : Name
  type : BitVec 16
  cls : BitVec 16
  ttl : U32
  rdata : List Byte
  fits : rdata.length < 2 ^ 16

def Record.wire (a : Record) : List Byte :=
  a.name.wire ++ (be16 a.type ++ (be16 a.cls ++ (leBytes 4 a.ttl).reverse ++
    (be16 (BitVec.ofNat 16 a.rdata.length) ++ a.rdata)))

/-- `rest` is what the authority and additional sections hold. -/
structure Message where
  id : BitVec 16
  flags : BitVec 16
  questions : List Question
  answers : List Record
  authorities : BitVec 16
  additional : BitVec 16
  rest : List Byte
  questions_lt : questions.length < 2 ^ 16
  answers_lt : answers.length < 2 ^ 16

def Message.rcode (m : Message) : BitVec 16 := m.flags &&& 0x0f#16

def Message.header (m : Message) : List Byte :=
  be16 m.id ++ (be16 m.flags ++ (be16 (BitVec.ofNat 16 m.questions.length) ++
    (be16 (BitVec.ofNat 16 m.answers.length) ++ (be16 m.authorities ++ be16 m.additional))))

def Message.wire (m : Message) : List Byte :=
  m.header ++ (m.questions.flatMap Question.wire ++ (m.answers.flatMap Record.wire ++ m.rest))

theorem be16_toNat (v : BitVec 16) :
    ((v >>> 8).setWidth 8).toNat <<< 8 ||| (v.setWidth 8).toNat = v.toNat := by
  have hhi : ((v >>> 8).setWidth 8).toNat = v.toNat / 256 := by
    have hlt := v.isLt
    rw [BitVec.toNat_setWidth, BitVec.toNat_ushiftRight, Nat.shiftRight_eq_div_pow]
    omega
  have hlo : (v.setWidth 8).toNat = v.toNat % 256 := BitVec.toNat_setWidth 8 v
  rw [hhi, hlo, Nat.shiftLeft_eq, Nat.mul_comm,
    ← Nat.two_pow_add_eq_or_of_lt (Nat.mod_lt _ (by decide))]
  omega

end OspreyBlake2b.Lib.Dns
