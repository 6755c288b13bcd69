import OspreyBlake2b.Lib.Bytes

/-! C strings as byte lists: the text before the terminating NUL, a pointer into
it being the suffix it points at.  A list may go on behind the NUL with whatever
the memory holds there; past its end everything reads as NUL. -/

namespace OspreyBlake2b.Lib

def ascii (s : String) : List Byte := s.toList.map fun c => BitVec.ofNat 8 c.toNat

def char (c : Char) : Byte := BitVec.ofNat 8 c.toNat

/-- The character a pointer reads: NUL at the end of the text. -/
def deref (p : List Byte) : Byte := p.headD 0

/-- `strncmp (p, w, strlen (w)) == 0`. -/
def starts (w p : List Byte) : Bool := p.take w.length = w

/-- `c` is not NUL. -/
def strchr (c : Byte) : List Byte → Option (List Byte)
  | [] => none
  | b :: p => if b = c then some (b :: p) else if b = 0 then none else strchr c p

/-- `w` is not empty. -/
def strstr (w : List Byte) : List Byte → Option (List Byte)
  | [] => none
  | b :: p => if starts w (b :: p) then some (b :: p) else if b = 0 then none else strstr w p

end OspreyBlake2b.Lib
