import OspreyBlake2b.Miner.WorkItem

/-! `frame_sync` of `miner/miner.c` and the part of the mining loop it serves: the
resync and the 17-byte assembler.

The device is two tapes, read in program order: what each call of `now_s` returns
and what each call of `uart_get_nb` returns.  `none` is a call that has not
returned by the end of the tapes. -/

namespace OspreyBlake2b.Miner

open OspreyBlake2b.Lib

structure Tapes where
  clock : List Nat
  polls : List (Option Byte)
  deriving DecidableEq

def nsync : Nat := 512

inductive CollectEnd where
  | gap (buf : List Byte)
  | quiet
  | dense (buf : List Byte)
  deriving DecidableEq

def collect (deadline : Nat) (quietOk : Bool) (buf : List Byte) (idleUs : Nat) :
    List Nat → List (Option Byte) → Option (CollectEnd × Tapes)
  | [], _ => none
  | t :: clock, polls =>
    if t ≤ deadline then
      match polls with
      | [] => none
      | some b :: polls =>
        let buf := if buf.length < nsync then buf ++ [b] else buf
        if buf.length ≥ nsync then some (.dense buf, ⟨clock, polls⟩)
        else collect deadline quietOk buf 0 clock polls
      | none :: polls =>
        let idleUs := (idleUs + 200) % 2 ^ 32
        if idleUs ≥ 3000 ∧ buf.length > 0 then some (.gap buf, ⟨clock, polls⟩)
        else if idleUs ≥ 3000 ∧ buf.length = 0 ∧ quietOk then some (.quiet, ⟨clock, polls⟩)
        else if buf.length ≥ nsync then some (.dense buf, ⟨clock, polls⟩)
        else collect deadline quietOk buf idleUs clock polls
    else some (.dense buf, ⟨clock, polls⟩)

def bucket (buf : List Byte) (r : Nat) : Nat :=
  (buf.zipIdx.filter fun (b, i) => b = 0x01#8 ∧ i % resultLen = r).length

def bestResidue (buf : List Byte) : Nat :=
  (List.range' 1 (resultLen - 1)).foldl
    (fun best i => if bucket buf i > bucket buf best then i else best) 0

def skipBytes (skipDeadline skip : Nat) (clock : List Nat) (polls : List (Option Byte)) :
    Option (Bool × Tapes) :=
  if skip = 0 then some (true, ⟨clock, polls⟩)
  else
    match polls with
    | [] => none
    | some _ :: polls => skipBytes skipDeadline (skip - 1) clock polls
    | none :: polls =>
      match clock with
      | [] => none
      | t :: clock =>
        if t > skipDeadline then some (false, ⟨clock, polls⟩)
        else skipBytes skipDeadline skip clock polls

def readBack (want rdDeadline : Nat) (out : List Byte) (clock : List Nat)
    (polls : List (Option Byte)) : Option (List Byte × Tapes) :=
  if out.length < want then
    match clock with
    | [] => none
    | t :: clock =>
      if t ≤ rdDeadline then
        match polls with
        | [] => none
        | some b :: polls => readBack want rdDeadline (out ++ [b]) clock polls
        | none :: polls => readBack want rdDeadline out clock polls
      else some (out, ⟨clock, polls⟩)
  else some (out, ⟨clock, polls⟩)

inductive SyncStat where
  | syncGap
  | syncQuiet
  | syncLocked
  | syncFailed
  deriving DecidableEq

/-- What a call leaves behind: the return value, the bytes stored in `out_buf`
(their number is `*out_len`), the counter it bumped and the rest of the tapes. -/
structure SyncResult where
  rc : Int
  out : List Byte
  stat : Option SyncStat
  rest : Tapes
  deriving DecidableEq

def dense (outBuf : Bool) (buf : List Byte) (d : Tapes) : Option SyncResult :=
  let best := bestResidue buf
  let frames := buf.length / resultLen
  if buf.length < resultLen * 4 then some ⟨-1, [], some .syncFailed, d⟩
  else if bucket buf best * 2 < frames then some ⟨-1, [], some .syncFailed, d⟩
  else
    match d.clock with
    | [] => none
    | t :: clock =>
      match skipBytes (t + 2) ((best + resultLen - buf.length % resultLen) % resultLen) clock
          d.polls with
      | none => none
      | some (false, d) => some ⟨-1, [], none, d⟩
      | some (true, d) =>
        if outBuf then
          match d.clock with
          | [] => none
          | t :: clock =>
            (readBack (resultLen * 8) (t + 3) [] clock d.polls).map fun (out, d) =>
              ⟨0, out, some .syncLocked, d⟩
        else some ⟨0, [], some .syncLocked, d⟩

/-- `outBuf` says whether the caller passes `out_buf` and `out_len`. -/
def frameSync (timeoutS : Nat) (outBuf quietOk : Bool) (d : Tapes) : Option SyncResult :=
  match d.clock with
  | [] => none
  | t :: clock =>
    match collect (t + timeoutS) quietOk [] 0 clock d.polls with
    | none => none
    | some (.gap buf, d) => some ⟨0, if outBuf then buf else [], some .syncGap, d⟩
    | some (.quiet, d) => some ⟨0, [], some .syncQuiet, d⟩
    | some (.dense buf, d) => dense outBuf buf d

def syncbufLen : Nat := resultLen * 8

def mainFrameSync (d : Tapes) : Option SyncResult := frameSync 1 true true d

/-- The assembler between two syncs.  `groups` is the trace of the 17-byte groups
it has handed to `parse_result`. -/
structure Assembler where
  synced : Bool
  badRun : Nat
  frame : List Byte
  groups : List (List Byte)
  deriving DecidableEq

def Assembler.feed (s : Assembler) (b : Byte) : Assembler :=
  if s.synced then
    let frame := s.frame ++ [b]
    if frame.length = resultLen then
      let s := { s with frame := [], groups := s.groups ++ [frame] }
      if parseResult frame = none then
        if s.badRun + 1 ≥ 3 then { s with synced := false, badRun := 0 }
        else { s with badRun := s.badRun + 1 }
      else { s with badRun := 0 }
    else { s with frame := frame }
  else s

/-- The groups assembled after a sync that handed back `out`: the replay from
`syncpos`, then whatever later polls deliver.  A call that stored more than
`syncbuf` holds has undefined behaviour. -/
def assembled (badRun : Nat) (out : List Byte) (polls : List (Option Byte)) :
    Option (List (List Byte)) :=
  if out.length ≤ syncbufLen then
    let syncpos := out.length - out.length / resultLen * resultLen
    let s := (out.drop syncpos ++ polls.filterMap id).foldl Assembler.feed ⟨true, badRun, [], []⟩
    some s.groups
  else none

end OspreyBlake2b.Miner
