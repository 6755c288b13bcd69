import OspreyBlake2b.Lib.JsonNumber
import OspreyBlake2b.Lib.JsonObject
import OspreyBlake2b.Miner.Session

/-! A session and the pool's side of it: the requests of the current connection that
have no answer yet, the shares that went out, and the verdicts on shares among the
answers that came in. -/

namespace OspreyBlake2b.Miner

open OspreyBlake2b.Lib OspreyBlake2b.Lib.JsonText OspreyBlake2b.Lib.Machine

inductive Request where
  | subscribe
  | authorize
  | suggestDifficulty
  | submit
  deriving DecidableEq

/-- An answer: an object without a method whose id is a number, written in any way. -/
structure Answer where
  object : Object
  id : U64
  result : Bool
  noMethod : object.named "method" = []
  idMember : ∃ m n, object.named "id" = [m] ∧ m.value.val = Number.text n ∧ n.val = id.toNat
  resultMember : object.named "result" = [] ∧ result = false ∨
    ∃ m, object.named "result" = [m] ∧ result = decide (m.value.val = ascii "true")

/-- The names the session looks for are written without escapes. -/
def Answer.Plain (a : Answer) : Prop :=
  ∀ k ∈ ["id", "result"], ∀ m ∈ a.object.named k, m.key.val = ascii k

structure Notice where
  object : Object
  method : object.named "method" ≠ []

def Notice.Plain (n : Notice) : Prop :=
  ∃ m ∈ n.object.named "method", m.key.val = ascii "method"

instance : DecidablePred Answer.Plain := fun a =>
  inferInstanceAs (Decidable (∀ k ∈ ["id", "result"], ∀ m ∈ a.object.named k, m.key.val = ascii k))

instance : DecidablePred Notice.Plain := fun n =>
  inferInstanceAs (Decidable (∃ m ∈ n.object.named "method", m.key.val = ascii "method"))

inductive PoolEvent where
  | dial (now : U64) (env : DialEnv)
  | answer (a : Answer) (now : U64)
  | notice (n : Notice) (now : U64)
  | left (rx : List Byte)
  | lost
  | submit (ok : Bool)

def PoolEvent.toSession : PoolEvent → SessionEvent
  | .dial now env => .dial now env
  | .answer a now => .line a.object.text now
  | .notice n now => .line n.object.text now
  | .left rx => .left rx
  | .lost => .lost
  | .submit ok => .submit ok

structure Tallied where
  session : Stratum
  pending : List (U64 × Request)
  submitted : Nat
  accepted : Nat
  rejected : Nat

def tallied (s : Stratum) : Tallied := ⟨s, [], 0, 0, 0⟩

def handshakeRequests (s : Stratum) : List (U64 × Request) :=
  [(s.nextId + 1, .subscribe), (s.nextId + 1 + 1, .authorize),
    (s.nextId + 1 + 1 + 1, .suggestDifficulty)]

def Tallied.answered (t : Tallied) (a : Answer) : Tallied :=
  let t' := { t with pending := t.pending.filter fun p => p.1 ≠ a.id }
  if t.pending.lookup a.id = some .submit then
    { t' with
      accepted := t.accepted + a.result.toNat
      rejected := t.rejected + (!a.result).toNat }
  else t'

def Tallied.count (t : Tallied) : PoolEvent → Tallied
  | .dial _ _ => if t.session.fd < 0 then { t with pending := handshakeRequests t.session } else t
  | .answer a _ => t.answered a
  | .submit ok =>
    { t with
      pending := t.pending ++ [(t.session.nextId + 1, .submit)]
      submitted := t.submitted + (ok && !decide (t.session.fd < 0)).toNat }
  | _ => t

def Tallied.step (t : Tallied) (e : PoolEvent) : Tallied :=
  let session := t.session.step e.toSession
  let t' := t.count e
  { t' with session, pending := if session.fd < 0 then [] else t'.pending }

/-- The pool answers a request of the current connection, once, and sends nothing else
without a method. -/
def Tallied.Allows (t : Tallied) : PoolEvent → Prop
  | .answer a _ => a.id ∈ t.pending.map Prod.fst
  | .notice _ _ => ¬ t.session.fd < 0
  | _ => True

/-- The names are plain, the ids of a handshake are exact as doubles, and the counter
does not start again while a connection lasts. -/
def Tallied.Regular (t : Tallied) : PoolEvent → Prop
  | .dial now env =>
    t.session.fd < 0 → ¬ (dial t.session now env).session.fd < 0 → t.session.nextId.toNat + 3 < 2 ^ 53
  | .answer a _ => a.Plain
  | .notice n _ => n.Plain
  | .submit _ => ¬ t.session.fd < 0 → t.session.nextId.toNat + 1 < 2 ^ 64
  | _ => True

instance (t : Tallied) : DecidablePred t.Allows := fun e => by
  cases e <;> unfold Tallied.Allows <;> infer_instance

instance (t : Tallied) : DecidablePred t.Regular := fun e => by
  cases e <;> unfold Tallied.Regular <;> infer_instance

end OspreyBlake2b.Miner
