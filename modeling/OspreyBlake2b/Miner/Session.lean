import OspreyBlake2b.Miner.StratumPoll

/-! A session as a machine.  What `on_line` does with a line is decided by the line
alone, and a call of `stratum_poll` is a dial, a loss, or lines and the start of one. -/

namespace OspreyBlake2b.Miner

open OspreyBlake2b.Lib OspreyBlake2b.Lib.Machine

inductive Handler where
  | ignored
  | notify (params : List Byte)
  | setDifficulty (params : List Byte)
  | setExtranonce (params : List Byte)
  | reconnect (params : List Byte)
  | reply
  deriving DecidableEq

def handler (line : List Byte) : Handler :=
  match jsGet line "method" with
  | none => .reply
  | some meth =>
    let (m, ok) := jsStr meth 64
    if !ok then .ignored
    else
      match jsGet line "params" with
      | none => .ignored
      | some params =>
        if m = ascii "mining.notify" then .notify params
        else if m = ascii "mining.set_difficulty" then .setDifficulty params
        else if m = ascii "mining.set_extranonce" then .setExtranonce params
        else if m = ascii "client.reconnect" then .reconnect params
        else .ignored

def Handler.apply (s : Stratum) (line : List Byte) (now : U64) : Handler → Stratum
  | .ignored => s
  | .notify params => onNotify s params
  | .setDifficulty params => onSetDifficulty s params
  | .setExtranonce params => onSetExtranonce s params
  | .reconnect params => onReconnect s params now
  | .reply => onReply s line

theorem onLine_eq (s : Stratum) (line : List Byte) (now : U64) :
    onLine s line now = (handler line).apply s line now := by
  rw [onLine, handler]
  cases jsGet line "method" with
  | none => rfl
  | some meth =>
    dsimp only
    cases (jsStr meth 64).2 with
    | false => rfl
    | true =>
      simp only [Bool.not_true, Bool.false_eq_true, if_false]
      cases jsGet line "params" with
      | none => rfl
      | some params =>
        dsimp only
        split_ifs <;> rfl

/-- What can happen to a session: `left` is the unfinished line a poll leaves in the
buffer, `lost` every end of the connection that is not a handler's. -/
inductive SessionEvent where
  | dial (now : U64) (env : DialEnv)
  | line (text : List Byte) (now : U64)
  | left (rx : List Byte)
  | lost
  | submit (ok : Bool)

def Stratum.step (s : Stratum) : SessionEvent → Stratum
  | .dial now env => if s.fd < 0 then (Miner.dial s now env).session else s
  | .line text now => onLine s text now
  | .left rx => { s with rx }
  | .lost => drop s
  | .submit ok => (stratumSubmit s ok).1

def OnConnection (s : Stratum) : SessionEvent → Prop
  | .line _ _ => ¬ s.fd < 0
  | _ => True

instance : DecidableRel OnConnection := fun s e => by
  cases e <;> unfold OnConnection <;> infer_instance

theorem dispatchLoop_run (now : U64) (bs : List Byte) (s : Stratum) (line : List Byte)
    (hup : ¬ s.fd < 0) :
    ∃ es, (dispatchLoop now s line bs).session = run Stratum.step s es ∧
      Along Stratum.step OnConnection s es := by
  induction bs generalizing s line with
  | nil => exact ⟨[.left line], rfl, trivial, trivial⟩
  | cons c rest ih =>
    rw [dispatchLoop]
    split
    · by_cases hline : line = []
      · obtain ⟨es, hrun, halong⟩ := ih s [] hup
        simp only [hline, if_true, if_neg hup]
        exact ⟨es, hrun, halong⟩
      · simp only [hline, if_false]
        by_cases hdown : (onLine s line now).fd < 0
        · rw [if_pos hdown]
          exact ⟨[.line line now], rfl, hup, trivial⟩
        · rw [if_neg hdown]
          obtain ⟨es, hrun, halong⟩ := ih (onLine s line now) [] hdown
          exact ⟨.line line now :: es, hrun, hup, halong⟩
    · exact ih s (line ++ [c]) hup

theorem stratumPoll_run (s : Stratum) (now : U64) (env : DialEnv) (tape : List Recv) :
    ∃ es, (stratumPoll s now env tape).session = run Stratum.step s es ∧
      Along Stratum.step OnConnection s es := by
  by_cases hdown : s.fd < 0
  · refine ⟨[.dial now env], ?_, trivial, trivial⟩
    rw [stratumPoll, if_pos hdown]
    exact (if_pos hdown).symm
  · rw [stratumPoll, if_neg hdown]
    split
    · exact dispatchLoop_run now _ s [] hdown
    · exact ⟨[.lost], rfl, trivial, trivial⟩

end OspreyBlake2b.Miner
