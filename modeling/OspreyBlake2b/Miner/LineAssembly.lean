import OspreyBlake2b.Miner.SessionLaws
import OspreyBlake2b.Miner.StratumPollLaws

/-! Where TCP cuts the stream does not matter: while the connection stays open,
`on_line` is called with the lines of the stream, up to one that drops the session. -/

namespace OspreyBlake2b.Miner

open OspreyBlake2b.Lib OspreyBlake2b.Lib.Machine

def drops (line : List Byte) : Bool :=
  match handler line with
  | .reconnect _ => true
  | _ => false

@[simp] theorem drop_fd (s : Stratum) : (drop s).fd = -1 := rfl

theorem onNotify_fd (s : Stratum) (params : List Byte) : (onNotify s params).fd = s.fd := by
  rw [onNotify]
  split <;> rfl

theorem onSetDifficulty_fd (s : Stratum) (params : List Byte) :
    (onSetDifficulty s params).fd = s.fd := by
  rw [onSetDifficulty]
  split <;> rfl

theorem onSetExtranonce_fd (s : Stratum) (params : List Byte) :
    (onSetExtranonce s params).fd = s.fd := by
  rw [onSetExtranonce]
  split
  · rfl
  · dsimp only
    split <;> rfl

theorem onReconnect_fd (s : Stratum) (params : List Byte) (now : U64) :
    (onReconnect s params now).fd = -1 := by
  rw [onReconnect]
  dsimp only
  split
  · rfl
  · split <;> rfl

theorem onLine_fd (s : Stratum) (line : List Byte) (now : U64) :
    (onLine s line now).fd = if drops line then -1 else s.fd := by
  rw [onLine_eq, drops]
  cases handler line with
  | ignored => rfl
  | notify params => exact onNotify_fd s params
  | setDifficulty params => exact onSetDifficulty_fd s params
  | setExtranonce params => exact onSetExtranonce_fd s params
  | reconnect params => exact onReconnect_fd s params now
  | reply => exact onReply_fd s line

def tapeBytes : List Recv → List Byte
  | .got bytes :: tape => bytes ++ tapeBytes tape
  | .interrupted :: tape => tapeBytes tape
  | _ => []

theorem recvLoop_full {rx : List Byte} (hfull : rx.length + 1 ≥ rxSize) (tape : List Recv) :
    (recvLoop rx tape).1 = .overflow := by
  cases tape with
  | nil =>
    rw [recvLoop]
    exact if_pos hfull
  | cons r tape => cases r <;> rw [recvLoop, if_pos hfull]

theorem recvLoop_blocked {tape : List Recv} {rx : List Byte}
    (h : (recvLoop rx tape).1 = .blocked) : (recvLoop rx tape).2 = rx ++ tapeBytes tape := by
  induction tape generalizing rx with
  | nil => exact (List.append_nil rx).symm
  | cons r tape ih =>
    by_cases hfull : rx.length + 1 ≥ rxSize
    · rw [recvLoop_full hfull] at h
      cases h
    · cases r with
      | failed =>
        rw [recvLoop, if_neg hfull] at h
        cases h
      | wouldBlock =>
        rw [recvLoop, if_neg hfull]
        exact (List.append_nil rx).symm
      | interrupted =>
        rw [recvLoop, if_neg hfull] at h ⊢
        exact ih h
      | got bytes =>
        rw [recvLoop, if_neg hfull] at h ⊢
        by_cases hcut : bytes.length ≤ rxSize - rx.length - 1
        · simp only [List.take_of_length_le hcut] at h ⊢
          by_cases hnil : bytes = []
          · rw [if_pos hnil] at h
            cases h
          · rw [if_neg hnil] at h ⊢
            rw [ih h, tapeBytes, List.append_assoc]
        · have hlen : (bytes.take (rxSize - rx.length - 1)).length = rxSize - rx.length - 1 := by
            rw [List.length_take]
            omega
          have hroom : rxSize ≤ (rx ++ bytes.take (rxSize - rx.length - 1)).length + 1 := by
            rw [List.length_append, hlen]
            omega
          dsimp only at h
          split at h
          · cases h
          · rw [recvLoop_full hroom] at h
            cases h

theorem dispatchLoop_upTo (now : U64) (bs : List Byte) (s : Stratum) (line : List Byte)
    (hup : ¬ s.fd < 0) :
    let d := dispatchLoop now s line bs
    let l := lines (char '\n') line bs
    d.calls = upTo drops l.1 ∧ (d.session.fd < 0 ↔ l.1.any drops = true) ∧
      (¬ d.session.fd < 0 → d.session.rx = l.2) := by
  induction bs generalizing s line with
  | nil =>
    refine ⟨rfl, ?_, fun _ => rfl⟩
    simpa [dispatchLoop, lines] using hup
  | cons c rest ih =>
    simp only [dispatchLoop, lines]
    split
    · by_cases hline : line = []
      · simp only [hline, if_true, if_neg hup, List.nil_append]
        exact ih s [] hup
      · simp only [hline, if_false, upTo, List.any_cons]
        have hfd := onLine_fd s line now
        cases hdrops : drops line with
        | true =>
          rw [hdrops, if_pos rfl] at hfd
          have hdown : (onLine s line now).fd < 0 := by omega
          simp [hdown]
        | false =>
          rw [hdrops, if_neg Bool.false_ne_true] at hfd
          have hup' : ¬ (onLine s line now).fd < 0 := by omega
          obtain ⟨hcalls, hdown, hrx⟩ := ih (onLine s line now) [] hup'
          simp only [if_neg hup', Bool.false_or, Bool.false_eq_true, if_false]
          exact ⟨by rw [hcalls]; rfl, hdown, hrx⟩
    · exact ih s (line ++ [c]) hup

/-- Reading ends because nothing more is there: the connection is open and the buffer
has room. -/
def StaysOpen (c : Conn) (p : Poll) : Prop :=
  ¬ c.session.fd < 0 → (recvLoop c.session.rx p.tape).1 = .blocked

instance : DecidableRel StaysOpen := fun c p => by
  unfold StaysOpen
  infer_instance

structure Assembled (c : Conn) (stream : List Byte) : Prop where
  calls : c.calls = upTo drops (lines (char '\n') [] stream).1
  down : c.session.fd < 0 ↔ (lines (char '\n') [] stream).1.any drops = true
  rx : ¬ c.session.fd < 0 → c.session.rx = (lines (char '\n') [] stream).2

theorem assembled_step {c : Conn} {stream : List Byte} (h : Assembled c stream) (p : Poll)
    (hopen : StaysOpen c p) : Assembled (c.step p) (stream ++ tapeBytes p.tape) := by
  have happend : lines (char '\n') [] (stream ++ tapeBytes p.tape) = _ :=
    lines_append stream (tapeBytes p.tape)
  by_cases hdown : c.session.fd < 0
  · have hany := h.down.mp hdown
    have hany' : (lines (char '\n') [] (stream ++ tapeBytes p.tape)).1.any drops = true := by
      rw [happend, List.any_append, hany, Bool.true_or]
    rw [Conn.step, if_pos hdown]
    refine ⟨?_, iff_of_true hdown hany', fun hup => absurd hdown hup⟩
    rw [h.calls, happend, upTo_of_any hany]
  · have hnone := mt h.down.mpr hdown
    have hbuf := recvLoop_blocked (hopen hdown)
    have hrx := h.rx hdown
    have hsep : char '\n' ∉ c.session.rx := by
      rw [hrx]
      exact not_mem_lines List.not_mem_nil
    obtain ⟨hcalls, hd, hleft⟩ :=
      dispatchLoop_upTo p.now (c.session.rx ++ tapeBytes p.tape) c.session [] hdown
    rw [lines_begin hsep, hrx] at hcalls hd hleft
    rw [step_blocked p hdown (Prod.ext (hopen hdown) hbuf), hrx]
    refine ⟨?_, ?_, ?_⟩
    · rw [happend, upTo_of_not_any hnone, ← hcalls, h.calls]
      have hall := upTo_of_not_any hnone []
      rw [List.append_nil] at hall
      rw [hall]
      simp [upTo]
    · rw [happend, List.any_append, Bool.eq_false_iff.mpr hnone, Bool.false_or]
      exact hd
    · rw [happend]
      exact hleft

theorem assembled_run {c : Conn} {stream : List Byte} (h : Assembled c stream) (polls : List Poll)
    (hopen : Along Conn.step StaysOpen c polls) :
    Assembled (run Conn.step c polls) (stream ++ polls.flatMap fun p => tapeBytes p.tape) := by
  induction polls generalizing c stream with
  | nil =>
    rw [List.flatMap_nil, List.append_nil]
    exact h
  | cons p polls ih =>
    have hrun := ih (assembled_step h p hopen.1) hopen.2
    rw [List.append_assoc] at hrun
    exact hrun

/-- For every stream, every cut of it into `recv` results and every grouping of these
into polls. -/
theorem lines_of_stream (s : Stratum) (fd : Nat) (polls : List Poll)
    (hopen : Along Conn.step StaysOpen (connInit s fd) polls) :
    let c := run Conn.step (connInit s fd) polls
    let split := lines (char '\n') [] (polls.flatMap fun p => tapeBytes p.tape)
    c.calls = upTo drops split.1 ∧ (c.session.fd < 0 ↔ split.1.any drops = true) ∧
      (¬ c.session.fd < 0 → c.session.rx = split.2) := by
  have hinit : Assembled (connInit s fd) [] :=
    ⟨rfl, by simp [connInit, lines], fun _ => rfl⟩
  obtain ⟨hcalls, hdown, hrx⟩ := assembled_run hinit polls hopen
  exact ⟨hcalls, hdown, hrx⟩

def cutVerdict : List Poll :=
  [⟨1000, demoEnv, [.got (verdictLine.take 7)]⟩,
    ⟨1001, demoEnv, [.interrupted, .got (verdictLine.drop 7), .got [char '\n', char '\x7b'],
      .wouldBlock]⟩]

theorem lines_of_stream_cut :
    Along Conn.step StaysOpen (connInit demoGlobals.main 3) cutVerdict ∧
      (run Conn.step (connInit demoGlobals.main 3) cutVerdict).calls = [verdictLine] ∧
      (run Conn.step (connInit demoGlobals.main 3) cutVerdict).session.rx = [char '\x7b'] := by
  have hopen : Along Conn.step StaysOpen (connInit demoGlobals.main 3) cutVerdict := by
    decide +kernel
  obtain ⟨hcalls, hdown, hrx⟩ := lines_of_stream demoGlobals.main 3 cutVerdict hopen
  have hsplit : lines (char '\n') [] (cutVerdict.flatMap fun p => tapeBytes p.tape) =
      ([verdictLine], [char '\x7b']) := by decide +kernel
  rw [hsplit] at hcalls hdown hrx
  have hkeep : drops verdictLine = false := by decide +kernel
  have hup := mt hdown.mp (by simp [hkeep])
  exact ⟨hopen, by simp [hcalls, upTo, hkeep], hrx hup⟩

end OspreyBlake2b.Miner
