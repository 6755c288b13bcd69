import OspreyBlake2b.Miner.StratumPoll
import OspreyBlake2b.Miner.WorksrcStratumLaws

/-! Lines lost with a connection.  `stratum_poll` reads until the socket would block
before it gives the first line to `on_line`, and an end of the connection that comes
before that drops the buffer. -/

namespace OspreyBlake2b.Miner

open OspreyBlake2b.Lib OspreyBlake2b.Lib.Machine

theorem recvLoop_extends (tape : List Recv) (rx : List Byte) : rx <+: (recvLoop rx tape).2 := by
  induction tape generalizing rx with
  | nil => exact List.prefix_refl rx
  | cons r tape ih =>
    cases r with
    | got bytes =>
      rw [recvLoop]
      split
      · exact List.prefix_refl rx
      · simp only
        split
        · exact List.prefix_refl rx
        · exact (List.prefix_append _ _).trans (ih _)
    | interrupted =>
      rw [recvLoop]
      split
      · exact List.prefix_refl rx
      · exact ih rx
    | wouldBlock | failed =>
      rw [recvLoop]
      split <;> exact List.prefix_refl rx

theorem dispatchLoop_spec (now : U64) (bs : List Byte) (s : Stratum) (line : List Byte)
    (hup : ¬ s.fd < 0) :
    let d := dispatchLoop now s line bs
    let l := lines (char '\n') line bs
    ¬ d.session.fd < 0 ∧ d.calls = l.1 ∧ d.session.rx = l.2 ∨ d.session.fd < 0 ∧ d.calls <+: l.1 := by
  induction bs generalizing s line with
  | nil => exact .inl ⟨hup, rfl, rfl⟩
  | cons c rest ih =>
    simp only [dispatchLoop, lines]
    split
    · generalize hs' : (if line = [] then s else onLine s line now) = s'
      generalize hcalls : (if line = [] then [] else [line]) = calls
      have hlines : ∀ rest' : List (List Byte),
          (if line = [] then rest' else line :: rest') = calls ++ rest' := by
        intro rest'
        rw [← hcalls]
        split <;> rfl
      rw [hlines]
      split
      · rename_i hdown
        exact .inr ⟨hdown, List.prefix_append _ _⟩
      · rename_i hup'
        obtain ⟨hfd, hc, hrx⟩ | ⟨hfd, hc⟩ := ih s' [] hup'
        · exact .inl ⟨hfd, congrArg (calls ++ ·) hc, hrx⟩
        · exact .inr ⟨hfd, (List.prefix_append_right_inj calls).mpr hc⟩
    · exact ih s (line ++ [c]) hup

/-- Every complete line was given to `on_line`, once and in order, and a full buffer
had no newline. -/
def LinesTaken (c : Conn) : Prop :=
  c.calls <+: (lines (char '\n') [] c.received).1 ∧
    ∀ r ∈ c.ending, c.calls = (lines (char '\n') [] c.received).1 ∧
      (r.1 = .overflow → char '\n' ∉ r.2)

/-- The poll is not one that reads a complete line and the end of the connection. -/
def NoLateLine (c : Conn) (p : Poll) : Prop :=
  ¬ c.session.fd < 0 →
    match recvLoop c.session.rx p.tape with
    | (.blocked, _) => True
    | (.overflow, buf) => char '\n' ∉ buf
    | (_, buf) => (lines (char '\n') [] buf).1 = []

structure UpToDate (c : Conn) : Prop where
  ending : c.ending = none
  split : lines (char '\n') [] c.received = (c.calls, c.session.rx)

def Tidy (c : Conn) : Prop := LinesTaken c ∧ (¬ c.session.fd < 0 → UpToDate c)

section Step

variable {c : Conn} (p : Poll)

theorem lines_received (h : UpToDate c) :
    lines (char '\n') [] (c.received ++ (recvLoop c.session.rx p.tape).2.drop c.session.rx.length) =
      (c.calls ++ (lines (char '\n') [] (recvLoop c.session.rx p.tape).2).1,
        (lines (char '\n') [] (recvLoop c.session.rx p.tape).2).2) := by
  have hrx : char '\n' ∉ c.session.rx := by
    have hnot : char '\n' ∉ (lines (char '\n') [] c.received).2 :=
      not_mem_lines List.not_mem_nil
    rwa [h.split] at hnot
  obtain ⟨del, hdel⟩ := recvLoop_extends p.tape c.session.rx
  rw [← hdel, List.drop_left, lines_append, h.split, lines_begin hrx]

theorem step_down (hdown : c.session.fd < 0) : c.step p = c := by
  rw [Conn.step, if_pos hdown]

theorem step_blocked {rx : List Byte} (hup : ¬ c.session.fd < 0)
    (hr : recvLoop c.session.rx p.tape = (.blocked, rx)) :
    c.step p = { session := (dispatchLoop p.now c.session [] rx).session
                 received := c.received ++ rx.drop c.session.rx.length
                 calls := c.calls ++ (dispatchLoop p.now c.session [] rx).calls
                 ending := none } := by
  simp only [Conn.step, stratumPoll, if_neg hup, hr, if_true]

theorem step_ended {how : Reading} {buf : List Byte} (hup : ¬ c.session.fd < 0)
    (hr : recvLoop c.session.rx p.tape = (how, buf)) (hhow : how ≠ .blocked) :
    c.step p = { session := drop c.session
                 received := c.received ++ buf.drop c.session.rx.length
                 calls := c.calls
                 ending := some (how, buf) } := by
  simp only [Conn.step, stratumPoll, if_neg hup, hr, if_neg hhow]
  cases how with
  | blocked => exact absurd rfl hhow
  | closed | failed | overflow => simp

theorem tidy_blocked {rx : List Byte} (hup : ¬ c.session.fd < 0) (h : UpToDate c)
    (hr : recvLoop c.session.rx p.tape = (.blocked, rx)) : Tidy (c.step p) := by
  have hlines := lines_received p h
  rw [hr] at hlines
  rw [step_blocked p hup hr]
  obtain ⟨hfd, hcalls, hrx⟩ | ⟨hfd, hcalls⟩ := dispatchLoop_spec p.now rx c.session [] hup
  · have hsplit : lines (char '\n') [] (c.received ++ rx.drop c.session.rx.length) =
        (c.calls ++ (dispatchLoop p.now c.session [] rx).calls,
          (dispatchLoop p.now c.session [] rx).session.rx) := by
      rw [hlines, hcalls, hrx]
    refine ⟨⟨?_, fun r hr => by cases hr⟩, fun _ => ⟨rfl, hsplit⟩⟩
    rw [hsplit]
  · refine ⟨⟨?_, fun r hr => by cases hr⟩, fun hup' => absurd hfd hup'⟩
    rw [hlines]
    exact (List.prefix_append_right_inj c.calls).mpr hcalls

theorem linesTaken_ended {how : Reading} {buf : List Byte} (hup : ¬ c.session.fd < 0)
    (h : UpToDate c) (hr : recvLoop c.session.rx p.tape = (how, buf)) (hhow : how ≠ .blocked) :
    LinesTaken (c.step p) ↔
      (lines (char '\n') [] buf).1 = [] ∧ (how = .overflow → char '\n' ∉ buf) := by
  have hlines := lines_received p h
  rw [hr] at hlines
  rw [step_ended p hup hr hhow, LinesTaken, hlines]
  simp only [Option.mem_some_iff, forall_eq', List.self_eq_append_right]
  exact ⟨fun ht => ht.2, fun ht => ⟨List.prefix_append _ _, ht⟩⟩

theorem noLateLine_ended {how : Reading} {buf : List Byte} (hup : ¬ c.session.fd < 0)
    (hr : recvLoop c.session.rx p.tape = (how, buf)) (hhow : how ≠ .blocked) :
    NoLateLine c p ↔
      (lines (char '\n') [] buf).1 = [] ∧ (how = .overflow → char '\n' ∉ buf) := by
  rw [NoLateLine, forall_prop_of_true hup, hr]
  cases how with
  | blocked => exact absurd rfl hhow
  | closed | failed => simp
  | overflow =>
    simp only [true_implies]
    exact ⟨fun hno => ⟨by rw [lines_of_not_mem hno], hno⟩, fun ht => ht.2⟩

end Step

theorem tidy_step (c : Conn) (p : Poll) (h : Tidy c) (hlate : NoLateLine c p) : Tidy (c.step p) := by
  by_cases hdown : c.session.fd < 0
  · rwa [step_down p hdown]
  · rcases hr : recvLoop c.session.rx p.tape with ⟨how, buf⟩
    by_cases hhow : how = .blocked
    · rw [hhow] at hr
      exact tidy_blocked p hdown (h.2 hdown) hr
    · refine ⟨?_, ?_⟩
      · rw [linesTaken_ended p hdown (h.2 hdown) hr hhow]
        exact (noLateLine_ended p hdown hr hhow).mp hlate
      · rw [step_ended p hdown hr hhow]
        intro hup
        exact absurd (show (-1 : Int) < 0 by decide) hup

theorem noLateLine_of_taken (c : Conn) (p : Poll) (h : Tidy c) (ht : LinesTaken (c.step p)) :
    NoLateLine c p := by
  intro hup
  rcases hr : recvLoop c.session.rx p.tape with ⟨how, buf⟩
  by_cases hhow : how = .blocked
  · rw [hhow]
    trivial
  · rw [linesTaken_ended p hup (h.2 hup) hr hhow] at ht
    have hlate := (noLateLine_ended p hup hr hhow).mpr ht hup
    rwa [hr] at hlate

/-- For every session, every sequence of polls and everything `recv` may return. -/
theorem lines_taken_iff (s : Stratum) (fd : Nat) (polls : List Poll) :
    (∀ k, LinesTaken (run Conn.step (connInit s fd) (polls.take k))) ↔
      Along Conn.step NoLateLine (connInit s fd) polls :=
  Along.iff_holds Tidy (fun _ h => h.1) tidy_step noLateLine_of_taken
    ⟨⟨List.prefix_refl _, fun r hr => by cases hr⟩, fun _ => ⟨rfl, rfl⟩⟩

def verdictLine : List Byte := ascii "\x7b\"id\":4,\"result\":true,\"error\":null\x7d"

def verdictThenClose : Poll := ⟨1000, demoEnv, [.got (verdictLine ++ [char '\n']), .got []]⟩

theorem verdict_lost_with_close :
    let c := (connInit demoGlobals.main 3).step verdictThenClose
    (lines (char '\n') [] c.received).1 = [verdictLine] ∧ c.calls = [] ∧
      c.session.sharesAccepted = 0 ∧ ¬ LinesTaken c := by
  intro c
  have hlines : (lines (char '\n') [] c.received).1 = [verdictLine] := by decide +kernel
  have hcalls : c.calls = [] := by decide +kernel
  have hended : c.ending = some (.closed, verdictLine ++ [char '\n']) := by decide +kernel
  refine ⟨hlines, hcalls, by decide +kernel, fun ht => ?_⟩
  have htaken := (ht.2 _ hended).1
  rw [hcalls, hlines] at htaken
  cases htaken

end OspreyBlake2b.Miner
