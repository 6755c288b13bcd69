import OspreyBlake2b.Miner.JsonLaws
import OspreyBlake2b.Miner.Session

namespace OspreyBlake2b.Miner

open OspreyBlake2b.Lib OspreyBlake2b.Lib.Machine

variable (s : Stratum)

theorem drop_down : (drop s).fd < 0 := by
  change (-1 : Int) < 0
  decide

theorem onNotify_cases (params : List Byte) :
    onNotify s params = s ∨ ∃ j, parseNotify s params = some j ∧
      onNotify s params = { s with job := j, haveJob := true, jobsReceived := s.jobsReceived + 1 } := by
  rw [onNotify]
  cases h : parseNotify s params with
  | none => exact .inl rfl
  | some j => exact .inr ⟨j, rfl, rfl⟩

theorem onSetDifficulty_cases (params : List Byte) :
    onSetDifficulty s params = s ∨
      ∃ d, onSetDifficulty s params = { s with difficulty := d } := by
  rw [onSetDifficulty]
  cases jsElem params 0 with
  | none => exact .inl rfl
  | some d => exact .inr ⟨_, rfl⟩

/-- A handler that stores an extranonce1: the bytes come first, then, if they are all
good, their number. -/
theorem onSetExtranonce_cases (params : List Byte) :
    onSetExtranonce s params = s ∨ ∃ e,
      let out := (jsHex e stratumMaxEn1).1
      let buf := overwrite s.extranonce1 out
      onSetExtranonce s params = { s with extranonce1 := buf } ∨
        ∃ size, onSetExtranonce s params =
          { s with extranonce1 := buf, en1Len := out.length, en2Size := size, haveJob := false } := by
  rw [onSetExtranonce]
  cases jsElem params 0 with
  | none => exact .inl rfl
  | some e =>
    refine .inr ⟨e, ?_⟩
    dsimp only
    split
    · exact .inl rfl
    · exact .inr ⟨_, rfl⟩

theorem onSubscribe_cases (result : List Byte) :
    onSubscribe s result = s ∨ ∃ e,
      let out := (jsHex e stratumMaxEn1).1
      let buf := overwrite s.extranonce1 out
      onSubscribe s result = { s with extranonce1 := buf } ∨
        onSubscribe s result = { s with extranonce1 := buf, en1Len := out.length } ∨
        ∃ size, onSubscribe s result =
          { s with extranonce1 := buf, en1Len := out.length, en2Size := size, subscribed := true } := by
  rw [onSubscribe]
  split
  · rename_i en1 sz _ _
    refine .inr ⟨en1, ?_⟩
    dsimp only
    split
    · exact .inl rfl
    · split
      · exact .inr (.inl rfl)
      · exact .inr (.inr ⟨_, rfl⟩)
  · exact .inl rfl

theorem onReply_cases (line : List Byte) :
    onReply s line = s ∨ (∃ r, onReply s line = onSubscribe s r) ∨
      (∃ b, onReply s line = { s with authorized := b }) ∨
      onReply s line = { s with sharesAccepted := s.sharesAccepted + 1 } ∨
      onReply s line = { s with sharesRejected := s.sharesRejected + 1 } := by
  rw [onReply]
  cases jsGet line "id" with
  | none => exact .inl rfl
  | some idv =>
    dsimp only
    split_ifs
    · cases jsGet line "result" with
      | none => exact .inl rfl
      | some r =>
        dsimp only
        split
        · exact .inr (.inl ⟨r, rfl⟩)
        · exact .inl rfl
    · exact .inr (.inr (.inl ⟨_, rfl⟩))
    · exact .inl rfl
    · exact .inr (.inr (.inr (.inl rfl)))
    · exact .inr (.inr (.inr (.inr rfl)))

theorem onReply_fd (line : List Byte) : (onReply s line).fd = s.fd := by
  have hsub (r : List Byte) : (onSubscribe s r).fd = s.fd := by
    obtain hs | ⟨e, hs | hs | ⟨size, hs⟩⟩ := onSubscribe_cases s r <;> rw [hs]
  obtain hs | ⟨r, hs⟩ | ⟨b, hs⟩ | hs | hs := onReply_cases s line
  · rw [hs]
  · rw [hs, hsub]
  · rw [hs]
  · rw [hs]
  · rw [hs]

def reconnectTarget (params : List Byte) : Option (List Byte × Int) := do
  let h ← jsElem params 0
  let (out, ok) := jsStr h 128
  let port := match jsElem params 1 with
    | some p => (jsNum p).toInt
    | none => s.port
  if ok then some (out, port) else none

theorem onReconnect_cases (params : List Byte) (now : U64) :
    reconnectTarget s params = none ∧
        (∃ buf, onReconnect s params now = drop { s with reconnectHost := buf }) ∨
      ∃ out port wait, reconnectTarget s params = some (out, port) ∧ 0 ∉ out ∧
        onReconnect s params now = drop { s with
          reconnectHost := overwrite s.reconnectHost (out ++ [0])
          reconnectPort := port
          reconnectPending := true
          addr := []
          retryAt := now + wait } := by
  rw [onReconnect, reconnectTarget]
  dsimp only
  cases jsElem params 0 with
  | none => exact .inl ⟨rfl, s.reconnectHost, rfl⟩
  | some h =>
    dsimp only [Option.bind_eq_bind, Option.bind_some]
    split
    · exact .inr ⟨_, _, _, rfl, (jsStr_spec (by decide)).2, rfl⟩
    · exact .inl ⟨rfl, _, rfl⟩

def subscribing : Stratum := { s with subId := s.nextId + 1, nextId := s.nextId + 1 }

def authorizing : Stratum := { s with authId := s.nextId + 1, nextId := s.nextId + 1 }

def suggesting : Stratum := { s with suggestDiffId := s.nextId + 1, nextId := s.nextId + 1 }

theorem sendLine_up {ok : Bool} (hup : ¬ s.fd < 0) :
    sendLine s ok = if ok then (s, true) else (drop s, false) := by
  rw [sendLine, if_neg hup]

def handshakeLines : List (List Byte) :=
  [(requestLine (s.nextId + 1) "mining.subscribe" (quoted (ascii "osprey-blake2b/1.0"))).take 511,
    (requestLine (s.nextId + 1 + 1) "mining.authorize"
      (quoted s.worker ++ ascii "," ++ quoted s.password)).take 511,
    requestLine (s.nextId + 1 + 1 + 1) "mining.suggest_difficulty" (ascii "32")]

theorem handshake_eq (e : DialEnv) (hup : ¬ s.fd < 0) :
    handshake s e =
      if !e.sendSubscribe then (drop (subscribing s), [])
      else if !e.sendAuthorize then (drop (authorizing (subscribing s)), (handshakeLines s).take 1)
      else if !e.sendSuggest then
        (drop (suggesting (authorizing (subscribing s))), (handshakeLines s).take 2)
      else (suggesting (authorizing (subscribing s)), handshakeLines s) := by
  have hsub : sendLine (subscribing s) e.sendSubscribe =
      if e.sendSubscribe then (subscribing s, true) else (drop (subscribing s), false) :=
    sendLine_up _ hup
  have hauth : sendLine (authorizing (subscribing s)) e.sendAuthorize =
      if e.sendAuthorize then (authorizing (subscribing s), true)
      else (drop (authorizing (subscribing s)), false) :=
    sendLine_up _ hup
  have hsug : sendLine (suggesting (authorizing (subscribing s))) e.sendSuggest =
      if e.sendSuggest then (suggesting (authorizing (subscribing s)), true)
      else (drop (suggesting (authorizing (subscribing s))), false) :=
    sendLine_up _ hup
  rw [subscribing] at hsub
  simp only [handshake, hsub]
  cases e.sendSubscribe with
  | false => rfl
  | true =>
    simp only [authorizing, subscribing] at hauth
    simp only [if_true, hauth]
    cases e.sendAuthorize with
    | false => rfl
    | true =>
      simp only [suggesting, authorizing, subscribing] at hsug
      simp only [if_true, hsug]
      cases e.sendSuggest with
      | false => rfl
      | true => rfl

theorem handshake_cases (e : DialEnv) (hup : ¬ s.fd < 0) :
    (handshake s e).1 = drop (subscribing s) ∨
      (handshake s e).1 = drop (authorizing (subscribing s)) ∨
      (handshake s e).1 = drop (suggesting (authorizing (subscribing s))) ∨
      (handshake s e).1 = suggesting (authorizing (subscribing s)) := by
  rw [handshake_eq s e hup]
  cases e.sendSubscribe with
  | false => exact .inl rfl
  | true =>
    cases e.sendAuthorize with
    | false => exact .inr (.inl rfl)
    | true =>
      cases e.sendSuggest with
      | false => exact .inr (.inr (.inl rfl))
      | true => exact .inr (.inr (.inr rfl))

def dialTarget : List Byte × Int :=
  if s.reconnectPending then (cstr s.reconnectHost, s.reconnectPort) else (s.host, s.port)

def attempting (addr : List Byte) : Stratum := { s with reconnectPending := false, addr }

def connecting (addr : List Byte) (fd : Int) : Stratum :=
  { attempting s addr with fd, rx := [], backoffS := 0, reconnects := s.reconnects + 1 }

/-- The cache of an attempt: as it was, or, when the attempt is not a redirect, emptied
or filled with the resolver's answer for the configured host. -/
def Cached (e : DialEnv) (addr : List Byte) : Prop :=
  addr = s.addr ∨ s.reconnectPending = false ∧ (addr = [] ∨ s.addr = [] ∧ e.dns = some addr)

theorem connectTo_cases (redirect : Bool) (now : U64) (e : DialEnv) :
    (connectTo s redirect now e).1 = s ∨
      redirect = false ∧ (connectTo s redirect now e).1 = { s with addr := [] } ∨
      (connectTo s redirect now e).1 = backOff s now ∨
      ¬ e.socket < 0 ∧ (connectTo s redirect now e).1 = (handshake
        { s with fd := e.socket, rx := [], backoffS := 0, reconnects := s.reconnects + 1 } e).1 := by
  rw [connectTo]
  by_cases hsock : e.socket < 0
  · rw [if_pos hsock]
    exact .inl rfl
  · rw [if_neg hsock]
    cases e.pton with
    | false =>
      cases redirect with
      | true => exact .inl rfl
      | false => exact .inr (.inl ⟨rfl, rfl⟩)
    | true =>
      cases e.connects with
      | false => exact .inr (.inr (.inl rfl))
      | true => exact .inr (.inr (.inr ⟨hsock, rfl⟩))

theorem dial_wait {now : U64} (hwait : now < s.retryAt) (e : DialEnv) :
    dial s now e = ⟨s, none, []⟩ := by
  rw [dial, if_pos hwait]

theorem dial_cases {now : U64} (hwait : ¬ now < s.retryAt) (e : DialEnv) :
    (dial s now e).target = some (dialTarget s) ∧ ∃ addr, Cached s e addr ∧
      ((dial s now e).session = attempting s addr ∨
        (dial s now e).session = backOff (attempting s addr) now ∨
        ¬ e.socket < 0 ∧
          (dial s now e).session = (handshake (connecting s addr e.socket) e).1) := by
  -- an address that passes is left in the cache, one that does not parse is forgotten
  have hconnect (addr : List Byte) (hkeep : Cached s e addr) :
      ∃ addr', Cached s e addr' ∧
        ((connectTo (attempting s addr) s.reconnectPending now e).1 = attempting s addr' ∨
        (connectTo (attempting s addr) s.reconnectPending now e).1 =
          backOff (attempting s addr') now ∨
        ¬ e.socket < 0 ∧ (connectTo (attempting s addr) s.reconnectPending now e).1 =
          (handshake (connecting s addr' e.socket) e).1) := by
    obtain h | ⟨hr, h⟩ | h | h := connectTo_cases (attempting s addr) s.reconnectPending now e
    · exact ⟨addr, hkeep, .inl h⟩
    · exact ⟨[], .inr ⟨hr, .inl rfl⟩, .inl h⟩
    · exact ⟨addr, hkeep, .inr (.inl h)⟩
    · exact ⟨addr, hkeep, .inr (.inr h)⟩
  rw [dial, if_neg hwait]
  refine ⟨rfl, ?_⟩
  dsimp only
  split
  · rename_i hask
    cases hdns : e.dns with
    | none => exact ⟨s.addr, .inl rfl, .inr (.inl rfl)⟩
    | some a =>
      cases hr : s.reconnectPending with
      | true =>
        obtain ⟨addr', hkeep, h⟩ := hconnect s.addr (.inl rfl)
        rw [hr] at h
        exact ⟨addr', hkeep, h⟩
      | false =>
        have hempty : s.addr = [] := hask.resolve_left (by simp [hr])
        obtain ⟨addr', hkeep, h⟩ := hconnect a (.inr ⟨hr, .inr ⟨hempty, hdns⟩⟩)
        rw [hr] at h
        exact ⟨addr', hkeep, h⟩
  · exact hconnect s.addr (.inl rfl)

theorem stratumSubmit_cases (ok : Bool) :
    s.fd < 0 ∧ (stratumSubmit s ok).1 = s ∨
      ¬ s.fd < 0 ∧ ok = false ∧ (stratumSubmit s ok).1 = drop { s with nextId := s.nextId + 1 } ∨
      ¬ s.fd < 0 ∧ ok = true ∧ (stratumSubmit s ok).1 =
        { s with nextId := s.nextId + 1, sharesSubmitted := s.sharesSubmitted + 1 } := by
  rw [stratumSubmit]
  by_cases hdown : s.fd < 0
  · rw [if_pos hdown]
    exact .inl ⟨hdown, rfl⟩
  · have hsend : sendLine { s with nextId := s.nextId + 1 } ok =
        if ok then ({ s with nextId := s.nextId + 1 }, true)
        else (drop { s with nextId := s.nextId + 1 }, false) := sendLine_up _ hdown
    rw [if_neg hdown, hsend]
    cases ok with
    | false => exact .inr (.inl ⟨hdown, rfl, rfl⟩)
    | true => exact .inr (.inr ⟨hdown, rfl, rfl⟩)

end OspreyBlake2b.Miner
