import OspreyBlake2b.Miner.ReconnectLaws
import OspreyBlake2b.Miner.VerdictLaws
import OspreyBlake2b.Zynq.SiaReferenceLaws
import OspreyBlake2b.Zynq.StratumTestServer

namespace OspreyBlake2b.Zynq

open OspreyBlake2b.Lib OspreyBlake2b.Lib.JsonText OspreyBlake2b.Miner

section Requests

theorem strip_object (t : List Byte) :
    strip (char '\x7b' :: (t ++ [char '\x7d']) ++ ascii "\n") = char '\x7b' :: (t ++ [char '\x7d']) := by
  have hopen : pySpace (char '\x7b') = false := by decide
  have hclose : pySpace (char '\x7d') = false := by decide
  have hend : pySpace (char '\n') = true := by decide
  have hline : ascii "\n" = [char '\n'] := rfl
  rw [strip, hline, List.cons_append, List.dropWhile_cons_of_neg (ne_true_of_eq_false hopen)]
  simp [hend, hclose]

theorem strip_requestLine (id : U64) (method : String) (params : List Byte) :
    strip (requestLine id method params) = requestText id method params := by
  rw [requestLine_eq, requestText]
  have h := strip_object (Json.quote (ascii "id") ++ char ':' :: (dec id.toNat ++ char ',' ::
    (Json.quote (ascii "method") ++ char ':' :: (Json.quote (ascii method) ++ char ',' ::
      (Json.quote (ascii "params") ++ char ':' :: char '[' :: (params ++ [char ']']))))))
  simpa only [List.append_assoc, List.cons_append, List.nil_append] using h

section Handled

variable (lib : Hashlib) (srv : Server) (h : Handler) (t : Template)

theorem handleLine_request (id : U64) {method : String} {params text : List Byte} {es : List Json}
    (hmethod : ∀ c ∈ ascii method, Json.Plain c ∧ c < 0x80#8) (htext : Utf8.decode params = text)
    (hwhite : isWhite (deref text) = false) (hclose : deref text ≠ char ']') (hne : text ≠ [])
    (hes : ∀ n r, Json.parseElements (n + 6) (text ++ char ']' :: r) = some (es, r)) :
    handleLine lib srv h (requestLine id method params) t =
      dispatch lib srv h (requestMessage id method es) t := by
  have hline : requestText id method text ≠ [] := List.cons_ne_nil _ _
  have hparse := parse_requestText id (fun c hc => (hmethod c hc).1) hwhite hclose hne hes
    (r := []) rfl
  rw [List.append_nil] at hparse
  rw [handleLine, decode_requestLine id fun c hc => (hmethod c hc).2, htext, strip_requestLine, hparse,
    if_neg hline]

theorem handleLine_subscribe (id : U64) :
    handleLine lib srv h (requestLine id "mining.subscribe" (quoted (ascii "osprey-blake2b/1.0"))) t =
      answer srv h [reply (some (.num (dec id.toNat)))
        (.arr [.arr [.arr [.str (ascii "mining.notify"), .str (ascii "fixture")]],
          .str (bin2hex h.extranonce1), .num (dec extranonce2Size)]) .null] := by
  have hes (n : Nat) (r : List Byte) :
      Json.parseElements (n + 6) (quoted (ascii "osprey-blake2b/1.0") ++ char ']' :: r) =
        some ([.str (ascii "osprey-blake2b/1.0")], r) :=
    Json.parseElements_last (Json.parseValue_str (by decide) _)
  have htext : Utf8.decode (quoted (ascii "osprey-blake2b/1.0")) = quoted (ascii "osprey-blake2b/1.0") :=
    Utf8.decode_ascii (by decide)
  rw [handleLine_request lib srv h t id (by decide) htext (by decide) (by decide) (by decide) hes]
  rfl

theorem handleLine_authorize (id : U64) {worker password : List Byte}
    (hplain : ∀ c ∈ worker ++ password, Json.Plain c) :
    handleLine lib srv h (requestLine id "mining.authorize"
        (quoted worker ++ ascii "," ++ quoted password)) t =
      let pushed := pushJob { h with authorized := true } t
      answer srv pushed.1
        [reply (some (.num (dec id.toNat))) (.bool true) .null, srv.setDifficulty, pushed.2] := by
  obtain ⟨hworker, hpassword⟩ := List.forall_mem_append.mp hplain
  let text := quoted (Utf8.decode worker) ++ ascii "," ++ quoted (Utf8.decode password)
  have htext : Utf8.decode (quoted worker ++ ascii "," ++ quoted password) = text := by
    have hlast := decode_quoted password []
    rw [List.append_nil, show Utf8.decode [] = [] from rfl, List.append_nil] at hlast
    simp only [text, List.append_assoc]
    rw [decode_quoted, Utf8.decode_ascii_append (by decide), hlast]
  have hes (n : Nat) (r : List Byte) : Json.parseElements (n + 6) (text ++ char ']' :: r) =
      some ([.str (Utf8.decode worker), .str (Utf8.decode password)], r) := by
    simp only [text, List.append_assoc]
    apply Json.parseElements_more (Json.parseValue_str (decode_plain hworker) _)
    exact Json.parseElements_last (Json.parseValue_str (decode_plain hpassword) _)
  have hhead : deref text = char '"' := rfl
  have hne : text ≠ [] := List.cons_ne_nil _ _
  rw [handleLine_request lib srv h t id (by decide) htext (by rw [hhead]; decide)
    (by rw [hhead]; decide) hne hes]
  rfl

theorem handleLine_suggest (id : U64) :
    handleLine lib srv h (requestLine id "mining.suggest_difficulty" (ascii "32")) t =
      answer srv h [reply (some (.num (dec id.toNat))) (.bool false) .null] := by
  have hends : Json.EndsInt (char ']') := by
    rw [Json.EndsInt]
    decide
  have htext : Utf8.decode (ascii "32") = ascii "32" := Utf8.decode_ascii (by decide)
  rw [handleLine_request lib srv h t id (by decide) htext (by decide) (by decide) (by decide) fun n r =>
    Json.parseElements_last (Json.parseValue_int (by decide +kernel) hends _)]
  rfl

theorem checkWidth_hex {bs : List Byte} (hlen : bs.length = 8) (text : String) :
    checkWidth (.str (bin2hex bs)) text = .ok () := by
  have hwidth : (Json.codePoints (bin2hex bs)).length = 16 := by
    rw [Json.codePoints_ascii (bin2hex_ascii bs), List.length_map, bin2hex_length, hlen]
  rw [checkWidth, pyLen, hwidth]
  rfl

theorem hexField_hex (bs : List Byte) : hexField (.str (bin2hex bs)) = .ok bs := by
  rw [hexField, fromHex_bin2hex]
  rfl

def ruling (id : U64) (accepted : Bool) : Json :=
  reply (some (.num (dec id.toNat))) (.bool accepted)
    (if accepted then .null else fault 23 (ascii "LowDifficultyShare"))

theorem handleLine_submit (id : U64) {worker jobId en2 ntime nonce : List Byte} {job : FixtureJob}
    {target : Int} {accepted : Bool} (hworker : worker.length ≤ 159) (hjobId : jobId.length ≤ 63)
    (hplain : ∀ c ∈ worker ++ jobId, Json.Plain c) (hascii : ∀ c ∈ jobId, c < 0x80#8)
    (hen2 : en2.length = 8) (hntime : ntime.length = 8) (hnonce : nonce.length = 8)
    (hjob : h.jobs.lookup jobId = some job) (htarget : srv.target = some target)
    (hgrade : grade lib srv.chain target job h.extranonce1 en2 ntime nonce = some accepted) :
    handleLine lib srv h (submitLine id worker jobId en2 ntime nonce) t =
      ⟨h, srv.record accepted, [ruling id accepted], some accepted, false⟩ := by
  obtain ⟨hw, hj⟩ := List.forall_mem_append.mp hplain
  have hfind : h.findJob (.str jobId) = .ok job := by
    rw [Handler.findJob, hjob]
    rfl
  have hparams (es : List Json) (hne : es ≠ []) : submitParams (some (.arr es)) = .ok es := by
    cases es with
    | nil => exact absurd rfl hne
    | cons e es => rfl
  have hsubmit : gradeSubmit lib srv h (some (.arr
      (submitFields (Utf8.decode worker) jobId en2 ntime nonce))) = .ok accepted := by
    simp only [submitFields, gradeSubmit, hparams _ (List.cons_ne_nil _ _), bind, Except.bind, hfind,
      checkWidth_hex hntime, checkWidth_hex hnonce, checkWidth_hex hen2, hexField_hex, htarget,
      Option.bind, hgrade]
    rfl
  have htext : Utf8.decode (submitText worker jobId en2 ntime nonce) =
      submitText (Utf8.decode worker) jobId en2 ntime nonce := by
    rw [decode_submitText, Utf8.decode_ascii hascii]
  rw [submitLine_whole id hworker hjobId (by omega) hntime hnonce,
    handleLine_request lib srv h t id (by decide) htext (by rw [submitText_head]; decide)
      (by rw [submitText_head]; decide) submitText_ne_nil
      (parse_submitText (decode_plain hw) hj)]
  change onSubmit lib srv h (some (.num (dec id.toNat))) (some (.arr _)) = _
  rw [onSubmit, hsubmit]
  cases accepted <;> rfl

variable {lib}

theorem grade_total (hlib : lib.Agrees) (chain : Chain) (target : Int) (en1 en2 : List Byte)
    {ntime nonce : List Byte} (hntime : ntime.length = 8) (hnonce : nonce.length = 8) :
    ∃ accepted, grade lib chain target t.job en1 en2 ntime nonce = some accepted := by
  have hvalue (header : List Byte) : ∃ v, compareValue lib chain header = some v := by
    cases chain <;> exact ⟨_, rfl⟩
  have hlen (data : List Byte) : (blake2bNokey lib data 32).length = 32 := by
    rw [digest_eq hlib]
    exact Hash.Blake2b.blake2bNokey_length _ 32
  let leaf := blake2bNokey lib (leafTag ++ (t.coinb1.toList ++ en1 ++ en2 ++ [])) 32
  have hheader : gradeHeader lib t.job en1 en2 ntime nonce =
      some (t.prevhash.toList ++ nonce ++ ntime ++ leaf) := by
    rw [gradeHeader]
    change (merkleRootFromBranches lib (.bytes leaf) [] >>= fun root =>
      buildHeader t.job.prevhash (.bytes nonce) (.bytes ntime) (.bytes root)) = _
    rw [merkleRootFromBranches, asBytes, Option.bind_eq_bind, Option.bind_some,
      guard_some (hlen _), Option.bind_eq_bind, Option.bind_some]
    exact assert_some (by simp [stage4Len, hntime, hnonce, leaf, hlen])
  obtain ⟨v, hv⟩ := hvalue (t.prevhash.toList ++ nonce ++ ntime ++ leaf)
  exact ⟨_, by rw [grade, hheader, Option.bind_eq_bind, Option.bind_some, hv]; rfl⟩

end Handled

end Requests

end OspreyBlake2b.Zynq
