import OspreyBlake2b.Lib.Decimal
import OspreyBlake2b.Miner.LimitsLaws
import OspreyBlake2b.Miner.PrefilterLaws
import OspreyBlake2b.Zynq.Blake2bReferenceLaws
import OspreyBlake2b.Zynq.SiaReference

/-! The pool reads back the header that was hashed.  The line of a share is parsed, its
hex fields decoded, and the header built again in the order of the reference. -/

namespace OspreyBlake2b.Zynq

open OspreyBlake2b.Lib OspreyBlake2b.Lib.JsonText OspreyBlake2b.Miner

section Hex

theorem hex_digit : ∀ d < 16, isspace (hexDigit d) = false ∧ hexval (hexDigit d) = some d ∧
    0x20#8 ≤ hexDigit d ∧ hexDigit d ≠ char '"' ∧ hexDigit d ≠ char '\\' := by decide

theorem bin2hex_cons (b : Byte) (bs : List Byte) :
    bin2hex (b :: bs) = hexDigit (b.toNat / 16) :: hexDigit (b.toNat % 16) :: bin2hex bs := rfl

theorem bin2hex_length (bs : List Byte) : (bin2hex bs).length = 2 * bs.length := by
  induction bs with
  | nil => rfl
  | cons b bs ih =>
    rw [bin2hex_cons, List.length_cons, List.length_cons, ih, List.length_cons]
    omega

theorem fromHex_bin2hex (bs : List Byte) : fromHex (bin2hex bs) = some bs := by
  induction bs with
  | nil => rfl
  | cons b bs ih =>
    obtain ⟨hspace, hhi, -⟩ := hex_digit (b.toNat / 16) (by omega)
    obtain ⟨-, hlo, -⟩ := hex_digit (b.toNat % 16) (by omega)
    have hb : BitVec.ofNat 8 (b.toNat / 16 * 16 + b.toNat % 16) = b := by
      rw [Nat.div_add_mod']
      exact BitVec.eq_of_toNat_eq (Nat.mod_eq_of_lt b.isLt)
    rw [bin2hex_cons, fromHex, hspace, if_neg (by decide)]
    simp only [hhi, hlo, ih, Option.map_some, hb]

theorem mem_bin2hex {bs : List Byte} {c : Byte} (hc : c ∈ bin2hex bs) : ∃ d < 16, c = hexDigit d := by
  obtain ⟨b, -, hc⟩ := List.mem_flatMap.mp hc
  simp only [List.mem_cons, List.not_mem_nil, or_false] at hc
  obtain rfl | rfl := hc
  · exact ⟨_, by omega, rfl⟩
  · exact ⟨_, by omega, rfl⟩

theorem bin2hex_ascii (bs : List Byte) : ∀ c ∈ bin2hex bs, c < 0x80#8 := by
  have hdigit : ∀ d < 16, hexDigit d < 0x80#8 := by decide
  intro c hc
  obtain ⟨d, hd, rfl⟩ := mem_bin2hex hc
  exact hdigit d hd

theorem bin2hex_plain (bs : List Byte) : ∀ c ∈ bin2hex bs, Json.Plain c := by
  intro c hc
  obtain ⟨d, hd, rfl⟩ := mem_bin2hex hc
  exact (hex_digit d hd).2.2

end Hex

section Line

variable {worker jobId en2 ntime nonce : List Byte}

theorem dec_length (id : U64) : (dec id.toNat).length ≤ 20 := by
  rw [dec, ascii_toString, List.length_map]
  refine (Nat.length_toDigits_le_iff (by decide) (by decide)).mpr ?_
  have hlt := id.isLt
  omega

def submitText (worker jobId en2 ntime nonce : List Byte) : List Byte :=
  quoted worker ++ ascii "," ++ quoted jobId ++ ascii "," ++ quoted (bin2hex en2) ++ ascii "," ++
    quoted (bin2hex ntime) ++ ascii "," ++ quoted (bin2hex nonce)

theorem submitLine_whole (id : U64) (hworker : worker.length ≤ 159) (hjob : jobId.length ≤ 63)
    (hen2 : en2.length ≤ 32) (hntime : ntime.length = 8) (hnonce : nonce.length = 8) :
    submitLine id worker jobId en2 ntime nonce =
      requestLine id "mining.submit" (submitText worker jobId en2 ntime nonce) := by
  have hdec := dec_length id
  apply List.take_of_length_le
  simp only [requestLine, quoted, List.length_append, bin2hex_length, hntime, hnonce]
  have hascii : (ascii "\x7b\"id\":").length = 6 ∧ (ascii ",\"method\":\"").length = 11 ∧
      (ascii "mining.submit").length = 13 ∧ (ascii "\",\"params\":[").length = 12 ∧
      (ascii "\"").length = 1 ∧ (ascii ",").length = 1 ∧ (ascii "]\x7d\n").length = 3 := by
    decide
  omega

def requestText (id : U64) (method : String) (params : List Byte) : List Byte :=
  char '\x7b' :: (Json.quote (ascii "id") ++ char ':' :: (dec id.toNat ++ char ',' ::
    (Json.quote (ascii "method") ++ char ':' :: (Json.quote (ascii method) ++ char ',' ::
      (Json.quote (ascii "params") ++ char ':' :: char '[' ::
        (params ++ char ']' :: [char '\x7d']))))))

theorem requestLine_eq (id : U64) (method : String) (params : List Byte) :
    requestLine id method params = requestText id method params ++ ascii "\n" := by
  have hopen : ascii "\x7b\"id\":" = char '\x7b' :: (Json.quote (ascii "id") ++ [char ':']) := by decide
  have hmethod : ascii ",\"method\":\"" =
      char ',' :: (Json.quote (ascii "method") ++ [char ':', char '"']) := by decide
  have hparams : ascii "\",\"params\":[" =
      char '"' :: char ',' :: (Json.quote (ascii "params") ++ [char ':', char '[']) := by decide
  have hclose : ascii "]\x7d\n" = char ']' :: char '\x7d' :: ascii "\n" := by decide
  have hname : Json.quote (ascii method) = char '"' :: (ascii method ++ [char '"']) := rfl
  rw [requestLine, requestText, hopen, hmethod, hparams, hclose, hname]
  simp only [List.append_assoc, List.cons_append, List.nil_append]

def requestMessage (id : U64) (method : String) (es : List Json) : Json :=
  .obj [(ascii "id", .num (dec id.toNat)), (ascii "method", .str (ascii method)),
    (ascii "params", .arr es)]

theorem parse_requestText (id : U64) {method : String} {params : List Byte} {es : List Json}
    (hmethod : ∀ c ∈ ascii method, Json.Plain c) (hwhite : isWhite (deref params) = false)
    (hclose : deref params ≠ char ']') (hne : params ≠ [])
    (hes : ∀ n r, Json.parseElements (n + 6) (params ++ char ']' :: r) = some (es, r)) {r : List Byte}
    (hr : Json.skipWhite r = []) :
    Json.parse (requestText id method params ++ r) = some (requestMessage id method es) := by
  obtain ⟨c, t, rfl⟩ := List.exists_cons_of_ne_nil hne
  have hkeys : (∀ c ∈ ascii "id", Json.Plain c) ∧ (∀ c ∈ ascii "method", Json.Plain c) ∧
      ∀ c ∈ ascii "params", Json.Plain c := by decide
  have harr (n : Nat) := Json.parseValue_arr
    (Json.skipWhite_cons hwhite (t ++ char ']' :: char '\x7d' :: r)) hclose (hes n (char '\x7d' :: r))
  have hlast (n : Nat) := Json.parseMembers_last hkeys.2.2 (harr n)
  have hname (n : Nat) := Json.parseMembers_more hkeys.2.1 (Json.parseValue_str hmethod _) (hlast n)
  have hid (n : Nat) := Json.parseMembers_more hkeys.1
    (Json.parseValue_int (decimal_isInt id.toNat) Json.endsInt_comma _) (hname n)
  have hobj (n : Nat) := Json.parseValue_obj (Json.skipWhite_cons (by decide) _)
    (show char '"' ≠ char '\x7d' by decide) (hid n)
  have htext : requestText id method (c :: t) ++ r =
      char '\x7b' :: (Json.quote (ascii "id") ++ char ':' :: (dec id.toNat ++ char ',' ::
        (Json.quote (ascii "method") ++ char ':' :: (Json.quote (ascii method) ++ char ',' ::
          (Json.quote (ascii "params") ++ char ':' :: char '[' ::
            (c :: t ++ char ']' :: char '\x7d' :: r)))))) := by
    simp only [requestText, List.append_assoc, List.cons_append, List.nil_append]
  rw [htext]
  refine Json.parse_eq (k := 11) hobj ?_ hr
  simp only [Json.quote, List.length_cons, List.length_append]
  omega

def submitFields (worker jobId en2 ntime nonce : List Byte) : List Json :=
  [.str worker, .str jobId, .str (bin2hex en2), .str (bin2hex ntime), .str (bin2hex nonce)]

theorem parse_submitText (hworker : ∀ c ∈ worker, Json.Plain c) (hjob : ∀ c ∈ jobId, Json.Plain c)
    (n : Nat) (r : List Byte) :
    Json.parseElements (n + 6) (submitText worker jobId en2 ntime nonce ++ char ']' :: r) =
      some (submitFields worker jobId en2 ntime nonce, r) := by
  simp only [submitText, List.append_assoc]
  apply Json.parseElements_more (Json.parseValue_str hworker _)
  apply Json.parseElements_more (Json.parseValue_str hjob _)
  apply Json.parseElements_more (Json.parseValue_str (bin2hex_plain en2) _)
  apply Json.parseElements_more (Json.parseValue_str (bin2hex_plain ntime) _)
  exact Json.parseElements_last (Json.parseValue_str (bin2hex_plain nonce) _)

theorem submitText_head : deref (submitText worker jobId en2 ntime nonce) = char '"' := rfl

theorem submitText_ne_nil : submitText worker jobId en2 ntime nonce ≠ [] := List.cons_ne_nil _ _

theorem parse_submit (id : U64) (hworker : ∀ c ∈ worker, Json.Plain c)
    (hjob : ∀ c ∈ jobId, Json.Plain c) :
    Json.parse (requestLine id "mining.submit" (submitText worker jobId en2 ntime nonce)) =
      some (requestMessage id "mining.submit" (submitFields worker jobId en2 ntime nonce)) := by
  rw [requestLine_eq]
  exact parse_requestText id (by decide) (by rw [submitText_head]; decide)
    (by rw [submitText_head]; decide) submitText_ne_nil (parse_submitText hworker hjob) (by decide)

theorem decode_plain {bs : List Byte} (h : ∀ c ∈ bs, Json.Plain c) :
    ∀ c ∈ Utf8.decode bs, Json.Plain c := Utf8.all_decode (by decide) h

theorem decode_quoted (t r : List Byte) :
    Utf8.decode (quoted t ++ r) = quoted (Utf8.decode t) ++ Utf8.decode r := by
  have hquote : ascii "\"" = [char '"'] := rfl
  have hopen := Utf8.decode_boundary [] (c := char '"') (by decide) (t ++ char '"' :: r)
  rw [Utf8.decode_boundary t (by decide)] at hopen
  rw [show Utf8.decode [] = [] from rfl] at hopen
  simpa only [quoted, hquote, List.append_assoc, List.cons_append, List.nil_append] using hopen

theorem dec_ascii (n : Nat) : ∀ c ∈ dec n, c < 0x80#8 := by
  have hdigit : ∀ c : Byte, isDigit c = true → c < 0x80#8 := by decide
  obtain ⟨-, hall⟩ := of_decide_eq_true (decimal_digits n)
  exact fun c hc => hdigit c (List.all_eq_true.mp hall c hc)

theorem decode_requestLine (id : U64) {method : String} (hmethod : ∀ c ∈ ascii method, c < 0x80#8)
    (params : List Byte) :
    Utf8.decode (requestLine id method params) = requestLine id method (Utf8.decode params) := by
  have hclose : ascii "]\x7d\n" = char ']' :: ascii "\x7d\n" := by decide
  have hend : Utf8.decode (ascii "\x7d\n") = ascii "\x7d\n" := Utf8.decode_ascii (by decide)
  simp only [requestLine, List.append_assoc]
  rw [Utf8.decode_ascii_append (by decide), Utf8.decode_ascii_append (dec_ascii _),
    Utf8.decode_ascii_append (by decide), Utf8.decode_ascii_append hmethod,
    Utf8.decode_ascii_append (by decide), hclose, Utf8.decode_boundary params (by decide), hend]

theorem decode_submitText :
    Utf8.decode (submitText worker jobId en2 ntime nonce) =
      submitText (Utf8.decode worker) (Utf8.decode jobId) en2 ntime nonce := by
  have hcomma (r : List Byte) : Utf8.decode (ascii "," ++ r) = ascii "," ++ Utf8.decode r :=
    Utf8.decode_ascii_append (by decide) r
  have hhex (bs : List Byte) : Utf8.decode (bin2hex bs) = bin2hex bs :=
    Utf8.decode_ascii (bin2hex_ascii bs)
  have hlast : Utf8.decode (quoted (bin2hex nonce)) = quoted (bin2hex nonce) := by
    have h := decode_quoted (bin2hex nonce) []
    rwa [hhex, List.append_nil, show Utf8.decode [] = [] from rfl, List.append_nil] at h
  simp only [submitText, List.append_assoc, decode_quoted, hcomma, hhex, hlast]

end Line

section Header

variable {lib : Hashlib} {j : StratumJob} {en1 en2 : List Byte}

def fixtureJob (j : StratumJob) : FixtureJob where
  prevhash := .bytes j.prevhash.toList
  coinb1 := .bytes j.coinb1
  coinb2 := .bytes j.coinb2
  branches := j.branches.map fun br => .bytes br.toList

theorem digest_eq (h : lib.Agrees) (data : List Byte) :
    blake2bNokey lib data 32 = Hash.Blake2b.blake2bNokey data 32 :=
  h.blake2b data 32 (by decide) (by decide)

theorem siaMerkleRoot_length (j : StratumJob) {leaf : List Byte} (hleaf : leaf.length = 32) :
    (siaMerkleRoot j leaf).length = 32 := by
  rw [siaMerkleRoot]
  induction j.branches generalizing leaf with
  | nil => exact hleaf
  | cons br brs ih => exact ih (Hash.Blake2b.blake2bNokey_length _ 32)

theorem merkleRoot_eq (h : lib.Agrees) (j : StratumJob) {leaf : List Byte} (hleaf : leaf.length = 32) :
    merkleRootFromBranches lib (.bytes leaf) (fixtureJob j).branches = some (siaMerkleRoot j leaf) := by
  have hfold (brs : List (Vector Byte 32)) (acc : List Byte) :
      (brs.map fun br => BytesArg.bytes br.toList).foldlM (foldBranch lib) acc =
        some (brs.foldl (fun acc br =>
          Hash.Blake2b.blake2bNokey ([0x01#8] ++ br.toList ++ acc) 32) acc) := by
    induction brs generalizing acc with
    | nil => rfl
    | cons br brs ih =>
      have hstep : foldBranch lib acc (.bytes br.toList) =
          some (Hash.Blake2b.blake2bNokey ([0x01#8] ++ br.toList ++ acc) 32) := by
        rw [foldBranch, asBytes, Option.bind_eq_bind, Option.bind_some, guard_some (by simp),
          Option.bind_eq_bind, Option.bind_some, digest_eq h]
        rfl
      rw [List.map_cons, List.foldlM_cons, hstep, Option.bind_eq_bind, Option.bind_some, ih,
        List.foldl_cons]
  rw [merkleRootFromBranches, asBytes, Option.bind_eq_bind, Option.bind_some, guard_some hleaf,
    Option.bind_eq_bind, Option.bind_some]
  exact hfold j.branches leaf

theorem putNonce_headerOf (j : StratumJob) (root : List Byte) (nonce : U64) :
    putNonce (headerOf j root) nonce =
      j.prevhash.toList ++ leBytes 8 nonce ++ j.ntime.toList ++ root := by
  have htake : (headerOf j root).take 32 = j.prevhash.toList := by
    rw [headerOf, List.append_assoc, List.append_assoc]
    exact List.take_left' (by simp)
  have hdrop : (headerOf j root).drop 40 = j.ntime.toList ++ root := by
    rw [headerOf, List.append_assoc]
    exact List.drop_left' (by simp)
  rw [putNonce, htake, hdrop, List.append_assoc _ _ root]

theorem siaArbtx_some {arbtx : List Byte} (h : siaArbtx j en1 en2 (4 * stratumMaxCb) = some arbtx) :
    arbtx = j.coinb1 ++ en1 ++ en2 ++ j.coinb2 ∧ arbtx.length ≤ 4 * stratumMaxCb := by
  rw [siaArbtx] at h
  split at h
  · cases h
  · rename_i hroom
    obtain rfl := Option.some.inj h
    refine ⟨rfl, ?_⟩
    rw [List.length_append, List.length_append, List.length_append]
    omega

theorem buildMessages_header {chain : Chain} {ss3 ss4 : List Byte}
    (h : buildMessages chain j en1 en2 = some (ss3, ss4)) :
    ∃ arbtx, siaArbtx j en1 en2 (4 * stratumMaxCb) = some arbtx ∧
      ss4 = headerOf j (siaMerkleRoot j (siaArbtxLeaf arbtx)) := by
  cases chain with
  | sia =>
    obtain ⟨⟨header, root⟩, hbuild, h⟩ := Option.map_eq_some_iff.mp h
    obtain ⟨arbtx, harb, hbuild⟩ := Option.bind_eq_some_iff.mp hbuild
    cases h
    cases hbuild
    exact ⟨arbtx, harb, rfl⟩
  | knots =>
    obtain ⟨st, hbuild, h⟩ := Option.bind_eq_some_iff.mp h
    obtain ⟨arbtx, harb, hbuild⟩ := Option.bind_eq_some_iff.mp hbuild
    split at h
    · cases h
    · split at hbuild
      · cases hbuild
      · cases hbuild
        cases h
        exact ⟨arbtx, harb, rfl⟩

theorem gradeHeader_eq (hlib : lib.Agrees) {chain : Chain} {ss3 ss4 : List Byte}
    (h : buildMessages chain j en1 en2 = some (ss3, ss4)) (nonce : U64) :
    gradeHeader lib (fixtureJob j) en1 en2 j.ntime.toList (leBytes 8 nonce) =
      some (putNonce ss4 nonce) := by
  obtain ⟨arbtx, harb, rfl⟩ := buildMessages_header h
  obtain ⟨hsplit, hroom⟩ := siaArbtx_some harb
  have harbitrary : arbitraryTx (fixtureJob j).coinb1 (.bytes en1) (.bytes en2)
      (fixtureJob j).coinb2 = some arbtx := hsplit ▸ rfl
  have hleaf : arbtxLeaf lib (.bytes arbtx) = some (siaArbtxLeaf arbtx) := by
    rw [siaArbtxLeaf, List.take_of_length_le hroom, ← digest_eq hlib]
    rfl
  have hsize : (siaArbtxLeaf arbtx).length = 32 := Hash.Blake2b.blake2bNokey_length _ 32
  have hroot := merkleRoot_eq hlib j hsize
  have hlen := siaMerkleRoot_length j hsize
  rw [gradeHeader, harbitrary, Option.bind_eq_bind, Option.bind_some, hleaf, Option.bind_some,
    hroot, Option.bind_some, putNonce_headerOf]
  exact assert_some (by simp [hlen, stage4Len])

def Stage3Fits (j : StratumJob) (en1 en2 : List Byte) : Prop :=
  1 + j.coinb1.length + en1.length + en2.length + j.coinb2.length = stage3Len ∧ j.branches = []

theorem buildMessages_some {chain : Chain}
    (hroom : j.coinb1.length + en1.length + en2.length + j.coinb2.length ≤ 4 * stratumMaxCb)
    (h : chain = .sia ∨ Stage3Fits j en1 en2) :
    ∃ ss3 ss4, buildMessages chain j en1 en2 = some (ss3, ss4) := by
  have harb : siaArbtx j en1 en2 (4 * stratumMaxCb) = some (j.coinb1 ++ en1 ++ en2 ++ j.coinb2) :=
    if_neg (Nat.not_lt.mpr hroom)
  suffices hsome : (buildMessages chain j en1 en2).isSome = true by
    obtain ⟨⟨ss3, ss4⟩, hbuild⟩ := Option.isSome_iff_exists.mp hsome
    exact ⟨ss3, ss4, hbuild⟩
  cases chain with
  | sia =>
    rw [buildMessages, siaBuildHeader, harb]
    rfl
  | knots =>
    obtain h | ⟨hlen, hbranches⟩ := h
    · cases h
    · have hstages : ¬ (j.coinb1 ++ en1 ++ en2 ++ j.coinb2).length + 1 ≠ stage3Len := by
        simp only [List.length_append]
        omega
      rw [buildMessages, siaBuildStages, harb, Option.bind_eq_bind, Option.bind_some, if_neg hstages,
        hbranches]
      rfl

theorem compareValue_eq (hlib : lib.Agrees) (chain : Chain) (ss4 : List Byte) (nonce : U64) :
    compareValue lib chain (putNonce ss4 nonce) = some (beVal (powCompare chain ss4 nonce) : Int) := by
  cases chain with
  | sia =>
    rw [compareValue, siaCompareValue, asBytes, Option.bind_eq_bind, Option.bind_some,
      digest_eq hlib]
    rfl
  | knots =>
    rw [compareValue, powCompareValue, asBytes, Option.bind_eq_bind, Option.bind_some,
      digest_eq hlib, fromBytesLittle, powCompare, siaPowCompare, beVal, List.reverse_reverse]
    rfl

theorem powCompare_length (chain : Chain) (ss4 : List Byte) (nonce : U64) :
    (powCompare chain ss4 nonce).length = 32 := by
  cases chain with
  | sia => exact Hash.Blake2b.blake2bNokey_length _ 32
  | knots => exact (List.length_reverse ..).trans (Hash.Blake2b.blake2bNokey_length _ 32)

theorem grade_eq (hlib : lib.Agrees) {chain : Chain} {ss3 ss4 : List Byte}
    (h : buildMessages chain j en1 en2 = some (ss3, ss4)) (nonce : U64) {target : List Byte}
    (htarget : target.length = 32) :
    grade lib chain (beVal target) (fixtureJob j) en1 en2 j.ntime.toList (leBytes 8 nonce) =
      some (hashMeetsTarget (powCompare chain ss4 nonce) target) := by
  have hmeets := Miner.hashMeetsTarget_iff ((powCompare_length chain ss4 nonce).trans htarget.symm)
  rw [grade, gradeHeader_eq hlib h, Option.bind_eq_bind, Option.bind_some, compareValue_eq hlib,
    Option.bind_eq_bind, Option.bind_some]
  refine congrArg some (Bool.eq_iff_iff.mpr ?_)
  rw [hmeets, decide_eq_true_iff, Int.ofNat_le]

end Header

theorem readSubmit_submitLine (id : U64) {worker jobId en2 : List Byte} {ntime : Vector Byte 8}
    (hworker : worker.length ≤ 159) (hjob : jobId.length ≤ 63) (hen2 : en2.length ≤ 32)
    (nonce : U64) (hplain : ∀ c ∈ worker ++ jobId, Json.Plain c) :
    readSubmit (submitLine id worker jobId en2 ntime.toList (leBytes 8 nonce)) =
      some ⟨Utf8.decode worker, Utf8.decode jobId, en2, ntime.toList, leBytes 8 nonce⟩ := by
  obtain ⟨hw, hj⟩ := List.forall_mem_append.mp hplain
  have hparse : Json.parse (requestLine id "mining.submit" (submitText (Utf8.decode worker)
      (Utf8.decode jobId) en2 ntime.toList (leBytes 8 nonce))) = _ :=
    parse_submit id (decode_plain hw) (decode_plain hj)
  have hwidths : (bin2hex ntime.toList).length = 16 ∧ (bin2hex (leBytes 8 nonce)).length = 16 := by
    rw [bin2hex_length, bin2hex_length, leBytes_length]
    simp
  rw [readSubmit, submitLine_whole id hworker hjob hen2 (by simp) (leBytes_length 8 nonce),
    decode_requestLine id (by decide), decode_submitText, hparse, Option.bind_eq_bind,
    Option.bind_some]
  have hmethod (es : List Json) : (requestMessage id "mining.submit" es).get "method" =
      some (.str (ascii "mining.submit")) := rfl
  have hparams (es : List Json) : (requestMessage id "mining.submit" es).get "params" =
      some (.arr es) := rfl
  rw [hmethod, hparams]
  dsimp only
  rw [guard_some rfl, Option.bind_eq_bind, Option.bind_some]
  dsimp only [submitFields, List.take]
  rw [guard_some hwidths, fromHex_bin2hex, fromHex_bin2hex, fromHex_bin2hex]
  rfl

/-- For every job that `on_notify` stores; the line is the one `stratum_submit` writes,
and `buildMessages` is where the bytes come from that the candidate was hashed from. -/
theorem submit_rebuilds {lib : Hashlib} (hlib : lib.Agrees) {s : Stratum} {params : List Byte}
    {j : StratumJob} (hj : parseNotify s params = some j) (id : U64) {worker en1 en2 : List Byte}
    (hworker : worker.length ≤ 159) (hen1 : en1.length ≤ stratumMaxEn1)
    (hen2 : en2.length ≤ stratumMaxEn2) (hplain : ∀ c ∈ worker ++ j.jobId, Json.Plain c)
    (nonce : U64) :
    let line := submitLine id worker j.jobId en2 j.ntime.toList (leBytes 8 nonce)
    let sub : Submission :=
      ⟨Utf8.decode worker, Utf8.decode j.jobId, en2, j.ntime.toList, leBytes 8 nonce⟩
    (∃ msg, Json.parse line = some msg ∧
        msg.get "method" = some (.str (ascii "mining.submit")) ∧
        ∃ p₁ p₂ p₃ p₄ p₅, msg.get "params" = some (.arr [.str p₁, .str p₂, .str p₃, .str p₄, .str p₅])) ∧
      readSubmit line = some sub ∧
      ∀ chain,
        (chain = .sia ∨ Stage3Fits j en1 en2 →
          ∃ ss3 ss4, buildMessages chain j en1 en2 = some (ss3, ss4)) ∧
        ∀ ss3 ss4, buildMessages chain j en1 en2 = some (ss3, ss4) →
          gradeHeader lib (fixtureJob j) en1 sub.extranonce2 sub.ntime sub.nonce =
              some (putNonce ss4 nonce) ∧
            ∀ target : List Byte, target.length = 32 →
              grade lib chain (beVal target) (fixtureJob j) en1 sub.extranonce2 sub.ntime sub.nonce =
                some (hashMeetsTarget (powCompare chain ss4 nonce) target) := by
  intro line sub
  have hlim := parseNotify_limits hj
  have hjob : j.jobId.length ≤ 63 := Nat.le_of_lt_succ hlim.jobId.1
  obtain ⟨hw, hjobId⟩ := List.forall_mem_append.mp hplain
  have hline : line = requestLine id "mining.submit" _ :=
    submitLine_whole id hworker hjob hen2 (by simp) (leBytes_length 8 nonce)
  have hparse : Json.parse line = some _ := hline ▸ parse_submit id hw hjobId
  refine ⟨⟨_, hparse, rfl, _, _, _, _, _, rfl⟩,
    readSubmit_submitLine id hworker hjob hen2 nonce hplain, fun chain => ⟨?_, ?_⟩⟩
  · have hcb1 : j.coinb1.length ≤ 512 := hlim.coinb1
    have hcb2 : j.coinb2.length ≤ 512 := hlim.coinb2
    have hen1' : en1.length ≤ 32 := hen1
    have hen2' : en2.length ≤ 32 := hen2
    refine buildMessages_some ?_
    rw [stratumMaxCb]
    omega
  · intro ss3 ss4 hbuild
    exact ⟨gradeHeader_eq hlib hbuild nonce, fun target htarget => grade_eq hlib hbuild nonce htarget⟩

def notifyOf (jobId : String) : List Byte :=
  ascii "[" ++ quoted (ascii jobId) ++ ascii ",\"" ++ List.replicate 64 (char '0') ++
    ascii "\",\"00\",\"\",[],\"\",\"d4c20319\",\"0000000000000000\",true]"

def branchNotify : List Byte :=
  ascii "[\"7\",\"" ++ List.replicate 64 (char '3') ++ ascii "\",\"0011\",\"22\",[\"" ++
    List.replicate 64 (char '5') ++ ascii "\"],\"\",\"d4c20319\",\"0000000012345678\",true]"

theorem submit_rebuilds_branch :
    ∃ j ss3 ss4, parseNotify (stratumInit (ascii "pool") 3333 (ascii "w") (ascii "x")) branchNotify = some j ∧
      j.branches.length = 1 ∧ buildMessages .sia j [1, 2] [0, 1] = some (ss3, ss4) ∧
      readSubmit (submitLine 4 (ascii "w") j.jobId [0, 1] j.ntime.toList (leBytes 8 5#64)) =
        some ⟨ascii "w", ascii "7", [0, 1], j.ntime.toList, leBytes 8 5#64⟩ ∧
      gradeHeader Hashlib.miner (fixtureJob j) [1, 2] [0, 1] j.ntime.toList (leBytes 8 5#64) =
        some (putNonce ss4 5) ∧
      ∀ target : List Byte, target.length = 32 →
        grade Hashlib.miner .sia (beVal target) (fixtureJob j) [1, 2] [0, 1] j.ntime.toList
          (leBytes 8 5#64) = some (hashMeetsTarget (powCompare .sia ss4 5) target) := by
  have hparse : (parseNotify (stratumInit (ascii "pool") 3333 (ascii "w") (ascii "x"))
      branchNotify).any (fun j => j.jobId = ascii "7" ∧ j.branches.length = 1) = true := by
    decide +kernel
  rw [Option.any_eq_true] at hparse
  obtain ⟨j, hj, hjob⟩ := hparse
  obtain ⟨hid, hbranch⟩ := of_decide_eq_true hjob
  obtain ⟨-, hread, hchain⟩ := submit_rebuilds Hashlib.miner_agrees hj 4
    (show (ascii "w").length ≤ 159 by decide)
    (show ([1, 2] : List Byte).length ≤ stratumMaxEn1 by decide)
    (show ([0, 1] : List Byte).length ≤ stratumMaxEn2 by decide) (hid ▸ by decide) 5
  obtain ⟨hsome, hgrade⟩ := hchain .sia
  obtain ⟨ss3, ss4, hbuild⟩ := hsome (.inl rfl)
  obtain ⟨hheader, htarget⟩ := hgrade ss3 ss4 hbuild
  have hnames : Utf8.decode (ascii "w") = ascii "w" ∧ Utf8.decode (ascii "7") = ascii "7" := by
    decide +kernel
  refine ⟨j, ss3, ss4, hj, hbranch, hbuild, hread.trans ?_, hheader, htarget⟩
  rw [hid, hnames.1, hnames.2]
  rfl

/-- A tab in the job id has no quote and no backslash, and no JSON reader takes the line. -/
theorem tab_in_job_id :
    ∃ j, parseNotify (stratumInit (ascii "pool") 3333 (ascii "w") (ascii "x")) (notifyOf "a\tb") = some j ∧
      (∀ c ∈ ascii "w" ++ j.jobId, c ≠ char '"' ∧ c ≠ char '\\') ∧
      Json.parse (submitLine 4 (ascii "w") j.jobId [0, 1] j.ntime.toList (leBytes 8 5#64)) = none := by
  have hall : (parseNotify (stratumInit (ascii "pool") 3333 (ascii "w") (ascii "x"))
      (notifyOf "a\tb")).any (fun j =>
        (ascii "w" ++ j.jobId).all (fun c => c ≠ char '"' ∧ c ≠ char '\\') &&
          (Json.parse (submitLine 4 (ascii "w") j.jobId [0, 1] j.ntime.toList
            (leBytes 8 5#64))).isNone) = true := by decide +kernel
  rw [Option.any_eq_true] at hall
  obtain ⟨j, hj, hboth⟩ := hall
  rw [Bool.and_eq_true, List.all_eq_true] at hboth
  exact ⟨j, hj, fun c hc => of_decide_eq_true (hboth.1 c hc), Option.isNone_iff_eq_none.mp hboth.2⟩

end OspreyBlake2b.Zynq
