import OspreyBlake2b.Lib.DnsWire
import OspreyBlake2b.Miner.Dns

namespace OspreyBlake2b.Miner

open OspreyBlake2b.Lib OspreyBlake2b.Lib.Dns

section Bounds

variable {r : List Byte}

@[simp] theorem ok_bind (a : A) (f : A → Except DnsStop B) : (Except.ok a >>= f) = f a := rfl

theorem byteAt_ok {i : Nat} (h : i < r.length) : byteAt r i = .ok r[i] := by
  rw [byteAt, List.getElem?_eq_getElem h]

theorem u16At_ok {i : Nat} (h : i + 1 < r.length) : ∃ v, u16At r i = .ok v := by
  rw [u16At, byteAt_ok (Nat.lt_of_succ_lt h), byteAt_ok h]
  exact ⟨_, rfl⟩

theorem skipName_bounds (off : Nat) :
    ∃ res, skipName r off = .ok res ∧ ∀ off', res = some off' → off' ≤ r.length := by
  fun_induction skipName r off with
  | case1 off hoff e he =>
    rw [byteAt_ok hoff] at he
    cases he
  | case2 off hoff he => exact ⟨_, rfl, fun off' h => by cases h; exact hoff⟩
  | case3 off hoff l he hne hptr =>
    refine ⟨_, rfl, fun off' h => ?_⟩
    split at h
    · cases h
      assumption
    · cases h
  | case4 off hoff l he hne hptr hlong => exact ⟨none, rfl, fun off' h => by cases h⟩
  | case5 off hoff l he hne hptr hlong ih => exact ih
  | case6 off hoff => exact ⟨none, rfl, fun off' h => by cases h⟩

theorem skipQuestions_some {off off' : Nat} (h : skipName r off = .ok (some off')) (qd : Nat) :
    skipQuestions r (qd + 1) off =
      if off' + 4 > r.length then .error (.failed .malformedQuestion)
      else skipQuestions r qd (off' + 4) := by
  rw [skipQuestions, h]
  rfl

theorem skipQuestions_bounds (qd off : Nat) (hoff : off ≤ r.length) :
    (∃ e, skipQuestions r qd off = .error (.failed e)) ∨
      ∃ off' ≤ r.length, skipQuestions r qd off = .ok off' := by
  induction qd generalizing off with
  | zero => exact .inr ⟨off, hoff, rfl⟩
  | succ qd ih =>
    obtain ⟨res, hskip, -⟩ := skipName_bounds (r := r) off
    cases res with
    | none =>
      rw [skipQuestions, hskip]
      exact .inl ⟨_, rfl⟩
    | some off' =>
      rw [skipQuestions_some hskip]
      split
      · exact .inl ⟨_, rfl⟩
      · rename_i hroom
        exact ih (off' + 4) (not_lt.mp hroom)

theorem mapM_byteAt {off : Nat} (n : Nat) (h : off + n ≤ r.length) :
    ((List.range n).mapM fun k => byteAt r (off + k)) = .ok ((r.drop off).take n) := by
  induction n with
  | zero => rfl
  | succ n ih =>
    have hget : (r.drop off)[n]? = some r[off + n] := by
      rw [List.getElem?_drop, List.getElem?_eq_getElem]
    rw [List.range_succ, List.mapM_append, ih (by omega), List.take_add_one, hget]
    simp [byteAt_ok (r := r) (i := off + n) (by omega)]

theorem walkAnswers_some {off off' type rdlen : Nat} (h : skipName r off = .ok (some off'))
    (hroom : off' + 10 ≤ r.length) (htype : u16At r off' = .ok type)
    (hrdlen : u16At r (off' + 8) = .ok rdlen) (an : Nat) :
    walkAnswers r (an + 1) off =
      if off' + 10 + rdlen > r.length then .error (.failed .rdataOverruns)
      else if type = typeA ∧ rdlen = 4 then .ok ((r.drop (off' + 10)).take 4)
      else walkAnswers r an (off' + 10 + rdlen) := by
  rw [walkAnswers, h]
  change (if off' + 10 > r.length then _ else _) = _
  rw [if_neg (not_lt.mpr hroom)]
  simp only [htype, hrdlen]
  change (if _ then _ else _) = _
  split
  · rfl
  · rename_i hrdata
    split
    · rename_i haddress
      exact mapM_byteAt 4 (haddress.2 ▸ not_lt.mp hrdata)
    · rfl

theorem walkAnswers_bounds (an off : Nat) (hoff : off ≤ r.length) :
    (∃ e, walkAnswers r an off = .error (.failed e)) ∨
      ∃ off', off' + 4 ≤ r.length ∧ walkAnswers r an off = .ok ((r.drop off').take 4) := by
  induction an generalizing off with
  | zero => exact .inl ⟨_, rfl⟩
  | succ an ih =>
    obtain ⟨res, hskip, -⟩ := skipName_bounds (r := r) off
    cases res with
    | none =>
      rw [walkAnswers, hskip]
      exact .inl ⟨_, rfl⟩
    | some off' =>
      by_cases hroom : off' + 10 ≤ r.length
      · obtain ⟨type, htype⟩ := u16At_ok (r := r) (i := off') (by omega)
        obtain ⟨rdlen, hrdlen⟩ := u16At_ok (r := r) (i := off' + 8) (by omega)
        rw [walkAnswers_some hskip hroom htype hrdlen]
        split
        · exact .inl ⟨_, rfl⟩
        · rename_i hrdata
          split
          · rename_i ha
            exact .inr ⟨off' + 10, by omega, rfl⟩
          · exact ih _ (not_lt.mp hrdata)
      · rw [walkAnswers, hskip]
        exact .inl ⟨.malformedAnswer, if_pos (not_le.mp hroom)⟩

theorem walkReply_bounds (r : List Byte) (id : BitVec 16) :
    (∃ e, walkReply r id = .error (.failed e)) ∨
      ∃ off, off + 4 ≤ r.length ∧ walkReply r id = .ok ((r.drop off).take 4) := by
  rw [walkReply]
  split
  · exact .inl ⟨_, rfl⟩
  rename_i hlen
  obtain ⟨got, hgot⟩ := u16At_ok (r := r) (i := 0) (by omega)
  obtain ⟨qd, hqd⟩ := u16At_ok (r := r) (i := 4) (by omega)
  obtain ⟨an, han⟩ := u16At_ok (r := r) (i := 6) (by omega)
  have hflags := byteAt_ok (r := r) (i := 3) (by omega)
  simp only [hgot, hqd, han, hflags, ok_bind]
  split
  · exact .inl ⟨_, rfl⟩
  split
  · exact .inl ⟨_, rfl⟩
  split
  · exact .inl ⟨_, rfl⟩
  obtain ⟨e, hquestions⟩ | ⟨off, hoff, hquestions⟩ := skipQuestions_bounds qd 12 (not_lt.mp hlen)
  · rw [hquestions]
    exact .inl ⟨e, rfl⟩
  · rw [hquestions, ok_bind]
    exact walkAnswers_bounds an off hoff

end Bounds

section Replies

variable {r p post : List Byte}

theorem byteAt_append {b : Byte} (h : r = p ++ b :: post) : byteAt r p.length = .ok b := by
  rw [byteAt, h, List.getElem?_append_right (le_refl _), Nat.sub_self]
  rfl

theorem u16At_append {v : BitVec 16} (h : r = p ++ (be16 v ++ post)) :
    u16At r p.length = .ok v.toNat := by
  have hlo : r = (p ++ [(v >>> 8).setWidth 8]) ++ v.setWidth 8 :: post := by simp [h, be16]
  have hlo := byteAt_append hlo
  rw [List.length_append, List.length_singleton] at hlo
  rw [u16At, byteAt_append h, hlo, ok_bind, ok_bind, be16_toNat]
  rfl

theorem skipName_label {l : Label} (h : r = p ++ (l.wire ++ post)) :
    skipName r p.length = skipName r (p ++ l.wire).length := by
  have hroom : p.length < r.length := by
    rw [h, Label.wire]
    simp
  have hlen : (BitVec.ofNat 8 l.bytes.length).toNat = l.bytes.length := by
    have hle := l.le
    rw [BitVec.toNat_ofNat]
    omega
  have hpos := l.pos
  have hle := l.le
  generalize hb : BitVec.ofNat 8 l.bytes.length = b at hlen
  have hshort : ∀ b : Byte, 0 < b.toNat → b.toNat ≤ 63 → b ≠ 0 ∧ b &&& 0xc0#8 ≠ 0xc0#8 := by decide
  obtain ⟨hne, hptr⟩ := hshort b (by omega) (by omega)
  have hread : byteAt r p.length = .ok b := byteAt_append (by rw [h, Label.wire, hb]; rfl)
  rw [skipName, if_pos hroom, hread]
  simp only [if_neg hne, if_neg hptr]
  rw [if_neg (by omega), List.length_append, Label.wire, List.length_cons, hlen, Nat.add_comm 1]

theorem skipName_labels {ls : List Label} (h : r = p ++ (labelsWire ls ++ post)) :
    skipName r p.length = skipName r (p ++ labelsWire ls).length := by
  induction ls generalizing p with
  | nil => rw [labelsWire, List.flatMap_nil, List.append_nil]
  | cons l ls ih =>
    rw [labelsWire, List.flatMap_cons, ← labelsWire] at h ⊢
    rw [List.append_assoc] at h
    have hrest : r = p ++ l.wire ++ (labelsWire ls ++ post) := by rw [h, List.append_assoc]
    rw [skipName_label h, ih hrest, List.append_assoc]

theorem skipName_wire {n : Name} (h : r = p ++ (n.wire ++ post)) :
    skipName r p.length = .ok (some (p ++ n.wire).length) := by
  obtain ⟨ls, tail⟩ := n
  rw [Name.wire] at h ⊢
  rw [List.append_assoc] at h
  have htail : r = p ++ labelsWire ls ++ (tail.wire ++ post) := by rw [h, List.append_assoc]
  rw [skipName_labels h]
  have hroom : (p ++ labelsWire ls).length < r.length := by
    rw [h]
    cases tail <;> simp [NameEnd.wire]
  rw [skipName, if_pos hroom]
  cases tail with
  | root =>
    rw [byteAt_append htail]
    simp [NameEnd.wire, Nat.add_assoc]
  | pointer hi lo mark =>
    have hne : hi ≠ 0 := by
      rintro rfl
      exact absurd mark (by decide)
    rw [byteAt_append htail]
    simp only [if_neg hne, if_pos mark]
    rw [if_pos (by simp [h, NameEnd.wire]; omega)]
    simp [NameEnd.wire, Nat.add_assoc]

theorem skipQuestions_wire {qs : List Question}
    (h : r = p ++ (qs.flatMap Question.wire ++ post)) :
    skipQuestions r qs.length p.length =
      .ok (p ++ qs.flatMap Question.wire).length := by
  induction qs generalizing p with
  | nil =>
    rw [List.flatMap_nil, List.append_nil]
    rfl
  | cons q qs ih =>
    rw [List.flatMap_cons] at h ⊢
    have hfront : r = p ++ (q.name.wire ++
        (be16 q.type ++ be16 q.cls ++ (qs.flatMap Question.wire ++ post))) := by
      simp [h, Question.wire]
    have hname := skipName_wire hfront
    have hrest : r = p ++ q.wire ++ (qs.flatMap Question.wire ++ post) := by simp [h]
    have hend : (p ++ q.name.wire).length + 4 = (p ++ q.wire).length := by
      simp [Question.wire, be16]
      omega
    have hroom : ¬ (p ++ q.wire).length > r.length := by
      rw [h]
      simp
    rw [List.length_cons, skipQuestions_some hname, hend, if_neg hroom,
      ih hrest, List.append_assoc]

def isAddress (a : Record) : Bool := a.type.toNat = typeA ∧ a.rdata.length = 4

structure StandsAt (r : List Byte) (off : Nat) (a : Record) (rest : List Byte) : Prop where
  room : off + 10 + a.rdata.length ≤ r.length
  type : u16At r off = .ok a.type.toNat
  rdlen : u16At r (off + 8) = .ok a.rdata.length
  data : r.drop (off + 10) = a.rdata ++ rest

theorem standsAt_wire {a : Record} (h : r = p ++ (a.wire ++ post)) :
    skipName r p.length = .ok (some (p ++ a.name.wire).length) ∧
      StandsAt r (p ++ a.name.wire).length a post ∧
      (p ++ a.name.wire).length + 10 + a.rdata.length = (p ++ a.wire).length := by
  have hfits : (BitVec.ofNat 16 a.rdata.length).toNat = a.rdata.length := by
    rw [BitVec.toNat_ofNat, Nat.mod_eq_of_lt a.fits]
  -- behind the name come eight bytes, the length of the data, and the data
  generalize hfixed : be16 a.type ++ (be16 a.cls ++ (leBytes 4 a.ttl).reverse) = fixed
  have hlen : fixed.length = 8 := by simp [← hfixed, be16]
  have hwire : r = p ++ a.name.wire ++
      (fixed ++ (be16 (BitVec.ofNat 16 a.rdata.length) ++ (a.rdata ++ post))) := by
    simp [h, Record.wire, ← hfixed]
  have hbehind : (p ++ a.name.wire).length + 10 =
      (p ++ a.name.wire ++ (fixed ++ be16 (BitVec.ofNat 16 a.rdata.length))).length := by
    simp [hlen, be16]
    omega
  refine ⟨?_, ⟨?_, ?_, ?_, ?_⟩, ?_⟩
  · rw [Record.wire, List.append_assoc] at h
    exact skipName_wire h
  · rw [hbehind, hwire]
    simp
    omega
  · rw [← hfixed] at hwire
    exact u16At_append (by simpa only [List.append_assoc] using hwire)
  · rw [← hlen, ← List.length_append, ← hfits]
    exact u16At_append (by simpa only [List.append_assoc] using hwire)
  · rw [hbehind, hwire]
    simp
  · rw [hbehind]
    simp [Record.wire, ← hfixed]
    omega

theorem walkAnswers_wire {as : List Record}
    (h : r = p ++ (as.flatMap Record.wire ++ post)) :
    walkAnswers r as.length p.length =
      match as.find? isAddress with
      | some a => .ok a.rdata
      | none => .error (.failed .noARecord) := by
  induction as generalizing p with
  | nil => rfl
  | cons a as ih =>
    rw [List.flatMap_cons, List.append_assoc] at h
    have hrest : r = p ++ a.wire ++ (as.flatMap Record.wire ++ post) := by
      rw [h, List.append_assoc]
    obtain ⟨hname, hstands, hend⟩ := standsAt_wire h
    have hroom := hstands.room
    rw [List.length_cons, walkAnswers_some hname (by omega) hstands.type hstands.rdlen,
      if_neg (not_lt.mpr hroom), hstands.data, hend]
    cases haddress : isAddress a with
    | true =>
      have haddr := of_decide_eq_true haddress
      rw [if_pos haddr, List.find?_cons_of_pos haddress, ← haddr.2, List.take_left' rfl]
    | false =>
      rw [if_neg (of_decide_eq_false haddress), List.find?_cons_of_neg (by simp [haddress])]
      exact ih hrest

theorem header_reads (m : Message) :
    u16At m.wire 0 = .ok m.id.toNat ∧ byteAt m.wire 3 = .ok (m.flags.setWidth 8) ∧
      u16At m.wire 4 = .ok m.questions.length ∧ u16At m.wire 6 = .ok m.answers.length := by
  have hcount {n : Nat} (h : n < 2 ^ 16) : (BitVec.ofNat 16 n).toNat = n := by
    rw [BitVec.toNat_ofNat, Nat.mod_eq_of_lt h]
  obtain ⟨tail, hwire⟩ : ∃ tail, m.wire = be16 m.id ++ (be16 m.flags ++
      (be16 (BitVec.ofNat 16 m.questions.length) ++
        (be16 (BitVec.ofNat 16 m.answers.length) ++ tail))) := by
    rw [Message.wire, Message.header]
    simp only [List.append_assoc]
    exact ⟨_, rfl⟩
  refine ⟨u16At_append (p := []) hwire, ?_, ?_, ?_⟩
  · exact byteAt_append (p := be16 m.id ++ [(m.flags >>> 8).setWidth 8]) (by rw [hwire]; rfl)
  · rw [← hcount m.questions_lt]
    exact u16At_append (p := be16 m.id ++ be16 m.flags) (by rw [hwire, List.append_assoc])
  · rw [← hcount m.answers_lt]
    exact u16At_append (p := be16 m.id ++ be16 m.flags ++
      be16 (BitVec.ofNat 16 m.questions.length)) (by simpa only [List.append_assoc] using hwire)

theorem walkReply_wire (m : Message) (hrcode : m.rcode = 0) :
    (∀ a, m.answers.find? isAddress = some a → walkReply m.wire m.id = .ok a.rdata) ∧
      (m.answers.find? isAddress = none → ∃ e, walkReply m.wire m.id = .error (.failed e)) := by
  obtain ⟨hid, hflags, hqd, han⟩ := header_reads m
  have hheader : m.header.length = 12 := by simp [Message.header, be16]
  have hlen : ¬ m.wire.length < 12 := by
    rw [Message.wire, List.length_append, hheader]
    omega
  have hok : m.flags.setWidth 8 &&& 0x0f#8 = 0 := by
    have h := congrArg (BitVec.setWidth 8) hrcode
    rw [Message.rcode, BitVec.setWidth_and] at h
    exact h
  have hquestions : skipQuestions m.wire m.questions.length 12 =
      .ok (m.header ++ m.questions.flatMap Question.wire).length := by
    rw [← hheader]
    exact skipQuestions_wire rfl
  have hbehind : m.wire = m.header ++ m.questions.flatMap Question.wire ++
      (m.answers.flatMap Record.wire ++ m.rest) := by rw [Message.wire, List.append_assoc]
  rw [walkReply, if_neg hlen]
  simp only [hid, hflags, hqd, han, ok_bind, ne_eq, not_true_eq_false, hok, if_false]
  rw [hquestions, ok_bind, walkAnswers_wire hbehind]
  constructor
  · intro a ha
    rw [ha, if_neg]
    intro hzero
    rw [List.length_eq_zero_iff.mp (Nat.le_zero.mp hzero)] at ha
    cases ha
  · intro hnone
    rw [hnone]
    split
    · exact ⟨_, rfl⟩
    · exact ⟨_, rfl⟩

end Replies

section Questions

def hostText : List Label → List Byte
  | [] => []
  | [l] => l.bytes
  | l :: ls => l.bytes ++ char '.' :: hostText ls

theorem takeWhile_label {l : Label} (hdot : char '.' ∉ l.bytes) {rest : List Byte}
    (hrest : rest = [] ∨ ∃ p, rest = char '.' :: p) :
    (l.bytes ++ rest).takeWhile (· ≠ char '.') = l.bytes ∧
      (l.bytes ++ rest).dropWhile (· ≠ char '.') = rest := by
  have hall : ∀ c ∈ l.bytes, decide (c ≠ char '.') = true :=
    fun c hc => decide_eq_true fun heq => hdot (heq ▸ hc)
  rw [List.takeWhile_append_of_pos hall, List.dropWhile_append_of_pos hall]
  obtain rfl | ⟨p, rfl⟩ := hrest <;> simp

theorem encodeLabels_label {l : Label} (hdot : char '.' ∉ l.bytes) {rest out : List Byte}
    (hrest : rest = [] ∨ ∃ p, rest = char '.' :: p) {buflen : Nat}
    (hfit : (out ++ l.wire).length + 1 ≤ buflen) :
    encodeLabels buflen (l.bytes ++ rest) out =
      if rest = [] then some (out ++ l.wire) else encodeLabels buflen rest.tail (out ++ l.wire) := by
  have hpos := l.pos
  have hle := l.le
  have hne : l.bytes ++ rest ≠ [] := by
    intro h
    rw [(List.append_eq_nil_iff.mp h).1] at hpos
    exact Nat.lt_irrefl 0 hpos
  obtain ⟨htake, hdrop⟩ := takeWhile_label hdot hrest
  rw [Label.wire, List.length_append, List.length_cons] at hfit
  rw [encodeLabels, if_neg hne]
  simp only [htake, hdrop]
  rw [if_neg (by omega), if_neg (by omega), Label.wire]

theorem encodeLabels_host {ls : List Label} (hdots : ∀ l ∈ ls, char '.' ∉ l.bytes)
    {out : List Byte} {buflen : Nat} (hfit : (out ++ labelsWire ls).length + 1 ≤ buflen) :
    encodeLabels buflen (hostText ls) out = some (out ++ labelsWire ls) := by
  fun_induction hostText ls generalizing out with
  | case1 =>
    rw [encodeLabels, if_pos rfl, labelsWire, List.flatMap_nil, List.append_nil]
  | case2 l =>
    have hlabel : labelsWire [l] = l.wire := by simp [labelsWire]
    rw [hlabel] at hfit ⊢
    have h := encodeLabels_label (hdots l List.mem_cons_self) (.inl rfl) hfit
    rw [List.append_nil] at h
    rw [h, if_pos rfl]
  | case3 l ls hls ih =>
    have hlabels : labelsWire (l :: ls) = l.wire ++ labelsWire ls := by simp [labelsWire]
    rw [hlabels, ← List.append_assoc] at hfit ⊢
    rw [encodeLabels_label (hdots l List.mem_cons_self) (.inr ⟨_, rfl⟩)
        (by rw [List.length_append] at hfit; omega), if_neg (List.cons_ne_nil _ _)]
    exact ih (fun k hk => hdots k (List.mem_cons_of_mem l hk)) hfit

theorem encodeQname_host {ls : List Label} (hdots : ∀ l ∈ ls, char '.' ∉ l.bytes) {buflen : Nat}
    (hfit : (Name.wire ⟨ls, .root⟩).length ≤ buflen) :
    encodeQname (hostText ls) buflen = some (Name.wire ⟨ls, .root⟩) := by
  have hroom : (([] : List Byte) ++ labelsWire ls).length + 1 ≤ buflen := by
    simpa [Name.wire, NameEnd.wire] using hfit
  rw [encodeQname, encodeLabels_host hdots hroom, Option.bind_eq_bind, Option.bind_some,
    if_neg (by omega)]
  rfl

end Questions

/-- Every packet and every id; every reply without an error; every hostname that fits
the buffer, wherever its encoding stands. -/
theorem dns_replies (r : List Byte) (id : BitVec 16) (m : Message) (ls : List Label) (buflen : Nat) :
    ((∃ e, walkReply r id = .error (.failed e)) ∨
        ∃ off, off + 4 ≤ r.length ∧ walkReply r id = .ok ((r.drop off).take 4)) ∧
      (m.rcode = 0 →
        (∀ a, m.answers.find? isAddress = some a → walkReply m.wire m.id = .ok a.rdata) ∧
          (m.answers.find? isAddress = none → ∃ e, walkReply m.wire m.id = .error (.failed e))) ∧
      ((∀ l ∈ ls, char '.' ∉ l.bytes) → (Name.wire ⟨ls, .root⟩).length ≤ buflen →
        ∃ out, encodeQname (hostText ls) buflen = some out ∧
          ∀ pre post, skipName (pre ++ (out ++ post)) pre.length =
            .ok (some (pre ++ out).length)) := by
  refine ⟨walkReply_bounds r id, walkReply_wire m, fun hdots hfit => ?_⟩
  exact ⟨_, encodeQname_host hdots hfit, fun _ _ => skipName_wire rfl⟩

def demoLabels : List Label :=
  [⟨ascii "pool", by decide, by decide⟩, ⟨ascii "io", by decide, by decide⟩]

def demoAddress : Record :=
  ⟨⟨[⟨ascii "host", by decide, by decide⟩], .root⟩, 1#16, 1#16, 60#32, [10#8, 0#8, 0#8, 7#8],
    by decide⟩

def demoReply : Message where
  id := 0x1234#16
  flags := 0x8180#16
  questions := [⟨⟨demoLabels, .root⟩, 1#16, 1#16⟩]
  answers :=
    [⟨⟨[], .pointer 0xc0#8 0x0c#8 rfl⟩, 5#16, 1#16, 60#32, ascii "\x04host\x00", by decide⟩,
      demoAddress]
  authorities := 0
  additional := 0
  rest := []
  questions_lt := by decide
  answers_lt := by decide

theorem dns_replies_alias :
    walkReply demoReply.wire demoReply.id = .ok [10#8, 0#8, 0#8, 7#8] ∧
      ∃ out, encodeQname (ascii "pool.io") 1484 = some out ∧
        skipName out 0 = .ok (some out.length) := by
  obtain ⟨-, hreply, hhost⟩ := dns_replies [] 0 demoReply demoLabels 1484
  obtain ⟨out, hout, hskip⟩ := hhost (by decide) (by decide)
  have h := hskip [] []
  rw [List.append_nil] at h
  exact ⟨(hreply (by decide)).1 demoAddress rfl, out, hout, h⟩

end OspreyBlake2b.Miner
