import OspreyBlake2b.Lib.JsonText

/-! A strict JSON reader over bytes.  A number is kept as its text; a string holds the
bytes it stands for, an escaped character in UTF-8. -/

namespace OspreyBlake2b.Lib.JsonText

inductive Json where
  | null
  | bool (b : Bool)
  | num (text : List Byte)
  | str (text : List Byte)
  | arr (elements : List Json)
  | obj (members : List (List Byte × Json))

namespace Json

def utf8 (n : Nat) : List Byte :=
  if n < 0x80 then [BitVec.ofNat 8 n]
  else if n < 0x800 then [BitVec.ofNat 8 (0xc0 + n / 64), BitVec.ofNat 8 (0x80 + n % 64)]
  else if n < 0x10000 then
    [BitVec.ofNat 8 (0xe0 + n / 4096), BitVec.ofNat 8 (0x80 + n / 64 % 64),
      BitVec.ofNat 8 (0x80 + n % 64)]
  else
    [BitVec.ofNat 8 (0xf0 + n / 262144), BitVec.ofNat 8 (0x80 + n / 4096 % 64),
      BitVec.ofNat 8 (0x80 + n / 64 % 64), BitVec.ofNat 8 (0x80 + n % 64)]

def hex4 (ds : List Byte) : Option Nat :=
  if ds.all isHexDigit then some (digitsVal 16 ds) else none

def shortEscape (e : Byte) : Option Byte :=
  if e = char 'b' then some 8
  else if e = char 'f' then some 12
  else if e = char 'n' then some 10
  else if e = char 'r' then some 13
  else if e = char 't' then some 9
  else if (ascii "\"\\/").contains e then some e
  else none

/-- A low surrogate escape at the front, which completes the high one `hi`. -/
def lowSurrogate (hi : Nat) : List Byte → Option Nat
  | c :: e :: d₁ :: d₂ :: d₃ :: d₄ :: _ =>
    if 0xd800 ≤ hi ∧ hi < 0xdc00 ∧ c = char '\\' ∧ e = char 'u' then
      (hex4 [d₁, d₂, d₃, d₄]).bind fun lo =>
        if 0xdc00 ≤ lo ∧ lo < 0xe000 then some (0x10000 + (hi - 0xd800) * 1024 + (lo - 0xdc00))
        else none
    else none
  | _ => none

def parseStr : Nat → List Byte → Option (List Byte × List Byte)
  | 0, _ => none
  | _, [] => none
  | fuel + 1, c :: t =>
    if c = char '"' then some ([], t)
    else if c = char '\\' then
      if deref t = char 'u' then
        (hex4 (t.drop 1 |>.take 4)).bind fun u =>
          if t.length < 5 then none
          else
            match lowSurrogate u (t.drop 5) with
            | some n => (parseStr fuel (t.drop 11)).map fun (s, r) => (utf8 n ++ s, r)
            | none => (parseStr fuel (t.drop 5)).map fun (s, r) => (utf8 u ++ s, r)
      else
        (shortEscape (deref t)).bind fun b =>
          (parseStr fuel (t.drop 1)).map fun (s, r) => (b :: s, r)
    else if c < 0x20#8 then none
    else (parseStr fuel t).map fun (s, r) => (c :: s, r)

def parseNum (p : List Byte) : Option (List Byte × List Byte) :=
  let sign := if deref p = char '-' then p.take 1 else []
  let p := p.drop sign.length
  let int := p.takeWhile isDigit
  let p := p.dropWhile isDigit
  let frac := if deref p = char '.' then p.take 1 ++ (p.drop 1).takeWhile isDigit else []
  let p := p.drop frac.length
  let exp :=
    if deref p = char 'e' ∨ deref p = char 'E' then
      let k := if deref (p.drop 1) = char '+' ∨ deref (p.drop 1) = char '-' then 2 else 1
      p.take k ++ (p.drop k).takeWhile isDigit
    else []
  if isInt int && isFrac frac && isExp exp then some (sign ++ int ++ frac ++ exp, p.drop exp.length)
  else none

def skipWhite (p : List Byte) : List Byte := p.dropWhile isWhite

mutual

def parseValue : Nat → List Byte → Option (Json × List Byte)
  | 0, _ => none
  | fuel + 1, p =>
    let p := skipWhite p
    if deref p = char '"' then (parseStr p.length (p.drop 1)).map fun (s, r) => (str s, r)
    else if deref p = char '[' then
      let q := skipWhite (p.drop 1)
      if deref q = char ']' then some (arr [], q.drop 1)
      else (parseElements fuel q).map fun (es, r) => (arr es, r)
    else if deref p = char '{' then
      let q := skipWhite (p.drop 1)
      if deref q = char '}' then some (obj [], q.drop 1)
      else (parseMembers fuel q).map fun (ms, r) => (obj ms, r)
    else if starts (ascii "null") p then some (null, p.drop 4)
    else if starts (ascii "true") p then some (bool true, p.drop 4)
    else if starts (ascii "false") p then some (bool false, p.drop 5)
    else (parseNum p).map fun (n, r) => (num n, r)

def parseElements : Nat → List Byte → Option (List Json × List Byte)
  | 0, _ => none
  | fuel + 1, p =>
    (parseValue fuel p).bind fun (v, r) =>
      let r := skipWhite r
      if deref r = char ',' then
        (parseElements fuel (r.drop 1)).map fun (vs, r) => (v :: vs, r)
      else if deref r = char ']' then some ([v], r.drop 1)
      else none

def parseMembers : Nat → List Byte → Option (List (List Byte × Json) × List Byte)
  | 0, _ => none
  | fuel + 1, p =>
    let p := skipWhite p
    if deref p = char '"' then
      (parseStr p.length (p.drop 1)).bind fun (key, r) =>
        let r := skipWhite r
        if deref r = char ':' then
          (parseValue fuel (r.drop 1)).bind fun (v, r) =>
            let r := skipWhite r
            if deref r = char ',' then
              (parseMembers fuel (r.drop 1)).map fun (ms, r) => ((key, v) :: ms, r)
            else if deref r = char '}' then some ([(key, v)], r.drop 1)
            else none
        else none
    else none

end

/-- Every call of the reader takes at least one byte. -/
def parse (text : List Byte) : Option Json :=
  match parseValue (text.length + 1) text with
  | some (v, rest) => if skipWhite rest = [] then some v else none
  | none => none

/-- The last of several members with one name counts. -/
def get (v : Json) (key : String) : Option Json :=
  match v with
  | obj ms => (ms.reverse.find? fun m => m.1 = ascii key).map Prod.snd
  | _ => none

def Plain (c : Byte) : Prop := 0x20#8 ≤ c ∧ c ≠ char '"' ∧ c ≠ char '\\'

instance : DecidablePred Plain := fun c =>
  inferInstanceAs (Decidable (0x20#8 ≤ c ∧ c ≠ char '"' ∧ c ≠ char '\\'))

def quote (body : List Byte) : List Byte := char '"' :: (body ++ [char '"'])

theorem skipWhite_cons {c : Byte} (h : isWhite c = false) (p : List Byte) :
    skipWhite (c :: p) = c :: p :=
  List.dropWhile_cons_of_neg (by simp [h])

theorem deref_cons (c : Byte) (p : List Byte) : deref (c :: p) = c := rfl

section Plain

variable {body r : List Byte}

theorem parseStr_plain (h : ∀ c ∈ body, Plain c) {fuel : Nat} (hf : body.length < fuel) :
    parseStr fuel (body ++ char '"' :: r) = some (body, r) := by
  induction body generalizing fuel with
  | nil =>
    obtain ⟨fuel, rfl⟩ := Nat.exists_eq_succ_of_ne_zero (Nat.ne_of_gt hf)
    rfl
  | cons c body ih =>
    obtain ⟨fuel, rfl⟩ := Nat.exists_eq_succ_of_ne_zero (Nat.ne_zero_of_lt hf)
    obtain ⟨hlow, hquote, hescape⟩ := h c List.mem_cons_self
    rw [List.length_cons] at hf
    rw [List.cons_append, parseStr, if_neg hquote, if_neg hescape, if_neg (BitVec.not_lt.mpr hlow),
      ih (fun c hc => h c (List.mem_cons_of_mem _ hc)) (Nat.lt_of_succ_lt_succ hf)]
    rfl

theorem parseValue_quote (n : Nat) (p : List Byte) :
    parseValue (n + 1) (char '"' :: p) =
      (parseStr (p.length + 1) p).map fun (s, r) => (str s, r) := by
  rw [parseValue]
  dsimp only
  rw [skipWhite_cons (by decide)]
  rfl

theorem parseValue_str (h : ∀ c ∈ body, Plain c) (n : Nat) :
    parseValue (n + 1) (quote body ++ r) = some (str body, r) := by
  rw [quote, List.cons_append, List.append_assoc, List.singleton_append, parseValue_quote,
    parseStr_plain h (by simp)]
  rfl

def EndsInt (c : Byte) : Prop :=
  isDigit c = false ∧ c ≠ char '.' ∧ c ≠ char 'e' ∧ c ≠ char 'E'

theorem endsInt_comma : EndsInt (char ',') := by
  rw [EndsInt]
  decide

theorem parseNum_int {ds : List Byte} (h : isInt ds = true) {c : Byte} (hc : EndsInt c) :
    parseNum (ds ++ c :: r) = some (ds, c :: r) := by
  obtain ⟨hdigit, hdot, he, hE⟩ := hc
  have hds := of_decide_eq_true (of_decide_eq_true h).1
  have hall : ∀ c ∈ ds, isDigit c = true := List.all_eq_true.mp hds.2
  have hfirst := isInt_head (c :: r) h
  have hsign : deref (ds ++ c :: r) ≠ char '-' := by
    intro hminus
    rw [hminus] at hfirst
    exact absurd hfirst (by decide)
  have htake : (ds ++ c :: r).takeWhile isDigit = ds := by
    rw [List.takeWhile_append_of_pos hall, List.takeWhile_cons_of_neg (by simp [hdigit]),
      List.append_nil]
  have hdrop : (ds ++ c :: r).dropWhile isDigit = c :: r := by
    rw [List.dropWhile_append_of_pos hall, List.dropWhile_cons_of_neg (by simp [hdigit])]
  rw [parseNum]
  simp only [if_neg hsign, List.length_nil, List.drop_zero, htake, hdrop, deref_cons, if_neg hdot,
    he, hE, or_self, if_false, h, List.append_nil, List.nil_append]
  rfl

theorem parseValue_int {ds : List Byte} (h : isInt ds = true) {e : Byte} (he : EndsInt e) (n : Nat) :
    parseValue (n + 1) (ds ++ e :: r) = some (num ds, e :: r) := by
  have hnum : parseNum (ds ++ e :: r) = _ := parseNum_int h he
  have hfirst := isInt_head (e :: r) h
  obtain ⟨c, t, ht⟩ := List.exists_cons_of_ne_nil (show ds ++ e :: r ≠ [] by simp)
  rw [ht] at hnum hfirst ⊢
  have hc : ∀ c : Byte, isDigit c = true → isWhite c = false ∧ c ≠ char '"' ∧ c ≠ char '[' ∧
      c ≠ char '{' ∧ c ≠ char 'n' ∧ c ≠ char 't' ∧ c ≠ char 'f' := by decide +kernel
  obtain ⟨hwhite, hquote, hbracket, hbrace, hn, ht, hf⟩ := hc c hfirst
  have hword (w : List Byte) {d : Byte} (hd : c ≠ d) : ¬ starts (d :: w) (c :: t) = true := by
    simp [starts, hd]
  have hnull : ¬ starts (ascii "null") (c :: t) = true := hword (ascii "ull") hn
  have htrue : ¬ starts (ascii "true") (c :: t) = true := hword (ascii "rue") ht
  have hfalse : ¬ starts (ascii "false") (c :: t) = true := hword (ascii "alse") hf
  rw [parseValue]
  dsimp only
  rw [skipWhite_cons hwhite, deref_cons, if_neg hquote, if_neg hbracket, if_neg hbrace, if_neg hnull,
    if_neg htrue, if_neg hfalse, hnum]
  rfl

end Plain

section Steps

variable {n : Nat} {p r r' : List Byte} {v : Json}

theorem parseValue_arr {es : List Json} (hp : skipWhite p = p) (hne : deref p ≠ char ']')
    (h : parseElements n p = some (es, r)) :
    parseValue (n + 1) (char '[' :: p) = some (arr es, r) := by
  rw [parseValue]
  dsimp only
  rw [skipWhite_cons (by decide), List.drop_one, List.tail_cons, hp, h, if_neg hne]
  rfl

theorem parseValue_obj {ms : List (List Byte × Json)} (hp : skipWhite p = p)
    (hne : deref p ≠ char '}') (h : parseMembers n p = some (ms, r)) :
    parseValue (n + 1) (char '{' :: p) = some (obj ms, r) := by
  rw [parseValue]
  dsimp only
  rw [skipWhite_cons (by decide), List.drop_one, List.tail_cons, hp, h, if_neg hne]
  rfl

theorem parseElements_more {vs : List Json} (hv : parseValue n p = some (v, char ',' :: r))
    (hrest : parseElements n r = some (vs, r')) :
    parseElements (n + 1) p = some (v :: vs, r') := by
  rw [parseElements, hv, Option.bind_some]
  dsimp only
  rw [skipWhite_cons (by decide), List.drop_one, List.tail_cons, hrest]
  rfl

theorem parseElements_last (hv : parseValue n p = some (v, char ']' :: r)) :
    parseElements (n + 1) p = some ([v], r) := by
  rw [parseElements, hv, Option.bind_some]
  dsimp only
  rw [skipWhite_cons (by decide)]
  rfl

theorem parseMembers_key {key : List Byte} (hkey : ∀ c ∈ key, Plain c) :
    parseMembers (n + 1) (quote key ++ char ':' :: p) =
      (parseValue n p).bind fun (v, r) =>
        if deref (skipWhite r) = char ',' then
          (parseMembers n ((skipWhite r).drop 1)).map fun (ms, r) => ((key, v) :: ms, r)
        else if deref (skipWhite r) = char '}' then some ([(key, v)], (skipWhite r).drop 1)
        else none := by
  rw [quote, List.cons_append, List.append_assoc, List.singleton_append, parseMembers]
  dsimp only
  rw [skipWhite_cons (by decide), List.drop_one, List.tail_cons, deref_cons, if_pos rfl,
    parseStr_plain hkey (by simp), Option.bind_some]
  dsimp only
  rw [skipWhite_cons (by decide)]
  rfl

theorem parseMembers_more {key : List Byte} {ms : List (List Byte × Json)}
    (hkey : ∀ c ∈ key, Plain c) (hv : parseValue n p = some (v, char ',' :: r))
    (hrest : parseMembers n r = some (ms, r')) :
    parseMembers (n + 1) (quote key ++ char ':' :: p) = some ((key, v) :: ms, r') := by
  rw [parseMembers_key hkey, hv, Option.bind_some]
  dsimp only
  rw [skipWhite_cons (by decide), List.drop_one, List.tail_cons, hrest]
  rfl

theorem parseMembers_last {key : List Byte} (hkey : ∀ c ∈ key, Plain c)
    (hv : parseValue n p = some (v, char '}' :: r)) :
    parseMembers (n + 1) (quote key ++ char ':' :: p) = some ([(key, v)], r) := by
  rw [parseMembers_key hkey, hv, Option.bind_some]
  dsimp only
  rw [skipWhite_cons (by decide)]
  rfl

theorem parse_eq {text : List Byte} {k : Nat} (hv : ∀ n, parseValue (n + k) text = some (v, r))
    (hk : k ≤ text.length) (hr : skipWhite r = []) : parse text = some v := by
  have h := hv (text.length - k + 1)
  rw [Nat.add_right_comm, Nat.sub_add_cancel hk] at h
  rw [parse, h]
  exact if_pos hr

end Steps

end Json

end OspreyBlake2b.Lib.JsonText
