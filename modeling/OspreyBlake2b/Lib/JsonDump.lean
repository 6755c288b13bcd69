import OspreyBlake2b.Lib.JsonArray
import OspreyBlake2b.Lib.JsonNumber
import OspreyBlake2b.Lib.JsonObject

/-! A JSON writer as Python's `json.dumps` is one: everything beyond printable ASCII is
escaped, and a blank stands behind every comma and every colon. -/

namespace OspreyBlake2b.Lib.JsonText

namespace Json

/-- One more byte of a text in UTF-8, with the code points so far in reverse. -/
def pushByte (codes : List Nat) (b : Byte) : List Nat :=
  if b < 0x80#8 then b.toNat :: codes
  else if b < 0xc0#8 then
    match codes with
    | [] => [0xfffd]
    | n :: codes => (n * 64 + b.toNat % 64) :: codes
  else if b < 0xe0#8 then b.toNat % 32 :: codes
  else if b < 0xf0#8 then b.toNat % 16 :: codes
  else b.toNat % 8 :: codes

def codePoints (text : List Byte) : List Nat := (text.foldl pushByte []).reverse

def hexDigit (d : Nat) : Byte := (ascii "0123456789abcdef").getD (d % 16) 0

def hexUnit (n : Nat) : List Byte :=
  ascii "\\u" ++ [n / 4096, n / 256, n / 16, n].map hexDigit

def escapeCode (n : Nat) : List Byte :=
  if n = 0x22 then ascii "\\\""
  else if n = 0x5c then ascii "\\\\"
  else if n = 0x08 then ascii "\\b"
  else if n = 0x09 then ascii "\\t"
  else if n = 0x0a then ascii "\\n"
  else if n = 0x0c then ascii "\\f"
  else if n = 0x0d then ascii "\\r"
  else if 0x20 ≤ n ∧ n < 0x7f then [BitVec.ofNat 8 n]
  else if n < 0x10000 then hexUnit n
  else hexUnit (0xd800 + (n - 0x10000) / 1024) ++ hexUnit (0xdc00 + (n - 0x10000) % 1024)

def escape (text : List Byte) : List Byte := (codePoints text).flatMap escapeCode

mutual

def dumps : Json → List Byte
  | null => ascii "null"
  | bool b => ascii (if b then "true" else "false")
  | num text => text
  | str text => quote (escape text)
  | arr es => char '[' :: dumpsElements es ++ [char ']']
  | obj ms => char '{' :: dumpsMembers ms ++ [char '}']

def dumpsElements : List Json → List Byte
  | [] => []
  | [v] => dumps v
  | v :: vs => dumps v ++ ascii ", " ++ dumpsElements vs

def dumpsMembers : List (List Byte × Json) → List Byte
  | [] => []
  | [(key, v)] => quote (escape key) ++ ascii ": " ++ dumps v
  | (key, v) :: ms => quote (escape key) ++ ascii ": " ++ dumps v ++ ascii ", " ++ dumpsMembers ms

end

theorem codePoints_ascii {text : List Byte} (h : ∀ c ∈ text, c < 0x80#8) :
    codePoints text = text.map BitVec.toNat := by
  have hpush (codes : List Nat) : text.foldl pushByte codes =
      (text.map BitVec.toNat).reverse ++ codes := by
    induction text generalizing codes with
    | nil => rfl
    | cons c text ih =>
      have hone : pushByte codes c = c.toNat :: codes := if_pos (h c List.mem_cons_self)
      rw [List.foldl_cons, hone, ih fun c hc => h c (List.mem_cons_of_mem _ hc)]
      simp
  rw [codePoints, hpush, List.append_nil, List.reverse_reverse]

theorem escapeCode_plain : ∀ c : Byte, Plain c → c < 0x7f#8 → escapeCode c.toNat = [c] := by
  decide +kernel

theorem escape_plain {text : List Byte} (h : ∀ c ∈ text, Plain c ∧ c < 0x7f#8) :
    escape text = text := by
  have hlow : ∀ c ∈ text, c < 0x80#8 := fun c hc =>
    BitVec.lt_def.mpr (Nat.lt_trans (BitVec.lt_def.mp (h c hc).2) (by decide))
  have hone : ∀ c ∈ text, escapeCode c.toNat = [c] := fun c hc =>
    escapeCode_plain c (h c hc).1 (h c hc).2
  rw [escape, codePoints_ascii hlow, List.flatMap_map, List.flatMap_congr hone, List.flatMap_singleton']

end Json

section Body

variable {t : List Byte}

theorem isHexDigit_hexDigit (d : Nat) : isHexDigit (Json.hexDigit d) = true := by
  have hlt := Nat.mod_lt d (show 0 < 16 by decide)
  rw [Json.hexDigit]
  generalize d % 16 = e at hlt
  revert e
  decide

theorem isBody_hexUnit (n : Nat) (h : isBody t = true) : isBody (Json.hexUnit n ++ t) = true := by
  change isBody (char '\\' :: char 'u' :: _ :: _ :: _ :: _ :: t) = true
  rw [isBody.eq_def]
  simp [isHexDigit_hexDigit, h]

theorem isBody_short {e : Byte} (he : e ∈ ascii "\"\\/bfnrt") (h : isBody t = true) :
    isBody (char '\\' :: e :: t) = true := by
  have hne : e ≠ char 'u' := by
    rintro rfl
    revert he
    decide
  rw [isBody.eq_def]
  simp [hne, he, h]

theorem isBody_code {c : Byte} (hc : Json.Plain c) (h : isBody t = true) :
    isBody (c :: t) = true := by
  obtain ⟨hlow, hquote, hback⟩ := hc
  rw [isBody.eq_def]
  simp [hlow, hquote, hback, h]

theorem isBody_escapeCode (n : Nat) (h : isBody t = true) :
    isBody (Json.escapeCode n ++ t) = true := by
  rw [Json.escapeCode]
  split_ifs with h₁ h₂ h₃ h₄ h₅ h₆ h₇ h₈ h₉
  · exact isBody_short (by decide) h
  · exact isBody_short (by decide) h
  · exact isBody_short (by decide) h
  · exact isBody_short (by decide) h
  · exact isBody_short (by decide) h
  · exact isBody_short (by decide) h
  · exact isBody_short (by decide) h
  · refine isBody_code ?_ h
    have hplain : ∀ k < 0x7f, 0x20 ≤ k → k ≠ 0x22 → k ≠ 0x5c → Json.Plain (BitVec.ofNat 8 k) := by
      decide
    exact hplain n h₈.2 h₈.1 h₁ h₂
  · exact isBody_hexUnit n h
  · rw [List.append_assoc]
    exact isBody_hexUnit _ (isBody_hexUnit _ h)

theorem isBody_escape (text : List Byte) : isBody (Json.escape text) = true := by
  rw [Json.escape]
  induction Json.codePoints text with
  | nil => rfl
  | cons n ns ih => exact isBody_escapeCode n ih

end Body

structure Written where
  value : Json
  derives : Derives .value (Json.dumps value)

namespace Written

def text (w : Written) : Value := ⟨Json.dumps w.value, w.derives⟩

def str (text : List Byte) : Written where
  value := .str text
  derives := by
    rw [Json.dumps]
    exact .string (isBody_escape text)

def num (n : Number) : Written where
  value := .num n.text
  derives := by
    rw [Json.dumps]
    exact n.derives

def bool (b : Bool) : Written where
  value := .bool b
  derives := by
    rw [Json.dumps]
    exact .bool b

def null : Written where
  value := .null
  derives := by
    rw [Json.dumps]
    exact .null

end Written

def blank : White := ⟨ascii " ", rfl⟩

def Written.element (before : White) (w : Written) : Element := ⟨before, w.text, noWhite⟩

def writtenElements : List Written → List Element
  | [] => []
  | w :: ws => w.element noWhite :: ws.map (Written.element blank)

theorem dumpsElements_eq (ws : List Written) :
    Json.dumpsElements (ws.map Written.value) = joinElements (writtenElements ws) := by
  cases ws with
  | nil => rfl
  | cons w ws =>
    rw [writtenElements]
    induction ws generalizing w with
    | nil => simp [Json.dumpsElements, joinElements, Written.element, Element.text, Written.text]
    | cons w' ws ih =>
      have htail : joinElements (w'.element blank :: ws.map (Written.element blank)) =
          char ' ' :: joinElements (w'.element noWhite :: ws.map (Written.element blank)) := by
        cases ws <;> rfl
      have hrest := ih w'
      rw [List.map_cons] at hrest
      rw [List.map_cons, List.map_cons, Json.dumpsElements, hrest, List.map_cons,
        joinElements_cons (List.cons_ne_nil _ _), htail]
      · simp [Written.element, Element.text, Written.text]
        rfl
      · simp

theorem isArray_dumps (ws : List Written) :
    IsArray (Json.dumps (.arr (ws.map Written.value))) (writtenElements ws) :=
  ⟨noWhite, by rw [Json.dumps, dumpsElements_eq]; rfl⟩

def Written.arr (ws : List Written) : Written where
  value := .arr (ws.map Written.value)
  derives := by
    rw [Json.dumps, dumpsElements_eq]
    cases ws with
    | nil => exact .emptyArray noWhite
    | cons w ws => exact .array (derives_joinElements (List.cons_ne_nil _ _))

def writtenMember (before : White) (m : List Byte × Written) : Member where
  before := before
  key := ⟨Json.escape m.1, isBody_escape m.1⟩
  behind := noWhite
  ahead := blank
  value := m.2.text
  after := noWhite

def writtenMembers : List (List Byte × Written) → List Member
  | [] => []
  | m :: ms => writtenMember noWhite m :: ms.map (writtenMember blank)

theorem dumpsMembers_eq (ms : List (List Byte × Written)) :
    Json.dumpsMembers (ms.map fun m => (m.1, m.2.value)) = joinMembers (writtenMembers ms) := by
  cases ms with
  | nil => rfl
  | cons m ms =>
    rw [writtenMembers]
    induction ms generalizing m with
    | nil =>
      simp [Json.dumpsMembers, joinMembers, writtenMember, Member.text, Written.text, Json.quote,
        blank, noWhite]
      rfl
    | cons m' ms ih =>
      have htail : joinMembers (writtenMember blank m' :: ms.map (writtenMember blank)) =
          char ' ' :: joinMembers (writtenMember noWhite m' :: ms.map (writtenMember blank)) := by
        cases ms <;> rfl
      have hrest := ih m'
      rw [List.map_cons] at hrest
      rw [List.map_cons, List.map_cons, Json.dumpsMembers, hrest, List.map_cons,
        joinMembers_cons (List.cons_ne_nil _ _), htail]
      · simp [writtenMember, Member.text, Written.text, Json.quote, blank, noWhite]
        rfl
      · simp

def writtenObject (ms : List (List Byte × Written)) : Object where
  lead := noWhite
  inner := noWhite
  members := writtenMembers ms
  trail := noWhite

theorem dumps_object (ms : List (List Byte × Written)) :
    Json.dumps (.obj (ms.map fun m => (m.1, m.2.value))) = (writtenObject ms).text := by
  rw [Json.dumps, dumpsMembers_eq, Object.text]
  simp [writtenObject, noWhite]

end OspreyBlake2b.Lib.JsonText
