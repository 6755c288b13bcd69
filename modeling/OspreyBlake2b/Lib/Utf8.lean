import OspreyBlake2b.Lib.CText

/-! UTF-8 read octet by octet, with U+FFFD for every longest beginning of a sequence that is
not carried on.  The text that comes out is its own encoding. -/

namespace OspreyBlake2b.Lib.Utf8

def replacement : List Byte := [0xef#8, 0xbf#8, 0xbd#8]

/-- A sequence under way: what there is of it, how many octets are missing, and the bounds
of the next. -/
structure Begun where
  seen : List Byte
  missing : Nat
  low : Byte
  high : Byte
  tail : 0x80#8 ≤ low

def lead (c : Byte) : Option Begun :=
  if 0xc2#8 ≤ c ∧ c ≤ 0xdf#8 then some ⟨[c], 1, 0x80#8, 0xbf#8, by decide⟩
  else if c = 0xe0#8 then some ⟨[c], 2, 0xa0#8, 0xbf#8, by decide⟩
  else if c = 0xed#8 then some ⟨[c], 2, 0x80#8, 0x9f#8, by decide⟩
  else if 0xe1#8 ≤ c ∧ c ≤ 0xef#8 then some ⟨[c], 2, 0x80#8, 0xbf#8, by decide⟩
  else if c = 0xf0#8 then some ⟨[c], 3, 0x90#8, 0xbf#8, by decide⟩
  else if 0xf1#8 ≤ c ∧ c ≤ 0xf3#8 then some ⟨[c], 3, 0x80#8, 0xbf#8, by decide⟩
  else if c = 0xf4#8 then some ⟨[c], 3, 0x80#8, 0x8f#8, by decide⟩
  else none

def start (c : Byte) : List Byte × Option Begun :=
  if c < 0x80#8 then ([c], none)
  else
    match lead c with
    | some b => ([], some b)
    | none => (replacement, none)

def step (s : Option Begun) (c : Byte) : List Byte × Option Begun :=
  match s with
  | none => start c
  | some b =>
    if b.low ≤ c ∧ c ≤ b.high then
      if b.missing = 1 then (b.seen ++ [c], none)
      else ([], some ⟨b.seen ++ [c], b.missing - 1, 0x80#8, 0xbf#8, by decide⟩)
    else (replacement ++ (start c).1, (start c).2)

def decodeFrom (s : Option Begun) : List Byte → List Byte
  | [] => if s.isSome then replacement else []
  | c :: cs => (step s c).1 ++ decodeFrom (step s c).2 cs

def decode (bs : List Byte) : List Byte := decodeFrom none bs

theorem decodeFrom_boundary (s : Option Begun) (as : List Byte) {c : Byte} (hc : c < 0x80#8)
    (bs : List Byte) :
    decodeFrom s (as ++ c :: bs) = decodeFrom s as ++ c :: decode bs := by
  induction as generalizing s with
  | nil =>
    have hstart : start c = ([c], none) := if_pos hc
    cases s with
    | none => simp [decodeFrom, step, hstart, decode]
    | some b =>
      have hout : ¬ (b.low ≤ c ∧ c ≤ b.high) := by
        intro hin
        have htail := b.tail
        bv_omega
      simp [decodeFrom, step, hout, hstart, decode]
  | cons a as ih => rw [List.cons_append, decodeFrom, decodeFrom, ih, List.append_assoc]

theorem decode_boundary (as : List Byte) {c : Byte} (hc : c < 0x80#8) (bs : List Byte) :
    decode (as ++ c :: bs) = decode as ++ c :: decode bs := decodeFrom_boundary none as hc bs

theorem decode_ascii_append {as : List Byte} (h : ∀ c ∈ as, c < 0x80#8) (bs : List Byte) :
    decode (as ++ bs) = as ++ decode bs := by
  induction as with
  | nil => rfl
  | cons a as ih =>
    have hone := decode_boundary [] (h a List.mem_cons_self) (as ++ bs)
    rw [List.cons_append, ← List.nil_append (a :: (as ++ bs)), hone,
      ih fun c hc => h c (List.mem_cons_of_mem _ hc)]
    rfl

theorem decode_ascii {as : List Byte} (h : ∀ c ∈ as, c < 0x80#8) : decode as = as := by
  have happ := decode_ascii_append h []
  rwa [List.append_nil, show decode [] = [] from rfl, List.append_nil] at happ

section Octets

variable {P : Byte → Prop}

theorem lead_seen {c : Byte} {b : Begun} (h : lead c = some b) : b.seen = [c] := by
  unfold lead at h
  split_ifs at h <;> cases h <;> rfl

theorem all_start (hrep : ∀ x ∈ replacement, P x) {c : Byte} (hc : P c) :
    (∀ x ∈ (start c).1, P x) ∧ ∀ b, (start c).2 = some b → ∀ x ∈ b.seen, P x := by
  rw [start]
  split
  · exact ⟨List.forall_mem_singleton.mpr hc, fun b hb => by cases hb⟩
  · cases hlead : lead c with
    | none => exact ⟨hrep, fun b hb => by cases hb⟩
    | some b' =>
      refine ⟨fun x hx => absurd hx List.not_mem_nil, fun b hb x hx => ?_⟩
      rw [← Option.some.inj hb, lead_seen hlead, List.mem_singleton] at hx
      exact hx ▸ hc

theorem all_step (hrep : ∀ x ∈ replacement, P x) {s : Option Begun}
    (hs : ∀ b, s = some b → ∀ x ∈ b.seen, P x) {c : Byte} (hc : P c) :
    (∀ x ∈ (step s c).1, P x) ∧ ∀ b, (step s c).2 = some b → ∀ x ∈ b.seen, P x := by
  have hstart := all_start hrep hc
  cases s with
  | none => exact hstart
  | some b =>
    have hseen : ∀ x ∈ b.seen ++ [c], P x :=
      List.forall_mem_append.mpr ⟨hs b rfl, List.forall_mem_singleton.mpr hc⟩
    simp only [step]
    split
    · split
      · exact ⟨hseen, fun b hb => by cases hb⟩
      · refine ⟨fun x hx => absurd hx List.not_mem_nil, fun b' hb => ?_⟩
        rw [← Option.some.inj hb]
        exact hseen
    · exact ⟨List.forall_mem_append.mpr ⟨hrep, hstart.1⟩, hstart.2⟩

theorem all_decodeFrom (hrep : ∀ x ∈ replacement, P x) {s : Option Begun}
    (hs : ∀ b, s = some b → ∀ x ∈ b.seen, P x) {bs : List Byte} (hbs : ∀ x ∈ bs, P x) :
    ∀ x ∈ decodeFrom s bs, P x := by
  induction bs generalizing s with
  | nil =>
    rw [decodeFrom]
    split
    · exact hrep
    · exact fun x hx => by cases hx
  | cons c cs ih =>
    have hstep := all_step hrep hs (hbs c List.mem_cons_self)
    rw [decodeFrom]
    exact List.forall_mem_append.mpr
      ⟨hstep.1, ih hstep.2 fun x hx => hbs x (List.mem_cons_of_mem _ hx)⟩

theorem all_decode (hrep : ∀ x ∈ replacement, P x) {bs : List Byte} (hbs : ∀ x ∈ bs, P x) :
    ∀ x ∈ decode bs, P x := all_decodeFrom hrep (fun b hb => by cases hb) hbs

end Octets

example : decode [0xe2, 0x98, 0x83, 0xe2, 0x98, 0x41] = [0xe2, 0x98, 0x83] ++ replacement ++ [0x41] := by
  decide +kernel

end OspreyBlake2b.Lib.Utf8
