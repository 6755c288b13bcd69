import OspreyBlake2b.Lib.JsonText
import OspreyBlake2b.Lib.Search
import OspreyBlake2b.Miner.Gbt

/-! The verdict `submit_block` reads out of the node's reply, for every reply object
of the JSON-RPC protocol. -/

namespace OspreyBlake2b.Miner

open OspreyBlake2b.Lib OspreyBlake2b.Lib.JsonText

structure Member where
  key : String
  before : White
  gap : White
  pad : White
  value : Value
  after : White

def Member.render (m : Member) : List Byte :=
  m.before.val ++ quoted (ascii m.key) ++ m.gap.val ++ [char ':'] ++ m.pad.val ++ m.value.val ++
    m.after.val

/-- A reply: HTTP headers, and an object whose members are `result`, `error` and
`id` in some order. -/
structure Reply where
  headers : List Byte
  ahead : List Member
  result : Member
  behind : List Member
  trail : White
  headers_no_nul : 0#8 ∉ headers
  result_key : result.key = "result"
  other_keys : ((ahead ++ behind).map Member.key).Perm ["error", "id"]

namespace Reply

def lead (r : Reply) : List Byte :=
  r.headers ++ [char '{'] ++ r.ahead.flatMap (fun m => m.render ++ [char ',']) ++
    r.result.before.val

def rest (r : Reply) : List Byte :=
  r.result.after.val ++ r.behind.flatMap (fun m => char ',' :: m.render) ++ [char '}'] ++
    r.trail.val

def text (r : Reply) : List Byte :=
  r.lead ++ quoted (ascii "result") ++ r.result.gap.val ++ [char ':'] ++ r.result.pad.val ++
    r.result.value.val ++ r.rest

def ResultNull (r : Reply) : Prop := r.result.value = Value.null

def ErrorNull (r : Reply) : Prop :=
  ∀ m ∈ r.ahead ++ r.behind, m.key = "error" → m.value = Value.null

def Accepts (r : Reply) : Prop := r.ResultNull ∧ r.ErrorNull

end Reply

def marker : List Byte := ascii "\"result\":"

def NullBehind (t : List Byte) (i : Nat) : Prop :=
  OccursAt (ascii "null") t (i + 9) ∧ i + 13 ≤ respSize - 1

namespace Reply

/-- The first marker that is not the name and colon of the result member itself, when
one comes first. -/
def stray (r : Reply) : Option Nat :=
  if r.result.gap.val = [] then find marker r.lead else find marker r.text

/-- When the verdict is right.  A reply with a stray marker in front is judged by
what stands behind that; any other with a null result is taken for an acceptance
exactly if it is written without whitespace and not cut off. -/
def VerdictRight (r : Reply) : Prop :=
  match r.stray with
  | some i => NullBehind r.text i ↔ r.Accepts
  | none => r.ResultNull →
      (r.ErrorNull ↔ r.result.gap.val = [] ∧ r.result.pad.val = [] ∧
        r.lead.length + 13 ≤ respSize - 1)

end Reply

theorem Member.render_no_nul (m : Member) (hkey : 0#8 ∉ ascii m.key) : 0#8 ∉ m.render := by
  simp +decide [Member.render, quoted, hkey, m.before.no_nul, m.gap.no_nul, m.pad.no_nul,
    m.value.property.no_nul, m.after.no_nul]

theorem Reply.member_no_nul (r : Reply) {m : Member} (hm : m ∈ r.ahead ++ r.behind) :
    0#8 ∉ m.render := by
  have hkey := r.other_keys.subset (List.mem_map_of_mem hm)
  apply m.render_no_nul
  simp only [List.mem_cons, List.not_mem_nil, or_false] at hkey
  obtain hkey | hkey := hkey <;> rw [hkey] <;> decide

theorem Reply.lead_no_nul (r : Reply) : 0#8 ∉ r.lead := by
  have hahead : ∀ m ∈ r.ahead, 0#8 ∉ m.render := fun m hm => r.member_no_nul (by simp [hm])
  simp +decide [Reply.lead, r.headers_no_nul, r.result.before.no_nul]
  exact hahead

theorem Reply.rest_no_nul (r : Reply) : 0#8 ∉ r.rest := by
  have hbehind : ∀ m ∈ r.behind, 0#8 ∉ m.render := fun m hm => r.member_no_nul (by simp [hm])
  simp +decide [Reply.rest, r.result.after.no_nul, r.trail.no_nul]
  exact hbehind

theorem Reply.text_no_nul (r : Reply) : 0#8 ∉ r.text := by
  simp +decide [Reply.text, quoted, r.lead_no_nul, r.result.gap.no_nul, r.result.pad.no_nul,
    r.result.value.property.no_nul, r.rest_no_nul]

theorem marker_ne_nil : marker ≠ [] := by decide

theorem blockAccepted_iff {t : List Byte} (ht : 0#8 ∉ t) (n : Nat) (m : List Byte) :
    blockAccepted (t.take n ++ 0#8 :: m) = true ↔
      ∃ i, find marker t = some i ∧ OccursAt (ascii "null") t (i + 9) ∧ i + 13 ≤ n := by
  have ht' : 0#8 ∉ t.take n := fun h => ht (List.mem_of_mem_take h)
  have hstr : strstr (ascii "\"result\":") (t.take n ++ 0#8 :: m) =
      (find marker (t.take n)).map fun i => (t.take n ++ 0#8 :: m).drop i :=
    strstr_nul marker_ne_nil (by decide) ht'
  rw [blockAccepted, hstr]
  cases hf : find marker (t.take n) with
  | none =>
    simp only [Option.map_none, Bool.false_eq_true, false_iff, not_exists, not_and]
    intro i hi hnull hn
    have hfound := (find_take marker_ne_nil).mpr ⟨hi, show i + 9 ≤ n by omega⟩
    rw [hf] at hfound
    cases hfound
  | some i =>
    obtain ⟨hi, hfit⟩ := (find_take marker_ne_nil).mp hf
    have hle : i + 9 ≤ (t.take n).length :=
      ((find_eq_some_iff marker_ne_nil).mp hf).1.le marker_ne_nil
    simp only [Option.map_some, List.drop_drop]
    rw [starts_drop_nul (by decide) hle, occursAt_take (by decide), hi]
    constructor
    · rintro ⟨hnull, hn⟩
      exact ⟨i, rfl, hnull, hn⟩
    · rintro ⟨j, hj, hnull, hn⟩
      cases hj
      exact ⟨hnull, hn⟩

theorem Reply.text_compact (r : Reply) (hgap : r.result.gap.val = []) :
    r.text = r.lead ++ (marker ++ (r.result.pad.val ++ (r.result.value.val ++ r.rest))) := by
  have hmarker : marker = quoted (ascii "result") ++ [char ':'] := by decide
  rw [Reply.text, hgap, hmarker]
  simp

theorem occursAt_null {pad : White} {v : Value} (rest : List Byte) :
    OccursAt (ascii "null") (pad.val ++ (v.val ++ rest)) 0 ↔ pad.val = [] ∧ v = Value.null := by
  constructor
  · intro h
    have hhead : deref (pad.val ++ (v.val ++ rest)) = char 'n' := by
      have h4 := congrArg deref h
      generalize pad.val ++ (v.val ++ rest) = t at h4 ⊢
      cases t with
      | nil => cases h4
      | cons c t => exact h4
    have hpad : pad.val = [] := by
      cases hw : pad.val with
      | nil => rfl
      | cons c w =>
        have hc := List.all_eq_true.mp pad.property c (by simp [hw])
        rw [hw] at hhead
        rw [show c = char 'n' from hhead] at hc
        cases hc
    rw [hpad, List.nil_append] at hhead
    exact ⟨hpad, Subtype.ext (eq_null_of_head v.property hhead)⟩
  · rintro ⟨hpad, rfl⟩
    rw [hpad]
    simp [OccursAt, Value.null]

theorem Reply.find_of_compact (r : Reply) (hgap : r.result.gap.val = [])
    (hstray : find marker r.lead = none) : find marker r.text = some r.lead.length := by
  rw [r.text_compact hgap]
  exact find_append_self marker_ne_nil (by decide) hstray

theorem Reply.nullBehind_compact (r : Reply) (hgap : r.result.gap.val = []) :
    NullBehind r.text r.lead.length ↔
      r.ResultNull ∧ r.result.pad.val = [] ∧ r.lead.length + 13 ≤ respSize - 1 := by
  rw [NullBehind, r.text_compact hgap, occursAt_append_right,
    show (9 : Nat) = marker.length + 0 from rfl, occursAt_append_right, occursAt_null,
    Reply.ResultNull]
  tauto

theorem blockAccepted_reply (r : Reply) (m : List Byte) :
    blockAccepted (r.text.take (respSize - 1) ++ 0#8 :: m) = true ↔
      ∃ i, find marker r.text = some i ∧ NullBehind r.text i :=
  blockAccepted_iff r.text_no_nul _ m

theorem Reply.verdict_iff (r : Reply) :
    ((∃ i, find marker r.text = some i ∧ NullBehind r.text i) ↔ r.Accepts) ↔ r.VerdictRight := by
  by_cases hgap : r.result.gap.val = []
  · cases hstray : find marker r.lead with
    | none =>
      have hfind := r.find_of_compact hgap hstray
      have hnull := r.nullBehind_compact hgap
      simp only [VerdictRight, stray, hgap, if_true, hstray, hfind, Option.some.injEq,
        exists_eq_left', hnull, Accepts, true_and]
      tauto
    | some i =>
      have hfind : find marker r.text = some i := by
        rw [r.text_compact hgap]
        exact find_append_of_some marker_ne_nil hstray
      simp only [VerdictRight, stray, hgap, if_true, hstray, hfind, Option.some.injEq,
        exists_eq_left']
  · simp only [VerdictRight, stray, hgap, if_false]
    cases find marker r.text with
    | none =>
      simp only [reduceCtorEq, false_and, exists_false, Accepts]
      tauto
    | some i => simp only [Option.some.injEq, exists_eq_left']

theorem submitBlock_reply {g : Gbt} {c : KnotsHeader} {blk : List Byte} (r : List Byte)
    (hvalid : g.tpl.valid = true)
    (hblk : blockSerialize c g.tpl.cb.raw g.tpl.txData g.tpl.txCount blkSize = some blk) :
    ((submitBlock g c (some r)).1.blocksAccepted = g.blocksAccepted + 1 ∧
        (submitBlock g c (some r)).2.1 = 0) ↔
      blockAccepted (r.take (respSize - 1) ++
        0#8 :: g.resp.drop ((r.take (respSize - 1)).length + 1)) = true := by
  simp only [submitBlock, hvalid, hblk, rpcCall, Option.map_some]
  cases blockAccepted (r.take (respSize - 1) ++
    0#8 :: g.resp.drop ((r.take (respSize - 1)).length + 1)) <;> simp

theorem submit_block_verdict_iff (g : Gbt) (c : KnotsHeader) (r : Reply)
    (hvalid : g.tpl.valid = true)
    (hblk : (blockSerialize c g.tpl.cb.raw g.tpl.txData g.tpl.txCount blkSize).isSome = true) :
    (((submitBlock g c (some r.text)).1.blocksAccepted = g.blocksAccepted + 1 ∧
        (submitBlock g c (some r.text)).2.1 = 0) ↔ r.Accepts) ↔ r.VerdictRight := by
  obtain ⟨blk, hblk⟩ := Option.isSome_iff_exists.mp hblk
  rw [submitBlock_reply r.text hvalid hblk, blockAccepted_reply, r.verdict_iff]

section Demo

def compact (key : String) (v : Value) : Member := ⟨key, noWhite, noWhite, noWhite, v, noWhite⟩

def ospreyId : Value := ⟨_, .string (t := ascii "osprey") (by decide +kernel)⟩

def nullResult (v : Value) : Reply where
  headers := ascii "HTTP/1.1 200 OK\r\n\r\n"
  ahead := []
  result := compact "result" .null
  behind := [compact "error" v, compact "id" ospreyId]
  trail := ⟨ascii "\n", rfl⟩
  headers_no_nul := by decide
  result_key := rfl
  other_keys := .refl _

def demoHeld : Gbt :=
  let g := gbtInit ⟨none, blake2bTargetShiftMainnet, false⟩
  { g with tpl := { g.tpl with valid := true } }

theorem submit_block_accepts_null :
    (submitBlock demoHeld zeroHeader (some (nullResult .null).text)).1.blocksAccepted =
        demoHeld.blocksAccepted + 1 ∧
      (submitBlock demoHeld zeroHeader (some (nullResult .null).text)).2.1 = 0 := by
  have herror : (nullResult .null).ErrorNull := by simp [Reply.ErrorNull, nullResult, compact]
  have hright : (nullResult .null).VerdictRight := by
    have hstray : (nullResult .null).stray = none := by decide +kernel
    rw [Reply.VerdictRight, hstray]
    intro _
    exact iff_of_true herror ⟨rfl, rfl, by decide +kernel⟩
  exact ((submit_block_verdict_iff demoHeld zeroHeader (nullResult .null) rfl
    (by decide +kernel)).mpr hright).mpr ⟨rfl, herror⟩

def decodeFailure : Value :=
  ⟨_, .object (.members
    (.member noWhite noWhite noWhite noWhite (k := ascii "code") (by decide +kernel)
      (.number (s := ascii "-") (n := ascii "22") (f := []) (e := []) (by decide) (by decide) (by decide) (by decide)))
    (.member noWhite noWhite noWhite noWhite (k := ascii "message") (by decide +kernel)
      (.string (t := ascii "Block decode failed") (by decide +kernel))))⟩

theorem submit_block_accepts_decode_failure :
    ¬(nullResult decodeFailure).Accepts ∧
      (submitBlock demoHeld zeroHeader (some (nullResult decodeFailure).text)).1.blocksAccepted =
        demoHeld.blocksAccepted + 1 ∧
      (submitBlock demoHeld zeroHeader (some (nullResult decodeFailure).text)).2.1 = 0 := by
  refine ⟨fun h => ?_, by decide +kernel, by decide +kernel⟩
  have hnull := h.2 (compact "error" decodeFailure) (by simp [nullResult]) rfl
  exact absurd (congrArg Subtype.val hnull) (by decide)

end Demo

end OspreyBlake2b.Miner
