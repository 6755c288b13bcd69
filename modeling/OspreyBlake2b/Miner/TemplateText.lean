import OspreyBlake2b.Lib.Search
import OspreyBlake2b.Miner.Gbt

/-! The text of a block template: hexadecimal digits as `hex2bin_n` reads them,
header fields that stand in front, and a transactions array whose entries carry one
`txid` and one `data` each. -/

namespace OspreyBlake2b.Miner

open OspreyBlake2b.Lib

def unhex : List Byte → List Byte
  | hi :: lo :: ds => BitVec.ofNat 8 ((hexval hi).getD 0 * 16 + (hexval lo).getD 0) :: unhex ds
  | _ => []

theorem length_unhex (t : List Byte) : (unhex t).length = t.length / 2 := by
  fun_induction unhex t with
  | case1 hi lo t ih =>
    simp only [List.length_cons, ih]
    omega
  | case2 t hshort =>
    cases t with
    | nil => rfl
    | cons c t =>
      cases t with
      | nil => simp
      | cons d t => exact absurd rfl (hshort c d t)

theorem isHexDigit_plain {a : Byte} (h : isHexDigit a = true) :
    isspace a = false ∧ a ≠ char '+' ∧ a ≠ char '-' ∧ a ≠ char '"' ∧ a ≠ 0 := by
  revert a
  decide

theorem hexval_lt (a : Byte) : (hexval a).getD 0 < 16 := by
  revert a
  decide

theorem eq_of_hexval_zero {a : Byte} (h : isHexDigit a = true) (h0 : (hexval a).getD 0 = 0) :
    a = char '0' := by
  revert a
  decide

theorem hexval_of_isHexDigit {a : Byte} (h : isHexDigit a = true) :
    hexval a = some ((hexval a).getD 0) := by
  obtain ⟨v, hv⟩ := Option.isSome_iff_exists.mp h
  rw [hv, Option.getD_some]

theorem sscanf2x_pair {a b : Byte} (ha : isHexDigit a = true) (hb : isHexDigit b = true)
    (r : List Byte) : sscanf2x (a :: b :: r) =
      some (BitVec.ofNat 8 ((hexval a).getD 0 * 16 + (hexval b).getD 0)) := by
  obtain ⟨hspace, hplus, hminus, -, -⟩ := isHexDigit_plain ha
  have hp : (a :: b :: r).dropWhile isspace = a :: b :: r := by
    rw [List.dropWhile_cons, hspace]
    rfl
  simp only [sscanf2x, hp, deref, List.headD_cons, List.drop_one, List.tail_cons, if_neg hplus,
    if_neg hminus]
  rw [hexval_of_isHexDigit ha, hexval_of_isHexDigit hb]
  rfl

theorem sscanf2x_lone {a : Byte} (ha : isHexDigit a = true) :
    sscanf2x [a, 0#8] = some (BitVec.ofNat 8 ((hexval a).getD 0)) := by
  revert a
  decide

theorem hex2binN_pair (n : Nat) {a b : Byte} (ha : isHexDigit a = true)
    (hb : isHexDigit b = true) (r : List Byte) :
    hex2binN (n + 1) (a :: b :: r) = (hex2binN n r).map fun bs =>
      BitVec.ofNat 8 ((hexval a).getD 0 * 16 + (hexval b).getD 0) :: bs := by
  rw [hex2binN, sscanf2x_pair ha hb]
  simp only [List.drop_succ_cons, List.drop_zero]
  cases hex2binN n r <;> rfl

theorem hex2binN_digits (n : Nat) {ds : List Byte} (hds : ds.all isHexDigit = true)
    (hlen : ds.length = 2 * n) (r : List Byte) : hex2binN n (ds ++ r) = some (unhex ds) := by
  induction n generalizing ds with
  | zero =>
    obtain rfl := List.length_eq_zero_iff.mp hlen
    rfl
  | succ n ih =>
    obtain _ | ⟨a, _ | ⟨b, ds⟩⟩ := ds
    · simp at hlen
    · simp at hlen
      omega
    · simp only [List.all_cons, Bool.and_eq_true] at hds
      simp only [List.length_cons] at hlen
      rw [List.cons_append, List.cons_append, hex2binN_pair n hds.1 hds.2.1,
        ih hds.2.2 (by omega)]
      rfl

theorem lone_eq_pair_iff {a b : Byte} (ha : isHexDigit a = true) (hb : isHexDigit b = true) :
    BitVec.ofNat 8 ((hexval a).getD 0) =
        BitVec.ofNat 8 ((hexval a).getD 0 * 16 + (hexval b).getD 0) ↔
      [a, b] = ascii "00" := by
  constructor
  · intro h
    have hva := hexval_lt a
    have hvb := hexval_lt b
    have hnat := congrArg BitVec.toNat h
    rw [BitVec.toNat_ofNat, BitVec.toNat_ofNat, Nat.mod_eq_of_lt (by omega),
      Nat.mod_eq_of_lt (by omega)] at hnat
    rw [eq_of_hexval_zero ha (by omega), eq_of_hexval_zero hb (by omega)]
    rfl
  · intro h
    cases h
    rfl

theorem hex2binN_lone (n : Nat) {a : Byte} (ha : isHexDigit a = true) :
    hex2binN (n + 1) [a, 0#8] =
      if n = 0 then some [BitVec.ofNat 8 ((hexval a).getD 0)] else none := by
  cases n with
  | zero =>
    simp only [hex2binN, sscanf2x_lone ha]
    rfl
  | succ n =>
    simp only [hex2binN, sscanf2x_lone ha]
    rfl

/-- Digits that the end of the buffer cuts off: `sscanf` fails on an empty rest, so
at most the last digit may be missing, and then a zero. -/
theorem hex2binN_cut (n k : Nat) {ds : List Byte} (hds : ds.all isHexDigit = true)
    (hlen : ds.length = 2 * n) (hk : k < 2 * n) :
    (∀ bs, hex2binN n (ds.take k ++ [0#8]) = some bs → k + 1 = 2 * n) ∧
      (hex2binN n (ds.take k ++ [0#8]) = some (unhex ds) ↔
        k + 1 = 2 * n ∧ ds.drop (2 * n - 2) = ascii "00") := by
  induction n generalizing k ds with
  | zero => omega
  | succ n ih =>
    obtain _ | ⟨a, _ | ⟨b, ds⟩⟩ := ds
    · simp at hlen
    · simp at hlen
      omega
    simp only [List.all_cons, Bool.and_eq_true] at hds
    have hlen' : ds.length = 2 * n := by simp only [List.length_cons] at hlen; omega
    match k with
    | 0 =>
      have hnone : hex2binN (n + 1) (List.take 0 (a :: b :: ds) ++ [0#8]) = none := rfl
      rw [hnone]
      exact ⟨nofun, by simp only [reduceCtorEq, false_iff]; omega⟩
    | 1 =>
      have hlone : hex2binN (n + 1) (List.take 1 (a :: b :: ds) ++ [0#8]) =
          if n = 0 then some [BitVec.ofNat 8 ((hexval a).getD 0)] else none :=
        hex2binN_lone n hds.1
      rw [hlone]
      split
      · subst n
        obtain rfl := List.length_eq_zero_iff.mp hlen'
        refine ⟨fun _ _ => rfl, ?_⟩
        simp only [unhex, Option.some.injEq, List.cons.injEq, and_true]
        rw [lone_eq_pair_iff hds.1 hds.2.1]
        exact (and_iff_right trivial).symm
      · exact ⟨nofun, by simp only [reduceCtorEq, false_iff]; omega⟩
    | k + 2 =>
      have hih := ih k hds.2.2 hlen' (by omega)
      have hstep : hex2binN (n + 1) (List.take (k + 2) (a :: b :: ds) ++ [0#8]) =
          (hex2binN n (ds.take k ++ [0#8])).map fun bs =>
            BitVec.ofNat 8 ((hexval a).getD 0 * 16 + (hexval b).getD 0) :: bs :=
        hex2binN_pair n hds.1 hds.2.1 _
      rw [hstep]
      constructor
      · intro bs hbs
        obtain ⟨rest, hrest, -⟩ := Option.map_eq_some_iff.mp hbs
        have := hih.1 rest hrest
        omega
      · obtain ⟨n, rfl⟩ := Nat.exists_eq_add_of_le' (show 1 ≤ n by omega)
        have hdrop : (a :: b :: ds).drop (2 * (n + 1 + 1) - 2) = ds.drop (2 * (n + 1) - 2) := rfl
        rw [hdrop, show k + 2 + 1 = 2 * (n + 1 + 1) ↔ k + 1 = 2 * (n + 1) by omega, ← hih.2, unhex]
        simp

def txidKey : List Byte := ascii "\"txid\":\""

def dataKey : List Byte := ascii "\"data\":\""

def member (key digits : List Byte) : List Byte := key ++ digits ++ [char '"']

/-- One element of the transactions array, with whatever else it carries around its
two members. -/
structure Entry where
  pre : List Byte
  mid : List Byte
  post : List Byte
  txidFirst : Bool
  txid : List Byte
  data : List Byte
  txid_hex : txid.all isHexDigit = true
  txid_len : txid.length = 64
  data_hex : data.all isHexDigit = true
  data_even : data.length % 2 = 0

namespace Entry

def text (e : Entry) : List Byte :=
  if e.txidFirst then
    e.pre ++ member txidKey e.txid ++ e.mid ++ member dataKey e.data ++ e.post
  else e.pre ++ member dataKey e.data ++ e.mid ++ member txidKey e.txid ++ e.post

def txidAt (e : Entry) : Nat :=
  if e.txidFirst then e.pre.length
  else (e.pre ++ member dataKey e.data ++ e.mid).length

def dataAt (e : Entry) : Nat :=
  if e.txidFirst then (e.pre ++ member txidKey e.txid ++ e.mid).length
  else e.pre.length

def txidEnd (e : Entry) : Nat := e.txidAt + 8 + 64

def dataEnd (e : Entry) : Nat := e.dataAt + 8 + e.data.length + 1

/-- Where the walk goes on: behind the later of the two opening quotes. -/
def cursor (e : Entry) : Nat := max e.txidAt e.dataAt + 8

/-- The entry begins at offset `o`, and the first `c` bytes of the text hold what the
walk reads of it.  The last digit of the id may be missing if the NUL in its place
makes no difference. -/
def Inside (c o : Nat) (e : Entry) : Prop :=
  o + e.dataEnd ≤ c ∧
    (o + e.txidEnd ≤ c ∨ o + e.txidEnd = c + 1 ∧ e.txid.drop 62 = ascii "00")

def rest (e : Entry) : List Byte := e.text.drop e.cursor

def leaf (e : Entry) : List Byte := (unhex e.txid).reverse

def raw (e : Entry) : List Byte := unhex e.data

def tx (e : Entry) : TemplateTx := ⟨e.leaf, e.raw⟩

theorem txidKey_length : txidKey.length = 8 := rfl

theorem dataKey_length : dataKey.length = 8 := rfl

theorem layout (e : Entry) : e.txidEnd + 1 ≤ e.text.length ∧ e.dataEnd ≤ e.text.length ∧
    (e.txidEnd < e.dataAt ∨ e.dataEnd ≤ e.txidAt) := by
  have h64 := e.txid_len
  simp only [txidEnd, dataEnd, txidAt, dataAt, text]
  split <;> simp [member, txidKey_length, dataKey_length, h64] <;> omega

theorem drop_txid (e : Entry) :
    ∃ x, e.text.drop e.txidAt = txidKey ++ (e.txid ++ char '"' :: x) := by
  rw [text, txidAt]
  split
  · refine ⟨e.mid ++ member dataKey e.data ++ e.post, ?_⟩
    simp [member]
  · refine ⟨e.post, ?_⟩
    rw [List.append_assoc _ (member txidKey e.txid), List.drop_left]
    simp [member]

theorem drop_data (e : Entry) :
    ∃ x, e.text.drop e.dataAt = dataKey ++ (e.data ++ char '"' :: x) := by
  rw [text, dataAt]
  split
  · refine ⟨e.post, ?_⟩
    rw [List.append_assoc _ (member dataKey e.data), List.drop_left]
    simp [member]
  · refine ⟨e.mid ++ member txidKey e.txid ++ e.post, ?_⟩
    simp [member]

end Entry

def replyText (junk : List Byte) (es : List Entry) (tail : List Byte) : List Byte :=
  junk ++ es.flatMap Entry.text ++ tail

theorem replyText_cons (junk : List Byte) (e : Entry) (es : List Entry) (tail : List Byte) :
    replyText junk (e :: es) tail = junk ++ (e.text ++ (es.flatMap Entry.text ++ tail)) := by
  simp [replyText]

theorem le_replyText_length (junk : List Byte) (e : Entry) (es : List Entry) (tail : List Byte) :
    junk.length + e.text.length ≤ (replyText junk (e :: es) tail).length := by
  rw [replyText_cons, List.length_append, List.length_append]
  omega

def places (at_ : Entry → Nat) : Nat → List Entry → List Nat
  | _, [] => []
  | o, e :: es => (o + at_ e) :: places at_ (o + e.text.length) es

theorem le_of_mem_places {at_ : Entry → Nat} {o x : Nat} {es : List Entry}
    (h : x ∈ places at_ o es) : o ≤ x := by
  induction es generalizing o with
  | nil => cases h
  | cons e es ih =>
    obtain rfl | h := List.mem_cons.mp h
    · omega
    · have := ih h
      omega

theorem mem_places_add {at_ : Entry → Nat} {k o i : Nat} {es : List Entry} :
    k + i ∈ places at_ (k + o) es ↔ i ∈ places at_ o es := by
  induction es generalizing o with
  | nil => simp only [places, List.not_mem_nil]
  | cons e es ih =>
    rw [places, places, List.mem_cons, List.mem_cons, Nat.add_assoc k o, Nat.add_assoc k o, ih,
      Nat.add_left_cancel_iff]

def Keyed (key : List Byte) (at_ : Entry → Nat) (junk : List Byte) (es : List Entry)
    (tail : List Byte) : Prop :=
  ∀ i, OccursAt key (replyText junk es tail) i → i ∈ places at_ junk.length es

section Keyed

variable {key junk tail : List Byte} {at_ : Entry → Nat} {e : Entry} {es : List Entry}

theorem drop_replyText {k : Nat} (hk : k ≤ e.text.length) :
    (replyText junk (e :: es) tail).drop (junk.length + k) =
      e.text.drop k ++ (es.flatMap Entry.text ++ tail) := by
  rw [replyText_cons, ← List.drop_drop, List.drop_left, List.drop_append_of_le_length hk]

theorem drop_cursor (junk : List Byte) (es : List Entry) (tail : List Byte)
    (hc : e.cursor ≤ e.text.length) :
    (replyText junk (e :: es) tail).drop (junk.length + e.cursor) = replyText e.rest es tail := by
  rw [drop_replyText hc, replyText, Entry.rest, List.append_assoc]

theorem Keyed.find (h : Keyed key at_ junk (e :: es) tail) (hkey : key ≠ [])
    (hat : at_ e ≤ e.text.length) (hocc : ∃ x, e.text.drop (at_ e) = key ++ x) :
    Lib.find key (replyText junk (e :: es) tail) = some (junk.length + at_ e) := by
  rw [find_eq_some_iff hkey]
  constructor
  · obtain ⟨x, hx⟩ := hocc
    rw [OccursAt, drop_replyText hat, hx, List.append_assoc, List.take_left]
  · intro j hj hoc
    obtain rfl | hlater := List.mem_cons.mp (h j hoc)
    · omega
    · have := le_of_mem_places hlater
      omega

theorem Keyed.strstr {c : Nat} {m : List Byte} (h : Keyed key at_ junk (e :: es) tail)
    (hkey : key ≠ []) (hkey0 : 0#8 ∉ key) (hno : 0#8 ∉ replyText junk (e :: es) tail)
    (hat : at_ e ≤ e.text.length) (hocc : ∃ x, e.text.drop (at_ e) = key ++ x) :
    Lib.strstr key (clipped c m (replyText junk (e :: es) tail)) =
      if junk.length + at_ e + key.length ≤ c then
        some ((clipped c m (replyText junk (e :: es) tail)).drop (junk.length + at_ e))
      else none := by
  rw [strstr_clipped hkey hkey0 hno, h.find hkey hat hocc, Option.bind_some]

theorem Keyed.find_none (h : Keyed key at_ junk [] tail) (hkey : key ≠ []) :
    Lib.find key (replyText junk [] tail) = none := by
  rw [find_eq_none_iff hkey]
  intro i hoc
  cases h i hoc

theorem Keyed.next (h : Keyed key at_ junk (e :: es) tail) (hc : e.cursor ≤ e.text.length)
    (hat : at_ e < e.cursor) : Keyed key at_ e.rest es tail := by
  intro i hoc
  have hrest : e.rest.length = e.text.length - e.cursor := List.length_drop
  rw [OccursAt, ← drop_cursor junk es tail hc, List.drop_drop] at hoc
  obtain hself | hlater := List.mem_cons.mp (h _ hoc)
  · omega
  · rw [hrest]
    rw [show junk.length + e.text.length =
      junk.length + e.cursor + (e.text.length - e.cursor) by omega] at hlater
    exact mem_places_add.mp hlater

end Keyed

theorem keyed_of_pieces {key junk tail : List Byte} {at_ : Entry → Nat} {es : List Entry}
    (hjunk : begins key junk = []) (hes : ∀ e ∈ es, begins key e.text = [at_ e])
    (htail : ∀ i, ¬OccursAt key tail i) : Keyed key at_ junk es tail := by
  have hbody : ∀ i, OccursAt key (es.flatMap Entry.text ++ tail) i → i ∈ places at_ 0 es := by
    induction es with
    | nil => exact fun i hoc => absurd hoc (htail i)
    | cons e es ih =>
      intro i hoc
      rw [List.flatMap_cons, List.append_assoc] at hoc
      rw [places, List.mem_cons, Nat.zero_add, Nat.zero_add]
      by_cases hi : i < e.text.length
      · have hmem := mem_begins hi hoc
        rw [hes e List.mem_cons_self] at hmem
        exact .inl (List.mem_singleton.mp hmem)
      · right
        obtain ⟨k, rfl⟩ := Nat.exists_eq_add_of_le (Nat.le_of_not_lt hi)
        apply (mem_places_add (o := 0)).mpr
        exact ih (fun e he => hes e (List.mem_cons_of_mem _ he)) k (occursAt_append_right.mp hoc)
  intro i hoc
  rw [replyText, List.append_assoc] at hoc
  by_cases hi : i < junk.length
  · have hmem := mem_begins hi hoc
    rw [hjunk] at hmem
    cases hmem
  · obtain ⟨k, rfl⟩ := Nat.exists_eq_add_of_le (Nat.le_of_not_lt hi)
    apply (mem_places_add (o := 0)).mpr
    exact hbody k (occursAt_append_right.mp hoc)

section Local

variable {a p v : List Byte} {key : String}

theorem jsonColon_append (h : jsonColon a key = some p) (b : List Byte) :
    jsonColon (a ++ b) key = some (p ++ b) := by
  simp only [jsonColon, Option.bind_eq_bind, Option.bind_eq_some_iff] at h ⊢
  obtain ⟨q, hq, hp⟩ := h
  refine ⟨q ++ b, strstr_append hq, ?_⟩
  by_cases hlen : (quoted (ascii key)).length ≤ q.length
  · rw [List.drop_append_of_le_length hlen]
    exact strchr_append_some hp
  · rw [List.drop_eq_nil_of_le (by omega)] at hp
    cases hp

theorem jsonNum_append {n : Int} (h : jsonNum a key = some n)
    (hend : ((jsonColon a key).any fun p => terminated (p.drop 1)) = true) (b : List Byte) :
    jsonNum (a ++ b) key = some n := by
  rw [jsonNum] at h ⊢
  obtain ⟨p, hp, rfl⟩ := Option.map_eq_some_iff.mp h
  rw [hp, Option.any_some] at hend
  have hne : 1 ≤ p.length := by
    cases p with
    | nil => cases hend
    | cons => exact Nat.succ_pos _
  rw [jsonColon_append hp, Option.map_some, List.drop_append_of_le_length hne,
    strtoll_append hend]

theorem jsonStr_append {n : Nat} (h : jsonStr a key n = some v) (b : List Byte) :
    jsonStr (a ++ b) key n = some v := by
  simp only [jsonStr, Option.bind_eq_bind, Option.bind_eq_some_iff] at h ⊢
  obtain ⟨p, hp, q, hq, e, he, h⟩ := h
  have hne : 1 ≤ q.length := by
    cases q with
    | nil => cases he
    | cons => exact Nat.succ_pos _
  refine ⟨p ++ b, jsonColon_append hp b, q ++ b, strchr_append_some hq, e ++ b, ?_, ?_⟩
  · rw [List.drop_append_of_le_length hne]
    exact strchr_append_some he
  · rw [List.drop_append_of_le_length hne, List.length_append, List.length_append,
      Nat.add_sub_add_right, List.take_append_of_le_length (Nat.sub_le _ _)]
    exact h

theorem templateHead_append {hd : TemplateHead} (h : templateHead a = .ok hd)
    (hnum : ∀ key ∈ ["height", "curtime", "version", "coinbasevalue"],
      ((jsonColon a key).any fun p => terminated (p.drop 1)) = true)
    (hwc : (jsonStr a "default_witness_commitment" 256).isSome = true) (b : List Byte) :
    templateHead (a ++ b) = .ok hd := by
  simp only [List.forall_mem_cons] at hnum
  obtain ⟨hheight, hcurtime, hversion, hcbvalue, -⟩ := hnum
  obtain ⟨wc, hwc⟩ := Option.isSome_iff_exists.mp hwc
  rw [templateHead] at h ⊢
  split at h
  case h_2 => cases h
  case h_1 height curtime version bits prev e1 e2 e3 e4 e5 =>
    rw [jsonNum_append e1 hheight, jsonNum_append e2 hcurtime, jsonNum_append e3 hversion,
      jsonStr_append e4, jsonStr_append e5]
    split at h
    · cases h
    · rename_i pb hpb
      split at h
      · cases h
      · rename_i cbvalue e6
        simp only [hpb, jsonNum_append e6 hcbvalue, jsonStr_append hwc]
        rw [hwc] at h
        exact h

end Local

end OspreyBlake2b.Miner
