import OspreyBlake2b.Miner.TemplateText
import OspreyBlake2b.Miner.SoloLoop

namespace OspreyBlake2b.Miner

open OspreyBlake2b.Lib

/-- What the walk needs of the text in front of it: the keys stand only in the
entries, nothing follows a text that was cut off, and the bytes to come fit. -/
structure Standing (c used : Nat) (m junk : List Byte) (es : List Entry) (tail : List Byte) :
    Prop where
  txid : Keyed txidKey Entry.txidAt junk es tail
  data : Keyed dataKey Entry.dataAt junk es tail
  no_nul : 0#8 ∉ replyText junk es tail
  behind : c < (replyText junk es tail).length → m = []
  room : 2 * used + c ≤ 2 * tplDataSize + junk.length

section Walk

variable {c used : Nat} {m junk tail : List Byte} {e : Entry} {es : List Entry}

theorem cursor_le (e : Entry) : e.cursor ≤ e.text.length := by
  have h := e.layout
  simp only [Entry.cursor, Entry.txidEnd, Entry.dataEnd] at h ⊢
  omega

theorem Standing.next (h : Standing c used m junk (e :: es) tail)
    (hc : junk.length + e.cursor ≤ c) :
    Standing (c - (junk.length + e.cursor)) (used + e.data.length / 2) m e.rest es tail := by
  have hle := cursor_le e
  have hlayout := e.layout
  have hrest : e.rest.length = e.text.length - e.cursor := List.length_drop
  have htext := drop_cursor junk es tail hle
  have hlen : (replyText e.rest es tail).length =
      (replyText junk (e :: es) tail).length - (junk.length + e.cursor) := by
    rw [← htext, List.length_drop]
  simp only [Entry.txidEnd, Entry.dataEnd] at hlayout
  refine ⟨h.txid.next hle ?_, h.data.next hle ?_, ?_, ?_, ?_⟩
  · simp only [Entry.cursor]
    omega
  · simp only [Entry.cursor]
    omega
  · rw [← htext]
    exact fun h0 => h.no_nul (List.mem_of_mem_drop h0)
  · intro hlt
    apply h.behind
    omega
  · have := h.room
    simp only [Entry.cursor] at hrest hc ⊢
    omega

theorem walkTxs_none (slots : Nat) {p : List Byte} (h : strstr txidKey p = none) :
    walkTxs slots used p = .done := by
  cases slots with
  | zero => rfl
  | succ slots =>
    rw [txidKey] at h
    rw [walkTxs, h]

theorem walkTxs_cons {p tx dt fin disp raw : List Byte} {nbytes : Nat}
    (htx : strstr txidKey p = some tx) (hid : hex2binN 32 (tx.drop 8) = some disp)
    (hdt : strstr dataKey p = some dt) (hfin : strchr (char '"') (dt.drop 8) = some fin)
    (hbytes : ((dt.drop 8).length - fin.length) / 2 = nbytes)
    (hroom : used + nbytes ≤ tplDataSize) (hraw : hex2binN nbytes (dt.drop 8) = some raw)
    (slots : Nat) :
    walkTxs (slots + 1) used p = .cons ⟨disp.reverse, raw⟩ (walkTxs slots (used + nbytes)
      (if (tx.drop 8).length < (dt.drop 8).length then tx.drop 8 else dt.drop 8)) := by
  rw [txidKey] at htx
  rw [dataKey] at hdt
  rw [walkTxs, htx]
  simp only [hid, hdt, hfin, hbytes, hraw]
  rw [if_neg (by omega)]

theorem Standing.strstr_txid (h : Standing c used m junk (e :: es) tail) :
    strstr txidKey (clipped c m (replyText junk (e :: es) tail)) =
      if junk.length + e.txidAt + 8 ≤ c then
        some ((clipped c m (replyText junk (e :: es) tail)).drop (junk.length + e.txidAt))
      else none := by
  obtain ⟨x, hx⟩ := e.drop_txid
  have hle := e.layout.1
  simp only [Entry.txidEnd] at hle
  exact h.txid.strstr (by decide) (by decide) h.no_nul (by omega) ⟨_, hx⟩

theorem Standing.strstr_data (h : Standing c used m junk (e :: es) tail) :
    strstr dataKey (clipped c m (replyText junk (e :: es) tail)) =
      if junk.length + e.dataAt + 8 ≤ c then
        some ((clipped c m (replyText junk (e :: es) tail)).drop (junk.length + e.dataAt))
      else none := by
  obtain ⟨x, hx⟩ := e.drop_data
  have hle := e.layout.2.1
  simp only [Entry.dataEnd] at hle
  exact h.data.strstr (by decide) (by decide) h.no_nul (by omega) ⟨_, hx⟩

theorem drop_member (m : List Byte) (es : List Entry) (tail : List Byte) {k : Nat}
    {key ds x : List Byte} (hk : key.length = 8)
    (hx : e.text.drop k = key ++ (ds ++ char '"' :: x)) (hc : junk.length + k + 8 ≤ c)
    (hle : k + 8 ≤ e.text.length) :
    (clipped c m (replyText junk (e :: es) tail)).drop (junk.length + k + 8) =
      clipped (c - (junk.length + k + 8)) m
        (ds ++ char '"' :: (x ++ (es.flatMap Entry.text ++ tail))) := by
  have hlen := le_replyText_length junk e es tail
  have hdrop : e.text.drop (k + 8) = ds ++ char '"' :: x := by
    rw [← List.drop_drop, hx]
    exact List.drop_left' hk
  rw [clipped_drop hc (by omega), Nat.add_assoc, drop_replyText hle, hdrop, List.append_assoc,
    List.cons_append]

theorem strchr_digits {k : Nat} {ds x : List Byte} (hds : ds.all isHexDigit = true) :
    strchr (char '"') (clipped k m (ds ++ char '"' :: x)) =
      if ds.length + 1 ≤ k then some (clipped (k - ds.length) m (char '"' :: x)) else none := by
  have hplain : ∀ b ∈ ds, b ≠ char '"' ∧ b ≠ 0 := by
    intro b hb
    have hp := isHexDigit_plain (List.all_eq_true.mp hds b hb)
    exact ⟨hp.2.2.2.1, hp.2.2.2.2⟩
  have hq : char '"' ∉ ds := fun h => (hplain _ h).1 rfl
  have h0 : 0#8 ∉ ds := fun h => (hplain _ h).2 rfl
  split
  · rename_i hk
    obtain ⟨b, hb⟩ := Nat.exists_eq_add_of_le' (show 1 ≤ k - ds.length by omega)
    rw [clipped_append (by omega), strchr_append hq h0, hb]
    exact if_pos rfl
  · rw [clipped_short (by omega), strchr_append
      (fun h => hq (List.mem_of_mem_take h)) fun h => h0 (List.mem_of_mem_take h)]
    rfl

theorem walkTxs_entry (h : Standing c used m junk (e :: es) tail) {disp : List Byte}
    (ht : junk.length + e.txidAt + 8 ≤ c) (hd : junk.length + e.dataEnd ≤ c)
    (hid : hex2binN 32 ((clipped c m (replyText junk (e :: es) tail)).drop
      (junk.length + e.txidAt + 8)) = some disp) (slots : Nat) :
    walkTxs (slots + 1) used (clipped c m (replyText junk (e :: es) tail)) =
      .cons ⟨disp.reverse, e.raw⟩ (walkTxs slots (used + e.data.length / 2)
        (clipped (c - (junk.length + e.cursor)) m (replyText e.rest es tail))) := by
  obtain ⟨hlt, hld, horder⟩ := e.layout
  have hroom := h.room
  obtain ⟨y, hy⟩ := e.drop_data
  simp only [Entry.txidEnd, Entry.dataEnd] at hlt hld horder hd
  have htx := h.strstr_txid
  have hdt := h.strstr_data
  rw [if_pos (by omega)] at htx hdt
  have hin : junk.length + e.dataAt + 8 ≤ c := by omega
  have hdigits := drop_member m es tail Entry.dataKey_length hy hin (by omega)
  have hlong := le_replyText_length junk e es tail
  have hcur := clipped_drop (m := m) (t := replyText junk (e :: es) tail) (c := c)
    (k := junk.length + e.cursor) (by simp only [Entry.cursor]; omega) (by
      have := cursor_le e
      omega)
  rw [drop_cursor _ _ _ (cursor_le e)] at hcur
  have hlen := clipped_length (c := c) (m := m) (t := replyText junk (e :: es) tail)
  rw [← hcur]
  generalize clipped c m (replyText junk (e :: es) tail) = M at *
  rw [← List.drop_drop] at hid hdigits
  have hfin : strchr (char '"') ((M.drop (junk.length + e.dataAt)).drop 8) = some
      (clipped (c - (junk.length + e.dataAt + 8) - e.data.length) m
        (char '"' :: (y ++ (es.flatMap Entry.text ++ tail)))) := by
    rw [hdigits, strchr_digits e.data_hex, if_pos (by omega)]
  have hbytes : (((M.drop (junk.length + e.dataAt)).drop 8).length -
      (clipped (c - (junk.length + e.dataAt + 8) - e.data.length) m
        (char '"' :: (y ++ (es.flatMap Entry.text ++ tail)))).length) / 2 =
      e.data.length / 2 := by
    rw [hdigits, clipped_append (by omega), List.length_append, Nat.add_sub_cancel]
  have hraw : hex2binN (e.data.length / 2) ((M.drop (junk.length + e.dataAt)).drop 8) =
      some e.raw := by
    have heven := e.data_even
    rw [hdigits, clipped_append (by omega)]
    exact hex2binN_digits _ e.data_hex (by omega) _
  have hnext : (if ((M.drop (junk.length + e.txidAt)).drop 8).length <
        ((M.drop (junk.length + e.dataAt)).drop 8).length
      then (M.drop (junk.length + e.txidAt)).drop 8
      else (M.drop (junk.length + e.dataAt)).drop 8) = M.drop (junk.length + e.cursor) := by
    simp only [List.drop_drop, List.length_drop, Entry.cursor]
    split <;> congr 1 <;> omega
  rw [walkTxs_cons htx hid hdt hfin hbytes (by omega) hraw, hnext]

/-- Otherwise the walk ends, without a word. -/
theorem walkTxs_break (h : Standing c used m junk (e :: es) tail)
    (hno : junk.length + e.txidAt + 8 ≤ c → junk.length + e.dataEnd ≤ c → hex2binN 32
      ((clipped c m (replyText junk (e :: es) tail)).drop (junk.length + e.txidAt + 8)) = none)
    (slots : Nat) :
    walkTxs (slots + 1) used (clipped c m (replyText junk (e :: es) tail)) = .done := by
  obtain ⟨-, hld, -⟩ := e.layout
  obtain ⟨y, hy⟩ := e.drop_data
  have htx := h.strstr_txid
  have hdt := h.strstr_data
  simp only [Entry.dataEnd] at hld hno
  by_cases ht : junk.length + e.txidAt + 8 ≤ c
  case neg =>
    rw [if_neg ht] at htx
    exact walkTxs_none _ htx
  by_cases hd : junk.length + e.dataAt + 8 ≤ c
  case neg =>
    rw [if_pos ht, txidKey] at htx
    rw [if_neg hd, dataKey] at hdt
    rw [walkTxs, htx]
    simp only [hdt]
    split <;> rfl
  have hdigits := drop_member m es tail Entry.dataKey_length hy hd (by omega)
  rw [if_pos ht, txidKey] at htx
  rw [if_pos hd, dataKey] at hdt
  by_cases hend : e.data.length + 1 ≤ c - (junk.length + e.dataAt + 8)
  case neg =>
    have hchr := strchr_digits (m := m) (k := c - (junk.length + e.dataAt + 8))
      (x := y ++ (es.flatMap Entry.text ++ tail)) e.data_hex
    rw [if_neg hend, ← hdigits] at hchr
    rw [walkTxs, htx]
    simp only [hdt, List.drop_drop, hchr]
    split <;> rfl
  have hnone := hno ht (by omega)
  rw [walkTxs, htx]
  simp only [List.drop_drop, hnone]

theorem id_whole (hc : junk.length + e.txidEnd ≤ c) :
    hex2binN 32 ((clipped c m (replyText junk (e :: es) tail)).drop
      (junk.length + e.txidAt + 8)) = some (unhex e.txid) := by
  obtain ⟨x, hx⟩ := e.drop_txid
  have hlt := e.layout.1
  have h64 := e.txid_len
  simp only [Entry.txidEnd] at hlt hc
  rw [drop_member _ _ _ Entry.txidKey_length hx (by omega) (by omega), clipped_append (by omega)]
  exact hex2binN_digits 32 e.txid_hex h64 _

theorem Standing.id_cut (h : Standing c used m junk (e :: es) tail)
    (ht : junk.length + e.txidAt + 8 ≤ c) (hc : c < junk.length + e.txidEnd) :
    (∀ bs, hex2binN 32 ((clipped c m (replyText junk (e :: es) tail)).drop
        (junk.length + e.txidAt + 8)) = some bs → junk.length + e.txidEnd = c + 1) ∧
      (hex2binN 32 ((clipped c m (replyText junk (e :: es) tail)).drop
        (junk.length + e.txidAt + 8)) = some (unhex e.txid) ↔
        junk.length + e.txidEnd = c + 1 ∧ e.txid.drop 62 = ascii "00") := by
  obtain ⟨x, hx⟩ := e.drop_txid
  have hlt := e.layout.1
  have h64 := e.txid_len
  have hm : m = [] := by
    have hlong := le_replyText_length junk e es tail
    apply h.behind
    omega
  simp only [Entry.txidEnd] at hlt hc ⊢
  rw [drop_member _ _ _ Entry.txidKey_length hx ht (by omega), clipped_short (by omega), hm]
  have hcut := hex2binN_cut 32 (c - (junk.length + e.txidAt + 8)) e.txid_hex h64 (by omega)
  refine ⟨fun bs hbs => ?_, hcut.2.trans (and_congr_left fun _ => ?_)⟩
  · have := hcut.1 bs hbs
    omega
  · omega

theorem Standing.taken (h : Standing c used m junk (e :: es) tail)
    (hin : e.Inside c junk.length) (slots : Nat) :
    junk.length + e.cursor ≤ c ∧
      walkTxs (slots + 1) used (clipped c m (replyText junk (e :: es) tail)) =
        .cons e.tx (walkTxs slots (used + e.data.length / 2)
          (clipped (c - (junk.length + e.cursor)) m (replyText e.rest es tail))) := by
  obtain ⟨hd, hid⟩ := hin
  have ht : junk.length + e.txidAt + 8 ≤ c := by
    simp only [Entry.txidEnd] at hid
    omega
  constructor
  · simp only [Entry.cursor, Entry.dataEnd] at hd ⊢
    omega
  · apply walkTxs_entry h ht hd
    by_cases hc : junk.length + e.txidEnd ≤ c
    · exact id_whole hc
    · exact (h.id_cut ht (by omega)).2.mpr (hid.resolve_left hc)

theorem Standing.clear (h : Standing c used m junk es tail) (hc : es = [] ∨ c < junk.length)
    (slots : Nat) : walkTxs slots used (clipped c m (replyText junk es tail)) = .done := by
  apply walkTxs_none
  cases es with
  | nil =>
    rw [strstr_clipped (by decide) (by decide) h.no_nul, h.txid.find_none (by decide)]
    rfl
  | cons e es =>
    have hlt := hc.resolve_left (by simp)
    rw [h.strstr_txid, if_neg (by omega)]

theorem Standing.not_taken (h : Standing c used m junk (e :: es) tail)
    (hin : ¬e.Inside c junk.length) (slots : Nat) :
    walkTxs (slots + 1) used (clipped c m (replyText junk (e :: es) tail)) = .done ∨
      ∃ tx, tx.id ≠ e.leaf ∧
        walkTxs (slots + 1) used (clipped c m (replyText junk (e :: es) tail)) =
          .cons tx .done := by
  by_cases hread : junk.length + e.txidAt + 8 ≤ c ∧ junk.length + e.dataEnd ≤ c ∧ ∃ disp,
      hex2binN 32 ((clipped c m (replyText junk (e :: es) tail)).drop
        (junk.length + e.txidAt + 8)) = some disp
  case neg =>
    left
    apply walkTxs_break h
    intro ht hd
    cases hdisp : hex2binN 32 _ with
    | none => rfl
    | some disp => exact absurd ⟨ht, hd, disp, hdisp⟩ hread
  -- the one id that can be read and is not whole: all but its last digit are there
  obtain ⟨ht, hd, disp, hdisp⟩ := hread
  have hc : c < junk.length + e.txidEnd := by
    by_contra hge
    exact hin ⟨hd, .inl (by omega)⟩
  obtain ⟨hlast, hsame⟩ := h.id_cut ht hc
  have hend := hlast disp hdisp
  right
  refine ⟨⟨disp.reverse, e.raw⟩, fun hleaf => ?_, ?_⟩
  · rw [List.reverse_injective hleaf] at hdisp
    exact hin ⟨hd, .inr (hsame.mp hdisp)⟩
  · have hrest : e.rest.length = e.text.length - e.cursor := List.length_drop
    obtain ⟨hlt, -, horder⟩ := e.layout
    have hcur : e.cursor = e.txidAt + 8 := by
      simp only [Entry.cursor, Entry.txidEnd, Entry.dataEnd] at *
      omega
    rw [walkTxs_entry h ht hd hdisp]
    congr 1
    apply (h.next (by omega)).clear
    right
    simp only [Entry.txidEnd] at hend hlt
    omega

def Within (c : Nat) : Nat → List Entry → Prop
  | _, [] => True
  | o, e :: es => e.Inside c o ∧ Within c (o + e.text.length) es

theorem inside_add {k o : Nat} (hk : k ≤ c) : e.Inside (c - k) o ↔ e.Inside c (k + o) := by
  apply and_congr
  · omega
  · apply or_congr
    · omega
    · exact and_congr_left fun _ => by omega

theorem within_add {k o : Nat} (hk : k ≤ c) : Within (c - k) o es ↔ Within c (k + o) es := by
  induction es generalizing o with
  | nil => exact Iff.rfl
  | cons e es ih => rw [Within, Within, inside_add hk, ih, Nat.add_assoc]

theorem within_rest (hc : junk.length + e.cursor ≤ c) :
    Within (c - (junk.length + e.cursor)) e.rest.length es ↔
      Within c (junk.length + e.text.length) es := by
  have hrest : e.rest.length = e.text.length - e.cursor := List.length_drop
  have hle := cursor_le e
  rw [within_add hc, hrest, show junk.length + e.cursor + (e.text.length - e.cursor) =
    junk.length + e.text.length by omega]

theorem within_of_length {o : Nat} (h : o + (es.flatMap Entry.text).length ≤ c) : Within c o es := by
  induction es generalizing o with
  | nil => trivial
  | cons e es ih =>
    rw [List.flatMap_cons, List.length_append] at h
    have hlayout := e.layout
    exact ⟨⟨by omega, .inl (by omega)⟩, ih (by omega)⟩

theorem walkTxs_within (h : Standing c used m junk es tail) {slots : Nat}
    (hslots : es.length ≤ slots) (hin : Within c junk.length es) :
    walkTxs slots used (clipped c m (replyText junk es tail)) = ⟨es.map Entry.tx, true⟩ := by
  induction es generalizing c used junk slots with
  | nil => exact h.clear (.inl rfl) slots
  | cons e es ih =>
    obtain ⟨slots, rfl⟩ := Nat.exists_eq_add_of_le' (Nat.le_trans (Nat.succ_pos _) hslots)
    obtain ⟨hc, htaken⟩ := h.taken hin.1 slots
    rw [htaken, ih (h.next hc) (by simpa using hslots) ((within_rest hc).mpr hin.2)]
    rfl

/-- The bytes always fit, and only then are the ids those of the entries. -/
theorem walkTxs_cases (h : Standing c used m junk es tail) (slots : Nat) :
    (walkTxs slots used (clipped c m (replyText junk es tail))).fits = true ∧
      ((walkTxs slots used (clipped c m (replyText junk es tail))).txs.map TemplateTx.id =
        es.map Entry.leaf → es.length ≤ slots ∧ Within c junk.length es) := by
  induction es generalizing c used junk slots with
  | nil =>
    rw [h.clear (.inl rfl) slots]
    exact ⟨rfl, fun _ => ⟨Nat.zero_le _, trivial⟩⟩
  | cons e es ih =>
    cases slots with
    | zero => exact ⟨rfl, nofun⟩
    | succ slots =>
      by_cases hin : e.Inside c junk.length
      · obtain ⟨hc, htaken⟩ := h.taken hin slots
        obtain ⟨hfits, hids⟩ := ih (h.next hc) slots
        rw [htaken]
        refine ⟨hfits, fun heq => ?_⟩
        obtain ⟨hlen, hwithin⟩ := hids (List.cons.inj heq).2
        exact ⟨by simpa using hlen, hin, (within_rest hc).mp hwithin⟩
      · obtain hdone | ⟨tx, hid, hone⟩ := h.not_taken hin slots
        · rw [hdone]
          exact ⟨rfl, nofun⟩
        · rw [hone]
          exact ⟨rfl, fun heq => absurd (List.cons.inj heq).1 hid⟩

end Walk

/-- A reply whose transactions array renders `entries`: no other member of it has
their keys. -/
structure TxReply where
  head : List Byte
  entries : List Entry
  tail : List Byte
  txid_only : Keyed txidKey Entry.txidAt head entries tail
  data_only : Keyed dataKey Entry.dataAt head entries tail
  no_nul : 0#8 ∉ replyText head entries tail

def TxReply.text (r : TxReply) : List Byte := replyText r.head r.entries r.tail

def respBuffer (g : Gbt) (text : List Byte) : List Byte :=
  clipped (respSize - 1) (g.resp.drop ((text.take (respSize - 1)).length + 1)) text

theorem rpcCall_some (g : Gbt) (text : List Byte) :
    rpcCall g.resp (some text) = some (respBuffer g text) := rfl

theorem TxReply.standing (r : TxReply) {g : Gbt} (hresp : g.resp.length ≤ respSize) :
    Standing (respSize - 1) 0 (g.resp.drop ((r.text.take (respSize - 1)).length + 1))
      r.head r.entries r.tail := by
  refine ⟨r.txid_only, r.data_only, r.no_nul, fun hlong => ?_, ?_⟩
  · apply List.drop_eq_nil_of_le
    rw [TxReply.text, List.length_take]
    omega
  · simp only [respSize, tplDataSize]
    omega

/-- The header fields can be read, and a coinbase can be built for the payout address
and the witness commitment. -/
def accepts (g : Gbt) (buffer : List Byte) : Bool :=
  match templateHead buffer with
  | .error _ => false
  | .ok hd => (bech32DecodeAddr (devfeeNextPayout g.devfee g.cfg.payoutAddress).2).isSome &&
      (coinbaseHex2bin hd.wc 64).isSome

theorem coinbaseBuild_isSome {address wcHex : List Byte} {value extranonce : U64} {height : U32}
    {cb : Coinbase} (h : coinbaseBuild address value height extranonce wcHex = .ok cb) :
    (bech32DecodeAddr address).isSome = true ∧ (coinbaseHex2bin wcHex 64).isSome = true := by
  simp only [coinbaseBuild] at h
  split at h
  · cases h
  rename_i ha
  split at h
  · cases h
  split at h
  · cases h
  · rename_i hwc
    rw [ha, hwc]
    exact ⟨rfl, rfl⟩

theorem fillTemplate_accepts {g g' : Gbt} {hd : TemplateHead} {h : KnotsHeader}
    (hok : fillTemplate g hd = (g', .ok h)) :
    (bech32DecodeAddr (devfeeNextPayout g.devfee g.cfg.payoutAddress).2).isSome = true ∧
      (coinbaseHex2bin hd.wc 64).isSome = true := by
  simp only [fillTemplate] at hok
  split at hok
  · cases hok
  split at hok
  · cases hok
  · rename_i hcb
    exact coinbaseBuild_isSome hcb

theorem getTemplate_ok {g g' : Gbt} {text : List Byte} {h : KnotsHeader}
    (hok : getTemplate g (some text) = (g', .ok h)) :
    accepts g (respBuffer g text) = true ∧ g'.tpl.BelongsTo h (templateTxs (respBuffer g text)).txs ∧
      g'.resp = respBuffer g text := by
  rw [getTemplate, rpcCall_some] at hok
  simp only [accepts]
  cases hhd : templateHead (respBuffer g text) with
  | error e =>
    simp only [hhd] at hok
    cases hok
  | ok hd =>
    simp only [hhd] at hok
    have hfill := fillTemplate_cases { g with resp := respBuffer g text } hd
    have hacc := fillTemplate_accepts hok
    rw [hok] at hfill
    cases hfill with
    | ok h hresp hflags hbelongs =>
      simp only [Bool.and_eq_true]
      exact ⟨hacc, hbelongs, hresp⟩

theorem getTemplate_of_accepts {g : Gbt} {text : List Byte}
    (hacc : accepts g (respBuffer g text) = true)
    (hfits : (templateTxs (respBuffer g text)).fits = true) :
    ∃ g' h, getTemplate g (some text) = (g', .ok h) := by
  rw [getTemplate, rpcCall_some]
  simp only [accepts] at hacc
  cases hhd : templateHead (respBuffer g text) with
  | error e =>
    rw [hhd] at hacc
    cases hacc
  | ok hd =>
    simp only [hhd, Bool.and_eq_true] at hacc ⊢
    have hfill := fillTemplate_cases { g with resp := respBuffer g text } hd
    generalize fillTemplate { g with resp := respBuffer g text } hd = out at hfill ⊢
    obtain ⟨g', res⟩ := out
    cases hfill with
    | late e hvalid hfail =>
      have hno := hfail hfits hacc.1
      rw [hacc.2] at hno
      cases hno
    | ok h => exact ⟨g', h, rfl⟩

/-- If the call returns 0, the template holds every transaction of the reply. -/
def TakenWhole (g : Gbt) (r : TxReply) : Prop :=
  ∀ g' h, getTemplate g (some r.text) = (g', .ok h) →
    g'.tpl.txCount = r.entries.length ∧
      (templateTxs g'.resp).txs.map TemplateTx.id = r.entries.map Entry.leaf ∧
      merkleRoot (g'.tpl.cb.txid :: r.entries.map Entry.leaf) = some h.hashMerkleRoot.toList ∧
      g'.tpl.txData = r.entries.flatMap Entry.raw

/-- There is a slot for every entry, and the buffer holds them all. -/
def Holdable (r : TxReply) : Prop :=
  r.entries.length ≤ tplMaxTx ∧ Within (respSize - 1) r.head.length r.entries

theorem template_taken_whole_iff (g : Gbt) (r : TxReply) (hresp : g.resp.length ≤ respSize) :
    TakenWhole g r ↔ (accepts g (respBuffer g r.text) = true → Holdable r) := by
  have hstand := r.standing hresp
  constructor
  · intro htaken hacc
    obtain ⟨hfits, hids⟩ := walkTxs_cases hstand tplMaxTx
    obtain ⟨g', h, hok⟩ := getTemplate_of_accepts hacc hfits
    obtain ⟨-, hleaves, -, -⟩ := htaken g' h hok
    rw [(getTemplate_ok hok).2.2] at hleaves
    exact hids hleaves
  · intro hhold g' h hok
    obtain ⟨hacc, hbelongs, hr⟩ := getTemplate_ok hok
    obtain ⟨hslots, hwithin⟩ := hhold hacc
    have hwalk : templateTxs (respBuffer g r.text) = ⟨r.entries.map Entry.tx, true⟩ :=
      walkTxs_within hstand hslots hwithin
    have hleaves : (r.entries.map Entry.tx).map TemplateTx.id = r.entries.map Entry.leaf := by
      rw [List.map_map]
      rfl
    rw [hwalk] at hbelongs
    rw [hr, hwalk]
    refine ⟨?_, hleaves, ?_, ?_⟩
    · rw [hbelongs.txCount, List.length_map]
    · rw [← hleaves]
      exact hbelongs.merkleRoot
    · rw [hbelongs.txData, List.flatMap_map]
      rfl

theorem accepts_append {g : Gbt} {a : List Byte} (h : accepts g a = true)
    (hnum : ∀ key ∈ ["height", "curtime", "version", "coinbasevalue"],
      ((jsonColon a key).any fun p => terminated (p.drop 1)) = true)
    (hwc : (jsonStr a "default_witness_commitment" 256).isSome = true) (b : List Byte) :
    accepts g (a ++ b) = true := by
  rw [accepts] at h ⊢
  cases hhd : templateHead a with
  | error e =>
    rw [hhd] at h
    cases h
  | ok hd =>
    rw [hhd] at h
    rw [templateHead_append hhd hnum hwc]
    exact h

theorem respBuffer_append (g : Gbt) {a : List Byte} (h : a.length ≤ respSize - 1) (b : List Byte) :
    ∃ r, respBuffer g (a ++ b) = a ++ r :=
  ⟨_, clipped_append h⟩

def crowdEntry (pre : String) : Entry where
  pre := ascii pre
  mid := ascii ","
  post := ascii "\x7d"
  txidFirst := false
  txid := List.replicate 64 (char 'a')
  data := ascii "0200"
  txid_hex := by decide
  txid_len := by decide
  data_hex := by decide
  data_even := by decide

def crowdFirst : Entry := crowdEntry "\x7b"

def crowdNext : Entry := crowdEntry ",\x7b"

def crowdHead : List Byte :=
  ascii "\x7b\"result\":\x7b\"version\":4,\"previousblockhash\":\"" ++
    List.replicate 64 (char '0') ++
    ascii "\",\"coinbasevalue\":5,\"curtime\":17,\"bits\":\"207fffff\",\"height\":9," ++
    ascii "\"default_witness_commitment\":\"6a24\",\"transactions\":["

def crowdTail : List Byte := ascii "]\x7d\x7d"

def crowdGbt : Gbt := gbtInit demoSoloCfg

theorem crowdHead_facts :
    (begins txidKey crowdHead = [] ∧ begins dataKey crowdHead = [] ∧ 0#8 ∉ crowdHead ∧
      crowdHead.length ≤ respSize - 1) ∧
    accepts crowdGbt crowdHead = true ∧
    (∀ key ∈ ["height", "curtime", "version", "coinbasevalue"],
      ((jsonColon crowdHead key).any fun p => terminated (p.drop 1)) = true) ∧
    (jsonStr crowdHead "default_witness_commitment" 256).isSome = true := by
  decide +kernel

theorem crowdEntry_facts : ∀ e ∈ [crowdFirst, crowdNext], begins txidKey e.text = [e.txidAt] ∧
    begins dataKey e.text = [e.dataAt] ∧ 0#8 ∉ e.text := by
  decide +kernel

theorem crowd_entries {n : Nat} {e : Entry} (h : e ∈ crowdFirst :: List.replicate n crowdNext) :
    e ∈ [crowdFirst, crowdNext] := by
  obtain rfl | h := List.mem_cons.mp h
  · exact List.mem_cons_self
  · rw [List.eq_of_mem_replicate h]
    exact List.mem_cons_of_mem _ List.mem_cons_self

theorem crowdTail_free {key : List Byte} (hkey : key.length = 8) (i : Nat) :
    ¬OccursAt key crowdTail i := by
  intro hoc
  have hle := hoc.le (List.ne_nil_of_length_pos (by omega))
  have hlen : crowdTail.length = 3 := rfl
  omega

def crowd (n : Nat) : TxReply where
  head := crowdHead
  entries := crowdFirst :: List.replicate n crowdNext
  tail := crowdTail
  txid_only := keyed_of_pieces crowdHead_facts.1.1
    (fun e h => (crowdEntry_facts e (crowd_entries h)).1) (crowdTail_free rfl)
  data_only := keyed_of_pieces crowdHead_facts.1.2.1
    (fun e h => (crowdEntry_facts e (crowd_entries h)).2.1) (crowdTail_free rfl)
  no_nul := by
    have htail : 0#8 ∉ crowdTail := by decide
    simp only [replyText, List.mem_append, List.mem_flatMap, not_or, not_exists, not_and]
    refine ⟨⟨crowdHead_facts.1.2.2.1, ?_⟩, htail⟩
    intro e h
    exact (crowdEntry_facts e (crowd_entries h)).2.2

theorem crowd_accepts (n : Nat) :
    accepts crowdGbt (respBuffer crowdGbt (crowd n).text) = true := by
  obtain ⟨⟨-, -, -, hlen⟩, hfront, hnum, hwc⟩ := crowdHead_facts
  obtain ⟨r, hr⟩ := respBuffer_append crowdGbt hlen
    ((crowd n).entries.flatMap Entry.text ++ crowdTail)
  rw [← List.append_assoc] at hr
  rw [show (crowd n).text = crowdHead ++ (crowd n).entries.flatMap Entry.text ++ crowdTail from rfl, hr]
  exact accepts_append hfront hnum hwc r

theorem crowd_returns (n : Nat) :
    ∃ g' h, getTemplate crowdGbt (some (crowd n).text) = (g', .ok h) := by
  apply getTemplate_of_accepts (crowd_accepts n)
  exact (walkTxs_cases ((crowd n).standing (Nat.zero_le _)) tplMaxTx).1

theorem template_taken_whole_two :
    crowdGbt.resp.length ≤ respSize ∧ (crowd 1).entries.length = 2 ∧
      TakenWhole crowdGbt (crowd 1) := by
  refine ⟨Nat.zero_le _, rfl, (template_taken_whole_iff crowdGbt (crowd 1) (Nat.zero_le _)).mpr ?_⟩
  intro _
  exact ⟨by decide, within_of_length (by decide +kernel)⟩

/-- One transaction more than there are slots: the call returns 0 without it. -/
theorem template_cut_short :
    (crowd 8192).entries.length = 8193 ∧ ¬TakenWhole crowdGbt (crowd 8192) := by
  have hlen : (crowd 8192).entries.length = 8193 := by
    rw [crowd, List.length_cons, List.length_replicate]
  refine ⟨hlen, fun htaken => ?_⟩
  obtain ⟨g', h, hok⟩ := crowd_returns 8192
  have hcount := (htaken g' h hok).1
  have hle := walkTxs_length tplMaxTx 0 (respBuffer crowdGbt (crowd 8192).text)
  rw [(getTemplate_ok hok).2.1.txCount, hlen] at hcount
  simp only [templateTxs, tplMaxTx] at hcount hle
  omega

end OspreyBlake2b.Miner
