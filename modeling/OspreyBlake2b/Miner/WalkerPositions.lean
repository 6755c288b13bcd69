import OspreyBlake2b.Lib.JsonArray
import OspreyBlake2b.Miner.WalkerLaws

namespace OspreyBlake2b.Miner

open OspreyBlake2b.Lib OspreyBlake2b.Lib.JsonText

variable {r : List Byte}

theorem value_not_cls {t : List Byte} (h : Derives .value t) (r : List Byte) :
    deref (t ++ r) ≠ char ']' := by
  obtain ⟨hne, hall⟩ | ⟨k, -, rfl⟩ | ⟨opn, cls, u, hb, rfl, -⟩ := value_cases h
  · obtain ⟨c, t, rfl⟩ := List.exists_cons_of_ne_nil hne
    rintro rfl
    exact absurd (hall _ List.mem_cons_self).2 (by decide)
  · change char '"' ≠ char ']'
    decide
  · obtain ⟨rfl, rfl⟩ | ⟨rfl, rfl⟩ := hb
    · change char '[' ≠ char ']'
      decide
    · change char '{' ≠ char ']'
      decide

theorem jsWs_element (e : Element) (r : List Byte) :
    jsWs (e.text ++ r) = e.value.val ++ (e.after.val ++ r) := by
  rw [Element.text, List.append_assoc, List.append_assoc, jsWs_white,
    jsWs_head (value_head e.value.property _)]

theorem jsSkip_element (e : Element) (hr : isDelim (deref r) = true) :
    jsSkip (e.value.val ++ (e.after.val ++ r)) = some (e.after.val ++ r) :=
  jsSkip_value e.value.property (isDelim_white e.after hr)

theorem closeElements_head (es : List Element) (r : List Byte) :
    deref (closeElements es r) = if es = [] then char ']' else char ',' := by
  cases es <;> rfl

theorem closeElements_delim (es : List Element) (r : List Byte) :
    isDelim (deref (closeElements es r)) = true ∧ jsWs (closeElements es r) = closeElements es r := by
  cases es with
  | nil => exact ⟨rfl, jsWs_head rfl⟩
  | cons e es => exact ⟨rfl, jsWs_head rfl⟩

theorem jsElemLoop_succ (idx : Nat) (e : Element) (es : List Element) (r : List Byte) :
    jsElemLoop (idx + 1) (jsWs (joinElements (e :: es) ++ char ']' :: r)) =
      if es = [] then none else jsElemLoop idx (jsWs (joinElements es ++ char ']' :: r)) := by
  obtain ⟨hdelim, hws⟩ := closeElements_delim es r
  rw [joinElements_close, jsWs_element, jsElemLoop, jsSkip_element e hdelim]
  dsimp only
  rw [jsWs_white, hws, closeElements_head]
  cases es with
  | nil => rfl
  | cons e' es => rfl

theorem jsElemLoop_at (before : List Element) (e : Element) (behind : List Element)
    (r : List Byte) :
    jsElemLoop before.length (jsWs (joinElements (before ++ e :: behind) ++ char ']' :: r)) =
      some (e.value.val ++ (e.after.val ++ closeElements behind r)) := by
  induction before with
  | nil =>
    rw [List.nil_append, joinElements_close, jsWs_element]
    rfl
  | cons e' before ih =>
    rw [List.cons_append, List.length_cons, jsElemLoop_succ, if_neg (by simp), ih]

theorem jsElemLoop_past {es : List Element} (hne : es ≠ []) {idx : Nat} (hidx : es.length ≤ idx)
    (r : List Byte) : jsElemLoop idx (jsWs (joinElements es ++ char ']' :: r)) = none := by
  induction es generalizing idx with
  | nil => exact absurd rfl hne
  | cons e es ih =>
    obtain ⟨idx, rfl⟩ := Nat.exists_eq_succ_of_ne_zero (Nat.ne_zero_of_lt hidx)
    rw [jsElemLoop_succ]
    split
    · rfl
    · exact ih ‹_› (Nat.le_of_succ_le_succ hidx)

theorem jsCountLoop_elements {es : List Element} (hne : es ≠ []) {fuel : Nat}
    (hfuel : es.length ≤ fuel) (n : Int) (r : List Byte) :
    jsCountLoop fuel n (jsWs (joinElements es ++ char ']' :: r)) = n + es.length := by
  induction es generalizing fuel n with
  | nil => exact absurd rfl hne
  | cons e es ih =>
    obtain ⟨fuel, rfl⟩ := Nat.exists_eq_succ_of_ne_zero (Nat.ne_zero_of_lt hfuel)
    obtain ⟨hdelim, hws⟩ := closeElements_delim es r
    rw [joinElements_close, jsWs_element, jsCountLoop, jsSkip_element e hdelim]
    dsimp only
    rw [jsWs_white, hws, closeElements_head]
    obtain rfl | hmore := eq_or_ne es []
    · rfl
    · obtain ⟨e', es, rfl⟩ := List.exists_cons_of_ne_nil hmore
      rw [if_neg hmore, if_pos rfl]
      change jsCountLoop fuel (n + 1) (jsWs (joinElements (e' :: es) ++ char ']' :: r)) = _
      rw [ih hmore (Nat.le_of_succ_le_succ hfuel), List.length_cons (a := e), Nat.cast_succ]
      omega

theorem length_joinElements (es : List Element) :
    es.length ≤ (joinElements es).length + 1 := by
  induction es with
  | nil => exact Nat.zero_le _
  | cons e es ih =>
    obtain rfl | hne := eq_or_ne es []
    · exact Nat.le_add_left _ _
    · rw [joinElements_cons hne, List.length_append, List.length_cons, List.length_cons]
      omega

theorem ArrayText.text_append (a : ArrayText) (r : List Byte) :
    a.text ++ r = a.lead.val ++ char '[' :: (a.inner.val ++ (joinElements a.elements ++
      char ']' :: (a.trail.val ++ r))) := by
  simp [ArrayText.text]

theorem deref_joinElements {es : List Element} (hne : es ≠ []) (r : List Byte) :
    deref (jsWs (joinElements es ++ char ']' :: r)) ≠ char ']' := by
  obtain ⟨e, es, rfl⟩ := List.exists_cons_of_ne_nil hne
  rw [joinElements_close, jsWs_element]
  exact value_not_cls e.value.property _

theorem jsElem_array (a : ArrayText) (r : List Byte) (idx : Nat) :
    jsElem (a.text ++ r) idx =
      if a.elements = [] then none
      else jsElemLoop idx (jsWs (joinElements a.elements ++ char ']' :: (a.trail.val ++ r))) := by
  have hopn (p : List Byte) : jsWs (char '[' :: p) = char '[' :: p := jsWs_head rfl
  rw [ArrayText.text_append, jsElem, jsWs_white, hopn]
  simp only [Json.deref_cons, ne_eq, not_true_eq_false, if_false, List.drop_succ_cons,
    List.drop_zero, jsWs_white]
  by_cases hne : a.elements = []
  · rw [hne, joinElements, List.nil_append, jsWs_head rfl]
    rfl
  · rw [if_neg (deref_joinElements hne _), if_neg hne]

theorem jsElem_at {a : ArrayText} {before : List Element} {e : Element} {behind : List Element}
    (h : a.elements = before ++ e :: behind) (r : List Byte) :
    jsElem (a.text ++ r) before.length =
      some (e.value.val ++ (e.after.val ++ closeElements behind (a.trail.val ++ r))) := by
  rw [jsElem_array, if_neg (by simp [h]), h, jsElemLoop_at]

theorem jsElem_past {a : ArrayText} {idx : Nat} (h : a.elements.length ≤ idx) (r : List Byte) :
    jsElem (a.text ++ r) idx = none := by
  rw [jsElem_array]
  split
  · rfl
  · exact jsElemLoop_past ‹_› h _

theorem jsElem_getElem (a : ArrayText) (r : List Byte) (idx : Nat) :
    jsElem (a.text ++ r) idx = a.elements[idx]?.map fun e =>
      e.value.val ++ (e.after.val ++ closeElements (a.elements.drop (idx + 1)) (a.trail.val ++ r)) := by
  cases hget : a.elements[idx]? with
  | none => exact jsElem_past (List.getElem?_eq_none_iff.mp hget) r
  | some e =>
    obtain ⟨hlt, rfl⟩ := List.getElem?_eq_some_iff.mp hget
    have hsplit : a.elements = a.elements.take idx ++ a.elements[idx] :: a.elements.drop (idx + 1) := by
      rw [← List.drop_eq_getElem_cons hlt, List.take_append_drop]
    have hat := jsElem_at hsplit r
    rwa [List.length_take, Nat.min_eq_left (Nat.le_of_lt hlt)] at hat

theorem jsCount_array (a : ArrayText) (r : List Byte) :
    jsCount (a.text ++ r) = a.elements.length := by
  have hopn (p : List Byte) : jsWs (char '[' :: p) = char '[' :: p := jsWs_head rfl
  rw [ArrayText.text_append, jsCount, jsWs_white, hopn]
  simp only [Json.deref_cons, ne_eq, not_true_eq_false, if_false, List.drop_succ_cons,
    List.drop_zero, jsWs_white]
  by_cases hne : a.elements = []
  · rw [hne, joinElements, List.nil_append, jsWs_head rfl]
    rfl
  · have hlen := length_joinElements a.elements
    rw [if_neg (deref_joinElements hne _), jsCountLoop_elements hne, Int.zero_add]
    simp only [List.length_cons, List.length_append]
    omega

theorem jsSkip_white (w : White) (p : List Byte) : jsSkip (w.val ++ p) = jsSkip p := by
  rw [jsSkip, jsSkip, jsWs_white]

/-- For every text of the grammar and any text behind it.  A position is the text from there
on; every object and every array of the grammar is written as an `Object` or an `ArrayText`. -/
theorem walkers_correct :
    (∀ (w : White) (v : Value) (r : List Byte), isDelim (deref r) = true →
      jsSkip (w.val ++ (v.val ++ r)) = some r) ∧
    (∀ (o : Object) (key : String) (r : List Byte),
      (∀ before m behind, o.members = before ++ m :: behind → m.key.val = ascii key →
        (∀ b ∈ before, b.key.val ≠ ascii key) → jsGet (o.text ++ r) key =
          some (m.value.val ++ (m.after.val ++ closeMembers behind (o.trail.val ++ r)))) ∧
      ((∀ m ∈ o.members, m.key.val ≠ ascii key) → jsGet (o.text ++ r) key = none)) ∧
    (∀ (a : ArrayText) (r : List Byte), jsCount (a.text ++ r) = a.elements.length ∧
      (∀ before e behind, a.elements = before ++ e :: behind →
        jsElem (a.text ++ r) before.length =
          some (e.value.val ++ (e.after.val ++ closeElements behind (a.trail.val ++ r)))) ∧
      ∀ idx, a.elements.length ≤ idx → jsElem (a.text ++ r) idx = none) ∧
    ∀ (v : Value) (lead trail : White),
      (deref v.val = char '{' → ∃ o : Object, o.text = lead.val ++ v.val ++ trail.val) ∧
      (deref v.val = char '[' → ∃ a : ArrayText, a.text = lead.val ++ v.val ++ trail.val) := by
  refine ⟨fun w v r hr => ?_, fun o key r => ⟨?_, fun hnone => jsGet_none hnone r⟩,
    fun a r => ⟨jsCount_array a r, ?_, fun idx hidx => jsElem_past hidx r⟩,
    fun v lead trail => ⟨fun hbrace => exists_object v.property hbrace lead trail,
      fun hbracket => exists_array v.property hbracket lead trail⟩⟩
  · rw [jsSkip_white, jsSkip_value v.property hr]
  · intro before m behind hmembers hkey hbefore
    exact jsGet_first hmembers hkey hbefore r
  · intro before e behind helements
    exact jsElem_at helements r

def digitValue (d : Byte) (h : isInt [d] = true) : Value :=
  ⟨[] ++ [d] ++ [] ++ [], .number rfl h rfl rfl⟩

def idMember (v : Value) : Member :=
  ⟨noWhite, ⟨ascii "id", by decide +kernel⟩, noWhite, noWhite, v, noWhite⟩

def bracketed : Element := ⟨noWhite, ⟨_, .string (t := ascii "a]\x7db") (by decide +kernel)⟩, noWhite⟩

def deepId : Element :=
  ⟨⟨ascii " ", by decide⟩, ⟨_, .object (idMember (digitValue 0x31#8 rfl)).derives⟩, noWhite⟩

def paramsMember : Member :=
  ⟨noWhite, ⟨ascii "params", by decide +kernel⟩, noWhite, noWhite,
    ⟨_, .array (.elements bracketed.derives deepId.derives)⟩, noWhite⟩

theorem walkers_correct_nested :
    let arr := ascii "[\"a]\x7db\", \x7b\"id\":1\x7d]"
    let obj := ascii "\x7b\"params\":[\"a]\x7db\", \x7b\"id\":1\x7d],\"id\":4\x7d"
    jsSkip (arr ++ ascii ",4") = some (ascii ",4") ∧
      jsGet obj "id" = some (ascii "4\x7d") ∧ jsGet obj "a]\x7db" = none ∧
      jsCount arr = 2 ∧ jsElem arr 1 = some (ascii "\x7b\"id\":1\x7d]") ∧ jsElem arr 2 = none ∧
      ∃ a : ArrayText, a.text = arr := by
  intro arr obj
  obtain ⟨hskip, hget, harray, hall⟩ := walkers_correct
  have hobj := hget ⟨noWhite, noWhite, [paramsMember, idMember (digitValue 0x34#8 rfl)], noWhite⟩
  obtain ⟨hcount, helem, hpast⟩ := harray ⟨noWhite, noWhite, [bracketed, deepId], noWhite⟩ []
  refine ⟨hskip noWhite paramsMember.value (ascii ",4") (by decide),
    (hobj "id" []).1 [paramsMember] _ [] rfl rfl ?_, (hobj "a]\x7db" []).2 ?_, hcount,
    helem [bracketed] deepId [] rfl, hpast 2 (Nat.le_refl _),
    (hall paramsMember.value noWhite noWhite).2 (by decide)⟩
  · decide +kernel
  · decide +kernel

end OspreyBlake2b.Miner
