import OspreyBlake2b.Lib.JsonParse

namespace OspreyBlake2b.Lib.JsonText

structure Member where
  before : White
  key : { k : List Byte // isBody k = true }
  behind : White
  ahead : White
  value : Value
  after : White

namespace Member

def text (m : Member) : List Byte :=
  m.before.val ++ (char '"' :: m.key.val ++ [char '"']) ++ m.behind.val ++ [char ':'] ++
    m.ahead.val ++ m.value.val ++ m.after.val

theorem derives (m : Member) : Derives .members m.text :=
  .member m.before m.behind m.ahead m.after m.key.property m.value.property

def name (m : Member) : Option (List Byte) :=
  (Json.parseStr (m.key.val.length + 1) (m.key.val ++ [char '"'])).map Prod.fst

theorem name_plain {m : Member} (h : ∀ c ∈ m.key.val, Json.Plain c) : m.name = some m.key.val := by
  rw [name, Json.parseStr_plain h (Nat.lt_succ_self _)]
  rfl

end Member

def joinMembers : List Member → List Byte
  | [] => []
  | [m] => m.text
  | m :: ms => m.text ++ char ',' :: joinMembers ms

theorem joinMembers_cons {ms : List Member} (h : ms ≠ []) (m : Member) :
    joinMembers (m :: ms) = m.text ++ char ',' :: joinMembers ms := by
  cases ms with
  | nil => exact absurd rfl h
  | cons m' ms => rfl

theorem joinMembers_append {ms ms' : List Member} (h : ms ≠ []) (h' : ms' ≠ []) :
    joinMembers (ms ++ ms') = joinMembers ms ++ char ',' :: joinMembers ms' := by
  induction ms with
  | nil => exact absurd rfl h
  | cons m ms ih =>
    rw [List.cons_append]
    obtain rfl | hne := eq_or_ne ms []
    · exact joinMembers_cons h' m
    · rw [joinMembers_cons (by simp [hne]), joinMembers_cons hne, ih hne]
      simp

theorem derives_joinMembers {ms : List Member} (h : ms ≠ []) : Derives .members (joinMembers ms) := by
  induction ms with
  | nil => exact absurd rfl h
  | cons m ms ih =>
    obtain rfl | hne := eq_or_ne ms []
    · exact m.derives
    · rw [joinMembers_cons hne]
      exact .members m.derives (ih hne)

def closeMembers : List Member → List Byte → List Byte
  | [], r => char '}' :: r
  | ms, r => char ',' :: (joinMembers ms ++ char '}' :: r)

theorem joinMembers_close (m : Member) (ms : List Member) (r : List Byte) :
    joinMembers (m :: ms) ++ char '}' :: r = m.text ++ closeMembers ms r := by
  cases ms <;> simp [joinMembers, closeMembers]

theorem exists_joinMembers {t : List Byte} (h : Derives .members t) :
    ∃ ms, ms ≠ [] ∧ joinMembers ms = t := by
  generalize hs : Nonterminal.members = s at h
  induction h with
  | member w₁ w₂ w₃ w₄ hk hv => exact ⟨[⟨w₁, ⟨_, hk⟩, w₂, w₃, ⟨_, hv⟩, w₄⟩], by simp, rfl⟩
  | members h hs ih ihs =>
    obtain ⟨ms, hne, rfl⟩ := ih rfl
    obtain ⟨ms', hne', rfl⟩ := ihs rfl
    exact ⟨ms ++ ms', by simp [hne], joinMembers_append hne hne'⟩
  | null | bool | number | string | emptyArray | array | emptyObject | object | element
  | elements => cases hs

structure Object where
  lead : White
  inner : White
  members : List Member
  trail : White

namespace Object

def text (o : Object) : List Byte :=
  o.lead.val ++ (char '{' :: o.inner.val ++ joinMembers o.members ++ [char '}']) ++ o.trail.val

def named (o : Object) (k : String) : List Member :=
  o.members.filter fun m => m.name = some (ascii k)

end Object

theorem Object.derives (o : Object) : ∃ t, Derives .value t ∧ deref t = char '{' ∧
    o.text = o.lead.val ++ t ++ o.trail.val := by
  refine ⟨_, ?_, rfl, rfl⟩
  cases hms : o.members with
  | nil => simpa [joinMembers] using Derives.emptyObject o.inner
  | cons m ms =>
    -- the first member takes the whitespace behind the brace
    have hwhite : (o.inner.val ++ m.before.val).all isWhite = true := by
      rw [List.all_append, o.inner.property, m.before.property]
      rfl
    have hjoin : joinMembers ({ m with before := ⟨_, hwhite⟩ } :: ms) =
        o.inner.val ++ joinMembers (m :: ms) := by
      cases ms <;> simp [joinMembers, Member.text]
    have hne : ({ m with before := ⟨_, hwhite⟩ } :: ms) ≠ [] := List.cons_ne_nil _ _
    have h := Derives.object (derives_joinMembers hne)
    rw [hjoin] at h
    simpa using h

theorem exists_object {t : List Byte} (h : Derives .value t) (hbrace : deref t = char '{')
    (lead trail : White) : ∃ o : Object, o.text = lead.val ++ t ++ trail.val := by
  cases h with
  | emptyObject w => exact ⟨⟨lead, w, [], trail⟩, by simp [Object.text, joinMembers]⟩
  | object h =>
    obtain ⟨ms, -, rfl⟩ := exists_joinMembers h
    exact ⟨⟨lead, ⟨[], rfl⟩, ms, trail⟩, by simp [Object.text]⟩
  | null => cases hbrace
  | bool b => cases b <;> cases hbrace
  | @number s n f e hs hint hf he =>
    rw [List.append_assoc (s ++ n)] at hbrace
    exact absurd hbrace (number_head hs hint _ (by decide) (by decide))
  | string h => cases hbrace
  | emptyArray w => cases hbrace
  | array h => cases hbrace

end OspreyBlake2b.Lib.JsonText
