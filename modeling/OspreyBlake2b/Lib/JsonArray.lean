import OspreyBlake2b.Lib.JsonObject

namespace OspreyBlake2b.Lib.JsonText

structure Element where
  before : White
  value : Value
  after : White

def Element.text (e : Element) : List Byte := e.before.val ++ e.value.val ++ e.after.val

theorem Element.derives (e : Element) : Derives .elements e.text :=
  .element e.before e.after e.value.property

def joinElements : List Element → List Byte
  | [] => []
  | [e] => e.text
  | e :: es => e.text ++ char ',' :: joinElements es

theorem joinElements_cons {es : List Element} (h : es ≠ []) (e : Element) :
    joinElements (e :: es) = e.text ++ char ',' :: joinElements es := by
  cases es with
  | nil => exact absurd rfl h
  | cons e' es => rfl

theorem joinElements_append {es es' : List Element} (h : es ≠ []) (h' : es' ≠ []) :
    joinElements (es ++ es') = joinElements es ++ char ',' :: joinElements es' := by
  induction es with
  | nil => exact absurd rfl h
  | cons e es ih =>
    rw [List.cons_append]
    obtain rfl | hne := eq_or_ne es []
    · exact joinElements_cons h' e
    · rw [joinElements_cons (by simp [hne]), joinElements_cons hne, ih hne]
      simp

theorem derives_joinElements {es : List Element} (h : es ≠ []) :
    Derives .elements (joinElements es) := by
  induction es with
  | nil => exact absurd rfl h
  | cons e es ih =>
    obtain rfl | hne := eq_or_ne es []
    · exact e.derives
    · rw [joinElements_cons hne]
      exact .elements e.derives (ih hne)

theorem exists_joinElements {t : List Byte} (h : Derives .elements t) :
    ∃ es, es ≠ [] ∧ joinElements es = t := by
  generalize hs : Nonterminal.elements = s at h
  induction h with
  | element w₁ w₂ hv => exact ⟨[⟨w₁, ⟨_, hv⟩, w₂⟩], by simp, rfl⟩
  | elements h hs ih ihs =>
    obtain ⟨es, hne, rfl⟩ := ih rfl
    obtain ⟨es', hne', rfl⟩ := ihs rfl
    exact ⟨es ++ es', by simp [hne], joinElements_append hne hne'⟩
  | null | bool | number | string | emptyArray | array | emptyObject | object | member
  | members => cases hs

def closeElements : List Element → List Byte → List Byte
  | [], r => char ']' :: r
  | es, r => char ',' :: (joinElements es ++ char ']' :: r)

theorem joinElements_close (e : Element) (es : List Element) (r : List Byte) :
    joinElements (e :: es) ++ char ']' :: r = e.text ++ closeElements es r := by
  cases es <;> simp [joinElements, closeElements]

/-- An array with the whitespace on its line; `inner` is the whitespace of an empty one. -/
structure ArrayText where
  lead : White
  inner : White
  elements : List Element
  trail : White

def ArrayText.text (a : ArrayText) : List Byte :=
  a.lead.val ++ (char '[' :: a.inner.val ++ joinElements a.elements ++ [char ']']) ++ a.trail.val

theorem ArrayText.derives (a : ArrayText) : ∃ t, Derives .value t ∧ deref t = char '[' ∧
    a.text = a.lead.val ++ t ++ a.trail.val := by
  refine ⟨_, ?_, rfl, rfl⟩
  cases hes : a.elements with
  | nil => simpa [joinElements] using Derives.emptyArray a.inner
  | cons e es =>
    -- the first element takes the whitespace behind the bracket
    have hwhite : (a.inner.val ++ e.before.val).all isWhite = true := by
      rw [List.all_append, a.inner.property, e.before.property]
      rfl
    have hjoin : joinElements ({ e with before := ⟨_, hwhite⟩ } :: es) =
        a.inner.val ++ joinElements (e :: es) := by
      cases es <;> simp [joinElements, Element.text]
    have hne : ({ e with before := ⟨_, hwhite⟩ } :: es) ≠ [] := List.cons_ne_nil _ _
    have h := Derives.array (derives_joinElements hne)
    rw [hjoin] at h
    simpa using h

def IsArray (t : List Byte) (es : List Element) : Prop :=
  ∃ inner : White, t = char '[' :: inner.val ++ joinElements es ++ [char ']']

theorem exists_elements {t : List Byte} (h : Derives .value t) (hbracket : deref t = char '[') :
    ∃ es, IsArray t es := by
  cases h with
  | emptyArray w => exact ⟨[], w, by simp [joinElements]⟩
  | array h =>
    obtain ⟨es, -, rfl⟩ := exists_joinElements h
    exact ⟨es, ⟨[], rfl⟩, rfl⟩
  | null => cases hbracket
  | bool b => cases b <;> cases hbracket
  | @number s n f e hs hint hf he =>
    rw [List.append_assoc (s ++ n)] at hbracket
    exact absurd hbracket (number_head hs hint _ (by decide) (by decide))
  | string h => cases hbracket
  | emptyObject w => cases hbracket
  | object h => cases hbracket

theorem exists_array {t : List Byte} (h : Derives .value t) (hbracket : deref t = char '[')
    (lead trail : White) : ∃ a : ArrayText, a.text = lead.val ++ t ++ trail.val := by
  obtain ⟨es, inner, rfl⟩ := exists_elements h hbracket
  exact ⟨⟨lead, inner, es, trail⟩, rfl⟩

end OspreyBlake2b.Lib.JsonText
