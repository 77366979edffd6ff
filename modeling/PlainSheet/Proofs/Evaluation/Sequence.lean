import Mathlib.Data.List.Forall2
import PlainSheet.Evaluation.Findings

/-! Lists of computations that may fail, run from left to right. They have values when each
of them has one, and otherwise the first that fails decides the error. Where computations may
also have no end, the first that has none or fails decides. -/

namespace PlainSheet.Evaluation

variable {ε α β : Type} {f : α → Except ε β}

theorem map_eq_ok_iff {shown : Except ε α} {g : α → β} {b : β} :
    shown.map g = .ok b ↔ ∃ a, shown = .ok a ∧ g a = b := by
  cases shown <;> simp [Except.map]

theorem map_eq_error_iff {shown : Except ε α} {g : α → β} {cause : ε} :
    shown.map g = .error cause ↔ shown = .error cause := by
  cases shown <;> simp [Except.map]

theorem mapM_cons_of_ok {a : α} {b : β} (h : f a = .ok b) (list : List α) :
    (a :: list).mapM f = (list.mapM f).map (b :: ·) := by
  rw [List.mapM_cons, h]
  cases list.mapM f <;> rfl

theorem mapM_cons_of_error {a : α} {cause : ε} (h : f a = .error cause) (list : List α) :
    (a :: list).mapM f = .error cause := by
  rw [List.mapM_cons, h]
  rfl

/-- A list has values when each of its members has the value at its place. -/
theorem mapM_eq_ok_iff {list : List α} {values : List β} :
    list.mapM f = .ok values ↔ List.Forall₂ (fun a b => f a = .ok b) list values := by
  induction list generalizing values with
  | nil => simp [pure, Except.pure, eq_comm]
  | cons a list ih =>
      cases hFirst : f a with
      | error cause => simp [mapM_cons_of_error hFirst, List.forall₂_cons_left_iff, hFirst]
      | ok b =>
          rw [mapM_cons_of_ok hFirst, List.forall₂_cons_left_iff]
          cases hRest : list.mapM f with
          | error cause => simp [Except.map, ← ih, hRest]
          | ok others => simp [Except.map, ← ih, hRest, hFirst, eq_comm]

/-- The error is that of the first member that has no value. -/
theorem exists_of_mapM_eq_error {list : List α} {cause : ε} (h : list.mapM f = .error cause) :
    ∃ front a back, list = front ++ a :: back ∧ (∀ b ∈ front, ∃ value, f b = .ok value) ∧
      f a = .error cause := by
  induction list with
  | nil => cases h
  | cons a list ih =>
      cases hFirst : f a with
      | error other =>
          rw [mapM_cons_of_error hFirst] at h
          cases h
          exact ⟨[], a, list, rfl, by simp, hFirst⟩
      | ok value =>
          rw [mapM_cons_of_ok hFirst, map_eq_error_iff] at h
          obtain ⟨front, b, back, rfl, hFront, hError⟩ := ih h
          exact ⟨a :: front, b, back, rfl, List.forall_mem_cons.mpr ⟨⟨value, hFirst⟩, hFront⟩,
            hError⟩

/-- Functions that agree on the members agree on the list. -/
theorem mapM_congr {g : α → Except ε β} {list : List α} (h : ∀ a ∈ list, f a = g a) :
    list.mapM f = list.mapM g := by
  induction list with
  | nil => rfl
  | cons a list ih =>
      rw [List.forall_mem_cons] at h
      rw [List.mapM_cons, List.mapM_cons, h.1, ih h.2]

/-- A list that does not fail for a cause comes to the same under another function, if this agrees
on the members that do not fail for it. -/
theorem mapM_eq_of_ne {g : α → Except ε β} {cause : ε} {list : List α}
    (hSame : ∀ a ∈ list, f a ≠ .error cause → g a = f a) (h : list.mapM f ≠ .error cause) :
    list.mapM g = list.mapM f := by
  induction list with
  | nil => rfl
  | cons a list ih =>
      rw [List.forall_mem_cons] at hSame
      cases hFirst : f a with
      | error other =>
          rw [mapM_cons_of_error hFirst] at h ⊢
          have hFails : f a ≠ .error cause := hFirst ▸ fun hOther => h (by cases hOther; rfl)
          exact mapM_cons_of_error ((hSame.1 hFails).trans hFirst) list
      | ok b =>
          rw [mapM_cons_of_ok hFirst] at h ⊢
          have hValue : g a = .ok b := (hSame.1 (by simp [hFirst])).trans hFirst
          rw [mapM_cons_of_ok hValue, ih hSame.2 fun hRest => h (map_eq_error_iff.mpr hRest)]

/-- What stands at a place of one list is related to what stands there in the other. -/
theorem getElem?_of_forall₂ {related : α → β → Prop} {list : List α} {others : List β}
    (h : List.Forall₂ related list others) {place : Nat} {a : α} (hPlace : list[place]? = some a) :
    ∃ b, others[place]? = some b ∧ related a b := by
  obtain ⟨hList, rfl⟩ := List.getElem?_eq_some_iff.mp hPlace
  have hOthers : place < others.length := h.length_eq ▸ hList
  exact ⟨others[place], List.getElem?_eq_getElem hOthers, h.get hList hOthers⟩

section InOrder

variable {g : α → Option (Except ε β)}

theorem map_eq_some_ok_iff {γ : Type} {answer : Option (Except ε β)} {h : β → γ} {c : γ} :
    answer.map (Except.map h) = some (.ok c) ↔ ∃ b, answer = some (.ok b) ∧ h b = c := by
  rcases answer with _ | _ | _ <;> simp [Except.map]

theorem inOrder_cons_of_ok {a : α} {b : β} (h : g a = some (.ok b)) (list : List α) :
    inOrder g (a :: list) = (inOrder g list).map (Except.map (b :: ·)) := by
  rw [inOrder, h]

theorem inOrder_cons_of_error {a : α} {cause : ε} (h : g a = some (.error cause))
    (list : List α) : inOrder g (a :: list) = some (.error cause) := by
  rw [inOrder, h]

/-- A member that has no end hides whatever stands behind it. -/
theorem inOrder_cons_of_none {a : α} (h : g a = none) (list : List α) :
    inOrder g (a :: list) = none := by
  rw [inOrder, h]

/-- A list has values when each of its members has the value at its place. -/
theorem inOrder_eq_ok_iff {list : List α} {values : List β} :
    inOrder g list = some (.ok values) ↔
      List.Forall₂ (fun a b => g a = some (.ok b)) list values := by
  induction list generalizing values with
  | nil => simp [inOrder, eq_comm]
  | cons a list ih =>
      rw [List.forall₂_cons_left_iff]
      rcases hFirst : g a with _ | cause | b
      · simp [inOrder_cons_of_none hFirst]
      · simp [inOrder_cons_of_error hFirst]
      · rw [inOrder_cons_of_ok hFirst, map_eq_some_ok_iff]
        simp [ih, eq_comm]

/-- The first member that has no value stops the list, by its error or by having no end. -/
theorem inOrder_cases (g : α → Option (Except ε β)) (list : List α) :
    (∃ values, inOrder g list = some (.ok values)) ∨
      ∃ (stop : Option ε) (front : List α) (a : α) (back : List α),
        list = front ++ a :: back ∧ (∀ b ∈ front, ∃ value, g b = some (.ok value)) ∧
          g a = stop.map .error ∧ inOrder g list = stop.map .error := by
  induction list with
  | nil => exact .inl ⟨[], rfl⟩
  | cons a list ih =>
      rcases hFirst : g a with _ | cause | value
      · exact .inr ⟨none, [], a, list, rfl, by simp, hFirst, inOrder_cons_of_none hFirst list⟩
      · exact .inr ⟨some cause, [], a, list, rfl, by simp, hFirst,
          inOrder_cons_of_error hFirst list⟩
      · rw [inOrder_cons_of_ok hFirst]
        rcases ih with ⟨values, hValues⟩ | ⟨stop, front, b, back, rfl, hFront, hStop, hRest⟩
        · exact .inl ⟨value :: values, by rw [hValues]; rfl⟩
        · refine .inr ⟨stop, a :: front, b, back, rfl,
            List.forall_mem_cons.mpr ⟨⟨value, hFirst⟩, hFront⟩, hStop, ?_⟩
          rw [hRest]
          cases stop <;> rfl

/-- What stops a list, an error or having no end, comes from the first member without a value. -/
theorem exists_of_inOrder {list : List α} (stop : Option ε)
    (h : inOrder g list = stop.map .error) :
    ∃ front a back, list = front ++ a :: back ∧
      (∀ b ∈ front, ∃ value, g b = some (.ok value)) ∧ g a = stop.map .error := by
  rcases inOrder_cases g list with ⟨values, hValues⟩ |
    ⟨other, front, a, back, hList, hFront, hStop, hOther⟩
  · cases stop <;> cases hValues.symm.trans h
  · have hSame : other = stop := by
      rw [hOther] at h
      cases other <;> cases stop <;> cases h <;> rfl
    exact ⟨front, a, back, hList, hFront, hSame ▸ hStop⟩

/-- Errors can be renamed in the members or in the answer. -/
theorem inOrder_mapError {δ : Type} (f : ε → δ) (list : List α) :
    inOrder (fun a => (g a).map (Except.mapError f)) list =
      (inOrder g list).map (Except.mapError f) := by
  induction list with
  | nil => rfl
  | cons a list ih =>
      rw [inOrder, inOrder]
      rcases g a with _ | cause | b
      · rfl
      · rfl
      · dsimp only [Option.map_some, Except.mapError]
        rw [ih]
        rcases inOrder g list with _ | _ | _ <;> rfl

end InOrder

end PlainSheet.Evaluation
