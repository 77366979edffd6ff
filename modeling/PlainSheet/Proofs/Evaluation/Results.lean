import PlainSheet.Proofs.Evaluation.Steps
import PlainSheet.Proofs.Number.Display

/-! Where the results of evaluation come from. An error is that of a reference to no cell, or
the one for a bound that is exceeded; a value is the display of a number or a content that is
text. -/

namespace PlainSheet

namespace Evaluation

variable {table : Table} {raw text : String} {cause : SheetError}

/-- A reference that is reached from a content and leads to no cell. -/
def Dangles (table : Table) (raw : String) (r : Reference) : Prop :=
  ∃ cells last, Path table raw cells last ∧ r ∈ references last ∧
    table.contentAt r.address = none

theorem Dangles.follow {target : String} {r other : Reference} (h : Dangles table target other)
    (hReference : r ∈ references raw) (hTarget : table.contentAt r.address = some target) :
    Dangles table raw other := by
  obtain ⟨cells, last, hPath, hOther, hNone⟩ := h
  exact ⟨r.address :: cells, last, .cons hReference hTarget hPath, hOther, hNone⟩

/-- Unless the levels are exceeded, evaluation fails for a reference to no cell only. -/
theorem exists_dangling_of_error {exceeded : SheetError} {levels : Nat}
    (h : shownWithin table exceeded levels raw = .error cause) :
    cause = exceeded ∨ ∃ r, Dangles table raw r ∧ cause = .missingCell r.text := by
  induction levels generalizing raw with
  | zero =>
      cases h
      exact .inl rfl
  | succ levels ih =>
      obtain ⟨r, hReference, hShown⟩ := exists_reference_of_shown_error h
      rcases shownAt_error_cases hShown with ⟨hNone, hCause⟩ | ⟨target, hTarget, -, hInside⟩
      · exact .inr ⟨r, ⟨[], raw, .nil raw, hReference, hNone⟩, hCause⟩
      · rcases ih hInside with hExceeded | ⟨other, hDangles, hCause⟩
        · exact .inl hExceeded
        · exact .inr ⟨other, hDangles.follow hReference hTarget, hCause⟩

/-- What evaluation shows is the display of a number or a text that is reached. -/
theorem display_or_text_of_ok {exceeded : SheetError} {levels : Nat}
    (h : shownWithin table exceeded levels raw = .ok text) :
    (∃ value : Binary64, text = value.display) ∨
      Content.ofString text = .text text ∧ ∃ cells, Path table raw cells text := by
  induction levels generalizing raw with
  | zero => cases h
  | succ levels ih =>
      rcases eq_display_or_text_of_shown h with hDisplay | ⟨rfl, hText⟩ | ⟨r, hReference, hShown⟩
      · exact .inl hDisplay
      · exact .inr ⟨hText, [], .nil text⟩
      · obtain ⟨target, hTarget, ⟨n, -, hDisplay⟩ | ⟨-, hInside⟩⟩ := shownAt_ok_cases hShown
        · exact .inl ⟨n.value, hDisplay⟩
        · rcases ih hInside with hDisplay | ⟨hText, cells, hPath⟩
          · exact .inl hDisplay
          · exact .inr ⟨hText, r.address :: cells, .cons hReference hTarget hPath⟩

end Evaluation

theorem Content.ofString_display (value : Binary64) :
    ofString value.display = text value.display := by
  apply ofString_of_not_mem
  intro hMem
  exact absurd (Binary64.isDisplayChar_of_mem_display hMem) (by decide)

namespace Table

open Evaluation

theorem evaluate_of_text {table : Table} {limit : Option Nat} {raw : String}
    (h : Content.ofString raw = .text raw) : table.evaluate limit raw = some (.ok raw) := by
  rw [evaluate_eq_ok_iff_shownWithin (.chainTooLong 0)]
  simp only [shownWithin, shown, h]

/-- Everything that evaluation shows is the display of a number or a text that is reached, and
shows itself in every table. The contents that show themselves are the texts. -/
theorem evaluate_fixed (table : Table) (limit : Option Nat) (raw : String) :
    (∀ shown, table.evaluate limit raw = some (.ok shown) →
      ((∃ value : Binary64, shown = value.display) ∨
        Content.ofString shown = .text shown ∧ ∃ cells, Path table raw cells shown) ∧
      ∀ (other : Table) (limit : Option Nat), other.evaluate limit shown = some (.ok shown)) ∧
    (table.evaluate limit raw = some (.ok raw) ↔ Content.ofString raw = .text raw) := by
  have hOrigin : ∀ shown, table.evaluate limit raw = some (.ok shown) →
      (∃ value : Binary64, shown = value.display) ∨
        Content.ofString shown = .text shown ∧ ∃ cells, Path table raw cells shown := by
    intro shown hShown
    rw [evaluate_eq_ok_iff_shownWithin (.chainTooLong 0)] at hShown
    exact display_or_text_of_ok hShown
  have hText : ∀ shown, table.evaluate limit raw = some (.ok shown) →
      Content.ofString shown = .text shown := by
    intro shown hShown
    rcases hOrigin shown hShown with ⟨value, rfl⟩ | ⟨hText, -⟩
    · exact Content.ofString_display value
    · exact hText
  refine ⟨fun shown hShown => ⟨hOrigin shown hShown, fun other limit => ?_⟩, hText raw,
    evaluate_of_text⟩
  exact evaluate_of_text (hText shown hShown)

theorem evaluate_fixed_on_malformed :
    let table : Table := ⟨[["=ADD(1)", "=A1"]]⟩
    table.evaluate none "=B1" = some (.ok "=ADD(1)") ∧
      (∀ other limit, Table.evaluate other limit "=ADD(1)" = some (.ok "=ADD(1)")) ∧
      table.evaluate none "=B1" ≠ some (.ok "=B1") := by
  intro table
  have hShown : table.evaluate none "=B1" = some (.ok "=ADD(1)") := by
    rw [evaluate_eq_ok_iff_shownWithin (.chainTooLong 0)]
    decide +kernel
  have hFixed := evaluate_fixed table none "=B1"
  refine ⟨hShown, (hFixed.1 _ hShown).2, fun hSame => ?_⟩
  exact absurd (hFixed.2.mp hSame) (by decide +kernel)

end Table

end PlainSheet
