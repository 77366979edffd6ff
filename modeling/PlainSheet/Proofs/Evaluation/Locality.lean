import PlainSheet.Proofs.Evaluation.Unlimited
import PlainSheet.Sheet.Basic

/-! What a content shows depends on the cells that it reaches and on no others. Two tables that
agree on these cells show the same, a value or an error, under every limit. -/

namespace PlainSheet

namespace Evaluation

/-- At every position that is referenced from a content, directly or through the contents of
referenced cells, two tables have the same content, or both have no cell. -/
def AgreeFrom (table other : Table) (raw : String) : Prop :=
  ∀ cells last, Path table raw cells last → ∀ r ∈ references last,
    other.contentAt r.address = table.contentAt r.address

variable {table other : Table} {raw target : String} {result : Except SheetError String}

namespace AgreeFrom

theorem contentAt (h : AgreeFrom table other raw) {r : Reference}
    (hReference : r ∈ references raw) :
    other.contentAt r.address = table.contentAt r.address :=
  h [] raw (.nil raw) r hReference

theorem follow (h : AgreeFrom table other raw) {r : Reference} (hReference : r ∈ references raw)
    (hTarget : table.contentAt r.address = some target) : AgreeFrom table other target :=
  fun cells last hPath => h (r.address :: cells) last (.cons hReference hTarget hPath)

/-- It is enough that two tables agree on the references of some contents, with the given one
among them, and that these references lead to such contents again. -/
theorem of_contents (contents : List String) (hRaw : raw ∈ contents)
    (hContents : ∀ content ∈ contents, ∀ r ∈ references content,
      other.contentAt r.address = table.contentAt r.address ∧
        ∀ target ∈ table.contentAt r.address, target ∈ contents) : AgreeFrom table other raw := by
  intro cells last hPath
  induction hPath with
  | nil raw => exact fun r hReference => (hContents raw hRaw r hReference).1
  | cons hReference hTarget _ ih => exact ih ((hContents _ hRaw _ hReference).2 _ hTarget)

/-- A reference shows the same where it leads to the same content and this shows the same. -/
theorem shownAt_eq {inside inside' : String → Except SheetError String} {r : Reference}
    (hSame : other.contentAt r.address = table.contentAt r.address)
    (hInside : ∀ target, table.contentAt r.address = some target → inside' target = inside target) :
    shownAt other inside' r = shownAt table inside r := by
  rcases reference_cases table r with hNone | ⟨target, n, hTarget, hNumeral⟩ |
    ⟨target, hTarget, hNumeral⟩
  · rw [shownAt_of_none hNone, shownAt_of_none (hSame.trans hNone)]
  · rw [shownAt_of_bare hTarget hNumeral, shownAt_of_bare (hSame.trans hTarget) hNumeral]
  · rw [shownAt_of_nested hTarget hNumeral, shownAt_of_nested (hSame.trans hTarget) hNumeral,
      hInside target hTarget]

theorem shownWithin_eq (h : AgreeFrom table other raw) (exceeded : SheetError) (levels : Nat) :
    shownWithin other exceeded levels raw = shownWithin table exceeded levels raw := by
  induction levels generalizing raw with
  | zero => rfl
  | succ levels ih =>
      apply shown_congr
      intro r hReference
      apply shownAt_eq (h.contentAt hReference)
      intro target hTarget
      exact ih (h.follow hReference hTarget)

/-- Evaluation without a limit ends with the same result in both tables, or in neither. -/
theorem ends_iff (h : AgreeFrom table other raw) :
    Ends other raw result ↔ Ends table raw result := by
  rw [Evaluation.ends_iff, Evaluation.ends_iff]
  simp only [SettledBy, h.shownWithin_eq]

end AgreeFrom

end Evaluation

namespace Table

open Evaluation

variable {table other : Table} {raw : String}

theorem evaluate_eq_of_agreeFrom (h : AgreeFrom table other raw) (limit : Option Nat) :
    other.evaluate limit raw = table.evaluate limit raw := by
  cases limit with
  | some limit => rw [evaluate_some, evaluate_some, h.shownWithin_eq]
  | none => exact evaluate_none_congr fun _ => h.ends_iff.symm

end Table

namespace Sheet

open Evaluation

variable {table other : Table}

/-- The content `=` and a cell refers to that cell and to no other. -/
theorem references_of_name {text : String} {r : Reference} (h : Reference.ofString? text = some r) :
    references ("=" ++ text) = [r] := by
  obtain ⟨tree, hText, rfl⟩ := Reference.ofChars?_eq_some_iff.mp h
  have hRaw : ("=" ++ text).toList = '=' :: tree.chars := by simp [hText]
  simp only [references, Content.ofString_of_cell hRaw]

theorem get_eq_of_agreeFrom {text : String} (h : AgreeFrom table other ("=" ++ text))
    (limit : Option Nat) : (Sheet.mk other limit).get text = (Sheet.mk table limit).get text := by
  cases hName : Reference.ofString? text with
  | none => simp only [get, cellAt, Table.cellAt, hName]
  | some r =>
      have hReference : r ∈ references ("=" ++ text) := by simp [references_of_name hName]
      have hSame := h.contentAt hReference
      have hFollow : other.follow r = table.follow r := by
        rw [Table.follow, Table.follow, ← Table.contentAt, ← Table.contentAt, hSame]
      simp only [get, cellAt, Table.cellAt, hName, hFollow, evaluate]
      cases hTarget : table.contentAt r.address with
      | none => rw [Table.follow_of_contentAt_none hTarget]
      | some raw =>
          rw [Table.follow_of_contentAt hTarget]
          simp only [Table.evaluate_eq_of_agreeFrom (h.follow hReference hTarget)]

/-- What a content shows depends on the cells that it reaches alone: it is the same in every table
that agrees on them, whatever other cells, rows and columns there are. So is what is shown of a
cell, which depends on the cell itself and on what this reaches. -/
theorem evaluate_local (table other : Table) (limit : Option Nat) :
    (∀ raw, AgreeFrom table other raw →
      (Sheet.mk other limit).evaluate raw = (Sheet.mk table limit).evaluate raw) ∧
    ∀ text, AgreeFrom table other ("=" ++ text) →
      (Sheet.mk other limit).get text = (Sheet.mk table limit).get text :=
  ⟨fun _ h => Table.evaluate_eq_of_agreeFrom h limit, fun _ h => get_eq_of_agreeFrom h limit⟩

theorem evaluate_local_on_further_cells :
    let table : Table := ⟨[["=ADD(B1,B1)", "2.5"]]⟩
    let other : Table := ⟨[["=ADD(B1,B1)", "2.5", "=A1"], [], ["=Z99"]]⟩
    AgreeFrom table other "=A1" ∧
      (Sheet.mk table none).evaluate "=A1" = some (.ok "5") ∧
      (Sheet.mk other none).evaluate "=A1" = some (.ok "5") ∧
      (Sheet.mk other none).get "A1" = (Sheet.mk table none).get "A1" := by
  intro table other
  have hAgree : AgreeFrom table other "=A1" := by
    apply AgreeFrom.of_contents ["=A1", "=ADD(B1,B1)", "2.5"]
    · decide
    · decide +kernel
  have hShown : (Sheet.mk table none).evaluate "=A1" = some (.ok "5") := by
    rw [evaluate, Table.evaluate_eq_ok_iff_shownWithin (.chainTooLong 0)]
    decide +kernel
  obtain ⟨hEvaluate, hGet⟩ := evaluate_local table other none
  exact ⟨hAgree, hShown, (hEvaluate "=A1" hAgree).trans hShown, hGet "A1" hAgree⟩

end Sheet

end PlainSheet
