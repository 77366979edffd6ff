import PlainSheet.Proofs.Evaluation.Levels

/-! The limit on reference chains is exact: evaluation exceeds it on the contents from which
a path passes through more cells than the limit, and what it answers on all others does not
depend on the limit. -/

namespace PlainSheet

namespace Evaluation

/-- A bounded computation exceeds its bound in some case, with the error it is given for it,
and in every other case has a value that does not depend on that error. -/
structure ExceedsIff {α : Type} (exceeds : Prop) (shown : SheetError → Except SheetError α) :
    Prop where
  error : exceeds → ∀ exceeded, shown exceeded = .error exceeded
  ok : ¬exceeds → ∃ value, ∀ exceeded, shown exceeded = .ok value

namespace ExceedsIff

variable {α β : Type} {exceeds : Prop} {shown : SheetError → Except SheetError α}

theorem of_ok (value : α) : ExceedsIff False fun _ => .ok value :=
  ⟨False.elim, fun _ => ⟨value, fun _ => rfl⟩⟩

theorem congr {exceeds' : Prop} (h : ExceedsIff exceeds shown) (hIff : exceeds' ↔ exceeds) :
    ExceedsIff exceeds' shown := by
  rw [propext hIff]
  exact h

theorem map (h : ExceedsIff exceeds shown) (f : α → β) :
    ExceedsIff exceeds fun exceeded => (shown exceeded).map f := by
  constructor
  · intro hExceeds exceeded
    rw [h.error hExceeds exceeded, Except.map]
  · intro hFits
    obtain ⟨value, hValue⟩ := h.ok hFits
    refine ⟨f value, fun exceeded => ?_⟩
    rw [hValue exceeded, Except.map]

/-- A list of computations exceeds the bound when one of them does. The error of an earlier
one hides no other error, since all of them have the same. -/
theorem mapM {exceeds : β → Prop} {shown : SheetError → β → Except SheetError α}
    (list : List β) (h : ∀ b ∈ list, ExceedsIff (exceeds b) fun exceeded => shown exceeded b) :
    ExceedsIff (∃ b ∈ list, exceeds b) fun exceeded => list.mapM (shown exceeded) := by
  induction list with
  | nil => exact (of_ok []).congr (by simp)
  | cons b list ih =>
      rw [List.forall_mem_cons] at h
      have hList := ih h.2
      by_cases hFirst : exceeds b
      · constructor
        · intro _ exceeded
          exact mapM_cons_of_error (h.1.error hFirst exceeded) list
        · intro hFits
          exact absurd ⟨b, List.mem_cons_self .., hFirst⟩ hFits
      · obtain ⟨value, hValue⟩ := h.1.ok hFirst
        have hMap : (fun exceeded => (b :: list).mapM (shown exceeded)) =
            fun exceeded => (list.mapM (shown exceeded)).map (value :: ·) := by
          funext exceeded
          exact mapM_cons_of_ok (hValue exceeded) list
        rw [hMap]
        apply (hList.map _).congr
        simp [hFirst]

end ExceedsIff

variable {table : Table} {raw target last : String}

theorem Closed.contentAt (h : Closed table raw) {r : Reference} (hReference : r ∈ references raw) :
    ∃ target, table.contentAt r.address = some target :=
  h [] raw (.nil raw) r hReference

theorem Closed.follow (h : Closed table raw) {r : Reference} (hReference : r ∈ references raw)
    (hTarget : table.contentAt r.address = some target) : Closed table target :=
  fun cells last hPath => h (r.address :: cells) last (.cons hReference hTarget hPath)

/-- It is enough that the references of some contents, with the given one among them, lead to
such contents again. -/
theorem closed_of_contents (contents : List String) (hRaw : raw ∈ contents)
    (hContents : ∀ content ∈ contents, ∀ r ∈ references content,
      ∃ target ∈ contents, table.contentAt r.address = some target) : Closed table raw := by
  intro cells last hPath
  induction hPath with
  | nil raw =>
      intro r hReference
      obtain ⟨target, -, hTarget⟩ := hContents raw hRaw r hReference
      exact ⟨target, hTarget⟩
  | cons hReference hTarget _ ih =>
      obtain ⟨other, hOther, hSame⟩ := hContents _ hRaw _ hReference
      rw [hTarget, Option.some.injEq] at hSame
      exact ih (hSame ▸ hOther)

/-- A reference passes through so many cells, or more, that the first of them is evaluated
and the others are passed through from there. -/
def LeadsThrough (table : Table) (levels : Nat) (r : Reference) : Prop :=
  ∃ target, table.contentAt r.address = some target ∧ isBare target = false ∧
    PassesThrough table target levels

/-- What a reference shows exceeds the levels exactly if the content it leads to is evaluated
and exceeds them. -/
theorem shownAt_exceedsIff {levels : Nat} {r : Reference}
    (hTarget : table.contentAt r.address = some target)
    (h : ExceedsIff (PassesThrough table target levels)
      fun exceeded => shownWithin table exceeded levels target) :
    ExceedsIff (LeadsThrough table levels r)
      fun exceeded => shownAt table (shownWithin table exceeded levels) r := by
  have hLeads : LeadsThrough table levels r ↔
      isBare target = false ∧ PassesThrough table target levels := by
    simp [LeadsThrough, hTarget]
  cases hNumeral : Numeral.ofString? target with
  | some n =>
      simp only [shownAt_of_bare hTarget hNumeral]
      exact (ExceedsIff.of_ok n.value.display).congr (by simp [hLeads, isBare, hNumeral])
  | none =>
      simp only [shownAt_of_nested hTarget hNumeral]
      exact h.congr (by simp [hLeads, isBare, hNumeral])

section Step

variable {inside : SheetError → String → Except SheetError String} {leads : Reference → Prop}

theorem operandValue_exceedsIff (operand : Operand)
    (h : ∀ r, operand = .cell r →
      ExceedsIff (leads r) fun exceeded => shownAt table (inside exceeded) r) :
    ExceedsIff (∃ r, operand = .cell r ∧ leads r)
      fun exceeded => operandValue table (inside exceeded) operand := by
  cases operand with
  | numeral n => exact (ExceedsIff.of_ok (Binary64.ofShown n.value.display)).congr (by simp)
  | cell r => exact ((h r rfl).map Binary64.ofShown).congr (by simp)

theorem operandValues_exceedsIff (operands : List Operand)
    (h : ∀ r, .cell r ∈ operands →
      ExceedsIff (leads r) fun exceeded => shownAt table (inside exceeded) r) :
    ExceedsIff (∃ r, .cell r ∈ operands ∧ leads r)
      fun exceeded => operands.mapM (operandValue table (inside exceeded)) := by
  have hEach : ∀ operand ∈ operands, ExceedsIff (∃ r, operand = .cell r ∧ leads r)
      fun exceeded => operandValue table (inside exceeded) operand := by
    intro operand hOperand
    apply operandValue_exceedsIff
    intro r hCell
    exact h r (hCell ▸ hOperand)
  apply (ExceedsIff.mapM operands hEach).congr
  constructor
  · intro hLeads
    obtain ⟨r, hOperand, hLeads⟩ := hLeads
    exact ⟨.cell r, hOperand, r, rfl, hLeads⟩
  · intro hLeads
    obtain ⟨operand, hOperand, r, rfl, hLeads⟩ := hLeads
    exact ⟨r, hOperand, hLeads⟩

/-- One content exceeds the bound exactly if one of its references does. -/
theorem shown_exceedsIff
    (h : ∀ r ∈ references raw,
      ExceedsIff (leads r) fun exceeded => shownAt table (inside exceeded) r) :
    ExceedsIff (∃ r ∈ references raw, leads r)
      fun exceeded => shown table (inside exceeded) raw := by
  simp only [shown]
  cases hContent : Content.ofString raw with
  | number n => exact (ExceedsIff.of_ok _).congr (by simp [references, hContent])
  | text shown => exact (ExceedsIff.of_ok _).congr (by simp [references, hContent])
  | reference r =>
      have hOnly : references raw = [r] := by simp only [references, hContent]
      apply (h r (by simp [hOnly])).congr
      simp [hOnly]
  | formula f =>
      simp only [mem_references_of_formula hContent] at h ⊢
      exact (operandValues_exceedsIff f.operands h).map _

end Step

/-- Evaluation exceeds its levels exactly on the contents from which some path passes through
that many cells. -/
theorem shownWithin_exceedsIff (levels : Nat) (hClosed : Closed table raw) :
    ExceedsIff (PassesThrough table raw levels)
      fun exceeded => shownWithin table exceeded levels raw := by
  induction levels generalizing raw with
  | zero =>
      constructor
      · intro _ exceeded
        rfl
      · intro hFits
        exact absurd (PassesThrough.zero table raw) hFits
  | succ levels ih =>
      have hReferences : ∀ r ∈ references raw, ExceedsIff (LeadsThrough table levels r)
          fun exceeded => shownAt table (shownWithin table exceeded levels) r := by
        intro r hReference
        obtain ⟨target, hTarget⟩ := hClosed.contentAt hReference
        exact shownAt_exceedsIff hTarget (ih (hClosed.follow hReference hTarget))
      exact (shown_exceedsIff hReferences).congr PassesThrough.succ_iff

/-- A content shows the same under all levels that suffice. -/
theorem shownWithin_unique {exceeded exceeded' : SheetError} {levels levels' : Nat}
    {value value' : String} (h : shownWithin table exceeded levels raw = .ok value)
    (h' : shownWithin table exceeded' levels' raw = .ok value') : value = value' := by
  rcases settledBy_or_exceeds table raw levels with ⟨finding, hSettled, hLevels⟩ | hExceeds
  · have hShown : ∀ exceeded levels, shownWithin table exceeded levels raw =
        if finding.levels ≤ levels then finding.shows else .error exceeded := hSettled
    rw [hShown, if_pos hLevels] at h
    rw [hShown, h] at h'
    split at h'
    · rw [Except.ok.injEq] at h'
      exact h'
    · cases h'
  · rw [hExceeds] at h
    cases h

/-- So many references lead from a content to the last one, each from a content that is only
a reference. -/
inductive Chain (table : Table) : Nat → String → String → Prop where
  | nil (raw : String) : Chain table 0 raw raw
  | cons {count : Nat} {raw target last : String} {r : Reference} :
      Content.ofString raw = .reference r → table.contentAt r.address = some target →
        Chain table count target last → Chain table (count + 1) raw last

/-- A chain passes through each of its cells, except for a number at its end. -/
theorem Chain.passesThrough_iff {count : Nat} (h : Chain table count raw last)
    (hLast : references last = []) (passages : Nat) :
    PassesThrough table raw passages ↔
      passages ≤ if isBare last = true then count - 1 else count := by
  induction h generalizing passages with
  | nil raw =>
      cases passages with
      | zero => simp [PassesThrough.zero]
      | succ passages => simp [PassesThrough.succ_iff, hLast]
  | @cons count raw target last r hContent hTarget hRest ih =>
      have hOnly : references raw = [r] := by simp only [references, hContent]
      cases passages with
      | zero => simp [PassesThrough.zero]
      | succ passages =>
          have hStep : PassesThrough table raw (passages + 1) ↔
              isBare target = false ∧ PassesThrough table target passages := by
            simp [PassesThrough.succ_iff, hOnly, hTarget]
          rw [hStep, ih hLast]
          cases hRest with
          | nil => cases hBare : isBare target <;> simp
          | @cons count _ _ _ next hNext _ _ =>
              have hSome : references target = [next] := by simp only [references, hNext]
              have hNested : isBare target = false := by
                rw [Bool.eq_false_iff]
                intro hBare
                simp [references_of_isBare hBare] at hSome
              simp only [hNested, true_and]
              split <;> omega

end Evaluation

namespace Table

open Evaluation

variable {table : Table} {raw : String}

theorem evaluate_of_passesThrough (hClosed : Closed table raw) {limit : Nat}
    (h : PassesThrough table raw (limit + 1)) :
    table.evaluate (some limit) raw = some (.error (.chainTooLong limit)) := by
  rw [evaluate_some, (shownWithin_exceedsIff _ hClosed).error h]

theorem evaluate_of_not_passesThrough (hClosed : Closed table raw) {limit : Nat}
    (h : ¬PassesThrough table raw (limit + 1)) :
    ∃ value, table.evaluate none raw = some (.ok value) ∧
      ∀ other, ¬PassesThrough table raw (other + 1) →
        table.evaluate (some other) raw = some (.ok value) := by
  obtain ⟨value, hValue⟩ :=
    (shownWithin_exceedsIff (table.cellCount + 1) hClosed).ok fun hCells => h (hCells.unbounded _)
  refine ⟨value, evaluate_of_shownWithin (hValue (.chainTooLong 0)) (by simp), ?_⟩
  intro other hOther
  obtain ⟨shown, hShown⟩ := (shownWithin_exceedsIff _ hClosed).ok hOther
  rw [evaluate_some, hShown,
    shownWithin_unique (hShown (.chainTooLong 0)) (hValue (.chainTooLong 0))]

theorem evaluate_eq_ok_iff (hClosed : Closed table raw) {limit : Nat} :
    (∃ value, table.evaluate (some limit) raw = some (.ok value)) ↔
      ¬PassesThrough table raw (limit + 1) := by
  constructor
  · intro hValue hPasses
    obtain ⟨value, hValue⟩ := hValue
    rw [evaluate_of_passesThrough hClosed hPasses] at hValue
    cases hValue
  · intro hFits
    obtain ⟨value, -, hValue⟩ := evaluate_of_not_passesThrough hClosed hFits
    exact ⟨value, hValue limit hFits⟩

/-- A limit is exceeded exactly by the contents from which a path passes through more cells
than it. All others show the same under every limit that they keep and under none. -/
theorem evaluate_exact (hClosed : Closed table raw) :
    (∀ limit, PassesThrough table raw (limit + 1) →
      table.evaluate (some limit) raw = some (.error (.chainTooLong limit))) ∧
    (∀ limit, ¬PassesThrough table raw (limit + 1) →
      ∃ value, table.evaluate none raw = some (.ok value) ∧
        ∀ other, ¬PassesThrough table raw (other + 1) →
          table.evaluate (some other) raw = some (.ok value)) ∧
    (ReachesCycle table raw → ∀ limit,
      table.evaluate (some limit) raw = some (.error (.chainTooLong limit))) ∧
    (∀ count last, Chain table count raw last → ∀ limit,
      (isBare last = true →
        ((∃ value, table.evaluate (some limit) raw = some (.ok value)) ↔ count - 1 ≤ limit)) ∧
      (isBare last = false → references last = [] →
        ((∃ value, table.evaluate (some limit) raw = some (.ok value)) ↔ count ≤ limit))) := by
  refine ⟨fun limit => evaluate_of_passesThrough hClosed,
    fun limit => evaluate_of_not_passesThrough hClosed, ?_, ?_⟩
  · intro hCycle limit
    exact evaluate_of_passesThrough hClosed (hCycle.passesThrough _)
  · intro count last hChain limit
    constructor
    · intro hBare
      rw [evaluate_eq_ok_iff hClosed, hChain.passesThrough_iff (references_of_isBare hBare),
        if_pos hBare]
      omega
    · intro hBare hLast
      rw [evaluate_eq_ok_iff hClosed, hChain.passesThrough_iff hLast, hBare, if_neg (by decide)]
      omega

theorem evaluate_exact_on_sum :
    let table : Table := ⟨[["=ADD(B1,C1)", "=C1", "7"]]⟩
    Closed table "=A1" ∧ table.evaluate (some 1) "=A1" = some (.error (.chainTooLong 1)) ∧
      ∃ value, table.evaluate none "=A1" = some (.ok value) ∧
        table.evaluate (some 2) "=A1" = some (.ok value) := by
  intro table
  let a : Reference := ⟨['A'], ['1']⟩
  let b : Reference := ⟨['B'], ['1']⟩
  let c : Reference := ⟨['C'], ['1']⟩
  have hContent : references "=A1" = [a] ∧ references "=ADD(B1,C1)" = [b, c] ∧
      references "=C1" = [c] := by decide +kernel
  obtain ⟨hFirst, hSum, hNext⟩ := hContent
  have hCells : table.contentAt a.address = some "=ADD(B1,C1)" ∧
      table.contentAt b.address = some "=C1" ∧ table.contentAt c.address = some "7" := by
    decide +kernel
  obtain ⟨hA, hB, hC⟩ := hCells
  have hBare : isBare "=ADD(B1,C1)" = false ∧ isBare "=C1" = false ∧ isBare "7" = true := by
    decide +kernel
  have hClosed : Closed table "=A1" := by
    apply closed_of_contents ["=A1", "=ADD(B1,C1)", "=C1", "7"]
    · decide
    · decide +kernel
  have hTwo : PassesThrough table "=A1" 2 := by
    simp [PassesThrough.succ_iff, PassesThrough.zero, hFirst, hSum, hA, hB, hC, hBare]
  have hNotThree : ¬PassesThrough table "=A1" 3 := by
    simp [PassesThrough.succ_iff, hFirst, hSum, hNext, hA, hB, hC, hBare]
  have hExact := evaluate_exact hClosed
  obtain ⟨value, hNone, hValue⟩ := hExact.2.1 2 hNotThree
  exact ⟨hClosed, hExact.1 1 hTwo, value, hNone, hValue 2 hNotThree⟩

end Table

end PlainSheet
