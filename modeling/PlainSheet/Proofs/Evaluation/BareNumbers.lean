import PlainSheet.Proofs.Evaluation.Unlimited
import PlainSheet.Proofs.Sheet.Rendering

/-! A number as the whole content of a cell, with and without an `=` before it. References show
the same for both, but a bare number without evaluating it. However many cells differ so, one
more level makes up for all of them. -/

namespace PlainSheet

theorem Numeral.ofString?_prefixed (content : String) : ofString? ("=" ++ content) = none := by
  have hRaw : ("=" ++ content).toList = '=' :: content.toList := by simp
  rw [ofString?, hRaw]
  rfl

namespace Evaluation

/-- Two contents are the same, or the second is the first, a number, with an `=` before it. -/
inductive Prefixed (content : String) : String → Prop where
  | same : Prefixed content content
  | number : isBare content = true → Prefixed content ("=" ++ content)

/-- The second table has an `=` before some of the numbers that are cells of the first, and is
otherwise the same. -/
def PrefixedIn (table other : Table) : Prop :=
  List.Forall₂ (List.Forall₂ Prefixed) table.rows other.rows

variable {table other : Table} {raw : String}

/-- At an address two such tables agree, or have a number without and with an `=`. -/
theorem PrefixedIn.contentAt_cases (h : PrefixedIn table other) (address : Address) :
    other.contentAt address = table.contentAt address ∨
      ∃ target n, table.contentAt address = some target ∧
        other.contentAt address = some ("=" ++ target) ∧ Numeral.ofString? target = some n := by
  cases hTarget : table.contentAt address with
  | none =>
      refine .inl (Option.eq_none_iff_forall_ne_some.mpr ?_)
      intro content hContent
      have hRows : List.Forall₂ (List.Forall₂ fun content target => Prefixed target content)
          other.rows table.rows := h.flip.imp fun _ _ hRow => hRow.flip
      obtain ⟨target, hSame, -⟩ := Table.contentAt_of_forall₂ hRows hContent
      exact nomatch hTarget.symm.trans hSame
  | some target =>
      obtain ⟨content, hContent, hPrefixed⟩ := Table.contentAt_of_forall₂ h hTarget
      cases hPrefixed with
      | same => exact .inl hContent
      | number hBare =>
          obtain ⟨n, hNumeral⟩ := Option.isSome_iff_exists.mp hBare
          exact .inr ⟨target, n, rfl, hContent, hNumeral⟩

section Step

variable {inside inside' : String → Except SheetError String} {exceeded : SheetError}

theorem shownAt_eq_of_ne {r : Reference}
    (hSame : other.contentAt r.address = table.contentAt r.address)
    (hInside : ∀ target, inside target ≠ .error exceeded → inside' target = inside target)
    (h : shownAt table inside r ≠ .error exceeded) :
    shownAt other inside' r = shownAt table inside r := by
  rcases reference_cases table r with hNone | ⟨target, n, hTarget, hNumeral⟩ |
    ⟨target, hTarget, hNumeral⟩
  · rw [shownAt_of_none hNone, shownAt_of_none (hSame.trans hNone)]
  · rw [shownAt_of_bare hTarget hNumeral, shownAt_of_bare (hSame.trans hTarget) hNumeral]
  · rw [shownAt_of_nested hTarget hNumeral] at h ⊢
    rw [shownAt_of_nested (hSame.trans hTarget) hNumeral, hInside target h]

/-- A content that does not exceed the bound shows the same where the references that do not
exceed it do. -/
theorem shown_eq_of_ne
    (hReferences : ∀ r ∈ references raw, shownAt table inside r ≠ .error exceeded →
      shownAt other inside' r = shownAt table inside r)
    (h : shown table inside raw ≠ .error exceeded) :
    shown other inside' raw = shown table inside raw := by
  rw [shown] at h
  rw [shown, shown]
  cases hContent : Content.ofString raw with
  | number n => rfl
  | reference r =>
      simp only [hContent] at h
      exact hReferences r (by simp [references, hContent]) h
  | formula f =>
      simp only [hContent] at h
      have hOperands : ∀ operand ∈ f.operands,
          operandValue table inside operand ≠ .error exceeded →
            operandValue other inside' operand = operandValue table inside operand := by
        intro operand hOperand hShown
        cases operand with
        | numeral n => rfl
        | cell r =>
            have hReference := (mem_references_of_formula hContent).mpr hOperand
            rw [operandValue, operandValue,
              hReferences r hReference fun hAt => hShown (operandValue_eq_error_iff.mpr hAt)]
      have hValues := mapM_eq_of_ne hOperands fun hValues => h (map_eq_error_iff.mpr hValues)
      simp only [hValues]
  | text text => rfl

end Step

/-- With an `=` before it a number needs a level. -/
theorem shownWithin_of_numeral {content : String} {n : Numeral}
    (h : Numeral.ofString? content = some n) (exceeded : SheetError) (levels : Nat) :
    shownWithin table exceeded (levels + 1) ("=" ++ content) = .ok n.value.display := by
  simp only [shownWithin, shown, Content.ofString_of_numeral h]

/-- One more level makes up for all the levels that numbers need with an `=`, since none of these
numbers is evaluated inside another. -/
theorem PrefixedIn.shownWithin_succ_eq (h : PrefixedIn table other) {exceeded : SheetError}
    {levels : Nat} (hShown : shownWithin table exceeded levels raw ≠ .error exceeded)
    (exceeded' : SheetError) :
    shownWithin other exceeded' (levels + 1) raw = shownWithin table exceeded levels raw := by
  induction levels generalizing raw with
  | zero => exact absurd rfl hShown
  | succ levels ih =>
      apply shown_eq_of_ne _ hShown
      intro r _ hAt
      rcases h.contentAt_cases r.address with hSame | ⟨target, n, hTarget, hOther, hNumeral⟩
      -- The additional level is still left for whatever the reference leads to.
      · exact shownAt_eq_of_ne hSame (fun _ => ih) hAt
      · rw [shownAt_of_bare hTarget hNumeral,
          shownAt_of_nested hOther (Numeral.ofString?_prefixed target),
          shownWithin_of_numeral hNumeral]

/-- Without an `=` the numbers need no level. -/
theorem PrefixedIn.shownWithin_eq (h : PrefixedIn table other) {exceeded : SheetError}
    {levels : Nat} (hShown : shownWithin other exceeded levels raw ≠ .error exceeded)
    (exceeded' : SheetError) :
    shownWithin table exceeded' levels raw = shownWithin other exceeded levels raw := by
  induction levels generalizing raw with
  | zero => exact absurd rfl hShown
  | succ levels ih =>
      apply shown_eq_of_ne _ hShown
      intro r _ hAt
      rcases h.contentAt_cases r.address with hSame | ⟨target, n, hTarget, hOther, hNumeral⟩
      · exact shownAt_eq_of_ne hSame.symm (fun _ => ih) hAt
      · rw [shownAt_of_nested hOther (Numeral.ofString?_prefixed target)] at hAt ⊢
        cases levels with
        -- Without a level left the number with an `=` would have exceeded the bound.
        | zero => exact absurd rfl hAt
        | succ levels =>
            rw [shownAt_of_bare hTarget hNumeral, shownWithin_of_numeral hNumeral]

end Evaluation

namespace Table

open Evaluation

variable {table other : Table} {raw : String} {result : Except SheetError String}

theorem evaluate_some_succ_of_prefixedIn (h : PrefixedIn table other) {limit : Nat}
    (hShown : table.evaluate (some limit) raw ≠ some (.error (.chainTooLong limit))) :
    other.evaluate (some (limit + 1)) raw = table.evaluate (some limit) raw := by
  rw [evaluate_some, ne_eq, Option.some.injEq] at hShown
  rw [evaluate_some, evaluate_some, h.shownWithin_succ_eq hShown]

theorem evaluate_some_of_prefixedIn (h : PrefixedIn table other) {limit : Nat}
    (hShown : other.evaluate (some limit) raw ≠ some (.error (.chainTooLong limit))) :
    table.evaluate (some limit) raw = other.evaluate (some limit) raw := by
  rw [evaluate_some, ne_eq, Option.some.injEq] at hShown
  rw [evaluate_some, evaluate_some, h.shownWithin_eq hShown]

theorem ends_iff_of_prefixedIn (h : PrefixedIn table other) :
    Ends table raw result ↔ Ends other raw result := by
  constructor
  · intro hEnds
    obtain ⟨limit, hResult, hShown⟩ := exists_evaluate_some_of_ends hEnds
    exact ends_of_evaluate_some ((evaluate_some_succ_of_prefixedIn h hShown).trans hResult)
      (hEnds.ne_chainTooLong _)
  · intro hEnds
    obtain ⟨limit, hResult, hShown⟩ := exists_evaluate_some_of_ends hEnds
    exact ends_of_evaluate_some ((evaluate_some_of_prefixedIn h hShown).trans hResult)
      (hEnds.ne_chainTooLong _)

/-- An `=` before numbers that are whole cells changes no result. Evaluation ends with the same
results as without, or in neither table. What a limit allows without the `=` is allowed by the
limit that is one higher, and what it allows with the `=` it allows without. -/
theorem evaluate_prefixed (h : PrefixedIn table other) (raw : String) :
    ((∀ result, Ends table raw result ↔ Ends other raw result) ∧
      other.evaluate none raw = table.evaluate none raw) ∧
    (∀ limit, table.evaluate (some limit) raw ≠ some (.error (.chainTooLong limit)) →
      other.evaluate (some (limit + 1)) raw = table.evaluate (some limit) raw) ∧
    ∀ limit, other.evaluate (some limit) raw ≠ some (.error (.chainTooLong limit)) →
      table.evaluate (some limit) raw = other.evaluate (some limit) raw := by
  have hEnds : ∀ result, Ends table raw result ↔ Ends other raw result :=
    fun result => ends_iff_of_prefixedIn h
  exact ⟨⟨hEnds, evaluate_none_congr hEnds⟩,
    fun _ hShown => evaluate_some_succ_of_prefixedIn h hShown,
    fun _ hShown => evaluate_some_of_prefixedIn h hShown⟩

/-- The limit under which a sum of bare numbers is found is too low when they have an `=`. -/
theorem evaluate_prefixed_on_sum :
    let table : Table := ⟨[["1.5", "2", "=ADD(A1,B1,3)"]]⟩
    let other : Table := ⟨[["=1.5", "=2", "=ADD(A1,B1,3)"]]⟩
    PrefixedIn table other ∧ table.evaluate (some 1) "=C1" = some (.ok "6.50") ∧
      other.evaluate (some 1) "=C1" = some (.error (.chainTooLong 1)) ∧
      other.evaluate (some 2) "=C1" = some (.ok "6.50") ∧
      other.evaluate none "=C1" = some (.ok "6.50") ∧
      table.evaluate (some 2) "=C1" = some (.ok "6.50") := by
  intro table other
  have hPrefixed : PrefixedIn table other :=
    .cons (.cons (.number (by decide +kernel)) (.cons (.number (by decide +kernel))
      (.cons .same .nil))) .nil
  have hShown : table.evaluate (some 1) "=C1" = some (.ok "6.50") := by
    rw [evaluate_some]
    decide +kernel
  have hExceeded : other.evaluate (some 1) "=C1" = some (.error (.chainTooLong 1)) := by
    rw [evaluate_some]
    decide +kernel
  obtain ⟨⟨hEnds, hNone⟩, hHigher, hSame⟩ := evaluate_prefixed hPrefixed "=C1"
  have hOther := (hHigher 1 (by simp [hShown])).trans hShown
  have hEndsOther := ends_of_evaluate_some hOther (by simp)
  refine ⟨hPrefixed, hShown, hExceeded, hOther, evaluate_none_of_ends hEndsOther, ?_⟩
  exact (hSame 2 (by simp [hOther])).trans hOther

end Table

end PlainSheet
