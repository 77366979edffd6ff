import PlainSheet.Proofs.Evaluation.Levels

/-! Evaluation without any limit, as the results that it ends with. Main results: a limit of
as many levels as there are cells is exceeded only where evaluation has no end, and under a
limit that is not exceeded the answer is that of every higher limit and of none. -/

namespace PlainSheet

namespace Evaluation

mutual

/-- Evaluating a content ends with a result. Nothing bounds how many contents are evaluated
inside each other. -/
inductive Ends (table : Table) : String → Except SheetError String → Prop where
  | number {raw : String} {n : Numeral} :
      Content.ofString raw = .number n → Ends table raw (.ok n.value.display)
  | text {raw shown : String} : Content.ofString raw = .text shown → Ends table raw (.ok shown)
  | reference {raw : String} {r : Reference} {result : Except SheetError String} :
      Content.ofString raw = .reference r → EndsAt table r result → Ends table raw result
  | formula {raw : String} {f : Formula} {values : Except SheetError (List Binary64)} :
      Content.ofString raw = .formula f → EndsValues table f.operands values →
        Ends table raw (values.map fun values => (f.function.fold values).display)

/-- Following a reference ends with a result. -/
inductive EndsAt (table : Table) : Reference → Except SheetError String → Prop where
  | missing {r : Reference} :
      table.contentAt r.address = none → EndsAt table r (.error (.missingCell r.text))
  | bare {r : Reference} {target : String} {n : Numeral} :
      table.contentAt r.address = some target → Numeral.ofString? target = some n →
        EndsAt table r (.ok n.value.display)
  | nested {r : Reference} {target : String} {result : Except SheetError String} :
      table.contentAt r.address = some target → Numeral.ofString? target = none →
        Ends table target result → EndsAt table r result

/-- Evaluating operands from left to right ends with their values, or with the first error,
behind which no operand is evaluated. -/
inductive EndsValues (table : Table) :
    List Operand → Except SheetError (List Binary64) → Prop where
  | nil : EndsValues table [] (.ok [])
  | numeral {n : Numeral} {operands : List Operand} {values : Except SheetError (List Binary64)} :
      EndsValues table operands values →
        EndsValues table (.numeral n :: operands)
          (values.map (Binary64.ofShown n.value.display :: ·))
  | error {r : Reference} {operands : List Operand} {cause : SheetError} :
      EndsAt table r (.error cause) → EndsValues table (.cell r :: operands) (.error cause)
  | cell {r : Reference} {text : String} {operands : List Operand}
      {values : Except SheetError (List Binary64)} :
      EndsAt table r (.ok text) → EndsValues table operands values →
        EndsValues table (.cell r :: operands) (values.map (Binary64.ofShown text :: ·))

end

/-- From some number of levels on, a bounded computation has the same result. -/
def Eventually {α : Type} (shown : SheetError → Nat → Except SheetError α)
    (result : Except SheetError α) : Prop :=
  ∃ least, ∀ exceeded levels, least ≤ levels → shown exceeded levels = result

section Eventually

variable {α β : Type} {shown : SheetError → Nat → Except SheetError α}
  {result : Except SheetError α}

theorem Eventually.of_eq (h : ∀ exceeded levels, shown exceeded levels = result) :
    Eventually shown result :=
  ⟨0, fun exceeded levels _ => h exceeded levels⟩

theorem Eventually.map (h : Eventually shown result) (f : α → β) :
    Eventually (fun exceeded levels => (shown exceeded levels).map f) (result.map f) := by
  obtain ⟨least, hLeast⟩ := h
  exact ⟨least, fun exceeded levels hLevels => congrArg _ (hLeast exceeded levels hLevels)⟩

end Eventually

variable {table : Table} {raw : String} {result : Except SheetError String}

/-- A content has the result that it has with one level less inside. -/
theorem eventually_shownWithin
    (h : Eventually (fun exceeded levels => shown table (shownWithin table exceeded levels) raw)
      result) :
    Eventually (fun exceeded levels => shownWithin table exceeded levels raw) result := by
  obtain ⟨least, hLeast⟩ := h
  refine ⟨least + 1, fun exceeded levels hLevels => ?_⟩
  cases levels with
  | zero => omega
  | succ levels => exact hLeast exceeded levels (by omega)

/-- The operands of a list have the values that they have one by one, when those before the
last that is evaluated have one. -/
theorem eventually_valuesWithin_cons {operands : List Operand} {r : Reference} {text : String}
    {values : Except SheetError (List Binary64)}
    (hFirst : Eventually
      (fun exceeded levels => shownAt table (shownWithin table exceeded levels) r) (.ok text))
    (hRest : Eventually (valuesWithin table operands) values) :
    Eventually (valuesWithin table (.cell r :: operands))
      (values.map (Binary64.ofShown text :: ·)) := by
  obtain ⟨least, hLeast⟩ := hFirst
  obtain ⟨others, hOthers⟩ := hRest
  refine ⟨max least others, fun exceeded levels hLevels => ?_⟩
  have hShown : shownAt table (shownWithin table exceeded levels) r = .ok text :=
    hLeast exceeded levels (by omega)
  rw [valuesWithin_cons, operandValue_of_ok hShown, hOthers exceeded levels (by omega)]

/-- A result that evaluation ends with is that of all sufficient levels. -/
theorem Ends.eventually (h : Ends table raw result) :
    Eventually (fun exceeded levels => shownWithin table exceeded levels raw) result := by
  -- The three relations refer to each other, so the induction is on all of them at once.
  refine @Ends.rec table
    (fun raw result _ =>
      Eventually (fun exceeded levels => shownWithin table exceeded levels raw) result)
    (fun r result _ =>
      Eventually (fun exceeded levels => shownAt table (shownWithin table exceeded levels) r)
        result)
    (fun operands values _ => Eventually (valuesWithin table operands) values)
    ?number ?text ?reference ?formula ?missing ?bare ?nested ?nil ?numeral ?error ?cell
    raw result h
  case number =>
    intro raw n hContent
    exact eventually_shownWithin (.of_eq fun _ _ => by simp only [shown, hContent])
  case text =>
    intro raw text hContent
    exact eventually_shownWithin (.of_eq fun _ _ => by simp only [shown, hContent])
  case reference =>
    intro raw r result hContent _ hAt
    apply eventually_shownWithin
    simpa only [shown, hContent] using hAt
  case formula =>
    intro raw f values hContent _ hValues
    apply eventually_shownWithin
    simpa only [shown, hContent, valuesWithin] using hValues.map _
  case missing =>
    intro r hNone
    exact .of_eq fun _ _ => shownAt_of_none hNone
  case bare =>
    intro r target n hTarget hNumeral
    exact .of_eq fun _ _ => shownAt_of_bare hTarget hNumeral
  case nested =>
    intro r target result hTarget hNumeral _ hEnds
    simpa only [shownAt_of_nested hTarget hNumeral] using hEnds
  case nil => exact .of_eq fun _ _ => rfl
  case numeral =>
    intro n operands values _ hRest
    obtain ⟨least, hLeast⟩ := hRest
    refine ⟨least, fun exceeded levels hLevels => ?_⟩
    rw [valuesWithin_cons, operandValue, hLeast exceeded levels hLevels]
  case error =>
    intro r operands cause _ hAt
    obtain ⟨least, hLeast⟩ := hAt
    refine ⟨least, fun exceeded levels hLevels => ?_⟩
    have hShown : shownAt table (shownWithin table exceeded levels) r = .error cause :=
      hLeast exceeded levels hLevels
    rw [valuesWithin_cons, operandValue_eq_error_iff.mpr hShown]
  case cell =>
    intro r text operands values _ _ hAt hRest
    exact eventually_valuesWithin_cons hAt hRest

section Step

variable {inside : String → Except SheetError String} {exceeded : SheetError}

theorem endsAt_shownAt
    (hInside : ∀ target, inside target ≠ .error exceeded → Ends table target (inside target))
    {r : Reference} (h : shownAt table inside r ≠ .error exceeded) :
    EndsAt table r (shownAt table inside r) := by
  rcases reference_cases table r with hNone | ⟨target, n, hTarget, hNumeral⟩ |
    ⟨target, hTarget, hNumeral⟩
  · rw [shownAt_of_none hNone]
    exact .missing hNone
  · rw [shownAt_of_bare hTarget hNumeral]
    exact .bare hTarget hNumeral
  · rw [shownAt_of_nested hTarget hNumeral] at h ⊢
    exact .nested hTarget hNumeral (hInside target h)

theorem endsValues_mapM
    (hInside : ∀ target, inside target ≠ .error exceeded → Ends table target (inside target))
    {operands : List Operand} (h : operands.mapM (operandValue table inside) ≠ .error exceeded) :
    EndsValues table operands (operands.mapM (operandValue table inside)) := by
  induction operands with
  | nil => exact .nil
  | cons operand operands ih =>
      cases operand with
      | numeral n =>
          rw [mapM_cons_of_ok (operandValue_numeral n)] at h ⊢
          exact .numeral (ih fun hRest => h (map_eq_error_iff.mpr hRest))
      | cell r =>
          cases hShown : shownAt table inside r with
          | error cause =>
              rw [mapM_cons_of_error (operandValue_eq_error_iff.mpr hShown)] at h ⊢
              have hAt : shownAt table inside r ≠ .error exceeded := by
                rw [hShown]
                simpa using h
              exact .error (hShown ▸ endsAt_shownAt hInside hAt)
          | ok text =>
              rw [mapM_cons_of_ok (operandValue_of_ok hShown)] at h ⊢
              have hAt : shownAt table inside r ≠ .error exceeded := by simp [hShown]
              exact .cell (hShown ▸ endsAt_shownAt hInside hAt)
                (ih fun hRest => h (map_eq_error_iff.mpr hRest))

theorem ends_shown
    (hInside : ∀ target, inside target ≠ .error exceeded → Ends table target (inside target))
    (h : shown table inside raw ≠ .error exceeded) : Ends table raw (shown table inside raw) := by
  rw [shown] at h ⊢
  cases hContent : Content.ofString raw with
  | number n => exact .number hContent
  | reference r =>
      simp only [hContent] at h
      exact .reference hContent (endsAt_shownAt hInside h)
  | formula f =>
      simp only [hContent] at h
      exact .formula hContent
        (endsValues_mapM hInside fun hValues => h (map_eq_error_iff.mpr hValues))
  | text text => exact .text hContent

end Step

/-- Evaluation that does not exceed its levels ends with the result that it has. -/
theorem ends_shownWithin {exceeded : SheetError} {levels : Nat}
    (h : shownWithin table exceeded levels raw ≠ .error exceeded) :
    Ends table raw (shownWithin table exceeded levels raw) := by
  induction levels generalizing raw with
  | zero => exact absurd rfl h
  | succ levels ih => exact ends_shown (fun target => ih) h

/-- Evaluation ends with what settles the content, if something does. -/
theorem ends_iff :
    Ends table raw result ↔ ∃ finding, SettledBy table raw finding ∧ finding.shows = result := by
  constructor
  · intro h
    obtain ⟨least, hLeast⟩ := h.eventually
    rcases settledBy_or_exceeds table raw least with ⟨finding, hSettled, hLevels⟩ | hExceeds
    · refine ⟨finding, hSettled, ?_⟩
      rw [← hLeast (.chainTooLong 0) least (Nat.le_refl _)]
      exact ((hSettled (.chainTooLong 0) least).trans (if_pos hLevels)).symm
    · -- No result is the error for exceeded levels, whichever error that is.
      have hResult : ∀ exceeded, result = .error exceeded := by
        intro exceeded
        rw [← hExceeds exceeded]
        exact (hLeast exceeded least (Nat.le_refl _)).symm
      cases (hResult (.chainTooLong 0)).symm.trans (hResult (.chainTooLong 1))
  · intro h
    obtain ⟨finding, hSettled, rfl⟩ := h
    have hShown : shownWithin table (.chainTooLong 0) finding.levels raw = finding.shows :=
      (hSettled (.chainTooLong 0) finding.levels).trans (if_pos (Nat.le_refl _))
    rw [← hShown]
    apply ends_shownWithin
    intro hExceeds
    rw [hShown] at hExceeds
    obtain ⟨r, -, hCause⟩ := hSettled.exists_dangling hExceeds
    cases hCause

/-- Evaluation that ends with an error has come to a reference to no cell. -/
theorem Ends.exists_dangling {cause : SheetError} (h : Ends table raw (.error cause)) :
    ∃ r, Dangles table raw r ∧ cause = .missingCell r.text := by
  obtain ⟨finding, hSettled, hShows⟩ := ends_iff.mp h
  exact hSettled.exists_dangling hShows

theorem Ends.ne_chainTooLong {result : Except SheetError String} (h : Ends table raw result)
    (limit : Nat) : result ≠ .error (.chainTooLong limit) := by
  intro hResult
  subst hResult
  obtain ⟨r, -, hCause⟩ := h.exists_dangling
  cases hCause

end Evaluation

namespace Table

open Evaluation

variable {table : Table} {raw : String} {result : Except SheetError String}

theorem evaluate_some_of_settledBy {finding : Finding} (h : SettledBy table raw finding)
    (limit : Nat) :
    table.evaluate (some limit) raw =
      some (if finding.levels ≤ limit + 1 then finding.shows
        else .error (.chainTooLong limit)) := by
  rw [evaluate_some]
  exact congrArg some (h (.chainTooLong limit) (limit + 1))

theorem evaluate_none_of_settledBy {finding : Finding} (h : SettledBy table raw finding) :
    table.evaluate none raw = some finding.shows := by
  rcases table.evaluate_none_cases raw with ⟨result, hEvaluate, hShown⟩ | ⟨-, hExceeds⟩
  · have hSettled := (h (.chainTooLong 0) (table.cellCount + 1)).trans (if_pos h.levels_le)
    exact hEvaluate.trans (congrArg some ((hShown _).symm.trans hSettled))
  · exact absurd (h.exceeds_iff.mp hExceeds) (Nat.not_lt.mpr h.levels_le)

/-- Evaluation without a limit answers what it ends with. -/
theorem evaluate_none_eq_some_iff :
    table.evaluate none raw = some result ↔ Ends table raw result := by
  rw [ends_iff]
  constructor
  · intro h
    rcases table.evaluate_none_cases raw with ⟨shown, -, hShown⟩ | ⟨hNone, -⟩
    · rcases settledBy_or_exceeds table raw (table.cellCount + 1) with
        ⟨finding, hSettled, -⟩ | hExceeds
      · exact ⟨finding, hSettled,
          Option.some.inj ((evaluate_none_of_settledBy hSettled).symm.trans h)⟩
      · have hError : ∀ exceeded, shown = .error exceeded :=
          fun exceeded => (hShown exceeded).symm.trans (hExceeds exceeded)
        cases (hError (.chainTooLong 0)).symm.trans (hError (.chainTooLong 1))
    · cases hNone.symm.trans h
  · rintro ⟨finding, hSettled, rfl⟩
    exact evaluate_none_of_settledBy hSettled

theorem evaluate_none_of_ends (h : Ends table raw result) :
    table.evaluate none raw = some result :=
  evaluate_none_eq_some_iff.mpr h

theorem evaluate_none_eq_none_iff :
    table.evaluate none raw = none ↔ ¬∃ result, Ends table raw result := by
  simp only [Option.eq_none_iff_forall_ne_some, ne_eq, evaluate_none_eq_some_iff, not_exists]

/-- Only without a limit may evaluation have no end, and then there is no answer. -/
theorem evaluate_eq_none_iff {limit : Option Nat} :
    table.evaluate limit raw = none ↔ limit = none ∧ ¬∃ result, Ends table raw result := by
  cases limit with
  | some limit => simp [evaluate_some]
  | none => simp [evaluate_none_eq_none_iff]

/-- A limit of as many levels as there are cells keeps all that evaluation ends with. -/
theorem evaluate_some_of_ends (h : Ends table raw result) {limit : Nat}
    (hCells : table.cellCount ≤ limit) : table.evaluate (some limit) raw = some result := by
  obtain ⟨finding, hSettled, rfl⟩ := ends_iff.mp h
  have hLevels := hSettled.levels_le
  rw [evaluate_some_of_settledBy hSettled, if_pos (by omega)]

/-- Without an end of evaluation every limit is exceeded. -/
theorem evaluate_some_of_not_ends (h : ¬∃ result, Ends table raw result) (limit : Nat) :
    table.evaluate (some limit) raw = some (.error (.chainTooLong limit)) := by
  rw [evaluate_some]
  rcases settledBy_or_exceeds table raw (limit + 1) with ⟨finding, hSettled, -⟩ | hExceeds
  · exact absurd ⟨finding.shows, ends_iff.mpr ⟨finding, hSettled, rfl⟩⟩ h
  · rw [hExceeds]

/-- A limit that is not exceeded is kept under every higher one, with the same answer. -/
theorem evaluate_some_of_le {limit higher : Nat} (hLimit : limit ≤ higher)
    (h : table.evaluate (some limit) raw ≠ some (.error (.chainTooLong limit))) :
    ∃ result, Ends table raw result ∧ table.evaluate (some limit) raw = some result ∧
      table.evaluate (some higher) raw = some result := by
  have hEnds : ∃ result, Ends table raw result := by
    by_contra hNot
    exact h (evaluate_some_of_not_ends hNot limit)
  obtain ⟨result, hEnds⟩ := hEnds
  obtain ⟨finding, hSettled, rfl⟩ := ends_iff.mp hEnds
  have hLevels : finding.levels ≤ limit + 1 := by
    by_contra hMore
    exact h (by rw [evaluate_some_of_settledBy hSettled, if_neg hMore])
  refine ⟨_, hEnds, ?_, ?_⟩
  · rw [evaluate_some_of_settledBy hSettled, if_pos hLevels]
  · rw [evaluate_some_of_settledBy hSettled, if_pos (by omega)]

/-- A result that evaluation ends with is kept under some limit. -/
theorem exists_evaluate_some_of_ends (h : Ends table raw result) :
    ∃ limit, table.evaluate (some limit) raw = some result ∧
      table.evaluate (some limit) raw ≠ some (.error (.chainTooLong limit)) := by
  have hShown := evaluate_some_of_ends h (Nat.le_refl table.cellCount)
  refine ⟨table.cellCount, hShown, fun hExceeded => ?_⟩
  exact h.ne_chainTooLong _ (Option.some.inj (hShown.symm.trans hExceeded))

theorem ends_of_evaluate_some {limit : Nat}
    (hShown : table.evaluate (some limit) raw = some result)
    (h : result ≠ .error (.chainTooLong limit)) : Ends table raw result := by
  have hKept : table.evaluate (some limit) raw ≠ some (.error (.chainTooLong limit)) :=
    fun hExceeded => h (Option.some.inj (hShown.symm.trans hExceeded))
  obtain ⟨other, hEnds, hOther, -⟩ := evaluate_some_of_le (Nat.le_refl limit) hKept
  cases hShown.symm.trans hOther
  exact hEnds

/-- Tables in which evaluation ends with the same results show the same without a limit. -/
theorem evaluate_none_congr {other : Table}
    (h : ∀ result, Ends table raw result ↔ Ends other raw result) :
    other.evaluate none raw = table.evaluate none raw := by
  apply Option.ext
  intro result
  rw [evaluate_none_eq_some_iff, evaluate_none_eq_some_iff, h]

/-- Once the limit is as high as the number of cells, it is exceeded only where evaluation has
no end, and then every limit is exceeded. -/
theorem evaluate_decisive {limit : Nat} (hCells : table.cellCount ≤ limit)
    (hExceeded : table.evaluate (some limit) raw = some (.error (.chainTooLong limit))) :
    (¬∃ result, Ends table raw result) ∧
      ∀ other, table.evaluate (some other) raw = some (.error (.chainTooLong other)) := by
  have hNot : ¬∃ result, Ends table raw result := by
    intro hEnds
    obtain ⟨result, hEnds⟩ := hEnds
    rw [evaluate_some_of_ends hEnds hCells] at hExceeded
    exact hEnds.ne_chainTooLong limit (Option.some.inj hExceeded)
  exact ⟨hNot, evaluate_some_of_not_ends hNot⟩

theorem evaluate_decisive_on_cycle :
    let table : Table := ⟨[["=ADD(B1,C9)", "=A1"]]⟩
    table.cellCount = 2 ∧
      table.evaluate (some 2) "=A1" = some (.error (.chainTooLong 2)) ∧
      table.evaluate (some 1000) "=A1" = some (.error (.chainTooLong 1000)) := by
  intro table
  have hCells : table.cellCount = 2 := rfl
  have hExceeded : table.evaluate (some 2) "=A1" = some (.error (.chainTooLong 2)) := by
    rw [evaluate_some]
    decide +kernel
  exact ⟨hCells, hExceeded, (evaluate_decisive (Nat.le_of_eq hCells) hExceeded).2 1000⟩

/-- A limit that is not exceeded changes no answer: it is that of every higher limit and that
of evaluation without one, which ends with it. What evaluation without a limit ends with is
the answer under all limits from the number of cells on. It is told apart from evaluation
that has no end, for which there is no answer. -/
theorem evaluate_stable (table : Table) (raw : String) :
    (∀ limit higher, limit ≤ higher →
      table.evaluate (some limit) raw ≠ some (.error (.chainTooLong limit)) →
        ∃ result, Ends table raw result ∧ table.evaluate (some limit) raw = some result ∧
          table.evaluate (some higher) raw = some result ∧
          table.evaluate none raw = some result) ∧
    (∀ result, Ends table raw result →
      table.evaluate none raw = some result ∧
      ∀ limit, table.cellCount ≤ limit → table.evaluate (some limit) raw = some result) ∧
    (table.evaluate none raw = none ↔ ¬∃ result, Ends table raw result) := by
  refine ⟨?_, ?_, evaluate_none_eq_none_iff⟩
  · intro limit higher hLimit h
    obtain ⟨result, hEnds, hShown, hHigher⟩ := evaluate_some_of_le hLimit h
    exact ⟨result, hEnds, hShown, hHigher, evaluate_none_of_ends hEnds⟩
  · intro result hEnds
    exact ⟨evaluate_none_of_ends hEnds, fun limit hCells => evaluate_some_of_ends hEnds hCells⟩

theorem evaluate_stable_on_missing_operand :
    let table : Table := ⟨[["=ADD(B1,Z9)", "=C1", "7"]]⟩
    table.evaluate (some 1) "=A1" = some (.error (.chainTooLong 1)) ∧
      table.evaluate (some 2) "=A1" = some (.error (.missingCell "Z9")) ∧
      table.evaluate (some 1000) "=A1" = some (.error (.missingCell "Z9")) ∧
      table.evaluate none "=A1" = some (.error (.missingCell "Z9")) := by
  intro table
  have hFirst : table.evaluate (some 1) "=A1" = some (.error (.chainTooLong 1)) := by
    rw [evaluate_some]
    decide +kernel
  have hSecond : table.evaluate (some 2) "=A1" = some (.error (.missingCell "Z9")) := by
    rw [evaluate_some]
    decide +kernel
  have hKept := (evaluate_stable table "=A1").1 2 1000 (by decide)
  rw [hSecond] at hKept
  obtain ⟨result, -, hResult, hHigher, hNone⟩ := hKept (by decide)
  cases hResult
  exact ⟨hFirst, hSecond, hHigher, hNone⟩

end Table

end PlainSheet
