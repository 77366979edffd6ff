import Std.Data.HashMap
import PlainSheet.Evaluation.Basic

/-!
Evaluation that follows every reference once. What a cell was found to show is kept
together with the number of levels that were needed to find it, and answers all later
references to the cell, under any bound. The main statements say that this changes no
answer: contents evaluate, one by one or all together, to what they show by definition.
-/

namespace PlainSheet

namespace Evaluation

/-- What a cell or a content shows, and how many contents have to be evaluated inside
each other to know it. -/
structure Finding where
  shows : Except SheetError String
  levels : Nat

/-- What references to cells were found to show, by the positions of the cells. -/
abbrev Findings : Type := Std.HashMap Address Finding

/-- Finds what a reference shows within a number of levels, when `inside` finds what
contents show within them. The answer is nothing when more levels are needed. -/
def findAt (table : Table) (levels : Nat)
    (inside : String → Findings → Option (Finding × Findings)) (r : Reference)
    (known : Findings) : Option (Finding × Findings) :=
  match known[r.address]? with
  | some finding => if finding.levels ≤ levels then some (finding, known) else none
  | none =>
    match table.follow r with
    | .error cause => some (⟨.error cause, 0⟩, known)
    | .ok target =>
      match Numeral.ofString? target with
      | some n => some (⟨.ok n.value.display, 0⟩, known)
      | none =>
        match inside target known with
        | some (finding, known) => some (finding, known.insert r.address finding)
        | none => none

/-- Finds the values of operands from left to right, up to the first error, when `find`
finds what references show. Values found before are kept in reverse, with the number of
levels that they needed. -/
def findValues (find : Reference → Findings → Option (Finding × Findings))
    (values : List Binary64) (levels : Nat) (known : Findings) :
    List Operand → Option (Except SheetError (List Binary64) × Nat × Findings)
  | [] => some (.ok values.reverse, levels, known)
  | .numeral n :: rest =>
    findValues find (Binary64.ofShown n.value.display :: values) levels known rest
  | .cell r :: rest =>
    match find r known with
    | none => none
    | some (finding, known) =>
      match finding.shows with
      | .error cause => some (.error cause, max levels finding.levels, known)
      | .ok text =>
        findValues find (Binary64.ofShown text :: values) (max levels finding.levels) known rest

/-- Finds what a content shows within a number of levels. The answer is nothing when more
levels are needed. -/
def find (table : Table) : Nat → String → Findings → Option (Finding × Findings)
  | 0, _, _ => none
  | levels + 1, raw, known =>
    match Content.ofString raw with
    | .number n => some (⟨.ok n.value.display, 1⟩, known)
    | .text raw => some (⟨.ok raw, 1⟩, known)
    | .reference r =>
      match findAt table levels (find table levels) r known with
      | some (finding, known) => some (⟨finding.shows, finding.levels + 1⟩, known)
      | none => none
    | .formula f =>
      match findValues (findAt table levels (find table levels)) [] 0 known f.operands with
      | some (values, needed, known) =>
        some (⟨values.map fun values => (f.function.fold values).display, needed + 1⟩, known)
      | none => none

/-- A finding settles what something shows under every bound: it shows the same wherever
the levels suffice, and else the bound is exceeded. -/
def Finding.Settles (finding : Finding) (shown : SheetError → Nat → Except SheetError String) :
    Prop :=
  ∀ exceeded levels,
    shown exceeded levels =
      if finding.levels ≤ levels then finding.shows else .error exceeded

/-- Findings are sound when each settles what its cell shows. -/
def Sound (table : Table) (known : Findings) : Prop :=
  ∀ (address : Address) (finding : Finding), known[address]? = some finding →
    ∃ target, table.get? address.row address.column = some target ∧
      finding.Settles fun exceeded levels =>
        shownTarget (shownWithin table exceeded levels) target

theorem sound_empty (table : Table) : Sound table ∅ := by
  intro address finding hKnown
  simp at hKnown

theorem Sound.insert {table : Table} {known : Findings} {address : Address}
    {finding : Finding} {target : String} (hKnown : Sound table known)
    (hTarget : table.get? address.row address.column = some target)
    (hSettles : finding.Settles fun exceeded levels =>
      shownTarget (shownWithin table exceeded levels) target) :
    Sound table (known.insert address finding) := by
  intro other found hFound
  rw [Std.HashMap.getElem?_insert] at hFound
  split at hFound
  next hSame =>
    cases hFound
    cases eq_of_beq hSame
    exact ⟨target, hTarget, hSettles⟩
  next => exact hKnown other found hFound

/-- A search within a number of levels answers what something shows: it either finds
what settles it with levels that are there, or the levels do not suffice. -/
def Answers (table : Table) (shown : SheetError → Nat → Except SheetError String)
    (levels : Nat) : Option (Finding × Findings) → Prop
  | none => ∀ exceeded, shown exceeded levels = .error exceeded
  | some (finding, known) =>
    finding.levels ≤ levels ∧ finding.Settles shown ∧ Sound table known

namespace Answers

variable {table : Table} {shown : SheetError → Nat → Except SheetError String} {levels : Nat}
  {finding : Finding} {known : Findings}

theorem shown_eq (h : Answers table shown levels (some (finding, known))) (exceeded : SheetError) :
    shown exceeded levels = finding.shows :=
  (h.2.1 exceeded levels).trans (if_pos h.1)

/-- Where something is found the levels suffice, since what it shows cannot be the error for
two bounds that are exceeded. -/
theorem not_exceeds (h : Answers table shown levels (some (finding, known))) :
    ¬∀ exceeded, shown exceeded levels = .error exceeded := by
  intro hExceeds
  have hShows : ∀ exceeded, finding.shows = .error exceeded := fun exceeded =>
    (h.shown_eq exceeded).symm.trans (hExceeds exceeded)
  cases (hShows (.chainTooLong 0)).symm.trans (hShows (.chainTooLong 1))

end Answers

/-- Finding what a reference shows answers what it shows by definition. -/
theorem findAt_answers {table : Table} {levels : Nat}
    {inside : String → Findings → Option (Finding × Findings)} {r : Reference}
    {known : Findings} (hKnown : Sound table known)
    (hInside : ∀ raw known, Sound table known →
      Answers table (fun exceeded levels => shownWithin table exceeded levels raw) levels
        (inside raw known)) :
    Answers table (fun exceeded levels => shownAt table (shownWithin table exceeded levels) r)
      levels (findAt table levels inside r known) := by
  unfold findAt
  split
  next finding hFound =>
    obtain ⟨target, hTarget, hSettles⟩ := hKnown _ _ hFound
    have hShown : finding.Settles fun exceeded levels =>
        shownAt table (shownWithin table exceeded levels) r := by
      intro exceeded levels
      simpa only [shownAt, Table.follow, hTarget] using hSettles exceeded levels
    split
    next hLevels => exact ⟨hLevels, hShown, hKnown⟩
    next hLevels =>
      intro exceeded
      rw [hShown exceeded levels, if_neg hLevels]
  next =>
    split
    next cause hFollow =>
      refine ⟨Nat.zero_le _, ?_, hKnown⟩
      intro exceeded levels
      simp [shownAt, hFollow]
    next target hFollow =>
      have hTarget : table.get? r.address.row r.address.column = some target := by
        unfold Table.follow at hFollow
        split at hFollow
        next hGet =>
          cases hFollow
          exact hGet
        next => cases hFollow
      split
      next n hNumeral =>
        refine ⟨Nat.zero_le _, ?_, hKnown⟩
        intro exceeded levels
        simp [shownAt, hFollow, shownTarget, hNumeral]
      next hNumeral =>
        have hShown : ∀ exceeded levels,
            shownAt table (shownWithin table exceeded levels) r =
              shownWithin table exceeded levels target := by
          intro exceeded levels
          simp [shownAt, hFollow, shownTarget, hNumeral]
        have hAnswers := hInside target known hKnown
        split
        next finding found hFind =>
          rw [hFind] at hAnswers
          obtain ⟨hLevels, hSettles, hFound⟩ := hAnswers
          refine ⟨hLevels, ?_, hFound.insert hTarget ?_⟩
          · intro exceeded levels
            exact (hShown exceeded levels).trans (hSettles exceeded levels)
          · intro exceeded levels
            simpa [shownTarget, hNumeral] using hSettles exceeded levels
        next hFind =>
          rw [hFind] at hAnswers
          intro exceeded
          exact (hShown exceeded levels).trans (hAnswers exceeded)

/-- The values of operands, when at most `levels` contents are evaluated inside each
other. -/
def valuesWithin (table : Table) (operands : List Operand) (exceeded : SheetError)
    (levels : Nat) : Except SheetError (List Binary64) :=
  operands.mapM (operandValue table (shownWithin table exceeded levels))

/-- What `findValues` answers, when values that needed some levels were found before. -/
def AnswersValues (table : Table) (operands : List Operand) (values : List Binary64)
    (needed levels : Nat) : Option (Except SheetError (List Binary64) × Nat × Findings) → Prop
  | none => ∀ exceeded, valuesWithin table operands exceeded levels = .error exceeded
  | some (found, total, known) =>
    needed ≤ total ∧ total ≤ levels ∧ Sound table known ∧
      ∀ exceeded levels, needed ≤ levels →
        (valuesWithin table operands exceeded levels).map (values.reverse ++ ·) =
          if total ≤ levels then found else .error exceeded

theorem valuesWithin_cons (table : Table) (operand : Operand) (operands : List Operand)
    (exceeded : SheetError) (levels : Nat) :
    valuesWithin table (operand :: operands) exceeded levels =
      match operandValue table (shownWithin table exceeded levels) operand with
      | .error cause => .error cause
      | .ok value => (valuesWithin table operands exceeded levels).map (value :: ·) := by
  rw [valuesWithin, List.mapM_cons]
  cases operandValue table (shownWithin table exceeded levels) operand <;> rfl

/-- What is answered for the operands behind one is answered for all of them, when the
one has a value wherever its own levels suffice. -/
theorem AnswersValues.cons {table : Table} {operand : Operand} {rest : List Operand}
    {values : List Binary64} {needed levels : Nat} (value : Binary64) (own : Nat)
    {answer : Option (Except SheetError (List Binary64) × Nat × Findings)}
    (hOperand : ∀ exceeded levels,
      operandValue table (shownWithin table exceeded levels) operand =
        if own ≤ levels then .ok value else .error exceeded)
    (hRest : AnswersValues table rest (value :: values) (max needed own) levels answer) :
    AnswersValues table (operand :: rest) values needed levels answer := by
  cases answer with
  | none =>
    intro exceeded
    rw [valuesWithin_cons, hOperand]
    by_cases hOwn : own ≤ levels
    · rw [if_pos hOwn]
      simp only [hRest exceeded, Except.map]
    · rw [if_neg hOwn]
  | some answer =>
    obtain ⟨found, total, known⟩ := answer
    obtain ⟨hNeeded, hTotal, hKnown, hValues⟩ := hRest
    refine ⟨by omega, hTotal, hKnown, ?_⟩
    intro exceeded levels hLevels
    rw [valuesWithin_cons, hOperand]
    by_cases hOwn : own ≤ levels
    · rw [if_pos hOwn, ← hValues exceeded levels (by omega)]
      cases valuesWithin table rest exceeded levels <;> simp [Except.map]
    · rw [if_neg hOwn, if_neg (by omega)]
      rfl

/-- Finding the values of operands answers what they are by definition. -/
theorem findValues_answers {table : Table} {levels needed : Nat}
    {find : Reference → Findings → Option (Finding × Findings)} (values : List Binary64)
    {known : Findings} (operands : List Operand) (hKnown : Sound table known)
    (hFind : ∀ r known, Sound table known →
      Answers table (fun exceeded levels => shownAt table (shownWithin table exceeded levels) r)
        levels (find r known))
    (hNeeded : needed ≤ levels) :
    AnswersValues table operands values needed levels
      (findValues find values needed known operands) := by
  induction operands generalizing values needed known with
  | nil =>
    refine ⟨Nat.le_refl _, hNeeded, hKnown, ?_⟩
    intro exceeded levels hLevels
    rw [if_pos hLevels]
    simp [valuesWithin, Except.map, pure, Except.pure]
  | cons operand rest ih =>
    cases operand with
    | numeral n =>
      refine AnswersValues.cons (Binary64.ofShown n.value.display) 0 ?_ ?_
      · intro exceeded levels
        simp [operandValue]
      · rw [Nat.max_zero]
        exact ih _ hKnown hNeeded
    | cell r =>
      have hAnswers := hFind r known hKnown
      rw [findValues]
      cases hFound : find r known with
      | none =>
        rw [hFound] at hAnswers
        intro exceeded
        rw [valuesWithin_cons]
        simp [operandValue, hAnswers exceeded, Except.map]
      | some answer =>
        obtain ⟨finding, found⟩ := answer
        rw [hFound] at hAnswers
        obtain ⟨hLevels, hSettles, hSound⟩ := hAnswers
        have hShown : ∀ exceeded levels,
            shownAt table (shownWithin table exceeded levels) r =
              if finding.levels ≤ levels then finding.shows else .error exceeded := hSettles
        dsimp only
        split
        next cause hShows =>
          refine ⟨Nat.le_max_left _ _, by omega, hSound, ?_⟩
          intro exceeded levels hEnough
          rw [valuesWithin_cons, operandValue, hShown, hShows]
          by_cases hOwn : finding.levels ≤ levels
          · rw [if_pos hOwn, if_pos (by omega)]
            rfl
          · rw [if_neg hOwn, if_neg (by omega)]
            rfl
        next text hShows =>
          refine AnswersValues.cons (Binary64.ofShown text) finding.levels ?_
            (ih _ hSound (by omega))
          intro exceeded levels
          rw [operandValue, hShown, hShows]
          by_cases hOwn : finding.levels ≤ levels
          · rw [if_pos hOwn, if_pos hOwn]
            rfl
          · rw [if_neg hOwn, if_neg hOwn]
            rfl

/-- Finding what a content shows answers what it shows by definition. -/
theorem find_answers {table : Table} (levels : Nat) (raw : String) {known : Findings}
    (hKnown : Sound table known) :
    Answers table (fun exceeded levels => shownWithin table exceeded levels raw) levels
      (find table levels raw known) := by
  induction levels generalizing raw known with
  | zero => exact fun _ => rfl
  | succ levels ih =>
    have hAt : ∀ r known, Sound table known →
        Answers table (fun exceeded levels => shownAt table (shownWithin table exceeded levels) r)
          levels (findAt table levels (find table levels) r known) :=
      fun r known hKnown => findAt_answers hKnown fun raw known hKnown => ih raw hKnown
    rw [find]
    split
    next n hContent =>
      refine ⟨by simp, ?_, hKnown⟩
      intro exceeded levels
      cases levels with
      | zero => rfl
      | succ levels => simp [shownWithin, shown, hContent]
    next text hContent =>
      refine ⟨by simp, ?_, hKnown⟩
      intro exceeded levels
      cases levels with
      | zero => rfl
      | succ levels => simp [shownWithin, shown, hContent]
    next r hContent =>
      have hAnswers := hAt r known hKnown
      split
      next finding found hFound =>
        rw [hFound] at hAnswers
        obtain ⟨hLevels, hSettles, hSound⟩ := hAnswers
        refine ⟨Nat.succ_le_succ hLevels, ?_, hSound⟩
        intro exceeded levels
        cases levels with
        | zero => rfl
        | succ levels =>
          simp only [shownWithin, shown, hContent]
          simpa using hSettles exceeded levels
      next hFound =>
        rw [hFound] at hAnswers
        intro exceeded
        simpa only [shownWithin, shown, hContent] using hAnswers exceeded
    next f hContent =>
      have hAnswers := findValues_answers [] f.operands hKnown hAt (Nat.zero_le levels)
      split
      next values needed found hFound =>
        rw [hFound] at hAnswers
        obtain ⟨_, hLevels, hSound, hValues⟩ := hAnswers
        refine ⟨Nat.succ_le_succ hLevels, ?_, hSound⟩
        intro exceeded levels
        cases levels with
        | zero => rfl
        | succ levels =>
          have hShown : valuesWithin table f.operands exceeded levels =
              if needed ≤ levels then values else .error exceeded := by
            rw [← hValues exceeded levels (Nat.zero_le _)]
            cases valuesWithin table f.operands exceeded levels <;> rfl
          rw [valuesWithin] at hShown
          simp only [shownWithin, shown, hContent, hShown, Nat.succ_le_succ_iff]
          by_cases hNeeded : needed ≤ levels
          · rw [if_pos hNeeded, if_pos hNeeded]
          · rw [if_neg hNeeded, if_neg hNeeded]
            rfl
      next hFound =>
        rw [hFound] at hAnswers
        intro exceeded
        have hShown := hAnswers exceeded
        rw [valuesWithin] at hShown
        simp only [shownWithin, shown, hContent, hShown, Except.map]

/-- What is found does not depend on the findings that there are. -/
theorem find_shows_eq {table : Table} (levels : Nat) (raw : String) {known others : Findings}
    (hKnown : Sound table known) (hOthers : Sound table others) :
    (find table levels raw known).map (fun answer => answer.1.shows) =
      (find table levels raw others).map fun answer => answer.1.shows := by
  have hAnswers := find_answers levels raw hKnown
  have hSame := find_answers levels raw hOthers
  cases hFind : find table levels raw known with
  | none =>
    rw [hFind] at hAnswers
    cases hOther : find table levels raw others with
    | none => rfl
    | some answer =>
      rw [hOther] at hSame
      exact absurd hAnswers hSame.not_exceeds
  | some answer =>
    rw [hFind] at hAnswers
    cases hOther : find table levels raw others with
    | none =>
      rw [hOther] at hSame
      exact absurd hSame hAnswers.not_exceeds
    | some other =>
      rw [hOther] at hSame
      exact congrArg some
        ((hAnswers.shown_eq (.chainTooLong 0)).symm.trans (hSame.shown_eq (.chainTooLong 0)))

/-- A computation that keeps findings yields what some computation without them comes to,
whatever sound findings it starts from, and leaves sound findings. -/
def Yields {α : Type} (table : Table)
    (computation : StateT Findings (ExceptT SheetError Option) α)
    (value : Option (Except SheetError α)) : Prop :=
  ∀ known, Sound table known →
    match (computation.run known).run with
    | none => value = none
    | some (.error cause) => value = some (.error cause)
    | some (.ok (a, known)) => value = some (.ok a) ∧ Sound table known

/-- What computations yield for each member of a list, they yield for the list. -/
theorem Yields.mapM {α β : Type} {table : Table}
    {computation : α → StateT Findings (ExceptT SheetError Option) β}
    {value : α → Option (Except SheetError β)}
    (hYields : ∀ a, Yields table (computation a) (value a)) (list : List α) :
    Yields table (list.mapM computation) (inOrder value list) := by
  induction list with
  | nil => exact fun known hKnown => ⟨rfl, hKnown⟩
  | cons a rest ih =>
    intro known hKnown
    have hHead := hYields a known hKnown
    rw [List.mapM_cons, StateT.run_bind, ExceptT.run_bind, inOrder]
    split at hHead
    next hFirst =>
      rw [hFirst, hHead]
      rfl
    next cause hFirst =>
      rw [hFirst, hHead]
      rfl
    next b found hFirst =>
      obtain ⟨hValue, hFound⟩ := hHead
      have hTail := ih found hFound
      rw [hFirst, hValue]
      simp only [Option.bind_eq_bind, Option.bind_some, StateT.run_bind, ExceptT.run_bind]
      split at hTail
      next hRest =>
        rw [hRest, hTail]
        rfl
      next cause hRest =>
        rw [hRest, hTail]
        rfl
      next others kept hRest =>
        obtain ⟨hValues, hKept⟩ := hTail
        rw [hRest, hValues]
        exact ⟨rfl, hKept⟩

theorem Yields.eq {α : Type} {table : Table}
    {computation : StateT Findings (ExceptT SheetError Option) α}
    {value : Option (Except SheetError α)} (hYields : Yields table computation value) :
    (computation.run ∅).run.map (Except.map Prod.fst) = value := by
  have hEmpty := hYields ∅ (sound_empty table)
  split at hEmpty
  next hRun => rw [hRun, hEmpty, Option.map_none]
  next cause hRun => rw [hRun, hEmpty, Option.map_some, Except.map]
  next a known hRun => rw [hRun, hEmpty.1, Option.map_some, Except.map]

end Evaluation

namespace Table

open Evaluation

/-- Evaluates a content under a bound, with the findings that there are. -/
def evaluateKnowing (table : Table) (bound : Bound) (raw : String) :
    StateT Findings (ExceptT SheetError Option) String := fun known =>
  match find table bound.levels raw known with
  | none => bound.exceeded.map .error
  | some (finding, known) => some (finding.shows.map fun text => (text, known))

def evaluateTo (table : Table) (bound : Bound) (raw : String) :
    Option (Except SheetError String) :=
  ((table.evaluateKnowing bound raw).run ∅).run.map (Except.map Prod.fst)

/-- What a content shows in a table, under an optional limit on reference chains. There is
nothing where evaluation has no end. -/
def evaluate (table : Table) (limit : Option Nat) (raw : String) :
    Option (Except SheetError String) :=
  table.evaluateTo (table.bound limit) raw

/-- What all cells of a table show, under a bound. The first cell in reading order that
has no value decides for all of them, by its error or by having no end. -/
def evaluateRows (table : Table) (bound : Bound) :
    Option (Except SheetError (List (List String))) :=
  let computation := table.rows.mapM fun row : List String =>
    row.mapM (table.evaluateKnowing bound)
  (computation.run ∅).run.map (Except.map Prod.fst)

theorem run_evaluateKnowing (table : Table) (bound : Bound) (raw : String) (known : Findings) :
    ((table.evaluateKnowing bound raw).run known).run =
      match find table bound.levels raw known with
      | none => bound.exceeded.map .error
      | some (finding, known) => some (finding.shows.map fun text => (text, known)) :=
  rfl

theorem evaluateTo_eq (table : Table) (bound : Bound) (raw : String) :
    table.evaluateTo bound raw =
      match find table bound.levels raw ∅ with
      | none => bound.exceeded.map .error
      | some (finding, _) => some finding.shows := by
  rw [evaluateTo, run_evaluateKnowing]
  cases find table bound.levels raw ∅ with
  | none => cases bound.exceeded <;> rfl
  | some answer =>
    obtain ⟨⟨shows, _⟩, _⟩ := answer
    cases shows <;> rfl

theorem evaluateKnowing_yields (table : Table) (bound : Bound) (raw : String) :
    Yields table (table.evaluateKnowing bound raw) (table.evaluateTo bound raw) := by
  intro known hKnown
  have hAnswers := find_answers bound.levels raw hKnown
  have hSame := find_shows_eq bound.levels raw hKnown (sound_empty table)
  rw [run_evaluateKnowing, evaluateTo_eq]
  cases hFind : find table bound.levels raw known with
  | none =>
    have hEmpty : find table bound.levels raw ∅ = none := by
      simpa [hFind] using hSame.symm
    rw [hEmpty]
    cases bound.exceeded <;> rfl
  | some answer =>
    obtain ⟨finding, found⟩ := answer
    rw [hFind] at hAnswers hSame
    obtain ⟨⟨other, kept⟩, hEmpty, hShows⟩ := Option.map_eq_some_iff.mp hSame.symm
    rw [hEmpty]
    dsimp only at hShows ⊢
    rw [hShows]
    cases finding.shows with
    | error cause => rfl
    | ok text => exact ⟨rfl, hAnswers.2.2⟩

/-- A content evaluates to what it shows by definition, whatever the error for an exceeded bound
would be. Where the levels do not suffice, the bound is exceeded. -/
theorem evaluateTo_cases (table : Table) (bound : Bound) (raw : String) :
    (∃ result, table.evaluateTo bound raw = some result ∧
      ∀ exceeded, shownWithin table exceeded bound.levels raw = result) ∨
    (table.evaluateTo bound raw = bound.exceeded.map .error ∧
      ∀ exceeded, shownWithin table exceeded bound.levels raw = .error exceeded) := by
  have hAnswers := find_answers bound.levels raw (sound_empty table)
  rw [evaluateTo_eq]
  cases hFind : find table bound.levels raw ∅ with
  | none =>
    rw [hFind] at hAnswers
    exact .inr ⟨rfl, hAnswers⟩
  | some answer =>
    rw [hFind] at hAnswers
    exact .inl ⟨answer.1.shows, rfl, hAnswers.shown_eq⟩

/-- All cells of a table evaluate to what each of them evaluates to. -/
theorem evaluateRows_eq (table : Table) (bound : Bound) :
    table.evaluateRows bound = inOrder (inOrder (table.evaluateTo bound)) table.rows :=
  (Yields.mapM (fun row => Yields.mapM (table.evaluateKnowing_yields bound) row) _).eq

end Table

end PlainSheet
