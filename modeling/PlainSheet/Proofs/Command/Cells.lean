import PlainSheet.Proofs.Command.Outcome
import PlainSheet.Proofs.Command.Requests

/-! Runs that show several cells. They show what the runs for each of the cells show, one after
another, and fail as the first of these that fails. -/

namespace PlainSheet

open Evaluation

theorem intercalate_newline {values : List String} (hSome : values ≠ []) :
    "\n".intercalate values ++ "\n" = String.join (values.map (· ++ "\n")) := by
  induction values with
  | nil => exact absurd rfl hSome
  | cons value values ih =>
      by_cases hRest : values = []
      · simp [hRest]
      · rw [String.intercalate_cons_of_ne_nil hRest, String.append_assoc, ih hRest]
        simp

namespace Invocation

variable {parse : String → Except String Settings} {invocation : Invocation}
  {cells : List String} {ownFile : Option String} {stdin : ByteArray} {files : FileTree}
  {read : String → Except FileError ByteArray}

theorem shown_withCells (hSome : cells ≠ []) (settings : Settings) (table : Table) :
    (invocation.withCells cells).shown settings table =
      (inOrder (invocation.cellText (invocation.sheet settings table)) cells).map
        (Except.map "\n".intercalate) :=
  shown_of_cells hSome

theorem shown_withCells_single (cell : String) (settings : Settings) (table : Table) :
    (invocation.withCells [cell]).shown settings table =
      invocation.cellText (invocation.sheet settings table) cell := by
  rw [shown_withCells (by simp)]
  rcases hText : invocation.cellText (invocation.sheet settings table) cell with _ | cause | text
  · rw [inOrder_cons_of_none hText]
    rfl
  · rw [inOrder_cons_of_error hText]
    rfl
  · rw [inOrder_cons_of_ok hText]
    exact congrArg (some ∘ Except.ok) String.intercalate_singleton

/-- The table and the settings are read the same way whatever cells are asked for, and a cell
comes to the same whatever other cells are. -/
theorem outputText_withCells (hSome : cells ≠ []) :
    (invocation.withCells cells).outputText parse ownFile stdin read =
      (inOrder (fun cell => (invocation.withCells [cell]).outputText parse ownFile stdin read)
        cells).map (Except.map "\n".intercalate) := by
  cases hTable : invocation.table stdin read with
  | error cause =>
      have hError (list : List String) :
          (invocation.withCells list).outputText parse ownFile stdin read =
            some (.error (.read invocation.file cause)) := outputText_of_table_error hTable
      obtain ⟨first, rest, rfl⟩ := List.exists_cons_of_ne_nil hSome
      simp only [inOrder, hError]
      rfl
  | ok table =>
      have hShown (list : List String) :
          (invocation.withCells list).outputText parse ownFile stdin read =
            ((invocation.withCells list).shown (invocation.settings parse ownFile read)
              table).map (Except.mapError .sheet) := outputText_of_table hTable
      simp only [hShown, shown_withCells_single, shown_withCells hSome, inOrder_mapError]
      rcases inOrder (invocation.cellText
        (invocation.sheet (invocation.settings parse ownFile read) table)) cells with
          _ | _ | _ <;> rfl

end Invocation

namespace Outcome

/-- A run comes to an outcome, and this is that of a success. -/
def Succeeds (run : Option Outcome) : Prop :=
  ∃ outcome, run = some outcome ∧ outcome.code = 0

/-- An outcome is a failure, for the same reason as another. -/
def FailsAs (outcome failed : Outcome) : Prop :=
  outcome.code = 1 ∧ outcome.stdout = "" ∧ outcome.stderr = failed.stderr

/-- A run comes to what others come to one after another: it succeeds with what they all show, or
stops as the first of them that does not succeed. It has no outcome only if that one has none. -/
structure Sequential (run : Option Outcome) (parts : List (Option Outcome)) : Prop where
  succeeds_iff : Succeeds run ↔ ∀ part ∈ parts, Succeeds part
  stdout_eq : ∀ outcome, run = some outcome → outcome.code = 0 →
    ∃ outcomes : List Outcome, parts = outcomes.map some ∧
      outcome.stdout = String.join (outcomes.map (·.stdout))
  stops_at_first : ¬Succeeds run → ∃ front part back, parts = front ++ part :: back ∧
    (∀ earlier ∈ front, Succeeds earlier) ∧ ¬Succeeds part ∧ Option.Rel FailsAs run part

/-- The outcome of a run that shows a text on standard output. -/
def success (text : String) (files : FileTree) : Outcome :=
  { code := 0, stdout := text ++ "\n", stderr := "", files := files }

/-- The outcome of a run that shows its output on standard output, or else its error. -/
def ofAnswer (files : FileTree) : Except RunError String → Outcome
  | .ok text => success text files
  | .error cause => failure (errorLine cause.message) files

variable {files : FileTree}

theorem not_succeeds_of_stop (stop : Option RunError) :
    ¬Succeeds ((stop.map Except.error).map (ofAnswer files)) := by
  rintro ⟨outcome, hRun, hCode⟩
  cases stop with
  | none => cases hRun
  | some cause =>
      cases hRun
      cases hCode

theorem success_sequential {texts : List String} (hSome : texts ≠ []) :
    Sequential (some (success ("\n".intercalate texts) files))
      (texts.map fun text => some (success text files)) where
  succeeds_iff := iff_of_true ⟨_, rfl, rfl⟩ (by simp [Succeeds, success])
  stdout_eq outcome hRun _ := by
    cases hRun
    refine ⟨texts.map (success · files), by simp, ?_⟩
    rw [success, intercalate_newline hSome, List.map_map]
    rfl
  stops_at_first hStops := absurd ⟨_, rfl, rfl⟩ hStops

theorem stop_sequential {front back : List (Option Outcome)} (stop : Option RunError)
    (hFront : ∀ earlier ∈ front, Succeeds earlier) :
    Sequential ((stop.map Except.error).map (ofAnswer files))
      (front ++ (stop.map Except.error).map (ofAnswer files) :: back) where
  succeeds_iff := iff_of_false (not_succeeds_of_stop stop) fun hAll =>
    not_succeeds_of_stop stop (hAll _ (List.mem_append_right front List.mem_cons_self))
  stdout_eq outcome hRun hCode := absurd ⟨outcome, hRun, hCode⟩ (not_succeeds_of_stop stop)
  stops_at_first _ := by
    refine ⟨front, _, back, rfl, hFront, not_succeeds_of_stop stop, ?_⟩
    cases stop with
    | none => exact .none
    | some cause => exact .some ⟨rfl, rfl, rfl⟩

/-- What shows several answers, a line for each, comes to what shows them one by one. -/
theorem sequential_of_inOrder {α : Type} {answer : α → Option (Except RunError String)}
    {list : List α} (hSome : list ≠ []) :
    Sequential
      (((inOrder answer list).map (Except.map "\n".intercalate)).map (ofAnswer files))
      (list.map fun a => (answer a).map (ofAnswer files)) := by
  rcases inOrder_cases answer list with
    ⟨texts, hAll⟩ | ⟨stop, front, a, back, rfl, hFront, hStop, hAll⟩
  · have hEach := inOrder_eq_ok_iff.mp hAll
    have hTexts : texts ≠ [] := by
      rintro rfl
      exact hSome (List.forall₂_nil_right_iff.mp hEach)
    have hParts : (list.map fun a => (answer a).map (ofAnswer files)) =
        texts.map fun text => some (success text files) := by
      rw [← List.forall₂_eq_eq_eq, List.forall₂_map_left_iff, List.forall₂_map_right_iff]
      exact hEach.imp fun a text hText => by rw [hText]; rfl
    rw [hAll, hParts]
    exact success_sequential hTexts
  · have hRun : ((inOrder answer (front ++ a :: back)).map
        (Except.map "\n".intercalate)).map (ofAnswer files) =
          (stop.map Except.error).map (ofAnswer files) := by
      rw [hAll]
      cases stop <;> rfl
    rw [hRun, List.map_append, List.map_cons, hStop]
    refine stop_sequential stop fun earlier hEarlier => ?_
    obtain ⟨first, hFirst, rfl⟩ := List.mem_map.mp hEarlier
    obtain ⟨text, hText⟩ := hFront first hFirst
    exact ⟨success text files, by rw [hText]; rfl, rfl⟩

end Outcome

namespace Invocation

variable {parse : String → Except String Settings} {invocation : Invocation}
  {cells : List String} {ownFile : Option String} {stdin : ByteArray} {files : FileTree}

theorem run_of_stdout (hHelp : invocation.help = false) (hOutput : invocation.output = none) :
    invocation.run parse ownFile stdin files =
      (invocation.outputText parse ownFile stdin files.read).map (Outcome.ofAnswer files) := by
  rw [run, hHelp, if_neg Bool.false_ne_true]
  congr 1
  funext answer
  cases answer with
  | error cause => rfl
  | ok text => simp [deliver, hOutput, Outcome.ofAnswer, Outcome.success]

theorem run_withCells (hHelp : invocation.help = false) (hOutput : invocation.output = none)
    (hSome : cells ≠ []) :
    Outcome.Sequential ((invocation.withCells cells).run parse ownFile stdin files)
      (cells.map fun cell => (invocation.withCells [cell]).run parse ownFile stdin files) := by
  have hRun (list : List String) :
      (invocation.withCells list).run parse ownFile stdin files =
        ((invocation.withCells list).outputText parse ownFile stdin files.read).map
          (Outcome.ofAnswer files) :=
    run_of_stdout (by rwa [withCells_help]) (by rwa [withCells_output])
  simp only [hRun, outputText_withCells hSome]
  exact Outcome.sequential_of_inOrder hSome

end Invocation

theorem runCommandBy_of_asks {parse : String → Except String Settings}
    {arguments cells others : List String} {invocation : Invocation}
    (hAsks : Invocation.Asks arguments cells others)
    (hOthers : Invocation.ofArguments others = .ok invocation) (ownFile : Option String)
    (stdin : ByteArray) (files : FileTree) :
    runCommandBy parse arguments ownFile stdin files =
      (invocation.withCells cells).run parse ownFile stdin files := by
  rw [runCommandBy, Invocation.ofArguments_of_asks hAsks, hOthers]
  rfl

/-- Arguments that are understood consist of requests for cells and of others, in some order.
Whatever runs for the single cells have the same other arguments, the run comes to what they
come to one after another: to all that they show if they all succeed, and otherwise to the error
of the first that fails. Evaluation that has no end stops the run where a single run has no
outcome, unless another has failed before. -/
theorem runCommand_sequential (parse : String → Except String Settings) {arguments : List String}
    {invocation : Invocation} (hArguments : Invocation.ofArguments arguments = .ok invocation)
    (hHelp : invocation.help = false) (hOutput : invocation.output = none) :
    (∃ others, Invocation.Asks arguments invocation.cells others) ∧
    ∀ (cells others : List String) (single : String → List String),
      Invocation.Asks arguments cells others → cells ≠ [] →
      (∀ cell ∈ cells, Invocation.Asks (single cell) [cell] others) →
      ∀ (ownFile : Option String) (stdin : ByteArray) (files : FileTree),
        Outcome.Sequential (runCommandBy parse arguments ownFile stdin files)
          (cells.map fun cell => runCommandBy parse (single cell) ownFile stdin files) := by
  refine ⟨Invocation.exists_asks_of_ofArguments hArguments, ?_⟩
  intro cells others single hAsks hSome hSingle ownFile stdin files
  rw [Invocation.ofArguments_of_asks hAsks] at hArguments
  obtain ⟨rest, hOthers, rfl⟩ := map_eq_ok_iff.mp hArguments
  have hParts : (cells.map fun cell => runCommandBy parse (single cell) ownFile stdin files) =
      cells.map fun cell => (rest.withCells [cell]).run parse ownFile stdin files :=
    List.map_congr_left fun cell hCell =>
      runCommandBy_of_asks (hSingle cell hCell) hOthers ownFile stdin files
  rw [hParts, runCommandBy_of_asks hAsks hOthers]
  exact Invocation.run_withCells hHelp hOutput hSome

/-- With requests among the other options two cells are shown as by two runs, and of two cells
that cannot be shown the first decides the error. -/
theorem runCommand_sequential_on_scattered_requests :
    let run (arguments : List String) := runCommand arguments none .empty ownInput
    let single (cell : String) := run ["--raw", "--no-config", "in.txt", "--cell", cell]
    ∃ first second both missing failing : Outcome,
      (single "B1" = some first ∧ single "A2" = some second ∧
        run ["--raw", "--cell", "B1", "--no-config", "-c", "A2", "in.txt"] = some both ∧
        both.code = 0 ∧ both.stdout = first.stdout ++ second.stdout) ∧
      single "C9" = some missing ∧
        run ["-c", "B1", "--raw", "-c", "C9", "--no-config", "in.txt", "-c", "D"] =
          some failing ∧
        failing.code = 1 ∧ failing.stderr = missing.stderr := by
  intro run single
  have hSingle (cell : String) :
      Invocation.Asks ["--raw", "--no-config", "in.txt", "--cell", cell] [cell]
        ["--raw", "--no-config", "in.txt"] :=
    .single (by decide) (by decide) <| .single (by decide) (by decide) <|
      .single (by decide) (by decide) <| .cell (by decide) .nil
  have hCodes : (single "B1").map (·.code) = some 0 ∧ (single "A2").map (·.code) = some 0 ∧
      (single "C9").map (·.code) = some 1 := by decide +kernel
  obtain ⟨hFirst, hSecond, hMissing⟩ := hCodes
  obtain ⟨first, hFirst, hFirstCode⟩ := Option.map_eq_some_iff.mp hFirst
  obtain ⟨second, hSecond, hSecondCode⟩ := Option.map_eq_some_iff.mp hSecond
  obtain ⟨missing, hMissing, hMissingCode⟩ := Option.map_eq_some_iff.mp hMissing
  have hBoth : Outcome.Sequential
      (run ["--raw", "--cell", "B1", "--no-config", "-c", "A2", "in.txt"])
      (["B1", "A2"].map single) := by
    have hArguments : Invocation.ofArguments
        ["--raw", "--cell", "B1", "--no-config", "-c", "A2", "in.txt"] =
          .ok { file := some "in.txt", cells := ["B1", "A2"], raw := true, noConfig := true } := by
      decide +kernel
    refine (runCommand_sequential Settings.ofString hArguments rfl rfl).2 ["B1", "A2"] _ _ ?_
      (by decide) (fun cell _ => hSingle cell) none .empty ownInput
    exact .single (by decide) (by decide) <| .cell (by decide) <|
      .single (by decide) (by decide) <| .cell (by decide) <| .single (by decide) (by decide) .nil
  have hFailing : Outcome.Sequential
      (run ["-c", "B1", "--raw", "-c", "C9", "--no-config", "in.txt", "-c", "D"])
      (["B1", "C9", "D"].map single) := by
    have hArguments : Invocation.ofArguments
        ["-c", "B1", "--raw", "-c", "C9", "--no-config", "in.txt", "-c", "D"] =
          .ok { file := some "in.txt", cells := ["B1", "C9", "D"], raw := true,
                noConfig := true } := by
      decide +kernel
    refine (runCommand_sequential Settings.ofString hArguments rfl rfl).2 ["B1", "C9", "D"] _ _ ?_
      (by decide) (fun cell _ => hSingle cell) none .empty ownInput
    exact .cell (by decide) <| .single (by decide) (by decide) <| .cell (by decide) <|
      .single (by decide) (by decide) <| .single (by decide) (by decide) <| .cell (by decide) .nil
  obtain ⟨both, hRun, hCode⟩ : Outcome.Succeeds _ := by
    rw [hBoth.succeeds_iff]
    simp [Outcome.Succeeds, hFirst, hSecond, hFirstCode, hSecondCode]
  obtain ⟨outcomes, hParts, hStdout⟩ := hBoth.stdout_eq both hRun hCode
  have hOutcomes : outcomes = [first, second] := by
    apply List.map_injective_iff.mpr (Option.some_injective Outcome)
    simp [← hParts, hFirst, hSecond]
  have hNot : ¬Outcome.Succeeds (single "C9") := by
    rintro ⟨outcome, hOutcome, hZero⟩
    cases hMissing.symm.trans hOutcome
    cases hMissingCode.symm.trans hZero
  obtain ⟨front, part, back, hList, hFront, hPart, hStop⟩ :=
    hFailing.stops_at_first (by simp [hFailing.succeeds_iff, hNot])
  -- One run comes before the first that fails: the one for B1 succeeds, the one for C9 does not.
  have hPart : part = some missing := by
    rcases front with _ | ⟨other, _ | ⟨another, front⟩⟩ <;>
      simp only [List.map_cons, List.map_nil, List.nil_append, List.cons_append, List.cons.injEq,
        List.mem_cons, forall_eq_or_imp] at hList hFront
    · exact absurd ⟨first, hList.1 ▸ hFirst, hFirstCode⟩ hPart
    · exact hList.2.1 ▸ hMissing
    · exact absurd (hList.2.1 ▸ hFront.2.1) hNot
  subst hPart
  generalize run ["-c", "B1", "--raw", "-c", "C9", "--no-config", "in.txt", "-c", "D"] =
    outcome at hStop ⊢
  cases hStop with
  | some hFails =>
      exact ⟨first, second, both, missing, _,
        ⟨hFirst, hSecond, hRun, hCode, by simp [hStdout, hOutcomes]⟩, hMissing, rfl,
        hFails.1, hFails.2.2⟩

end PlainSheet
