import Mathlib.Tactic.SplitIfs
import PlainSheet.Command.Invocation
import PlainSheet.Proofs.Evaluation.Sequence

/-! Command lines that ask for cells. Requests for cells may stand anywhere among the other
arguments: what a command line asks for is what the other arguments alone ask for, with the cells
in the order of their requests. -/

namespace PlainSheet

namespace CommandOption

/-- The options whose value is a cell to show. -/
def cellNames : List String := ["-c", "--cell"]

/-- The other options that take a value. -/
def valueNames : List String := ["-o", "--output", "--max-depth", "--config"]

theorem ofString?_of_mem_cellNames {argument : String} (h : argument ∈ cellNames) :
    ofString? argument = some cell := by
  simp only [cellNames, List.mem_cons, List.not_mem_nil, or_false] at h
  rcases h with rfl | rfl <;> rfl

theorem ofString?_of_mem_valueNames {argument : String} (h : argument ∈ valueNames) :
    ofString? argument = some output ∨ ofString? argument = some maxDepth ∨
      ofString? argument = some config := by
  simp only [valueNames, List.mem_cons, List.not_mem_nil, or_false] at h
  rcases h with rfl | rfl | rfl | rfl
  · exact .inl rfl
  · exact .inl rfl
  · exact .inr (.inl rfl)
  · exact .inr (.inr rfl)

theorem mem_cellNames_of_ofString? {argument : String} (h : ofString? argument = some cell) :
    argument ∈ cellNames := by
  unfold ofString? at h
  split at h <;> simp_all [cellNames]

theorem mem_valueNames_of_ofString? {argument : String} (h : ofString? argument = some output ∨
    ofString? argument = some maxDepth ∨ ofString? argument = some config) :
    argument ∈ valueNames := by
  unfold ofString? at h
  split at h <;> simp_all [valueNames]

/-- Any other argument stands for itself. -/
theorem ofString?_cases {argument : String} (hCell : argument ∉ cellNames)
    (hValue : argument ∉ valueNames) :
    ofString? argument = none ∨ ofString? argument = some help ∨ ofString? argument = some raw ∨
      ofString? argument = some noConfig ∨ ofString? argument = some verbose := by
  unfold ofString?
  split <;> simp_all [cellNames, valueNames]

theorem not_mem_names {argument : String} (hCell : ofString? argument ≠ some cell)
    (hOutput : ofString? argument ≠ some output) (hMaxDepth : ofString? argument ≠ some maxDepth)
    (hConfig : ofString? argument ≠ some config) :
    argument ∉ cellNames ∧ argument ∉ valueNames := by
  refine ⟨fun h => hCell (ofString?_of_mem_cellNames h), fun h => ?_⟩
  rcases ofString?_of_mem_valueNames h with hKind | hKind | hKind
  · exact hOutput hKind
  · exact hMaxDepth hKind
  · exact hConfig hKind

end CommandOption

namespace Invocation

open CommandOption

/-- Arguments consist of requests for cells, in this order, and of other arguments, in theirs.
No option is parted from its value. -/
inductive Asks : List String → List String → List String → Prop where
  | nil : Asks [] [] []
  | cell {option cell : String} {arguments cells others : List String} :
      option ∈ cellNames → Asks arguments cells others →
        Asks (option :: cell :: arguments) (cell :: cells) others
  | value {option value : String} {arguments cells others : List String} :
      option ∈ valueNames → Asks arguments cells others →
        Asks (option :: value :: arguments) cells (option :: value :: others)
  | single {argument : String} {arguments cells others : List String} :
      argument ∉ cellNames → argument ∉ valueNames → Asks arguments cells others →
        Asks (argument :: arguments) cells (argument :: others)

/-- The same invocation with other cells to show. -/
def withCells (invocation : Invocation) (cells : List String) : Invocation :=
  { invocation with cells := cells }

section withCells

variable (invocation : Invocation) (cells : List String)

@[simp]
theorem withCells_file : (invocation.withCells cells).file = invocation.file := rfl

@[simp]
theorem withCells_output : (invocation.withCells cells).output = invocation.output := rfl

@[simp]
theorem withCells_help : (invocation.withCells cells).help = invocation.help := rfl

theorem withInput_withCells (argument : String) :
    (invocation.withCells cells).withInput argument =
      (invocation.withInput argument).map (·.withCells cells) := by
  rw [withInput, withInput, withCells_file]
  split_ifs <;> rfl

end withCells

variable {arguments cells others : List String}

/-- Cells that were asked for before stay in front of those that the arguments ask for. -/
theorem addArguments_of_asks (h : Asks arguments cells others) (invocation : Invocation)
    (done : List String) :
    (invocation.withCells done).addArguments arguments =
      ((invocation.withCells []).addArguments others).map (·.withCells (done ++ cells)) := by
  induction h generalizing invocation done with
  | nil =>
      rw [List.append_nil]
      rfl
  | @cell option cell arguments cells others hOption _ ih =>
      rw [addArguments.eq_def]
      simp only [ofString?_of_mem_cellNames hOption]
      rw [List.append_cons done cell cells]
      exact ih invocation (done ++ [cell])
  | @value option value arguments cells others hOption _ ih =>
      rw [addArguments.eq_def, addArguments.eq_def (invocation.withCells [])]
      rcases ofString?_of_mem_valueNames hOption with hKind | hKind | hKind
      · simp only [hKind]
        exact ih { invocation with output := some value } done
      · simp only [hKind]
        cases depthOfString? value with
        | none => rfl
        | some depth => exact ih { invocation with maxDepth := some depth } done
      · simp only [hKind]
        exact ih { invocation with config := some value } done
  | @single argument arguments cells others hCell hValue _ ih =>
      rw [addArguments.eq_def, addArguments.eq_def (invocation.withCells [])]
      rcases ofString?_cases hCell hValue with hKind | hKind | hKind | hKind | hKind
      · simp only [hKind, withInput_withCells]
        split
        · rfl
        · cases invocation.withInput argument with
          | error cause => rfl
          | ok next => exact ih next done
      · simp only [hKind]
        exact ih { invocation with help := true } done
      · simp only [hKind]
        exact ih { invocation with raw := true } done
      · simp only [hKind]
        exact ih { invocation with noConfig := true } done
      · simp only [hKind]
        exact ih { invocation with verbose := true } done

/-- Requests for cells add the cells, and nothing else, to what the other arguments ask for. -/
theorem ofArguments_of_asks (h : Asks arguments cells others) :
    ofArguments arguments = (ofArguments others).map (·.withCells cells) :=
  addArguments_of_asks h {} []

/-- Whenever arguments are understood, they consist of requests for cells and others. -/
theorem exists_asks {invocation result : Invocation}
    (h : invocation.addArguments arguments = .ok result) :
    ∃ cells others, Asks arguments cells others := by
  fun_induction addArguments invocation arguments with
  | case1 invocation => exact ⟨[], [], .nil⟩
  | case2 _ argument rest hKind ih | case3 _ argument rest hKind ih
  | case4 _ argument rest hKind ih | case5 _ argument rest hKind ih
  | case16 _ argument rest hKind _ _ _ ih =>
      obtain ⟨cells, others, hAsks⟩ := ih h
      have hNames : argument ∉ cellNames ∧ argument ∉ valueNames := by
        apply not_mem_names <;> simp [hKind]
      exact ⟨cells, argument :: others, .single hNames.1 hNames.2 hAsks⟩
  | case7 _ option hKind cell rest ih =>
      obtain ⟨cells, others, hAsks⟩ := ih h
      exact ⟨cell :: cells, others, .cell (mem_cellNames_of_ofString? hKind) hAsks⟩
  | case9 _ option hKind value rest ih =>
      obtain ⟨cells, others, hAsks⟩ := ih h
      exact ⟨cells, _, .value (mem_valueNames_of_ofString? (.inl hKind)) hAsks⟩
  | case11 _ option hKind value rest _ _ ih =>
      obtain ⟨cells, others, hAsks⟩ := ih h
      exact ⟨cells, _, .value (mem_valueNames_of_ofString? (.inr (.inl hKind))) hAsks⟩
  | case14 _ option hKind value rest ih =>
      obtain ⟨cells, others, hAsks⟩ := ih h
      exact ⟨cells, _, .value (mem_valueNames_of_ofString? (.inr (.inr hKind))) hAsks⟩
  -- The arguments are not understood in the other cases.
  | case6 | case8 | case10 | case12 | case13 | case15 | case17 => cases h

/-- The cells of an invocation are those that its arguments ask for. -/
theorem exists_asks_of_ofArguments {invocation : Invocation}
    (h : ofArguments arguments = .ok invocation) :
    ∃ others, Asks arguments invocation.cells others := by
  obtain ⟨cells, others, hAsks⟩ := exists_asks h
  rw [ofArguments_of_asks hAsks] at h
  obtain ⟨rest, -, rfl⟩ := Evaluation.map_eq_ok_iff.mp h
  exact ⟨others, hAsks⟩

end Invocation

end PlainSheet
