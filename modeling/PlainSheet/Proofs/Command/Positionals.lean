import PlainSheet.Command.Run
import PlainSheet.Proofs.Command.Arguments
import PlainSheet.Proofs.Evaluation.Sequence
import PlainSheet.Proofs.FileTree.Writing

/-! The arguments that name the input. One that names a file must be the last of the positional
arguments, and any number of minus signs may stand before it. The main results say that nothing
else is asked of them, and that command lines that name more than one input are understood only
in this way. -/

namespace PlainSheet.Invocation

/-- Positional arguments name a file, if any, after others have done so or not: a minus sign
names none, and nothing may follow a file that is named. -/
inductive Names : Option String → List String → Option String → Prop where
  | nil (file : Option String) : Names file [] file
  | dash {inputs : List String} {file : Option String} :
      Names none inputs file → Names none ("-" :: inputs) file
  | file {path : String} :
      path ≠ "-" → isOptionLike path = false → Names none [path] (some path)

variable {argument : String} {arguments inputs : List String} {file : Option String}
  {invocation result : Invocation}

theorem names_some_iff {path : String} :
    Names (some path) inputs file ↔ inputs = [] ∧ file = some path := by
  constructor
  · intro h
    cases h
    exact ⟨rfl, rfl⟩
  · rintro ⟨rfl, rfl⟩
    exact .nil _

theorem names_nil_iff {named : Option String} : Names named [] file ↔ file = named := by
  constructor
  · intro h
    cases h
    rfl
  · rintro rfl
    exact .nil _

theorem names_cons_iff {named : Option String} :
    Names named (argument :: inputs) file ↔
      named = none ∧ isOptionLike argument = false ∧
        if argument = "-" then Names none inputs file else Names (some argument) inputs file := by
  constructor
  · intro h
    cases h with
    | dash hInputs => exact ⟨rfl, rfl, hInputs⟩
    | file hDash hForm => exact ⟨rfl, hForm, by rw [if_neg hDash]; exact .nil _⟩
  · rintro ⟨rfl, hForm, hInputs⟩
    split_ifs at hInputs with hDash
    · subst hDash
      exact .dash hInputs
    · obtain ⟨rfl, rfl⟩ := names_some_iff.mp hInputs
      exact .file hDash hForm

/-- Nothing but minus signs stands before the file that is named, or before the end. -/
theorem names_none_iff :
    Names none inputs file ↔
      (∀ path ∈ file, path ≠ "-" ∧ isOptionLike path = false) ∧
        ∃ dashes, inputs = List.replicate dashes "-" ++ file.toList := by
  constructor
  · intro h
    generalize hNamed : (none : Option String) = named at h
    induction h with
    | nil =>
        subst hNamed
        exact ⟨by simp, 0, rfl⟩
    | dash _ ih =>
        obtain ⟨hFile, dashes, hInputs⟩ := ih hNamed
        exact ⟨hFile, dashes + 1, by rw [hInputs, List.replicate_succ, List.cons_append]⟩
    | file hDash hForm => exact ⟨by simp [hDash, hForm], 0, rfl⟩
  · rintro ⟨hFile, dashes, rfl⟩
    induction dashes with
    | zero =>
        cases file with
        | none => exact .nil none
        | some path =>
            obtain ⟨hDash, hForm⟩ := hFile path rfl
            exact .file hDash hForm
    | succ dashes ih => exact .dash ih

/-- The same invocation with another file to read. -/
def withFile (file : Option String) (invocation : Invocation) : Invocation :=
  { invocation with file := file }

theorem withOption_withFile (invocation : Invocation) (value : String) (option : CommandOption) :
    (invocation.withFile file).withOption value option =
      (invocation.withOption value option).map (withFile file) := by
  cases option with
  | maxDepth =>
      simp only [withOption]
      cases depthOfString? value <;> rfl
  | _ => rfl

theorem file_of_withOption {value : String} {option : CommandOption}
    (h : invocation.withOption value option = .ok result) : result.file = invocation.file := by
  have hKept : invocation.withOption value option =
      (invocation.withOption value option).map (withFile invocation.file) :=
    withOption_withFile invocation value option
  rw [h] at hKept
  rw [show result = result.withFile invocation.file from Except.ok.inj hKept]
  rfl

/-- No positional argument is among the options. -/
theorem positionals_options (arguments : List String) : positionals (options arguments) = [] := by
  fun_induction options arguments with
  | case1 => rfl
  | case2 argument rest hNone ih => exact ih
  | case3 argument option hSome => exact positionals_last hSome
  | case4 argument option hSome hValued value more ih =>
      exact (positionals_valued hSome hValued value _).trans ih
  | case5 argument rest option hSome hFlag ih =>
      exact (positionals_flag hSome (by simpa using hFlag) _).trans ih

theorem addArguments_options_withFile (invocation : Invocation) (arguments : List String) :
    (invocation.withFile file).addArguments (options arguments) =
      (invocation.addArguments (options arguments)).map (withFile file) := by
  refine addArguments_update withOption_withFile ?_ invocation
  intro argument hMem
  rw [positionals_options] at hMem
  cases hMem

theorem withPositional_eq_ok_iff {next : Invocation} :
    invocation.withPositional argument = .ok next ↔
      isOptionLike argument = false ∧ invocation.file = none ∧
        next = if argument = "-" then invocation else invocation.withFile (some argument) := by
  unfold withPositional withInput
  cases isOptionLike argument with
  | true => simp
  | false =>
      cases hFile : invocation.file with
      | some path => simp
      | none =>
          by_cases hDash : argument = "-"
          · simp [hDash, eq_comm]
          · simp [hDash, withFile, eq_comm]

/-- An option before other arguments leaves the file alone, so what it comes to with them is known
from what they come to behind it. -/
theorem bind_addArguments_eq_ok_iff {first : Except ArgumentError Invocation}
    (hKept : ∀ next, first = .ok next → next.file = file)
    (hNext : ∀ next : Invocation, next.addArguments arguments = .ok result ↔
      ∃ others, next.addArguments (options arguments) = .ok others ∧
        Names next.file (positionals arguments) result.file ∧
        others.withFile result.file = result) :
    first >>= (addArguments · arguments) = .ok result ↔
      ∃ others, first >>= (addArguments · (options arguments)) = .ok others ∧
        Names file (positionals arguments) result.file ∧
        others.withFile result.file = result := by
  cases first with
  | error cause => simp [bind, Except.bind]
  | ok next =>
      rw [← hKept next rfl]
      exact hNext next

/-- Arguments are understood when their options are and their positional arguments name one file
or none. They then ask for what the options ask for, and for the file. -/
theorem addArguments_eq_ok_iff (arguments : List String) (invocation : Invocation) :
    invocation.addArguments arguments = .ok result ↔
      ∃ others, invocation.addArguments (options arguments) = .ok others ∧
        Names invocation.file (positionals arguments) result.file ∧
        others.withFile result.file = result := by
  revert invocation
  fun_induction positionals arguments with
  | case1 =>
      intro invocation
      rw [names_nil_iff]
      constructor
      · intro h
        obtain rfl : invocation = result := Except.ok.inj h
        exact ⟨invocation, rfl, rfl, rfl⟩
      · rintro ⟨others, hOthers, hFile, hResult⟩
        obtain rfl : invocation = others := Except.ok.inj hOthers
        rw [hFile] at hResult
        exact congrArg Except.ok hResult
  | case2 argument rest hNone ih =>
      intro invocation
      rw [addArguments_positional hNone, options_positional hNone, FileTree.bind_eq_ok_iff]
      constructor
      · rintro ⟨next, hNext, hRest⟩
        obtain ⟨hForm, hFile, rfl⟩ := withPositional_eq_ok_iff.mp hNext
        obtain ⟨others, hOthers, hNames, hResult⟩ := (ih _).mp hRest
        split_ifs at hOthers hNames with hDash
        · refine ⟨others, hOthers, names_cons_iff.mpr ⟨hFile, hForm, ?_⟩, hResult⟩
          rwa [if_pos hDash, ← hFile]
        · rw [addArguments_options_withFile] at hOthers
          obtain ⟨before, hBefore, rfl⟩ := Evaluation.map_eq_ok_iff.mp hOthers
          refine ⟨before, hBefore, names_cons_iff.mpr ⟨hFile, hForm, ?_⟩, hResult⟩
          rw [if_neg hDash]
          exact hNames
      · rintro ⟨others, hOthers, hNames, hResult⟩
        obtain ⟨hFile, hForm, hInputs⟩ := names_cons_iff.mp hNames
        refine ⟨_, withPositional_eq_ok_iff.mpr ⟨hForm, hFile, rfl⟩, (ih _).mpr ?_⟩
        split_ifs at hInputs ⊢ with hDash
        · exact ⟨others, hOthers, hFile ▸ hInputs, hResult⟩
        · refine ⟨others.withFile (some argument), ?_, hInputs, hResult⟩
          rw [addArguments_options_withFile, hOthers]
          rfl
  | case3 argument option hSome hValued =>
      intro invocation
      rw [options_last hSome, addArguments_last hSome hValued]
      simp
  | case4 argument option hSome hValued value more ih =>
      intro invocation
      rw [options_valued hSome hValued, addArguments_valued hSome hValued,
        addArguments_valued hSome hValued]
      exact bind_addArguments_eq_ok_iff (fun _ => file_of_withOption) ih
  | case5 argument rest option hSome hFlag ih =>
      intro invocation
      have hFlag : option.takesValue = false := by simpa using hFlag
      rw [options_flag hSome hFlag, addArguments_flag hSome hFlag _ "",
        addArguments_flag hSome hFlag _ ""]
      exact bind_addArguments_eq_ok_iff (fun _ => file_of_withOption) ih

theorem ofArguments_eq_ok_iff :
    ofArguments arguments = .ok result ↔
      ∃ others, ofArguments (options arguments) = .ok others ∧
        Names none (positionals arguments) result.file ∧ others.withFile result.file = result :=
  addArguments_eq_ok_iff arguments {}

theorem exists_ofArguments_eq_ok_iff :
    (∃ invocation, ofArguments arguments = .ok invocation) ↔
      (∃ others, ofArguments (options arguments) = .ok others) ∧
        ∃ file, Names none (positionals arguments) file := by
  constructor
  · rintro ⟨invocation, h⟩
    obtain ⟨others, hOthers, hNames, -⟩ := ofArguments_eq_ok_iff.mp h
    exact ⟨⟨others, hOthers⟩, invocation.file, hNames⟩
  · rintro ⟨⟨others, hOthers⟩, file, hNames⟩
    exact ⟨others.withFile file, ofArguments_eq_ok_iff.mpr ⟨others, hOthers, hNames, rfl⟩⟩

/-- More than one input is named without an error only by a minus sign before another one, or
before a file. -/
theorem exists_names_and_two_le_iff :
    ((∃ file, Names none inputs file) ∧ 2 ≤ inputs.length) ↔
      (∃ dashes, inputs = List.replicate (dashes + 2) "-") ∨
        ∃ dashes path, path ≠ "-" ∧ isOptionLike path = false ∧
          inputs = List.replicate (dashes + 1) "-" ++ [path] := by
  constructor
  · rintro ⟨⟨file, hNames⟩, hLength⟩
    obtain ⟨hFile, dashes, rfl⟩ := names_none_iff.mp hNames
    cases file with
    | none =>
        obtain ⟨more, rfl⟩ := Nat.exists_eq_add_of_le' (by simpa using hLength : 2 ≤ dashes)
        exact .inl ⟨more, List.append_nil _⟩
    | some path =>
        obtain ⟨more, rfl⟩ := Nat.exists_eq_add_of_le' (by simpa using hLength : 1 ≤ dashes)
        obtain ⟨hDash, hForm⟩ := hFile path rfl
        exact .inr ⟨more, path, hDash, hForm, rfl⟩
  · rintro (⟨dashes, rfl⟩ | ⟨dashes, path, hDash, hForm, rfl⟩)
    · exact ⟨⟨none, names_none_iff.mpr ⟨by simp, dashes + 2, (List.append_nil _).symm⟩⟩,
        by simp⟩
    · exact ⟨⟨some path, names_none_iff.mpr ⟨by simp [hDash, hForm], dashes + 1, rfl⟩⟩,
        by simp⟩

/-- Once a file is named, standard input is not looked at. -/
theorem run_eq_of_file {path : String} (hFile : invocation.file = some path)
    (parse : String → Except String Settings) (ownFile : Option String)
    (stdin other : ByteArray) (files : FileTree) :
    invocation.run parse ownFile stdin files = invocation.run parse ownFile other files := by
  simp only [run, outputText, table, hFile]

/-- Arguments are understood just when their options are and their positional arguments are
minus signs, behind which one file may be named; this file is then read, and standard input is
not. So two inputs are refused when the first of them is a file, and pass when it is a minus sign
and the arguments are otherwise in order. -/
theorem understood_iff_dashes_before_file (arguments : List String) :
    (∀ invocation, ofArguments arguments = .ok invocation ↔
      ∃ others, ofArguments (options arguments) = .ok others ∧
        (∀ path ∈ invocation.file, path ≠ "-" ∧ isOptionLike path = false) ∧
        (∃ dashes,
          positionals arguments = List.replicate dashes "-" ++ invocation.file.toList) ∧
        others.withFile invocation.file = invocation) ∧
    (((∃ invocation, ofArguments arguments = .ok invocation) ∧
        2 ≤ (positionals arguments).length) ↔
      (∃ others, ofArguments (options arguments) = .ok others) ∧
        ((∃ dashes, positionals arguments = List.replicate (dashes + 2) "-") ∨
          ∃ dashes path, path ≠ "-" ∧ isOptionLike path = false ∧
            positionals arguments = List.replicate (dashes + 1) "-" ++ [path])) ∧
    ∀ invocation path, ofArguments arguments = .ok invocation → invocation.file = some path →
      ∀ (parse : String → Except String Settings) (ownFile : Option String)
        (stdin other : ByteArray) (files : FileTree),
        runCommandBy parse arguments ownFile stdin files =
          runCommandBy parse arguments ownFile other files := by
  refine ⟨fun invocation => ?_, ?_, fun invocation path hArguments hFile => ?_⟩
  · rw [ofArguments_eq_ok_iff]
    simp only [names_none_iff, and_assoc]
  · rw [exists_ofArguments_eq_ok_iff, and_assoc, exists_names_and_two_le_iff]
  · intro parse ownFile stdin other files
    rw [runCommandBy, runCommandBy, hArguments]
    exact run_eq_of_file hFile parse ownFile stdin other files

/-- Two inputs are named and the first is ignored, although the same two are refused the other
way round. -/
theorem dash_before_file_understood :
    ofArguments ["-", "a.txt"] = .ok { file := some "a.txt" } ∧
      ofArguments ["a.txt", "-"] = .error (.unexpected "-") ∧
      ¬∀ arguments invocation, ofArguments arguments = .ok invocation →
        (positionals arguments).length ≤ 1 := by
  have hTwo : ofArguments ["-", "a.txt"] = .ok { file := some "a.txt" } := by decide
  refine ⟨hTwo, by decide, fun hOne => ?_⟩
  exact absurd (hOne _ _ hTwo) (by decide)

end PlainSheet.Invocation
