import PlainSheet.Command.Invocation

/-! What the arguments do one by one. An option does the same to every invocation, together with
the argument behind it if this is its value; every other argument is positional and is taken as
the input. So a change that each of them leaves alone is left alone by all arguments. -/

namespace PlainSheet

namespace CommandOption

/-- Whether the argument behind an option is its value. -/
def takesValue : CommandOption → Bool
  | cell | output | maxDepth | config => true
  | help | raw | noConfig | verbose => false

end CommandOption

namespace Invocation

/-- The arguments that are neither options nor the values of options, in order. -/
def positionals : List String → List String
  | [] => []
  | argument :: rest =>
    match CommandOption.ofString? argument with
    | none => argument :: positionals rest
    | some option =>
      if option.takesValue then
        match rest with
        | [] => []
        | _ :: more => positionals more
      else positionals rest

/-- The other arguments, in order: the options with their values. -/
def options : List String → List String
  | [] => []
  | argument :: rest =>
    match CommandOption.ofString? argument with
    | none => options rest
    | some option =>
      if option.takesValue then
        match rest with
        | [] => [argument]
        | value :: more => argument :: value :: options more
      else argument :: options rest

example : positionals ["-c", "-", "a", "--raw", "-"] = ["a", "-"] := by decide

/-- Takes over an option with the value behind it, at which some options do not look. -/
def withOption (invocation : Invocation) (value : String) :
    CommandOption → Except ArgumentError Invocation
  | .help => .ok { invocation with help := true }
  | .raw => .ok { invocation with raw := true }
  | .noConfig => .ok { invocation with noConfig := true }
  | .verbose => .ok { invocation with verbose := true }
  | .cell => .ok { invocation with cells := invocation.cells ++ [value] }
  | .output => .ok { invocation with output := some value }
  | .config => .ok { invocation with config := some value }
  | .maxDepth =>
    match depthOfString? value with
    | some depth => .ok { invocation with maxDepth := some depth }
    | none => .error (.invalidDepth value)

/-- Takes over a positional argument. -/
def withPositional (invocation : Invocation) (argument : String) :
    Except ArgumentError Invocation :=
  if isOptionLike argument then .error (.unknownOption argument)
  else invocation.withInput argument

section Steps

variable {argument : String} {option : CommandOption}

theorem positionals_flag (hOption : CommandOption.ofString? argument = some option)
    (hFlag : option.takesValue = false) (rest : List String) :
    positionals (argument :: rest) = positionals rest := by
  rw [positionals.eq_def]
  simp [hOption, hFlag]

theorem positionals_valued (hOption : CommandOption.ofString? argument = some option)
    (hValued : option.takesValue = true) (value : String) (rest : List String) :
    positionals (argument :: value :: rest) = positionals rest := by
  rw [positionals.eq_def]
  simp [hOption, hValued]

theorem positionals_last (hOption : CommandOption.ofString? argument = some option) :
    positionals [argument] = [] := by
  rw [positionals.eq_def]
  simp [hOption, positionals]

theorem options_positional (hNone : CommandOption.ofString? argument = none)
    (rest : List String) : options (argument :: rest) = options rest := by
  rw [options.eq_def]
  simp [hNone]

theorem options_flag (hOption : CommandOption.ofString? argument = some option)
    (hFlag : option.takesValue = false) (rest : List String) :
    options (argument :: rest) = argument :: options rest := by
  rw [options.eq_def]
  simp [hOption, hFlag]

theorem options_valued (hOption : CommandOption.ofString? argument = some option)
    (hValued : option.takesValue = true) (value : String) (rest : List String) :
    options (argument :: value :: rest) = argument :: value :: options rest := by
  rw [options.eq_def]
  simp [hOption, hValued]

theorem options_last (hOption : CommandOption.ofString? argument = some option) :
    options [argument] = [argument] := by
  rw [options.eq_def]
  simp [hOption, options]

/-- A positional argument is taken over before the arguments behind it. -/
theorem addArguments_positional (hNone : CommandOption.ofString? argument = none)
    (invocation : Invocation) (rest : List String) :
    invocation.addArguments (argument :: rest) =
      invocation.withPositional argument >>= (addArguments · rest) := by
  rw [addArguments.eq_def, withPositional]
  simp only [hNone]
  split
  · rfl
  · cases invocation.withInput argument <;> rfl

/-- An option without a value is taken over alone. -/
theorem addArguments_flag (hOption : CommandOption.ofString? argument = some option)
    (hFlag : option.takesValue = false) (invocation : Invocation) (value : String)
    (rest : List String) :
    invocation.addArguments (argument :: rest) =
      invocation.withOption value option >>= (addArguments · rest) := by
  rw [addArguments.eq_def]
  cases option with
  | help | raw | noConfig | verbose => simp only [hOption]; rfl
  | cell | output | maxDepth | config => cases hFlag

/-- An option with a value takes the argument behind it along, whatever that looks like. -/
theorem addArguments_valued (hOption : CommandOption.ofString? argument = some option)
    (hValued : option.takesValue = true) (invocation : Invocation) (value : String)
    (rest : List String) :
    invocation.addArguments (argument :: value :: rest) =
      invocation.withOption value option >>= (addArguments · rest) := by
  rw [addArguments.eq_def]
  cases option with
  | help | raw | noConfig | verbose => cases hValued
  | cell | output | config => simp only [hOption]; rfl
  | maxDepth =>
      simp only [hOption, withOption]
      cases depthOfString? value <;> rfl

/-- What is said of an option that lacks its value. -/
def missingValue : CommandOption → ArgumentError
  | .cell => .missingValue "--cell" "an address"
  | .output => .missingValue "--output" "a file path"
  | .maxDepth => .missingValue "--max-depth" "a value"
  | _ => .missingValue "--config" "a file path"

/-- An option that stands last without its value is refused. -/
theorem addArguments_last (hOption : CommandOption.ofString? argument = some option)
    (hValued : option.takesValue = true) (invocation : Invocation) :
    invocation.addArguments [argument] = .error (missingValue option) := by
  rw [addArguments.eq_def]
  cases option with
  | help | raw | noConfig | verbose => cases hValued
  | cell | output | maxDepth | config => simp only [hOption, missingValue]

end Steps

theorem bind_map_update {update : Invocation → Invocation}
    {first : Except ArgumentError Invocation}
    {next : Invocation → Except ArgumentError Invocation}
    (hNext : ∀ invocation, next (update invocation) = (next invocation).map update) :
    first.map update >>= next = (first >>= next).map update := by
  cases first with
  | error cause => rfl
  | ok invocation => exact hNext invocation

/-- A change of the invocation that every option and every positional argument leaves alone can
be made before or after the arguments. -/
theorem addArguments_update {update : Invocation → Invocation}
    (hOption : ∀ (invocation : Invocation) (value : String) (option : CommandOption),
      (update invocation).withOption value option =
        (invocation.withOption value option).map update)
    {arguments : List String}
    (hPositional : ∀ argument ∈ positionals arguments, ∀ invocation : Invocation,
      (update invocation).withPositional argument =
        (invocation.withPositional argument).map update)
    (invocation : Invocation) :
    (update invocation).addArguments arguments =
      (invocation.addArguments arguments).map update := by
  fun_induction positionals arguments generalizing invocation with
  | case1 => rfl
  | case2 argument rest hNone ih =>
      rw [List.forall_mem_cons] at hPositional
      rw [addArguments_positional hNone, addArguments_positional hNone, hPositional.1]
      exact bind_map_update (ih hPositional.2)
  | case3 argument option hSome hValued =>
      rw [addArguments_last hSome hValued, addArguments_last hSome hValued]
      rfl
  | case4 argument option hSome hValued value more ih =>
      rw [addArguments_valued hSome hValued, addArguments_valued hSome hValued, hOption]
      exact bind_map_update (ih hPositional)
  | case5 argument rest option hSome hFlag ih =>
      have hFlag : option.takesValue = false := by simpa using hFlag
      rw [addArguments_flag hSome hFlag _ "", addArguments_flag hSome hFlag _ "", hOption]
      exact bind_map_update (ih hPositional)

end Invocation

end PlainSheet
