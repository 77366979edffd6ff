import PlainSheet.Command.Run
import PlainSheet.Proofs.Command.Arguments
import PlainSheet.Proofs.Command.Outcome
import PlainSheet.Proofs.FileTree.Agreement

/-! What a settings file can change about a run. How a document is understood does not matter
here, so the parser may be any. -/

namespace PlainSheet

namespace Settings

variable {parse : String → Except String Settings} {contents : Except FileError ByteArray}

/-- Why a file is of no use as a settings file. -/
inductive Unusable (parse : String → Except String Settings) :
    Except FileError ByteArray → Prop where
  /-- It is missing or cannot be read. -/
  | unread (cause : FileError) : Unusable parse (.error cause)
  | tooLarge {bytes : ByteArray} : maxBytes < bytes.size → Unusable parse (.ok bytes)
  | noText {bytes : ByteArray} {fault : Text.Utf8Fault} :
      Text.decode bytes = .error fault → Unusable parse (.ok bytes)
  | refused {bytes : ByteArray} {text cause : String} :
      Text.decode bytes = .ok text → parse text = .error cause → Unusable parse (.ok bytes)

/-- A file that is of no use leaves the settings as they are by default, with or without a
warning. -/
theorem ofFile_of_unusable (h : Unusable parse contents) (askedFor : Bool) (path : String) :
    (ofFile parse askedFor path contents).1 = {} := by
  cases h with
  | unread cause => cases cause <;> rfl
  | tooLarge hLarge => simp only [ofFile, if_pos hLarge]
  | noText hFault =>
      simp only [ofFile, hFault]
      split <;> rfl
  | refused hText hRefused =>
      simp only [ofFile, hText, hRefused]
      split <;> rfl

theorem load_of_unusable {askedFor ownFile : Option String}
    {read : String → Except FileError ByteArray}
    (h : ∀ path, askedFor.or ownFile = some path → Unusable parse (read path)) :
    (load parse askedFor ownFile read).1 = {} := by
  cases askedFor with
  | some path => exact ofFile_of_unusable (h path rfl) true path
  | none =>
      cases ownFile with
      | some path => exact ofFile_of_unusable (h path rfl) false path
      | none => rfl

end Settings

namespace Outcome

/-- Two runs, each with its own files, cannot be told apart by anyone who looks at what they
leave behind: the output file, if there is one, is read alike, and no place has become different
that was not. -/
structure Alike (left right : Outcome) (output : Option String) (files others : FileTree) :
    Prop where
  code_eq : left.code = right.code
  stdout_eq : left.stdout = right.stdout
  stderr_eq : left.stderr = right.stderr
  output_eq : ∀ path ∈ output, left.files.read path = right.files.read path
  kept : ∀ place, files.get? place = others.get? place →
    left.files.get? place = right.files.get? place

/-- Two runs come to outcomes that are alike, or neither of them comes to one. -/
def AlikeRuns (left right : Option Outcome) (output : Option String) (files others : FileTree) :
    Prop :=
  Option.Rel (fun outcome other => outcome.Alike other output files others) left right

end Outcome

namespace Invocation

variable {parse : String → Except String Settings} {invocation : Invocation}
  {settings otherwise : Settings} {table : Table} {ownFile : Option String} {stdin : ByteArray}
  {left right : FileTree}

/-- A limit among the arguments leaves nothing to the settings but the separator, which is not
shown between chosen cells or in raw tables. -/
theorem shown_congr (hDepth : invocation.maxDepth.isSome)
    (hPlain : invocation.cells ≠ [] ∨ invocation.raw = true) :
    invocation.shown settings table = invocation.shown otherwise table := by
  have hSheet : invocation.sheet settings table = invocation.sheet otherwise table := by
    obtain ⟨depth, hDepth⟩ := Option.isSome_iff_exists.mp hDepth
    rw [sheet, sheet, hDepth]
    rfl
  rcases hPlain with hCells | hRaw
  · rw [shown_of_cells hCells, shown_of_cells hCells, hSheet]
  · rw [shown, shown, hSheet, hRaw]
    rfl

section Alike

theorem alike_of_unwritten {output : Option String}
    (hOutput : ∀ path ∈ output, left.SameAt right path) (code : Nat) (stdout stderr : String) :
    Outcome.Alike ⟨code, stdout, stderr, left⟩ ⟨code, stdout, stderr, right⟩ output left right :=
  ⟨rfl, rfl, rfl, fun path hPath => (hOutput path hPath).read_eq, fun _ => id⟩

variable (hOutput : ∀ path ∈ invocation.output, left.SameAt right path)

include hOutput

theorem deliver_alike (text : String) :
    (invocation.deliver text left).Alike (invocation.deliver text right) invocation.output left
      right := by
  unfold deliver
  generalize invocation.output = output at hOutput ⊢
  cases output with
  | none => exact alike_of_unwritten hOutput 0 (text ++ "\n") ""
  | some path =>
      have hTarget := (hOutput path rfl).target_eq
      dsimp only
      rw [FileTree.write, FileTree.write, ← hTarget]
      cases hLeft : left.target path with
      | error cause => exact alike_of_unwritten hOutput 1 "" _
      | ok place =>
          obtain ⟨-, -, hPlace, -⟩ := FileTree.target_cases hLeft
          refine ⟨rfl, rfl, rfl, ?_, fun other hOther => ?_⟩
          · rintro _ ⟨⟩
            exact (FileTree.read_put hLeft).trans (FileTree.read_put (hTarget ▸ hLeft)).symm
          · change (left.put place _).get? other = (right.put place _).get? other
            rw [FileTree.get?_put hPlace, FileTree.get?_put hPlace, hOther]

theorem run_alike (hInput : ∀ path ∈ invocation.file, left.read path = right.read path)
    (hShown : ∀ table, invocation.shown (invocation.settings parse ownFile left.read) table =
      invocation.shown (invocation.settings parse ownFile right.read) table) :
    Outcome.AlikeRuns (invocation.run parse ownFile stdin left)
      (invocation.run parse ownFile stdin right) invocation.output left right := by
  have hTable : invocation.table stdin left.read = invocation.table stdin right.read := by
    unfold table
    cases hFile : invocation.file with
    | none => rfl
    | some path => simp only [hInput path hFile]
  have hText : invocation.outputText parse ownFile stdin left.read =
      invocation.outputText parse ownFile stdin right.read := by
    unfold outputText
    simp only [hTable, hShown]
  unfold run
  split_ifs
  · exact .some (alike_of_unwritten hOutput _ _ _)
  · rw [hText]
    rcases invocation.outputText parse ownFile stdin right.read with _ | cause | text
    · exact .none
    · exact .some (alike_of_unwritten hOutput _ _ _)
    · exact .some (deliver_alike hOutput text)

end Alike

/-- The same invocation without a settings file. -/
def withoutConfig (invocation : Invocation) : Invocation :=
  { invocation with noConfig := true }

theorem withOption_withoutConfig (invocation : Invocation) (value : String)
    (option : CommandOption) :
    invocation.withoutConfig.withOption value option =
      (invocation.withOption value option).map withoutConfig := by
  cases option with
  | maxDepth =>
      simp only [withOption]
      cases depthOfString? value <;> rfl
  | _ => rfl

theorem withPositional_withoutConfig (invocation : Invocation) (argument : String) :
    invocation.withoutConfig.withPositional argument =
      (invocation.withPositional argument).map withoutConfig := by
  unfold withPositional withInput withoutConfig
  split_ifs <;> rfl

/-- The arguments mean the same as without it, but for the settings file. -/
theorem ofArguments_noConfig (arguments : List String) :
    ofArguments ("--no-config" :: arguments) = (ofArguments arguments).map withoutConfig := by
  have hOption : CommandOption.ofString? "--no-config" = some .noConfig := by decide
  rw [ofArguments, addArguments_flag hOption rfl {} "" arguments]
  exact addArguments_update withOption_withoutConfig
    (fun argument _ => (withPositional_withoutConfig · argument)) {}

theorem settings_of_unusable {read : String → Except FileError ByteArray}
    (h : ∀ path, invocation.config.or ownFile = some path →
      Settings.Unusable parse (read path)) :
    invocation.settings parse ownFile read = {} := by
  rw [settings]
  split_ifs
  · rfl
  · exact Settings.load_of_unusable h

theorem run_withoutConfig {files : FileTree}
    (h : invocation.settings parse ownFile files.read = {}) :
    invocation.run parse ownFile stdin files =
      invocation.withoutConfig.run parse ownFile stdin files := by
  have hText : invocation.outputText parse ownFile stdin files.read =
      invocation.withoutConfig.outputText parse ownFile stdin files.read := by
    rw [outputText, outputText, h]
    rfl
  rw [run, run, hText]
  rfl

end Invocation

open Invocation

variable {parse : String → Except String Settings} {arguments : List String}
  {ownFile : Option String} {stdin : ByteArray} {invocation : Invocation}

theorem runCommandBy_of_ofArguments (h : ofArguments arguments = .ok invocation)
    (files : FileTree) :
    runCommandBy parse arguments ownFile stdin files =
      invocation.run parse ownFile stdin files := by
  rw [runCommandBy, h]

theorem runCommandBy_of_ofArguments_error {cause : ArgumentError}
    (h : ofArguments arguments = .error cause) (files : FileTree) :
    runCommandBy parse arguments ownFile stdin files =
      some (.failure (errorLine cause.message ++ usage) files) := by
  rw [runCommandBy, h]

/-- Runs on two trees are alike when no use is made of the settings file, as long as the files
that they name are the same in both. -/
theorem runCommandBy_alike {left right : FileTree} (h : ofArguments arguments = .ok invocation)
    (hUnused : invocation.noConfig = true ∨
      invocation.maxDepth.isSome ∧ (invocation.cells ≠ [] ∨ invocation.raw = true))
    (hInput : ∀ path ∈ invocation.file, left.SameAt right path)
    (hOutput : ∀ path ∈ invocation.output, left.SameAt right path) :
    Outcome.AlikeRuns (runCommandBy parse arguments ownFile stdin left)
      (runCommandBy parse arguments ownFile stdin right) invocation.output left right := by
  rw [runCommandBy_of_ofArguments h, runCommandBy_of_ofArguments h]
  refine run_alike hOutput (fun path hPath => (hInput path hPath).read_eq) fun table => ?_
  rcases hUnused with hConfig | ⟨hDepth, hPlain⟩
  · rw [settings, settings, if_pos hConfig, if_pos hConfig]
  · exact shown_congr hDepth hPlain

/-- A file that is of no use is not used. -/
theorem runCommandBy_noConfig {files : FileTree}
    (h : ∀ invocation, ofArguments arguments = .ok invocation →
      ∀ path, invocation.config.or ownFile = some path →
        Settings.Unusable parse (files.read path)) :
    runCommandBy parse arguments ownFile stdin files =
      runCommandBy parse ("--no-config" :: arguments) ownFile stdin files := by
  have hNoConfig := ofArguments_noConfig arguments
  cases hArguments : ofArguments arguments with
  | error cause =>
      rw [hArguments] at hNoConfig
      rw [runCommandBy_of_ofArguments_error hArguments,
        runCommandBy_of_ofArguments_error hNoConfig]
  | ok invocation =>
      rw [hArguments] at hNoConfig
      rw [runCommandBy_of_ofArguments hArguments, runCommandBy_of_ofArguments hNoConfig]
      exact run_withoutConfig (settings_of_unusable (h invocation hArguments))

/-- What a settings file can change about a run, however documents are understood. Two runs with
the same arguments, on trees that differ at one place only, such as that of the settings file,
are alike when no settings file is wanted, and when the arguments give the limit and the run
shows chosen cells or raw ones; the files that the arguments name must not be at this place. A
settings file that is missing or cannot be used makes no difference to a run without one. -/
theorem runCommand_settings_influence (parse : String → Except String Settings) :
    (∀ (arguments : List String) (ownFile : Option String) (stdin : ByteArray)
        (left right : FileTree) (place : List String), left.DifferOnlyAt right place →
      (∀ cause, ofArguments arguments = .error cause →
        Outcome.AlikeRuns (runCommandBy parse arguments ownFile stdin left)
          (runCommandBy parse arguments ownFile stdin right) none left right) ∧
      ∀ invocation, ofArguments arguments = .ok invocation →
        (∀ path, invocation.file = some path ∨ invocation.output = some path →
          left.Avoids right path place) →
        (invocation.noConfig = true ∨
          invocation.maxDepth.isSome ∧ (invocation.cells ≠ [] ∨ invocation.raw = true)) →
        Outcome.AlikeRuns (runCommandBy parse arguments ownFile stdin left)
          (runCommandBy parse arguments ownFile stdin right) invocation.output left right) ∧
    ∀ (arguments : List String) (ownFile : Option String) (stdin : ByteArray)
        (files : FileTree),
      (∀ invocation, ofArguments arguments = .ok invocation →
        ∀ path, invocation.config.or ownFile = some path →
          Settings.Unusable parse (files.read path)) →
      runCommandBy parse arguments ownFile stdin files =
        runCommandBy parse ("--no-config" :: arguments) ownFile stdin files := by
  refine ⟨fun arguments ownFile stdin left right place hDiffer => ⟨fun cause hCause => ?_,
    fun invocation hArguments hApart hUnused => ?_⟩, fun _ _ _ _ => runCommandBy_noConfig⟩
  · rw [runCommandBy_of_ofArguments_error hCause, runCommandBy_of_ofArguments_error hCause]
    exact .some (alike_of_unwritten (by simp) 1 "" _)
  · exact runCommandBy_alike hArguments hUnused
      (fun path hPath => hDiffer.sameAt (hApart path (.inl hPath)))
      (fun path hPath => hDiffer.sameAt (hApart path (.inr hPath)))

/-- The tables of `ownInput`, beside which there is a settings file with a narrow limit. -/
def ownSettings : FileTree :=
  ownInput.put ["work", "set.toml"]
    (.file "[eval]\nmax_depth = 1\n[output]\nseparator = \";\"\n".toUTF8)

/-- Other settings are read where the file is than where it is missing, and still the cell that
is asked for is shown in the same way, and a file that is missing is as good as none. -/
theorem runCommand_settings_influence_on_own_settings :
    let arguments :=
      ["--config", "set.toml", "--max-depth", "0", "-c", "B1", "-o", "out.txt", "in.txt"]
    let invocation : Invocation :=
      { file := some "in.txt", cells := ["B1"], output := some "out.txt", maxDepth := some 0,
        config := some "set.toml" }
    ofArguments arguments = .ok invocation ∧
      invocation.settings Settings.ofString none ownInput.read = {} ∧
      invocation.settings Settings.ofString none ownSettings.read = ⟨1, ";"⟩ ∧
      Outcome.AlikeRuns (runCommand arguments none .empty ownInput)
        (runCommand arguments none .empty ownSettings) (some "out.txt") ownInput ownSettings ∧
      runCommand arguments none .empty ownInput =
        runCommand ("--no-config" :: arguments) none .empty ownInput := by
  intro arguments invocation
  have hArguments : ofArguments arguments = .ok invocation := by decide +kernel
  have hDiffer : ownInput.DifferOnlyAt ownSettings ["work", "set.toml"] := by
    refine ⟨fun other hOther => ?_, rfl⟩
    rw [ownSettings, FileTree.get?_put (by simp), if_neg hOther]
  obtain ⟨hAlike, hUnusable⟩ := runCommand_settings_influence Settings.ofString
  refine ⟨hArguments, by decide +kernel, by decide +kernel, ?_, ?_⟩
  · refine (hAlike arguments none .empty _ _ _ hDiffer).2 invocation hArguments ?_ ?_
    · rintro path (⟨⟨⟩⟩ | ⟨⟨⟩⟩)
      · exact ⟨fun hThrough => absurd hThrough (by decide +kernel), by decide +kernel⟩
      · exact ⟨fun hThrough => absurd hThrough (by decide +kernel), by decide +kernel⟩
    · exact .inr ⟨rfl, .inl (by simp [invocation])⟩
  · refine hUnusable arguments none .empty ownInput fun asked hAsked path hPath => ?_
    obtain rfl := Except.ok.inj (hArguments.symm.trans hAsked)
    obtain rfl := Option.some.inj hPath
    have hMissing : ownInput.read "set.toml" = .error .notFound := by decide +kernel
    exact hMissing ▸ .unread .notFound

end PlainSheet
