import Mathlib.Tactic.SplitIfs
import PlainSheet.FileTree

/-! Writing a file. A write that succeeds changes what is at one place and nothing else, and
the path that was written is read back as its new contents. -/

namespace PlainSheet.FileTree

variable {tree later : FileTree} {place directory : List String} {path : String}
  {contents : ByteArray}

theorem bind_eq_ok_iff {ε α β : Type} {first : Except ε α} {next : α → Except ε β} {b : β} :
    (first >>= next) = .ok b ↔ ∃ a, first = .ok a ∧ next a = .ok b := by
  cases first <;> simp [bind, Except.bind]

theorem requireDirectory_eq_ok_iff :
    tree.requireDirectory place = .ok () ↔ tree.get? place = some .directory := by
  unfold requireDirectory
  split <;> simp_all

theorem walk_append (first second : List String) :
    tree.walk place (first ++ second) =
      tree.walk place first >>= fun middle => tree.walk middle second := by
  induction first generalizing place with
  | nil => rfl
  | cons name names ih =>
      simp only [List.cons_append, walk, ih]
      cases tree.requireDirectory place with
      | error cause => rfl
      | ok _ =>
          simp only [bind, Except.bind]
          split_ifs <;> rfl

/-- Every place that a walk passes is a directory, so a file put where there is none
does not stand in its way. -/
theorem walk_put {start finish names : List String} (hPlace : place ≠ [])
    (hNone : tree.get? place ≠ some .directory) (h : tree.walk start names = .ok finish) :
    (tree.put place (.file contents)).walk start names = .ok finish := by
  induction names generalizing start with
  | nil => exact h
  | cons name names ih =>
      obtain ⟨⟨⟩, hDirectory, hRest⟩ := bind_eq_ok_iff.mp h
      rw [requireDirectory_eq_ok_iff] at hDirectory
      have hKept : (tree.put place (.file contents)).requireDirectory start = .ok () := by
        rw [requireDirectory_eq_ok_iff, get?_put hPlace, if_neg, hDirectory]
        rintro rfl
        exact hNone hDirectory
      refine bind_eq_ok_iff.mpr ⟨(), hKept, ?_⟩
      split_ifs at hRest ⊢ <;> exact ih hRest

theorem walk_single {name : String} (hDirectory : tree.requireDirectory directory = .ok ())
    (hStay : ¬(name = "" ∨ name = ".")) (hUp : name ≠ "..")
    (hLong : ¬maxNameBytes < name.utf8ByteSize) :
    tree.walk directory [name] = .ok (directory ++ [name]) := by
  rw [walk, hDirectory]
  simp [bind, Except.bind, walk, hStay, hUp, hLong]

/-- A path that ends in a name and no slash, read backwards, begins with that name. -/
theorem reverse_names_eq {name : String} {above : List String}
    (hNames : (names path).reverse.dropWhile (· == "") = name :: above)
    (hSlash : (names path).reverse.head? ≠ some "") :
    (names path).reverse = name :: above ∧ name ≠ "" := by
  cases hPath : (names path).reverse with
  | nil => simp [hPath] at hNames
  | cons last others =>
      have hLast : last ≠ "" := by simpa [hPath] using hSlash
      obtain ⟨rfl, rfl⟩ : last = name ∧ others = above := by simpa [hPath, hLast] using hNames
      exact ⟨rfl, hLast⟩

/-- A path that can be written: it ends in the name of a file, in a directory that it leads to
and in which no directory has this name. -/
structure NamesFile (tree : FileTree) (path : String) (directory : List String) (name : String) :
    Prop where
  check_eq : checkPath path = .ok ()
  exists_above : ∃ above, names path = above ++ [name] ∧
    tree.walk (tree.start path) above = .ok directory
  isDirectory : tree.requireDirectory directory = .ok ()
  isName : name ≠ "" ∧ name ≠ "." ∧ name ≠ ".."
  short : ¬maxNameBytes < name.utf8ByteSize
  noDirectory : tree.get? (directory ++ [name]) ≠ some .directory

theorem exists_namesFile_of_target (h : tree.target path = .ok place) :
    ∃ directory name, tree.NamesFile path directory name ∧ place = directory ++ [name] := by
  obtain ⟨⟨⟩, hCheck, hTarget⟩ := bind_eq_ok_iff.mp h
  dsimp only at hTarget
  split at hTarget
  · cases hTarget
  · next name above hNames =>
      obtain ⟨directory, hAbove, hLast⟩ := bind_eq_ok_iff.mp hTarget
      obtain ⟨⟨⟩, hDirectory, hName⟩ := bind_eq_ok_iff.mp hLast
      split_ifs at hName with hForm hLong
      obtain ⟨hSlash, hDot, hUp⟩ := by simpa only [not_or] using hForm
      obtain ⟨hReversed, hNonempty⟩ := reverse_names_eq hNames hSlash
      have hPath : names path = above.reverse ++ [name] := by
        rw [← List.reverse_reverse (names path), hReversed, List.reverse_cons]
      split at hName
      · cases hName
      · next hFile =>
          exact ⟨directory, name, ⟨hCheck, ⟨_, hPath, hAbove⟩, hDirectory,
            ⟨hNonempty, hDot, hUp⟩, hLong, hFile⟩, (Except.ok.inj hName).symm⟩

namespace NamesFile

variable {name : String}

theorem target_eq (h : tree.NamesFile path directory name) :
    tree.target path = .ok (directory ++ [name]) := by
  obtain ⟨above, hPath, hAbove⟩ := h.exists_above
  obtain ⟨hNonempty, hDot, hUp⟩ := h.isName
  have hReversed : (names path).reverse = name :: above.reverse := by simp [hPath]
  refine bind_eq_ok_iff.mpr ⟨(), h.check_eq, ?_⟩
  simp only [hReversed, List.dropWhile_cons, beq_eq_false_iff_ne.mpr hNonempty,
    Bool.false_eq_true, if_false, List.reverse_reverse]
  refine bind_eq_ok_iff.mpr ⟨directory, hAbove, bind_eq_ok_iff.mpr ⟨(), h.isDirectory, ?_⟩⟩
  rw [if_neg (by simp [hNonempty, hDot, hUp]), if_neg h.short]
  split
  · next hDirectory => exact absurd hDirectory h.noDirectory
  · rfl

theorem walk_eq (h : tree.NamesFile path directory name) :
    tree.walk (tree.start path) (names path) = .ok (directory ++ [name]) := by
  obtain ⟨above, hPath, hAbove⟩ := h.exists_above
  obtain ⟨hNonempty, hDot, hUp⟩ := h.isName
  rw [hPath, walk_append, hAbove]
  exact walk_single h.isDirectory (not_or.mpr ⟨hNonempty, hDot⟩) hUp h.short

/-- A path can be written again after it was written. -/
theorem put (h : tree.NamesFile path directory name) :
    (tree.put (directory ++ [name]) (.file contents)).NamesFile path directory name where
  check_eq := h.check_eq
  exists_above := by
    obtain ⟨above, hPath, hAbove⟩ := h.exists_above
    exact ⟨above, hPath, walk_put (by simp) h.noDirectory hAbove⟩
  isDirectory := by
    have hDirectory := h.isDirectory
    rw [requireDirectory_eq_ok_iff] at hDirectory ⊢
    rw [get?_put (by simp), if_neg (by simp), hDirectory]
  isName := h.isName
  short := h.short
  noDirectory := by
    rw [get?_put (by simp), if_pos rfl]
    simp

end NamesFile

/-- A path that names a place for writing leads there, and no directory is at the place. -/
theorem target_cases (h : tree.target path = .ok place) :
    checkPath path = .ok () ∧ tree.walk (tree.start path) (names path) = .ok place ∧
      place ≠ [] ∧ tree.get? place ≠ some .directory := by
  obtain ⟨directory, name, hFile, rfl⟩ := exists_namesFile_of_target h
  exact ⟨hFile.check_eq, hFile.walk_eq, by simp, hFile.noDirectory⟩

/-- A path that leads to a place is read as the file that is put there. -/
theorem read_put (h : tree.target path = .ok place) :
    (tree.put place (.file contents)).read path = .ok contents := by
  obtain ⟨hCheck, hWalk, hPlace, hFile⟩ := target_cases h
  refine bind_eq_ok_iff.mpr ⟨(), hCheck, bind_eq_ok_iff.mpr ⟨place, ?_, ?_⟩⟩
  · exact walk_put hPlace hFile hWalk
  · rw [get?_put hPlace, if_pos rfl]

/-- One tree comes from another by writing one file: the path is read as the contents, and
what is at every other place than the one that the path names is as it was. -/
structure WrittenAt (earlier later : FileTree) (path : String) (contents : ByteArray) :
    Prop where
  read_eq : later.read path = .ok contents
  exists_place : ∃ place, earlier.target path = .ok place ∧
    earlier.get? place ≠ some .directory ∧
    ∀ other, later.get? other =
      if other = place then some (.file contents) else earlier.get? other
  workingPlace_eq : later.workingPlace = earlier.workingPlace

theorem writtenAt_of_write (h : tree.write path contents = .ok later) :
    tree.WrittenAt later path contents := by
  obtain ⟨place, hTarget, hPut⟩ := bind_eq_ok_iff.mp h
  obtain rfl := Except.ok.inj hPut
  obtain ⟨-, -, hPlace, hFile⟩ := target_cases hTarget
  exact ⟨read_put hTarget, ⟨place, hTarget, hFile, fun _ => get?_put hPlace⟩, rfl⟩

/-- Some file can be written at a path. -/
def Writable (tree : FileTree) (path : String) : Prop :=
  ∃ contents later, tree.write path contents = .ok later

/-- Where some file can be written any other can, since a write fails for its path alone. -/
theorem Writable.exists_write (h : tree.Writable path) (contents : ByteArray) :
    ∃ later, tree.write path contents = .ok later := by
  obtain ⟨others, elsewhere, hWrite⟩ := h
  obtain ⟨place, hTarget, -⟩ := bind_eq_ok_iff.mp hWrite
  exact ⟨_, bind_eq_ok_iff.mpr ⟨place, hTarget, rfl⟩⟩

theorem writable_of_write (h : tree.write path contents = .ok later) : later.Writable path := by
  obtain ⟨place, hTarget, hPut⟩ := bind_eq_ok_iff.mp h
  obtain rfl := Except.ok.inj hPut
  obtain ⟨directory, name, hFile, rfl⟩ := exists_namesFile_of_target hTarget
  exact ⟨contents, _, bind_eq_ok_iff.mpr ⟨_, hFile.put.target_eq, rfl⟩⟩

end PlainSheet.FileTree
