/-!
Files and directories. A tree maps the places below its root to files and
directories; a path is followed through it name by name, from the root when it begins
with a slash and else from the working directory. What can go wrong on the way is an
error of its own, and a failed operation leaves no trace.
-/

namespace PlainSheet

inductive FileError where
  /-- Nothing is at the path, or one of its directories is missing. -/
  | notFound
  | isDirectory
  /-- A part of the path that should be a directory is a file. -/
  | notDirectory
  | nameTooLong
  /-- The path holds the character NUL, which ends a path. -/
  | nulInPath
  /-- Any other cause that a file system gives, in its words. -/
  | other (description : String)
deriving DecidableEq, Repr

def FileError.message : FileError → String
  | notFound => "No such file or directory (os error 2)"
  | isDirectory => "Is a directory (os error 21)"
  | notDirectory => "Not a directory (os error 20)"
  | nameTooLong => "File name too long (os error 36)"
  | nulInPath => "file name contained an unexpected NUL byte"
  | other description => description

/-- What is at a place of a tree. -/
inductive FileEntry where
  | file (contents : ByteArray)
  | directory

/-- Files and directories by their places, each a list of names from the root. -/
structure FileTree where
  entries : List (List String × FileEntry)
  workingPlace : List String

namespace FileTree

/-- A tree with nothing but the directories down to a place, at which work starts. -/
def emptyAt (place : List String) : FileTree :=
  { entries := (List.range place.length).map fun above => (place.take (above + 1), .directory)
    workingPlace := place }

def maxNameBytes : Nat := 255

def maxPathBytes : Nat := 4095

/-- What is at a place. The root is a directory. -/
def get? (tree : FileTree) : List String → Option FileEntry
  | [] => some .directory
  | place => tree.entries.lookup place

/-- Puts an entry at a place, over what was there. -/
def put (tree : FileTree) (place : List String) (entry : FileEntry) : FileTree :=
  { tree with entries := (place, entry) :: tree.entries.filter fun (other, _) => other != place }

/-- What is at a place after something was put somewhere below the root. -/
theorem get?_put {tree : FileTree} {place other : List String} {entry : FileEntry}
    (hPlace : place ≠ []) :
    (tree.put place entry).get? other =
      if other = place then some entry else tree.get? other := by
  cases other with
  | nil =>
    rw [if_neg (Ne.symm hPlace)]
    rfl
  | cons name names =>
    by_cases hSame : name :: names = place
    · subst hSame
      simp [get?, put]
    · rw [if_neg hSame]
      simp only [get?, put, List.lookup_cons, beq_eq_false_iff_ne.mpr hSame]
      induction tree.entries with
      | nil => rfl
      | cons first rest ih =>
        obtain ⟨there, what⟩ := first
        by_cases hFirst : there = place
        · subst hFirst
          simpa [List.lookup_cons, beq_eq_false_iff_ne.mpr hSame] using ih
        · simp [List.lookup_cons, hFirst, ih]

/-- A place must be a directory for a path to lead on from it. -/
def requireDirectory (tree : FileTree) (place : List String) : Except FileError Unit :=
  match tree.get? place with
  | some .directory => .ok ()
  | some (.file _) => .error .notDirectory
  | none => .error .notFound

/-- The place that names lead to from a place. An empty name and `.` stay, and `..`
goes to the directory above, at the root to the root itself. -/
def walk (tree : FileTree) (place : List String) : List String → Except FileError (List String)
  | [] => .ok place
  | name :: names => do
    tree.requireDirectory place
    if name = "" ∨ name = "." then tree.walk place names
    else if name = ".." then tree.walk place.dropLast names
    else if maxNameBytes < name.utf8ByteSize then .error .nameTooLong
    else tree.walk (place ++ [name]) names

/-- The names of a path, which slashes separate. -/
def names (path : String) : List String :=
  (path.toList.splitOn '/').map String.ofList

/-- What must hold of every path, before it is followed. -/
def checkPath (path : String) : Except FileError Unit :=
  if path.toList.contains '\x00' then .error .nulInPath
  else if maxPathBytes < path.utf8ByteSize then .error .nameTooLong
  else if path = "" then .error .notFound
  else .ok ()

/-- The place that a path starts from. -/
def start (tree : FileTree) (path : String) : List String :=
  if path.toList.head? = some '/' then [] else tree.workingPlace

def read (tree : FileTree) (path : String) : Except FileError ByteArray := do
  checkPath path
  let place ← tree.walk (tree.start path) (names path)
  match tree.get? place with
  | some (.file contents) => .ok contents
  | some .directory => .error .isDirectory
  | none => .error .notFound

/-- The place of the file that is written at a path. Its directory must exist. A path
that ends in a slash, in `.` or in `..` names a directory. -/
def target (tree : FileTree) (path : String) : Except FileError (List String) := do
  checkPath path
  let reversed := (names path).reverse
  match reversed.dropWhile (· == "") with
  | [] => .error .isDirectory
  | name :: above =>
    let directory ← tree.walk (tree.start path) above.reverse
    tree.requireDirectory directory
    if reversed.head? = some "" ∨ name = "." ∨ name = ".." then .error .isDirectory
    else if maxNameBytes < name.utf8ByteSize then .error .nameTooLong
    else
      match tree.get? (directory ++ [name]) with
      | some .directory => .error .isDirectory
      | _ => .ok (directory ++ [name])

/-- Writes a file at a path: the file there is replaced, or a new one is made. -/
def write (tree : FileTree) (path : String) (contents : ByteArray) :
    Except FileError FileTree := do
  let place ← tree.target path
  .ok (tree.put place (.file contents))

end FileTree

end PlainSheet
