import PlainSheet.Proofs.FileTree.Writing

/-! Two trees that differ at one place. A path that leads neither through the place nor to it is
read in both trees with one result, and is written at one place or in neither. -/

namespace PlainSheet.FileTree

variable {left right : FileTree} {place directory : List String} {path : String}

/-- Two trees have the same everywhere but at one place, and work starts at the same place. -/
structure DifferOnlyAt (left right : FileTree) (place : List String) : Prop where
  get?_eq : ∀ other, other ≠ place → left.get? other = right.get? other
  workingPlace_eq : left.workingPlace = right.workingPlace

/-- A path is the same file in two trees, as far as reading and writing can tell. -/
structure SameAt (left right : FileTree) (path : String) : Prop where
  read_eq : left.read path = right.read path
  target_eq : left.target path = right.target path

/-- The places from which names lead on, all of which must be directories. -/
def crossed (place : List String) : List String → List (List String)
  | [] => []
  | name :: names =>
    place ::
      if name = "" ∨ name = "." then crossed place names
      else if name = ".." then crossed place.dropLast names
      else crossed (place ++ [name]) names

/-- As much of a place as matters on the way through it is the same in two trees. -/
def CrossedAlike (left right : FileTree) (place : List String) : Prop :=
  left.requireDirectory place = right.requireDirectory place

/-- What is in a file does not matter on the way, which ends there. -/
theorem crossedAlike_iff :
    left.CrossedAlike right place ↔
      left.get? place = right.get? place ∨
        ∃ contents others, left.get? place = some (.file contents) ∧
          right.get? place = some (.file others) := by
  unfold CrossedAlike requireDirectory
  rcases left.get? place with _ | ⟨_ | _⟩ <;> rcases right.get? place with _ | ⟨_ | _⟩ <;> simp

theorem walk_congr {names : List String}
    (h : ∀ other ∈ crossed place names, left.CrossedAlike right other) :
    left.walk place names = right.walk place names := by
  induction names generalizing place with
  | nil => rfl
  | cons name names ih =>
      rw [crossed, List.forall_mem_cons] at h
      rw [walk, walk, h.1]
      have hRest := h.2
      split_ifs at hRest ⊢
      · rw [ih hRest]
      · rw [ih hRest]
      · rfl
      · rw [ih hRest]

theorem crossed_subset_append (first second : List String) :
    crossed place first ⊆ crossed place (first ++ second) := by
  induction first generalizing place with
  | nil => exact List.nil_subset _
  | cons name names ih =>
      refine List.cons_subset_cons _ ?_
      split_ifs <;> exact ih

/-- Where names have led is crossed when more names follow. -/
theorem mem_crossed_of_walk {first second : List String} {name : String}
    (h : left.walk place first = .ok directory) :
    directory ∈ crossed place (first ++ name :: second) := by
  induction first generalizing place with
  | nil =>
      obtain rfl := Except.ok.inj h
      exact List.mem_cons_self
  | cons other names ih =>
      obtain ⟨⟨⟩, -, hRest⟩ := bind_eq_ok_iff.mp h
      refine List.mem_cons_of_mem _ ?_
      split_ifs at hRest ⊢ <;> exact ih hRest

/-- Only empty names follow the last one that a path has. -/
theorem exists_names_eq {name : String} {above : List String}
    (hNames : (names path).reverse.dropWhile (· == "") = name :: above) :
    ∃ blanks, names path = above.reverse ++ name :: blanks := by
  have hParts := List.takeWhile_append_dropWhile (p := (· == "")) (l := (names path).reverse)
  rw [hNames] at hParts
  exact ⟨((names path).reverse.takeWhile (· == "")).reverse, by
    simpa using (congrArg List.reverse hParts).symm⟩

section SamePath

variable (hStart : left.start path = right.start path)
  (hCrossed : ∀ other ∈ crossed (left.start path) (names path), left.CrossedAlike right other)
  (hEnd : ∀ finish, left.walk (left.start path) (names path) = .ok finish →
    left.get? finish = right.get? finish)

include hStart hCrossed hEnd

theorem read_congr : left.read path = right.read path := by
  have hWalk := walk_congr hCrossed
  rw [read, read, ← hStart, ← hWalk]
  cases hFinish : left.walk (left.start path) (names path) with
  | error cause => rfl
  | ok finish => simp only [bind, Except.bind, hEnd finish hFinish]

theorem target_congr : left.target path = right.target path := by
  rw [target, target, ← hStart]
  refine bind_congr fun _ => ?_
  dsimp only
  split
  · rfl
  next name above hNames =>
    obtain ⟨blanks, hPath⟩ := exists_names_eq hNames
    rw [← walk_congr fun other hOther =>
      hCrossed other (hPath ▸ crossed_subset_append _ _ hOther)]
    cases hAbove : left.walk (left.start path) above.reverse with
    | error cause => rfl
    | ok directory =>
        have hAlike := hCrossed directory (hPath ▸ mem_crossed_of_walk hAbove)
        simp only [bind, Except.bind]
        rw [← show left.requireDirectory directory = right.requireDirectory directory from hAlike]
        cases hDirectory : left.requireDirectory directory with
        | error cause => rfl
        | ok _ =>
            dsimp only
            split_ifs with hForm hLong
            · rfl
            · rfl
            · obtain ⟨hSlash, hDot, hUp⟩ := by simpa only [not_or] using hForm
              obtain ⟨hReversed, hNonempty⟩ := reverse_names_eq hNames hSlash
              rw [hEnd (directory ++ [name])]
              rw [← List.reverse_reverse (names path), hReversed, List.reverse_cons, walk_append,
                hAbove]
              exact walk_single hDirectory (not_or.mpr ⟨hNonempty, hDot⟩) hUp hLong

end SamePath

/-- A path does not lead to a place. It may lead through it, if that is a directory in two trees
or a file in both. -/
structure Avoids (left right : FileTree) (path : String) (place : List String) : Prop where
  through : place ∈ crossed (left.start path) (names path) → left.CrossedAlike right place
  elsewhere : left.walk (left.start path) (names path) ≠ .ok place

/-- A path that avoids the place at which two trees differ is the same file in both. -/
theorem DifferOnlyAt.sameAt (h : left.DifferOnlyAt right place)
    (hPath : left.Avoids right path place) : left.SameAt right path := by
  have hStart : left.start path = right.start path := by
    rw [start, start, h.workingPlace_eq]
  have hCrossed : ∀ other ∈ crossed (left.start path) (names path),
      left.CrossedAlike right other := by
    intro other hOther
    by_cases hPlace : other = place
    · exact hPlace ▸ hPath.through (hPlace ▸ hOther)
    · exact crossedAlike_iff.mpr (.inl (h.get?_eq other hPlace))
  have hEnd : ∀ finish, left.walk (left.start path) (names path) = .ok finish →
      left.get? finish = right.get? finish := by
    intro finish hFinish
    refine h.get?_eq finish ?_
    rintro rfl
    exact hPath.elsewhere hFinish
  exact ⟨read_congr hStart hCrossed hEnd, target_congr hStart hCrossed hEnd⟩

end PlainSheet.FileTree
