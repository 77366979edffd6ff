import Mathlib.Data.List.Perm.Subperm
import PlainSheet.Evaluation.Basic
import PlainSheet.Proofs.Grammar.Content

/-! Paths of references through a table. A path that comes to a cell twice can go round
any number of times, and one that does not is no longer than the table has cells. -/

namespace PlainSheet

namespace Table

/-- The content of the cell at an address, if there is a cell. -/
def contentAt (table : Table) (address : Address) : Option String :=
  table.get? address.row address.column

theorem follow_of_contentAt {table : Table} {r : Reference} {target : String}
    (h : table.contentAt r.address = some target) : table.follow r = .ok target := by
  rw [contentAt] at h
  rw [follow, h]

/-- The addresses of the cells, in reading order. -/
def addresses (table : Table) : List Address :=
  table.rows.zipIdx.flatMap fun (cells, row) =>
    cells.zipIdx.map fun (_, column) => ⟨row + 1, column + 1⟩

theorem length_addresses (table : Table) : table.addresses.length = table.cellCount := by
  have hRows : (fun row : List String × Nat => row.1.length) = List.length ∘ Prod.fst := rfl
  simp only [addresses, cellCount, List.length_flatMap, List.length_map, List.length_zipIdx,
    List.length_flatten, hRows, ← List.map_map, List.zipIdx_map_fst]

theorem contentAt_eq_some_iff {table : Table} {address : Address} {content : String} :
    table.contentAt address = some content ↔
      ∃ row column cells, address = ⟨row + 1, column + 1⟩ ∧ table.rows[row]? = some cells ∧
        cells[column]? = some content := by
  constructor
  · intro h
    obtain ⟨row, column⟩ := address
    cases row with
    | zero => cases h
    | succ row =>
        cases column with
        | zero => cases h
        | succ column =>
            obtain ⟨cells, hCells, hContent⟩ := Option.bind_eq_some_iff.mp h
            exact ⟨row, column, cells, rfl, hCells, hContent⟩
  · intro h
    obtain ⟨row, column, cells, rfl, hCells, hContent⟩ := h
    exact Option.bind_eq_some_iff.mpr ⟨cells, hCells, hContent⟩

/-- Only the addresses of a table have contents. -/
theorem mem_addresses {table : Table} {address : Address} {content : String}
    (h : table.contentAt address = some content) : address ∈ table.addresses := by
  obtain ⟨row, column, cells, rfl, hCells, hContent⟩ := contentAt_eq_some_iff.mp h
  rw [addresses, List.mem_flatMap]
  refine ⟨(cells, row), List.mk_mem_zipIdx_iff_getElem?.mpr hCells, ?_⟩
  have hColumn := List.mk_mem_zipIdx_iff_getElem?.mpr hContent
  exact List.mem_map.mpr ⟨(content, column), hColumn, rfl⟩

end Table

namespace Evaluation

def operandReference? : Operand → Option Reference
  | .numeral _ => none
  | .cell r => some r

/-- The references that are followed when a content is evaluated. -/
def references (raw : String) : List Reference :=
  match Content.ofString raw with
  | .number _ => []
  | .reference r => [r]
  | .formula f => f.operands.filterMap operandReference?
  | .text _ => []

theorem operandReference?_eq_some_iff {operand : Operand} {r : Reference} :
    operandReference? operand = some r ↔ operand = .cell r := by
  cases operand <;> simp [operandReference?]

theorem mem_references_of_formula {raw : String} {f : Formula} {r : Reference}
    (h : Content.ofString raw = .formula f) :
    r ∈ references raw ↔ .cell r ∈ f.operands := by
  simp only [references, h, List.mem_filterMap, operandReference?_eq_some_iff]
  simp

/-- Whether a content is a number by itself, which references show without evaluating it. -/
def isBare (raw : String) : Bool := (Numeral.ofString? raw).isSome

theorem references_of_isBare {raw : String} (h : isBare raw = true) : references raw = [] := by
  obtain ⟨n, hn⟩ := Option.isSome_iff_exists.mp h
  obtain ⟨tree, hTree, -⟩ := Numeral.ofChars?_eq_some_iff.mp hn
  -- No number starts with the character that every other kind of content starts with.
  have hMem : '=' ∉ raw.toList := hTree ▸ (OperandTree.number tree).not_mem_chars rfl
  simp only [references, Content.ofString_of_not_mem hMem]

/-- A path of references leads from a content through the cells at some addresses, in this
order, to the content of the last of them. -/
inductive Path (table : Table) : String → List Address → String → Prop where
  | nil (raw : String) : Path table raw [] raw
  | cons {raw target last : String} {r : Reference} {cells : List Address} :
      r ∈ references raw → table.contentAt r.address = some target → Path table target cells last →
        Path table raw (r.address :: cells) last

/-- Whether the content of the cell at an address is evaluated when a reference comes there. -/
def isNested (table : Table) (address : Address) : Bool :=
  match table.contentAt address with
  | some content => !isBare content
  | none => false

/-- Some path from a content passes through that many cells, or more, whose contents are
evaluated. A cell counts each time that the path comes to it. -/
def PassesThrough (table : Table) (raw : String) (count : Nat) : Prop :=
  ∃ cells last, Path table raw cells last ∧ count ≤ cells.countP (isNested table)

/-- All references that are reached from a content lead to cells of the table. -/
def Closed (table : Table) (raw : String) : Prop :=
  ∀ cells last, Path table raw cells last →
    ∀ r ∈ references last, ∃ target, table.contentAt r.address = some target

/-- Some path from a content comes to a cell twice. -/
def ReachesCycle (table : Table) (raw : String) : Prop :=
  ∃ cells last, Path table raw cells last ∧ ¬cells.Nodup

variable {table : Table} {raw target last : String} {cells : List Address}

theorem isNested_iff {address : Address} (h : table.contentAt address = some target) :
    isNested table address = true ↔ isBare target = false := by
  simp [isNested, h]

namespace Path

theorem append {more : List Address} {middle : String} (first : Path table raw cells middle)
    (second : Path table middle more last) : Path table raw (cells ++ more) last := by
  induction first with
  | nil => exact second
  | cons hReference hTarget _ ih => exact .cons hReference hTarget (ih second)

/-- A path can be parted after any of its cells. -/
theorem exists_of_append {front back : List Address}
    (h : Path table raw (front ++ back) last) :
    ∃ middle, Path table raw front middle ∧ Path table middle back last := by
  induction front generalizing raw with
  | nil => exact ⟨raw, .nil raw, h⟩
  | cons address front ih =>
      cases h with
      | cons hReference hTarget hRest =>
          obtain ⟨middle, hFront, hBack⟩ := ih hRest
          exact ⟨middle, .cons hReference hTarget hFront, hBack⟩

theorem contentAt_last {address : Address} (h : Path table raw (cells ++ [address]) last) :
    table.contentAt address = some last := by
  obtain ⟨middle, -, hLast⟩ := h.exists_of_append
  cases hLast with
  | cons _ hTarget hRest =>
      cases hRest
      exact hTarget

/-- No path leads on from a number by itself. -/
theorem eq_nil_of_isBare (h : Path table raw cells last) (hBare : isBare raw = true) :
    cells = [] := by
  cases h with
  | nil => rfl
  | cons hReference => simp [references_of_isBare hBare] at hReference

theorem contentAt_mem {address : Address} (h : Path table raw cells last)
    (hMem : address ∈ cells) : ∃ content, table.contentAt address = some content := by
  induction h with
  | nil => cases hMem
  | cons _ hTarget _ ih =>
      cases hMem with
      | head => exact ⟨_, hTarget⟩
      | tail _ hMem => exact ih hMem

/-- A path that comes to no cell twice visits as many cells as there are, at most. -/
theorem length_le (h : Path table raw cells last) (hNodup : cells.Nodup) :
    cells.length ≤ table.cellCount := by
  have hSubset : cells ⊆ table.addresses := by
    intro address hMem
    obtain ⟨content, hContent⟩ := h.contentAt_mem hMem
    exact Table.mem_addresses hContent
  rw [← table.length_addresses]
  exact (List.subperm_of_subset hNodup hSubset).length_le

end Path

namespace PassesThrough

theorem zero (table : Table) (raw : String) : PassesThrough table raw 0 :=
  ⟨[], raw, .nil raw, Nat.zero_le _⟩

/-- The first cell on the way is one whose content is evaluated, since no path leads on from
any other. -/
theorem succ_iff {count : Nat} :
    PassesThrough table raw (count + 1) ↔
      ∃ r ∈ references raw, ∃ target, table.contentAt r.address = some target ∧
        isBare target = false ∧ PassesThrough table target count := by
  constructor
  · intro h
    obtain ⟨cells, last, hPath, hCount⟩ := h
    cases hPath with
    | nil => simp at hCount
    | @cons raw target last r cells hReference hTarget hRest =>
        refine ⟨r, hReference, target, hTarget, ?_⟩
        cases hBare : isBare target with
        | false =>
            rw [List.countP_cons_of_pos ((isNested_iff hTarget).mpr hBare)] at hCount
            exact ⟨rfl, cells, last, hRest, by omega⟩
        | true =>
            have hNested : ¬isNested table r.address = true := by
              rw [isNested_iff hTarget, hBare]
              decide
            rw [List.countP_cons_of_neg hNested, hRest.eq_nil_of_isBare hBare] at hCount
            simp at hCount
  · intro h
    obtain ⟨r, hReference, target, hTarget, hBare, cells, last, hRest, hCount⟩ := h
    refine ⟨r.address :: cells, last, .cons hReference hTarget hRest, ?_⟩
    rw [List.countP_cons_of_pos ((isNested_iff hTarget).mpr hBare)]
    omega

theorem of_path {count : Nat} (hPath : Path table raw cells target)
    (h : PassesThrough table target count) : PassesThrough table raw count := by
  obtain ⟨more, last, hMore, hCount⟩ := h
  refine ⟨cells ++ more, last, hPath.append hMore, ?_⟩
  rw [List.countP_append]
  omega

end PassesThrough

/-- A path that comes back to the content it leads from can be gone any number of times. -/
theorem passesThrough_of_loop {address : Address}
    (hLoop : Path table raw (cells ++ [address]) raw) (count : Nat) :
    PassesThrough table raw count := by
  have hNested : isNested table address = true := by
    rw [isNested_iff hLoop.contentAt_last, Bool.eq_false_iff]
    intro hBare
    simpa using hLoop.eq_nil_of_isBare hBare
  induction count with
  | zero => exact .zero table raw
  | succ count ih =>
      obtain ⟨more, last, hMore, hCount⟩ := ih
      refine ⟨cells ++ [address] ++ more, last, hLoop.append hMore, ?_⟩
      rw [List.countP_append, List.countP_append, List.countP_singleton, if_pos hNested]
      omega

/-- A cycle that is reached can be gone round until as many cells are passed as are wanted. -/
theorem ReachesCycle.passesThrough (h : ReachesCycle table raw) (count : Nat) :
    PassesThrough table raw count := by
  obtain ⟨cells, last, hPath, hTwice⟩ := h
  induction hPath with
  | nil => simp at hTwice
  | @cons raw target last r cells hReference hTarget hRest ih =>
      have hStep : Path table raw [r.address] target := .cons hReference hTarget (.nil target)
      by_cases hMem : r.address ∈ cells
      · -- The path comes to its first cell again, with the same content as before.
        obtain ⟨front, back, rfl⟩ := List.append_of_mem hMem
        rw [← List.singleton_append, ← List.append_assoc] at hRest
        obtain ⟨middle, hLoop, -⟩ := hRest.exists_of_append
        have hSame : middle = target := by
          rw [← Option.some_inj, ← hLoop.contentAt_last, hTarget]
        subst hSame
        exact (passesThrough_of_loop hLoop count).of_path hStep
      · have hRestTwice : ¬cells.Nodup := fun hNodup => hTwice (List.nodup_cons.mpr ⟨hMem, hNodup⟩)
        exact (ih hRestTwice).of_path hStep

/-- More passages than the table has cells need a cycle. -/
theorem PassesThrough.reachesCycle (h : PassesThrough table raw (table.cellCount + 1)) :
    ReachesCycle table raw := by
  obtain ⟨cells, last, hPath, hCount⟩ := h
  refine ⟨cells, last, hPath, fun hNodup => ?_⟩
  have hLength := hPath.length_le hNodup
  have hCells := List.countP_le_length (p := isNested table) (l := cells)
  omega

/-- More passages than the table has cells are as many as wanted. -/
theorem PassesThrough.unbounded (h : PassesThrough table raw (table.cellCount + 1))
    (count : Nat) : PassesThrough table raw count :=
  h.reachesCycle.passesThrough count

end Evaluation

end PlainSheet
