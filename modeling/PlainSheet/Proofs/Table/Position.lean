import PlainSheet.Proofs.Address.Saturation
import PlainSheet.Proofs.Evaluation.Paths

/-! References without any bound on rows and columns. In a table that stays below the largest
index no cell is at a saturated position, so a reference leads to a cell exactly if there is
one at the position that it names. -/

namespace PlainSheet

/-- The position that a reference names when nothing bounds rows and columns. -/
def Reference.position (r : Reference) : Address where
  row := Nat.ofDigitChars 10 r.digits 0
  column := r.letters.foldl (fun column c => column * 26 + (c.toNat - 'A'.toNat + 1)) 0

theorem CellTree.address_eq_saturate (tree : CellTree) :
    tree.reference.address = ⟨Address.saturate tree.reference.position.row,
      Address.saturate tree.reference.position.column⟩ :=
  tree.reference_address

theorem Address.eq_of_saturate_lt {index : Nat} (h : saturate index < maxIndex) :
    saturate index = index := by
  unfold saturate at h ⊢
  omega

theorem CallTree.infix_chars {tree : CallTree} {operand : OperandTree}
    (h : operand ∈ tree.operands) : operand.chars <:+: tree.chars := by
  have hArguments : operand.chars <:+: tree.arguments := by
    rcases List.mem_cons.mp h with rfl | hMem
    · exact (List.prefix_append _ _).isInfix
    · obtain ⟨further, hFurther, rfl⟩ := List.mem_map.mp hMem
      have hFlatten : further.chars <:+: tree.further.flatMap FurtherTree.chars :=
        List.infix_of_mem_flatten (List.mem_map_of_mem hFurther)
      exact (List.suffix_append _ _).isInfix.trans
        (hFlatten.trans (List.suffix_append _ _).isInfix)
  have hCall : tree.arguments <:+: tree.chars :=
    ⟨tree.name.val ++ ['('], [')'], by simp [chars]⟩
  exact hArguments.trans hCall

/-- The references of a content are cells of the grammar, which are written in it. -/
theorem Evaluation.exists_tree_of_mem_references {raw : String} {r : Reference}
    (h : r ∈ references raw) :
    ∃ tree : CellTree, tree.reference = r ∧ r.chars <:+: raw.toList := by
  unfold references at h
  split at h
  next => cases h
  next other hContent =>
    obtain ⟨tree, hRaw, rfl⟩ := Content.ofString_eq_reference_iff.mp hContent
    rw [List.mem_singleton] at h
    subst h
    rw [hRaw]
    exact ⟨tree, rfl, (List.suffix_cons _ _).isInfix⟩
  next f hContent =>
    obtain ⟨call, hRaw, -, hOperands⟩ := Content.ofString_eq_formula_iff.mp hContent
    obtain ⟨cell, hCells, hReference⟩ := List.mem_filterMap.mp h
    rw [operandReference?_eq_some_iff] at hReference
    subst hReference
    rw [← hOperands] at hCells
    obtain ⟨operand, hMem, hCell⟩ := List.mem_map.mp hCells
    cases operand with
    | number number => cases hCell
    | cell tree =>
        cases hCell
        rw [hRaw]
        exact ⟨tree, rfl, (CallTree.infix_chars hMem).trans (List.suffix_cons _ _).isInfix⟩
  next => cases h

namespace Table

/-- No row and no column has the largest index, which stands for all larger ones. -/
structure BelowMaxIndex (table : Table) : Prop where
  rows : table.rows.length < Address.maxIndex
  cells : ∀ cells ∈ table.rows, cells.length < Address.maxIndex

namespace BelowMaxIndex

variable {table : Table} {address : Address} {content : String}

theorem lt_of_contentAt (h : table.BelowMaxIndex)
    (hContent : table.contentAt address = some content) :
    address.row < Address.maxIndex ∧ address.column < Address.maxIndex := by
  obtain ⟨row, column, cells, rfl, hCells, hCell⟩ := contentAt_eq_some_iff.mp hContent
  obtain ⟨hRow, hTaken⟩ := List.getElem?_eq_some_iff.mp hCells
  obtain ⟨hColumn, -⟩ := List.getElem?_eq_some_iff.mp hCell
  have hRows := h.rows
  have hColumns := h.cells cells (hTaken ▸ List.getElem_mem hRow)
  dsimp only
  omega

/-- Saturation neither hides a cell nor leads to another one. -/
theorem contentAt_saturate (h : table.BelowMaxIndex) (address : Address) :
    table.contentAt ⟨Address.saturate address.row, Address.saturate address.column⟩ =
      table.contentAt address := by
  apply Option.ext
  intro content
  constructor
  · intro hContent
    obtain ⟨hRow, hColumn⟩ := h.lt_of_contentAt hContent
    rwa [Address.eq_of_saturate_lt hRow, Address.eq_of_saturate_lt hColumn] at hContent
  · intro hContent
    obtain ⟨hRow, hColumn⟩ := h.lt_of_contentAt hContent
    rwa [Address.saturate_of_le (Nat.le_of_lt hRow), Address.saturate_of_le (Nat.le_of_lt hColumn)]

end BelowMaxIndex

end Table

end PlainSheet
