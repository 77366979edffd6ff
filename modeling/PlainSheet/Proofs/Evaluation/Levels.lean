import PlainSheet.Proofs.Evaluation.Results

/-! How many levels a content needs. A content that needs some levels leads to one that needs
one level less, so the cells on the way all differ, and a content that does not show within
one level more than there are cells shows within no number of levels. -/

namespace PlainSheet.Evaluation

/-- A finding that settles what a content shows. -/
def SettledBy (table : Table) (raw : String) (finding : Finding) : Prop :=
  finding.Settles fun exceeded levels => shownWithin table exceeded levels raw

theorem Finding.Settles.exceeds_iff {finding : Finding} {levels : Nat}
    {shown : SheetError → Nat → Except SheetError String} (h : finding.Settles shown) :
    (∀ exceeded, shown exceeded levels = .error exceeded) ↔ levels < finding.levels := by
  constructor
  · intro hExceeds
    by_contra hEnough
    have hShows : ∀ exceeded, finding.shows = .error exceeded := by
      intro exceeded
      rw [← hExceeds exceeded, h exceeded levels, if_pos (by omega)]
    have hSame := (hShows (.chainTooLong 1)).symm.trans (hShows (.chainTooLong 0))
    cases hSame
  · intro hLevels exceeded
    rw [h exceeded levels, if_neg (by omega)]

variable {table : Table} {raw : String} {finding other : Finding}

theorem settledBy_or_exceeds (table : Table) (raw : String) (levels : Nat) :
    (∃ finding, SettledBy table raw finding ∧ finding.levels ≤ levels) ∨
      ∀ exceeded, shownWithin table exceeded levels raw = .error exceeded := by
  have hAnswers := find_answers levels raw (sound_empty table)
  cases hFind : find table levels raw ∅ with
  | none =>
      rw [hFind] at hAnswers
      exact .inr hAnswers
  | some answer =>
      obtain ⟨finding, known⟩ := answer
      rw [hFind] at hAnswers
      obtain ⟨hLevels, hSettles, -⟩ := hAnswers
      exact .inl ⟨finding, hSettles, hLevels⟩

theorem SettledBy.exceeds_iff (h : SettledBy table raw finding) {levels : Nat} :
    (∀ exceeded, shownWithin table exceeded levels raw = .error exceeded) ↔
      levels < finding.levels :=
  Finding.Settles.exceeds_iff h

/-- What settles a content fails for a reference to no cell only. -/
theorem SettledBy.exists_dangling (h : SettledBy table raw finding) {cause : SheetError}
    (hShows : finding.shows = .error cause) :
    ∃ r, Dangles table raw r ∧ cause = .missingCell r.text := by
  have hShown : ∀ exceeded,
      shownWithin table exceeded finding.levels raw = .error cause := by
    intro exceeded
    rw [← hShows]
    exact (h exceeded finding.levels).trans (if_pos (Nat.le_refl _))
  rcases exists_dangling_of_error (hShown (.chainTooLong 0)) with hCause | hDangling
  · rcases exists_dangling_of_error (hShown (.chainTooLong 1)) with hOther | hDangling
    · cases hCause.symm.trans hOther
    · exact hDangling
  · exact hDangling

theorem SettledBy.levels_unique (h : SettledBy table raw finding)
    (h' : SettledBy table raw other) : finding.levels = other.levels := by
  have hSame : ∀ levels, levels < finding.levels ↔ levels < other.levels :=
    fun levels => h.exceeds_iff.symm.trans h'.exceeds_iff
  have hLess := hSame finding.levels
  have hMore := hSame other.levels
  omega

/-- One more level changes what a content shows only if it is the last one needed. -/
theorem shownWithin_succ_of_ne {levels : Nat}
    (h : ∀ finding, SettledBy table raw finding → finding.levels ≠ levels + 1)
    (exceeded : SheetError) :
    shownWithin table exceeded (levels + 1) raw = shownWithin table exceeded levels raw := by
  rcases settledBy_or_exceeds table raw (levels + 1) with ⟨finding, hSettled, hLevels⟩ | hExceeds
  · have hLess := h finding hSettled
    have hShown : ∀ levels, shownWithin table exceeded levels raw =
        if finding.levels ≤ levels then finding.shows else .error exceeded := hSettled exceeded
    rw [hShown, hShown, if_pos hLevels, if_pos (by omega)]
  · rcases settledBy_or_exceeds table raw levels with ⟨finding, hSettled, hLevels⟩ | hBefore
    · rw [hSettled.exceeds_iff] at hExceeds
      omega
    · rw [hExceeds, hBefore]

/-- A content that needs more than one level refers to one that needs one level less. If all
that it refers to did with fewer levels or not at all, it would itself show the same with one
level less. -/
theorem SettledBy.exists_reference {levels : Nat} (h : SettledBy table raw finding)
    (hLevels : finding.levels = levels + 2) :
    ∃ r ∈ references raw, ∃ target, table.contentAt r.address = some target ∧
      ∃ inner, SettledBy table target inner ∧ inner.levels = levels + 1 := by
  by_contra hNone
  have hReferences : ∀ exceeded, ∀ r ∈ references raw,
      shownAt table (shownWithin table exceeded (levels + 1)) r =
        shownAt table (shownWithin table exceeded levels) r := by
    intro exceeded r hReference
    rcases reference_cases table r with hMissing | ⟨target, n, hTarget, hNumeral⟩ |
      ⟨target, hTarget, hNumeral⟩
    · rw [shownAt_of_none hMissing, shownAt_of_none hMissing]
    · rw [shownAt_of_bare hTarget hNumeral, shownAt_of_bare hTarget hNumeral]
    · rw [shownAt_of_nested hTarget hNumeral, shownAt_of_nested hTarget hNumeral]
      apply shownWithin_succ_of_ne
      intro inner hInner hSame
      exact hNone ⟨r, hReference, target, hTarget, inner, hInner, hSame⟩
  have hExceeds : ∀ exceeded, shownWithin table exceeded (levels + 1) raw = .error exceeded :=
    h.exceeds_iff.mpr (by omega)
  have hMore : ∀ exceeded, shownWithin table exceeded (levels + 2) raw = .error exceeded := by
    intro exceeded
    rw [← hExceeds exceeded]
    exact shown_congr (hReferences exceeded)
  rw [h.exceeds_iff] at hMore
  omega

/-- A content that needs more than one level starts a path through that many cells less one.
The cells need fewer and fewer levels, so no cell comes twice. -/
theorem SettledBy.exists_path {levels : Nat} (h : SettledBy table raw finding)
    (hLevels : finding.levels = levels + 1) :
    ∃ cells last, Path table raw cells last ∧ cells.length = levels ∧ cells.Nodup ∧
      ∀ address ∈ cells, ∃ content inner, table.contentAt address = some content ∧
        SettledBy table content inner ∧ inner.levels ≤ levels := by
  induction levels generalizing raw finding with
  | zero => exact ⟨[], raw, .nil raw, rfl, List.nodup_nil, by simp⟩
  | succ levels ih =>
      obtain ⟨r, hReference, target, hTarget, inner, hInner, hInnerLevels⟩ :=
        h.exists_reference hLevels
      obtain ⟨cells, last, hPath, hLength, hNodup, hFewer⟩ := ih hInner hInnerLevels
      refine ⟨r.address :: cells, last, .cons hReference hTarget hPath, by simp [hLength], ?_, ?_⟩
      · refine List.nodup_cons.mpr ⟨fun hMem => ?_, hNodup⟩
        obtain ⟨content, deeper, hContent, hDeeper, hDeeperLevels⟩ := hFewer _ hMem
        rw [hTarget, Option.some.injEq] at hContent
        subst hContent
        have hSame := hInner.levels_unique hDeeper
        omega
      · rw [List.forall_mem_cons]
        refine ⟨⟨target, inner, hTarget, hInner, by omega⟩, fun address hMem => ?_⟩
        obtain ⟨content, deeper, hContent, hDeeper, hDeeperLevels⟩ := hFewer address hMem
        exact ⟨content, deeper, hContent, hDeeper, by omega⟩

/-- No content needs more levels than one for itself and one for each cell. -/
theorem SettledBy.levels_le (h : SettledBy table raw finding) :
    finding.levels ≤ table.cellCount + 1 := by
  cases hLevels : finding.levels with
  | zero => omega
  | succ levels =>
      obtain ⟨cells, last, hPath, hLength, hNodup, -⟩ := h.exists_path hLevels
      have hCells := hPath.length_le hNodup
      omega

end PlainSheet.Evaluation
