import PlainSheet.Proofs.Table.Token

/-! Lines by their separators. A line is made of tokens with a tab or a run of two or more spaces
between any two, in one way only, and these are the tokens that it is cut into. -/

namespace PlainSheet.Table

/-- A line is these tokens, with a separator between any two. Nothing in a token is a separator,
and a run of spaces is as long as there are spaces: the token before it does not end with one,
and what follows does not start with one. -/
inductive Parted : List Char → List (List Char) → Prop where
  | last {token : List Char} : IsToken token → Parted token [token]
  | tab {token line : List Char} {tokens : List (List Char)} :
      IsToken token → Parted line tokens → Parted (token ++ '\t' :: line) (token :: tokens)
  | spaces {token line : List Char} {tokens : List (List Char)} {count : Nat} :
      IsToken token → token.getLast? ≠ some ' ' → 2 ≤ count → line.head? ≠ some ' ' →
        Parted line tokens → Parted (token ++ (List.replicate count ' ' ++ line)) (token :: tokens)

/-- What a line is cut into so far. -/
def lineCut (line : List Char) : Cut := line.foldr Cut.extend (.token [] [])

theorem lineTokens_eq (line : List Char) : lineTokens line = (lineCut line).tokens := rfl

theorem lineCut_append_tab {token : List Char} (hToken : IsToken token) (line : List Char) :
    lineCut (token ++ '\t' :: line) = .token token (lineTokens line) := by
  have hTab : ∀ cut : Cut, cut.extend '\t' = .token [] cut.tokens := by
    intro cut
    cases cut <;> rfl
  rw [lineCut, List.foldr_append, List.foldr_cons, hTab, foldr_extend_token hToken]
  rfl

/-- Where a line does not start with a space, it is cut inside a token that does not either. -/
theorem lineCut_of_head {line : List Char} (hHead : line.head? ≠ some ' ') :
    ∃ current right, lineCut line = .token current right ∧ current.head? ≠ some ' ' := by
  cases line with
  | nil => exact ⟨[], [], rfl, by simp⟩
  | cons c line =>
      have hSpace : c ≠ ' ' := by simpa using hHead
      rcases (lineCut line).extend_cases c with ⟨-, hExtend⟩ | ⟨hc, -⟩ | ⟨hc, -⟩ |
        ⟨-, current, right, -, hExtend, -⟩
      · exact ⟨[], _, hExtend, by simp⟩
      · exact absurd hc hSpace
      · exact absurd hc hSpace
      · exact ⟨c :: current, right, hExtend, by simpa using hSpace⟩

theorem lineCut_spaces {line : List Char} (hHead : line.head? ≠ some ' ') {count : Nat}
    (hCount : 2 ≤ count) :
    lineCut (List.replicate count ' ' ++ line) = .gap (lineTokens line) := by
  obtain ⟨current, right, hCut, hCurrent⟩ := lineCut_of_head hHead
  obtain ⟨more, rfl⟩ := Nat.exists_eq_add_of_le' hCount
  induction more with
  | zero =>
      have hFirst : Cut.extend ' ' (.token current right) = .token (' ' :: current) right := by
        cases current with
        | nil => rfl
        | cons d rest =>
            have hd : d ≠ ' ' := by simpa using hCurrent
            simp [Cut.extend, hd]
      show ((lineCut line).extend ' ').extend ' ' = .gap (lineTokens line)
      rw [lineTokens_eq, hCut, hFirst]
      rfl
  | succ more ih =>
      show (lineCut (List.replicate (more + 2) ' ' ++ line)).extend ' ' = _
      rw [ih (by omega)]
      rfl

/-- A token left of a run of spaces is cut off whole when it does not end with a space. -/
theorem foldr_extend_gap {token : List Char} (hToken : IsToken token)
    (hEnd : token.getLast? ≠ some ' ') (right : List (List Char)) :
    (token.foldr Cut.extend (.gap right)).tokens = token :: right := by
  rcases List.eq_nil_or_concat token with rfl | ⟨front, c, rfl⟩
  · rfl
  · rw [List.concat_eq_append] at *
    have hSpace : c ≠ ' ' := by simpa using hEnd
    have hTab : c ≠ '\t' := by
      rintro rfl
      exact hToken.noTab (by simp)
    have hGap : Cut.extend c (.gap right) = Cut.extend c (.token [] right) := by
      simp [Cut.extend, hSpace, hTab]
    have hWhole := foldr_extend_token hToken right
    rw [List.foldr_append, List.foldr_cons, List.foldr_nil] at hWhole ⊢
    rw [hGap, hWhole]
    rfl

namespace Parted

variable {line : List Char} {tokens : List (List Char)}

theorem lineTokens_eq (h : Parted line tokens) : lineTokens line = tokens := by
  induction h with
  | last hToken =>
      rw [Table.lineTokens_eq, lineCut, foldr_extend_token hToken]
      rfl
  | tab hToken _ ih =>
      rw [Table.lineTokens_eq, lineCut_append_tab hToken, ih]
      rfl
  | spaces hToken hEnd hCount hHead _ ih =>
      have hSpaces := lineCut_spaces hHead hCount
      rw [lineCut] at hSpaces
      rw [lineTokens, List.foldr_append, hSpaces, foldr_extend_gap hToken hEnd, ih]

theorem not_mem_newline (h : Parted line tokens) : '\n' ∉ line := by
  induction h with
  | last hToken => exact hToken.noNewline
  | tab hToken _ ih => simp [hToken.noNewline, ih]
  | spaces hToken _ _ _ _ ih => simp [hToken.noNewline, ih]

/-- A line that starts with a space starts with a run of them or with a token. -/
theorem space_cases (h : Parted (' ' :: line) tokens) :
    (∃ count after others, 2 ≤ count ∧ ' ' :: line = List.replicate count ' ' ++ after ∧
      after.head? ≠ some ' ' ∧ Parted after others) ∨
    line.head? ≠ some ' ' ∧ ∃ others, Parted line others := by
  generalize hLine : ' ' :: line = whole at h
  cases h with
  | last hToken =>
      subst hLine
      refine .inr ⟨fun hHead => ?_, _, .last hToken.tail⟩
      exact hToken.noSpaces (spaces_infix_cons.mpr (.inl ⟨rfl, hHead⟩))
  | @tab token rest others hToken hRest =>
      cases token with
      | nil => cases hLine
      | cons c token =>
          cases hLine
          refine .inr ⟨fun hHead => ?_, _, .tab hToken.tail hRest⟩
          have hSecond : token.head? = some ' ' := by
            cases token with
            | nil => cases hHead
            | cons d token => exact hHead
          exact hToken.noSpaces (spaces_infix_cons.mpr (.inl ⟨rfl, hSecond⟩))
  | @spaces token after others count hToken hEnd hCount hAfter hRest =>
      cases token with
      | nil => exact .inl ⟨count, after, others, hCount, rfl, hAfter, hRest⟩
      | cons c token =>
          cases hLine
          cases token with
          | nil => exact absurd rfl hEnd
          | cons d token =>
              refine .inr ⟨fun hHead => ?_, _, .spaces hToken.tail ?_ hCount hAfter hRest⟩
              · exact hToken.noSpaces (spaces_infix_cons.mpr (.inl ⟨rfl, hHead⟩))
              · simpa using hEnd

/-- A character left of a line that is parted is a tab, opens a run of spaces or goes on with
one, or it goes on with the first token. -/
theorem exists_cons (h : Parted line tokens) {c : Char} (hNewline : c ≠ '\n') :
    ∃ others, Parted (c :: line) others := by
  by_cases hTab : c = '\t'
  · subst hTab
    exact ⟨_, .tab isToken_nil h⟩
  · by_cases hSpaces : c = ' ' ∧ line.head? = some ' '
    · obtain ⟨rfl, hHead⟩ := hSpaces
      obtain ⟨rest, rfl⟩ := List.head?_eq_some_iff.mp hHead
      rcases h.space_cases with ⟨count, after, others, hCount, hLine, hAfter, hRest⟩ |
        ⟨hRest, others, hOthers⟩
      · rw [hLine]
        have hMore : 2 ≤ count + 1 := by omega
        exact ⟨_, .spaces isToken_nil (by simp) hMore hAfter hRest⟩
      · exact ⟨_, .spaces isToken_nil (by simp) (Nat.le_refl 2) hRest hOthers⟩
    · have hFirst : ∀ {token rest : List Char}, line = token ++ rest →
          ¬(c = ' ' ∧ token.head? = some ' ') := by
        rintro token rest rfl ⟨hc, hHead⟩
        exact hSpaces ⟨hc, by rw [List.head?_append, hHead, Option.some_or]⟩
      cases h with
      | last hToken => exact ⟨_, .last (hToken.cons hTab hNewline hSpaces)⟩
      | tab hToken hRest => exact ⟨_, .tab (hToken.cons hTab hNewline (hFirst rfl)) hRest⟩
      | @spaces token after others count hToken hEnd hCount hAfter hRest =>
          refine ⟨_, .spaces (hToken.cons hTab hNewline (hFirst rfl)) ?_ hCount hAfter hRest⟩
          cases token with
          | nil =>
              intro hc
              refine hSpaces ⟨by simpa using hc, ?_⟩
              obtain ⟨more, rfl⟩ := Nat.exists_eq_add_of_le' hCount
              rfl
          | cons d token => simpa using hEnd

end Parted

theorem exists_parted {line : List Char} (h : '\n' ∉ line) : ∃ tokens, Parted line tokens := by
  induction line with
  | nil => exact ⟨_, .last isToken_nil⟩
  | cons c line ih =>
      rw [List.mem_cons, not_or] at h
      obtain ⟨tokens, hTokens⟩ := ih h.2
      exact hTokens.exists_cons (Ne.symm h.1)

/-- The tokens that a line is cut into are the ones between its separators. -/
theorem parted_iff {line : List Char} {tokens : List (List Char)} :
    Parted line tokens ↔ '\n' ∉ line ∧ lineTokens line = tokens := by
  constructor
  · intro h
    exact ⟨h.not_mem_newline, h.lineTokens_eq⟩
  · rintro ⟨hNewline, rfl⟩
    obtain ⟨tokens, hTokens⟩ := exists_parted hNewline
    rw [hTokens.lineTokens_eq]
    exact hTokens

end PlainSheet.Table
