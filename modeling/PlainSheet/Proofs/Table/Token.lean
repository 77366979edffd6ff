import PlainSheet.Table.Reader

/-! Cutting a text into tokens. No token holds anything at which a text is cut, tokens are
read back from where they are joined, and a text that starts or ends inside a token starts
the first or ends the last one. -/

namespace PlainSheet.Table

/-- Nothing in a token ends it: no tab, no newline and no two adjacent spaces. -/
structure IsToken (token : List Char) : Prop where
  noTab : '\t' ∉ token
  noNewline : '\n' ∉ token
  noSpaces : ¬[' ', ' '] <:+: token

theorem isToken_nil : IsToken [] := ⟨by simp, by simp, by simp⟩

theorem spaces_infix_cons {c : Char} {token : List Char} :
    [' ', ' '] <:+: c :: token ↔ c = ' ' ∧ token.head? = some ' ' ∨ [' ', ' '] <:+: token := by
  rw [List.infix_cons_iff, List.cons_prefix_cons]
  cases token with
  | nil => simp
  | cons d token => simp [List.cons_prefix_cons, eq_comm]

theorem IsToken.tail {c : Char} {token : List Char} (h : IsToken (c :: token)) :
    IsToken token where
  noTab hTab := h.noTab (List.mem_cons_of_mem c hTab)
  noNewline hNewline := h.noNewline (List.mem_cons_of_mem c hNewline)
  noSpaces hSpaces := h.noSpaces (spaces_infix_cons.mpr (.inr hSpaces))

theorem IsToken.cons {c : Char} {token : List Char} (h : IsToken token) (hTab : c ≠ '\t')
    (hNewline : c ≠ '\n') (hSpaces : ¬(c = ' ' ∧ token.head? = some ' ')) :
    IsToken (c :: token) where
  noTab hMem := (List.mem_cons.mp hMem).elim (fun hEq => hTab hEq.symm) h.noTab
  noNewline hMem := (List.mem_cons.mp hMem).elim (fun hEq => hNewline hEq.symm) h.noNewline
  noSpaces hInfix := (spaces_infix_cons.mp hInfix).elim hSpaces h.noSpaces

/-- All that taking in a character can do: a tab parts two tokens, a second space opens a
run of spaces, a further one is lost in it, and any other character begins the first token. -/
theorem Cut.extend_cases (c : Char) (cut : Cut) :
    (c = '\t' ∧ cut.extend c = .token [] cut.tokens) ∨
      (c = ' ' ∧ ∃ current right,
        cut = .token (' ' :: current) right ∧ cut.extend c = .gap (current :: right)) ∨
      (c = ' ' ∧ ∃ right, cut = .gap right ∧ cut.extend c = .gap right) ∨
      (c ≠ '\t' ∧ ∃ current right, cut.tokens = current :: right ∧
        cut.extend c = .token (c :: current) right ∧ ¬(c = ' ' ∧ current.head? = some ' ')) := by
  by_cases hTab : c = '\t'
  · cases cut <;> simp [hTab, extend, tokens]
  · by_cases hSpace : c = ' '
    · subst hSpace
      cases cut with
      | gap right => exact .inr (.inr (.inl ⟨rfl, right, rfl, by simp [extend]⟩))
      | token current right =>
          by_cases hHead : current.head? = some ' '
          · obtain ⟨rest, rfl⟩ := List.head?_eq_some_iff.mp hHead
            exact .inr (.inl ⟨rfl, rest, right, rfl, by simp [extend]⟩)
          · refine .inr (.inr (.inr ⟨hTab, current, right, rfl, ?_, by simp [hHead]⟩))
            cases current with
            | nil => simp [extend]
            | cons d rest =>
                have hd : d ≠ ' ' := by simpa using hHead
                simp [extend, hd]
    · refine .inr (.inr (.inr ⟨hTab, ?_⟩))
      cases cut with
      | token current right => exact ⟨current, right, rfl, by simp [extend, hTab, hSpace]⟩
      | gap right => exact ⟨[], right, rfl, by simp [extend, hTab, hSpace]⟩

theorem Cut.isToken_extend {c : Char} {cut : Cut} (hNewline : c ≠ '\n')
    (hTokens : ∀ token ∈ cut.tokens, IsToken token) :
    ∀ token ∈ (cut.extend c).tokens, IsToken token := by
  rcases cut.extend_cases c with ⟨-, hExtend⟩ | ⟨-, current, right, rfl, hExtend⟩ |
    ⟨-, right, rfl, hExtend⟩ | ⟨hTab, current, right, hCut, hExtend, hSpaces⟩
  · simpa [hExtend, tokens, isToken_nil] using hTokens
  · simp only [tokens, List.forall_mem_cons] at hTokens
    simpa [hExtend, tokens, isToken_nil] using ⟨hTokens.1.tail, hTokens.2⟩
  · simpa [hExtend] using hTokens
  · simp only [hCut, List.forall_mem_cons] at hTokens
    simpa [hExtend, tokens] using ⟨hTokens.1.cons hTab hNewline hSpaces, hTokens.2⟩

theorem TextCut.isToken_extend (c : Char) {cut : TextCut}
    (hTokens : ∀ line ∈ cut.lines, ∀ token ∈ line, IsToken token) :
    ∀ line ∈ (cut.extend c).lines, ∀ token ∈ line, IsToken token := by
  simp only [lines, List.forall_mem_cons] at hTokens
  by_cases hNewline : c = '\n'
  · simpa [extend, hNewline, lines, Cut.tokens, isToken_nil] using hTokens
  · simpa [extend, hNewline, lines] using ⟨Cut.isToken_extend hNewline hTokens.1, hTokens.2⟩

/-- Whatever a text is cut into, nothing in the pieces ends a token. -/
theorem isToken_of_mem_textTokens {text : List Char} :
    ∀ line ∈ textTokens text, ∀ token ∈ line, IsToken token := by
  unfold textTokens
  induction text with
  | nil => simp [TextCut.lines, Cut.tokens, isToken_nil]
  | cons c text ih => exact TextCut.isToken_extend c ih

/-- A token is cut off whole to the left of others. -/
theorem foldr_extend_token {token : List Char} (hToken : IsToken token)
    (right : List (List Char)) :
    token.foldr Cut.extend (.token [] right) = .token token right := by
  induction token with
  | nil => rfl
  | cons c token ih =>
      rw [List.foldr_cons, ih hToken.tail]
      have hSpaces : ¬(c = ' ' ∧ token.head? = some ' ') :=
        fun h => hToken.noSpaces (spaces_infix_cons.mpr (.inl h))
      rcases Cut.extend_cases c (.token token right) with ⟨rfl, -⟩ |
        ⟨hc, current, right', hCut, -⟩ | ⟨-, right', hCut, -⟩ |
        ⟨-, current, right', hCut, hExtend, -⟩
      · exact absurd (List.mem_cons_self ..) hToken.noTab
      · cases hCut
        exact absurd ⟨hc, rfl⟩ hSpaces
      · cases hCut
      · cases hCut
        exact hExtend

/-- The tokens of a line are read back from where they are joined with tabs. -/
theorem lineTokens_intercalate {tokens : List (List Char)} (hSome : tokens ≠ [])
    (hTokens : ∀ token ∈ tokens, IsToken token) :
    lineTokens (['\t'].intercalate tokens) = tokens := by
  induction tokens with
  | nil => exact absurd rfl hSome
  | cons token tokens ih =>
      rw [List.forall_mem_cons] at hTokens
      cases tokens with
      | nil => simp [lineTokens, foldr_extend_token hTokens.1, Cut.tokens]
      | cons second tokens =>
          have hTail := ih (by simp) hTokens.2
          have hTab : ∀ cut : Cut, cut.extend '\t' = .token [] cut.tokens := by
            intro cut
            cases cut <;> rfl
          rw [lineTokens] at hTail
          rw [List.intercalate_cons_cons, lineTokens, List.append_assoc, List.foldr_append,
            List.foldr_append, List.foldr_cons, List.foldr_nil, hTab, hTail,
            foldr_extend_token hTokens.1, Cut.tokens]

/-- A character that stands in no text and is not the separator stands in no joined text. -/
theorem not_mem_intercalate {c d : Char} (hc : c ≠ d) {texts : List (List Char)}
    (hTexts : ∀ text ∈ texts, c ∉ text) : c ∉ [d].intercalate texts := by
  induction texts with
  | nil => simp
  | cons text texts ih =>
      rw [List.forall_mem_cons] at hTexts
      cases texts with
      | nil => simpa using hTexts.1
      | cons second texts =>
          rw [List.intercalate_cons_cons]
          simp [hc, hTexts.1, ih hTexts.2]

/-- The tokens of a text are read back from where they are joined with tabs and newlines. -/
theorem textTokens_intercalate {lines : List (List (List Char))} (hSome : lines ≠ [])
    (hLines : ∀ line ∈ lines, line ≠ [])
    (hTokens : ∀ line ∈ lines, ∀ token ∈ line, IsToken token) :
    textTokens (['\n'].intercalate (lines.map ['\t'].intercalate)) = lines := by
  have hNewline : ∀ text ∈ lines.map ['\t'].intercalate, '\n' ∉ text := by
    intro text hText
    obtain ⟨line, hLine, rfl⟩ := List.mem_map.mp hText
    apply not_mem_intercalate (by decide)
    intro token hToken
    exact (hTokens line hLine token hToken).noNewline
  have hEach : ∀ line ∈ lines, lineTokens (['\t'].intercalate line) = line :=
    fun line hLine => lineTokens_intercalate (hLines line hLine) (hTokens line hLine)
  rw [textTokens_eq, List.splitOn_intercalate '\n' hNewline (by simpa using hSome), List.map_map]
  exact (List.map_congr_left hEach).trans (List.map_id lines)

/-- A character at which no text is cut starts the first token when it starts the text. -/
theorem textTokens_cons {c : Char} (text : List Char) (hTab : c ≠ '\t') (hNewline : c ≠ '\n')
    (hSpace : c ≠ ' ') :
    ∃ token line lines, textTokens (c :: text) = ((c :: token) :: line) :: lines := by
  rw [textTokens, List.foldr_cons, TextCut.extend, if_neg hNewline]
  rcases Cut.extend_cases c (text.foldr TextCut.extend ⟨.token [] [], []⟩).line with
    ⟨hc, -⟩ | ⟨hc, -⟩ | ⟨hc, -⟩ | ⟨-, current, right, -, hExtend, -⟩
  · exact absurd hc hTab
  · exact absurd hc hSpace
  · exact absurd hc hSpace
  · simp only [TextCut.lines, hExtend, Cut.tokens]
    exact ⟨_, _, _, rfl⟩

/-- The last of some tokens ends with a character. -/
def EndsWith (c : Char) (tokens : List (List Char)) : Prop :=
  ∃ token ∈ tokens.getLast?, token.getLast? = some c

namespace EndsWith

variable {c : Char} {token : List Char} {tokens : List (List Char)}

theorem append (first : List (List Char)) (h : EndsWith c tokens) :
    EndsWith c (first ++ tokens) := by
  obtain ⟨token, hToken, hLast⟩ := h
  refine ⟨token, ?_, hLast⟩
  rw [Option.mem_def] at hToken
  simp [List.getLast?_append, hToken]

theorem cons (h : EndsWith c tokens) : EndsWith c (token :: tokens) := h.append [token]

/-- Only the end of the first token matters, and only when it is the last. -/
theorem modify_head {other : List Char} (h : EndsWith c (token :: tokens))
    (hHead : token.getLast? = some c → other.getLast? = some c) :
    EndsWith c (other :: tokens) := by
  cases tokens with
  | nil => simpa [EndsWith] using hHead (by simpa [EndsWith] using h)
  | cons second tokens => simpa [EndsWith] using h

end EndsWith

theorem Cut.endsWith_extend {c : Char} (hSpace : c ≠ ' ') (d : Char) {cut : Cut}
    (h : EndsWith c cut.tokens) : EndsWith c (cut.extend d).tokens := by
  rcases cut.extend_cases d with ⟨-, hExtend⟩ | ⟨-, current, right, rfl, hExtend⟩ |
    ⟨-, right, rfl, hExtend⟩ | ⟨-, current, right, hCut, hExtend, -⟩
  · rw [hExtend]
    exact h.cons
  · rw [hExtend]
    apply EndsWith.cons
    refine EndsWith.modify_head h fun hLast => ?_
    cases current with
    | nil => exact absurd (by simpa using hLast) (Ne.symm hSpace)
    | cons e rest => simpa using hLast
  · rw [hExtend]
    exact h
  · rw [hExtend]
    rw [hCut] at h
    refine EndsWith.modify_head h fun hLast => ?_
    cases current with
    | nil => cases hLast
    | cons e rest => simpa using hLast

/-- A character at which no text is cut ends the last token when it ends the text. -/
theorem textTokens_concat {c : Char} (text : List Char) (hTab : c ≠ '\t') (hNewline : c ≠ '\n')
    (hSpace : c ≠ ' ') : EndsWith c (textTokens (text ++ [c])).flatten := by
  -- Either the first line from the right is still open, or all it holds is settled below.
  have hEnds : ∀ cut, cut = (text ++ [c]).foldr TextCut.extend ⟨.token [] [], []⟩ →
      cut.below = [] ∧ EndsWith c cut.line.tokens ∨ EndsWith c cut.below.flatten := by
    induction text with
    | nil =>
        intro cut hCut
        left
        simp [hCut, TextCut.extend, hNewline, Cut.extend, hTab, hSpace, Cut.tokens, EndsWith]
    | cons d text ih =>
        intro cut hCut
        rw [List.cons_append, List.foldr_cons, TextCut.extend] at hCut
        have hRest := ih _ rfl
        split at hCut
        · subst hCut
          right
          rcases hRest with ⟨hBelow, hLine⟩ | hBelow
          · rw [hBelow, List.flatten_cons, List.flatten_nil, List.append_nil]
            exact hLine
          · exact hBelow.append _
        · subst hCut
          exact hRest.imp (fun h => ⟨h.1, Cut.endsWith_extend hSpace d h.2⟩) id
  rw [textTokens, TextCut.lines, List.flatten_cons]
  rcases hEnds _ rfl with ⟨hBelow, hLine⟩ | hBelow
  · rw [hBelow, List.flatten_nil, List.append_nil]
    exact hLine
  · exact hBelow.append _

end PlainSheet.Table
