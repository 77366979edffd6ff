import Mathlib.Data.List.TakeWhile
import PlainSheet.Text.Blank

/-! The two ends of a text: what trimming leaves there, and which of several texts the ends
come from when they are joined. -/

namespace PlainSheet.Text

variable {test : Char → Bool} {c : Char}

/-- The blank characters: space, tab, line feed, carriage return, vertical tab, form feed. -/
def blankChars : List Char := [' ', '\t', '\n', '\r', '\x0b', '\x0c']

/-- The blank characters and NUL. -/
def edgeChars : List Char := '\x00' :: blankChars

theorem isBlank_iff : isBlank c = true ↔ c ∈ blankChars := by
  simp [isBlank, blankChars, or_assoc]

theorem isEdge_iff : isEdge c = true ↔ c ∈ edgeChars := by
  rw [isEdge, Bool.or_eq_true, isBlank_iff, edgeChars, List.mem_cons, beq_iff_eq, or_comm]

theorem isEdge_eq_false_iff : isEdge c = false ↔ c ∉ edgeChars := by
  rw [← isEdge_iff, Bool.not_eq_true]

theorem not_mem_blankChars (h : c ∉ edgeChars) : c ∉ blankChars :=
  fun hBlank => h (List.mem_cons_of_mem _ hBlank)

theorem head?_dropWhile {text : List Char} (h : (text.dropWhile test).head? = some c) :
    test c = false := by
  have hHead := List.head?_dropWhile_not test text
  rwa [h] at hHead

theorem dropWhile_eq_self {text : List Char} (h : ∀ c ∈ text.head?, test c = false) :
    text.dropWhile test = text := by
  cases text with
  | nil => rfl
  | cons d text => simp [h d rfl]

/-- What is left does not begin with a character that satisfies the test. -/
theorem head?_trimBoth {text : List Char} (h : (trimBoth test text).head? = some c) :
    test c = false := by
  have hPrefix : trimBoth test text <+: text.dropWhile test := by
    have hSuffix : (text.dropWhile test).reverse.dropWhile test <:+ (text.dropWhile test).reverse :=
      List.dropWhile_suffix test
    rw [← List.reverse_prefix, List.reverse_reverse] at hSuffix
    exact hSuffix
  obtain ⟨back, hBack⟩ := hPrefix
  have hHead : (text.dropWhile test).head? = some c := by
    rw [← hBack, List.head?_append, h, Option.some_or]
  exact head?_dropWhile hHead

/-- What is left does not end with a character that satisfies the test. -/
theorem getLast?_trimBoth {text : List Char} (h : (trimBoth test text).getLast? = some c) :
    test c = false := by
  rw [trimBoth, List.getLast?_reverse] at h
  exact head?_dropWhile h

/-- A text is left as it is when the test fails at both of its ends. -/
theorem trimBoth_eq_self {text : List Char} (hHead : ∀ c ∈ text.head?, test c = false)
    (hLast : ∀ c ∈ text.getLast?, test c = false) : trimBoth test text = text := by
  rw [trimBoth, dropWhile_eq_self hHead, dropWhile_eq_self, List.reverse_reverse]
  rwa [List.head?_reverse]

/-- What is trimmed is not changed by further characters at either end that satisfy the test. -/
theorem trimBoth_append {before after : List Char} (text : List Char)
    (hBefore : ∀ c ∈ before, test c = true) (hAfter : ∀ c ∈ after, test c = true) :
    trimBoth test (before ++ text ++ after) = trimBoth test text := by
  have hBack : ∀ c ∈ after.reverse, test c = true := fun c hc => hAfter c (List.mem_reverse.mp hc)
  rw [trimBoth, List.append_assoc, List.dropWhile_append_of_pos hBefore, List.dropWhile_append]
  split
  next hNone =>
    rw [List.dropWhile_eq_nil_iff.mpr hAfter, trimBoth, List.isEmpty_iff.mp hNone]
  next => rw [List.reverse_append, List.dropWhile_append_of_pos hBack, trimBoth]

/-- What is trimmed off satisfies the test, character by character. -/
theorem exists_trimBoth_eq (test : Char → Bool) (text : List Char) :
    ∃ before after, text = before ++ trimBoth test text ++ after ∧
      (∀ c ∈ before, test c = true) ∧ ∀ c ∈ after, test c = true := by
  have hFront : text.takeWhile test ++ text.dropWhile test = text := List.takeWhile_append_dropWhile
  have hBack := List.takeWhile_append_dropWhile (p := test) (l := (text.dropWhile test).reverse)
  rw [← List.reverse_inj, List.reverse_reverse, List.reverse_append] at hBack
  refine ⟨text.takeWhile test, ((text.dropWhile test).reverse.takeWhile test).reverse, ?_, ?_, ?_⟩
  · rw [trimBoth, List.append_assoc, hBack, hFront]
  · exact fun c hc => List.all_eq_true.mp List.all_takeWhile c hc
  · exact fun c hc => List.all_eq_true.mp List.all_takeWhile c (List.mem_reverse.mp hc)

/-- Nothing is left exactly of the texts whose characters all satisfy the test. -/
theorem trimBoth_eq_nil_iff {text : List Char} :
    trimBoth test text = [] ↔ ∀ c ∈ text, test c = true := by
  constructor
  · intro h
    obtain ⟨before, after, hText, hBefore, hAfter⟩ := exists_trimBoth_eq test text
    rw [h, List.append_nil] at hText
    rw [hText]
    intro c hc
    exact (List.mem_append.mp hc).elim (hBefore c) (hAfter c)
  · intro h
    rw [trimBoth, List.dropWhile_eq_nil_iff.mpr h]
    rfl

/-- The second text is what the first one leaves when edge characters are taken off both of its
ends until none is left there. -/
def IsTrimmed (text core : List Char) : Prop :=
  ∃ before after, text = before ++ core ++ after ∧ (∀ c ∈ before, c ∈ edgeChars) ∧
    (∀ c ∈ after, c ∈ edgeChars) ∧ (∀ c ∈ core.head?, c ∉ edgeChars) ∧
    ∀ c ∈ core.getLast?, c ∉ edgeChars

/-- Trimming computes what is left of a text when no edge character remains at its ends. -/
theorem isTrimmed_iff {text core : List Char} :
    IsTrimmed text core ↔ core = trimBoth isEdge text := by
  constructor
  · intro h
    obtain ⟨before, after, rfl, hBefore, hAfter, hHead, hLast⟩ := h
    have hCore : trimBoth isEdge core = core :=
      trimBoth_eq_self (fun c hc => isEdge_eq_false_iff.mpr (hHead c hc))
        fun c hc => isEdge_eq_false_iff.mpr (hLast c hc)
    rw [trimBoth_append core (fun c hc => isEdge_iff.mpr (hBefore c hc))
      (fun c hc => isEdge_iff.mpr (hAfter c hc)), hCore]
  · rintro rfl
    obtain ⟨before, after, hText, hBefore, hAfter⟩ := exists_trimBoth_eq isEdge text
    exact ⟨before, after, hText, fun c hc => isEdge_iff.mp (hBefore c hc),
      fun c hc => isEdge_iff.mp (hAfter c hc),
      fun _ hc => isEdge_eq_false_iff.mp (head?_trimBoth hc),
      fun _ hc => isEdge_eq_false_iff.mp (getLast?_trimBoth hc)⟩

variable {separator text : List Char}

/-- Joined texts begin as the first of them begins. -/
theorem head?_intercalate (texts : List (List Char)) (h : text.head? = some c) :
    (separator.intercalate (text :: texts)).head? = some c := by
  cases texts with
  | nil => simpa using h
  | cons second texts => simp [List.intercalate_cons_cons, List.head?_append, h]

/-- Joined texts end as the last of them ends. -/
theorem getLast?_intercalate (texts : List (List Char)) (h : text.getLast? = some c) :
    (separator.intercalate (texts ++ [text])).getLast? = some c := by
  induction texts with
  | nil => simpa using h
  | cons first texts ih =>
      rw [List.cons_append, List.intercalate_cons_of_ne_nil (by simp), List.getLast?_append, ih,
        Option.some_or]

end PlainSheet.Text
