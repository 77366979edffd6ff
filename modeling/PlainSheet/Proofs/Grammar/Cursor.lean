import Mathlib.Tactic.SplitIfs
import PlainSheet.Formula.Cursor
import PlainSheet.Proofs.Grammar.Longest

/-! Tokens are read from bytes as they are from characters. A token has only characters of one
byte, so a cursor that starts between two characters stops between two characters, and every
cut that it makes gives a text. -/

namespace PlainSheet

/-- The bytes of characters in UTF-8. -/
def utf8Bytes (text : List Char) : List UInt8 := text.flatMap String.utf8EncodeChar

theorem utf8Bytes_append (first second : List Char) :
    utf8Bytes (first ++ second) = utf8Bytes first ++ utf8Bytes second :=
  List.flatMap_append

theorem toUTF8_ofList (text : List Char) :
    (String.ofList text).toUTF8.data.toList = utf8Bytes text := by
  rw [String.toUTF8, String.toByteArray_ofList, List.utf8Encode]
  simp [utf8Bytes]

theorem utf8ByteSize_eq_length (text : List Char) :
    (String.ofList text).utf8ByteSize = (utf8Bytes text).length := by
  rw [← toUTF8_ofList]
  rfl

/-- A character of ASCII is the one byte that it is. -/
theorem utf8EncodeChar_of_lt {c : Char} (h : c.toNat < 128) :
    String.utf8EncodeChar c = [c.toUInt8] := by
  have hSmall : c.val.toNat ≤ 127 := Nat.le_of_lt_succ h
  unfold String.utf8EncodeChar
  dsimp only
  rw [if_pos hSmall]
  rfl

/-- A character beyond ASCII begins with a byte beyond ASCII. -/
theorem exists_utf8EncodeChar_of_le {c : Char} (h : 128 ≤ c.toNat) :
    ∃ byte more, String.utf8EncodeChar c = byte :: more ∧ 128 ≤ byte.toNat := by
  have hLarge : ¬c.val.toNat ≤ 127 := Nat.not_le_of_lt h
  unfold String.utf8EncodeChar
  dsimp only
  rw [if_neg hLarge]
  split_ifs
  all_goals
    refine ⟨_, _, rfl, ?_⟩
    rw [UInt8.toNat_ofNat']
    omega

theorem toNat_toUInt8 {c : Char} (h : c.toNat < 128) : c.toUInt8.toNat = c.toNat :=
  Nat.mod_eq_of_lt (Nat.lt_trans h (by decide))

/-- A test of bytes and one of characters agree on ASCII and are not met by anything else. -/
structure SameTest (test : UInt8 → Bool) (member : Char → Bool) : Prop where
  eq_of_lt : ∀ c : Char, c.toNat < 128 → test c.toUInt8 = member c
  byte_lt : ∀ byte, test byte = true → byte.toNat < 128
  char_lt : ∀ c, member c = true → c.toNat < 128

/-- The first byte of a character decides what tests say of the character. -/
theorem exists_utf8EncodeChar (c : Char) :
    ∃ byte more, String.utf8EncodeChar c = byte :: more ∧
      ∀ {test member}, SameTest test member → test byte = member c := by
  rcases Nat.lt_or_ge c.toNat 128 with hSmall | hLarge
  · exact ⟨_, _, utf8EncodeChar_of_lt hSmall, fun h => h.eq_of_lt c hSmall⟩
  · obtain ⟨byte, more, hBytes, hByte⟩ := exists_utf8EncodeChar_of_le hLarge
    refine ⟨byte, more, hBytes, fun {test member} h => ?_⟩
    have hTest : test byte = false :=
      Bool.eq_false_iff.mpr fun hTest => absurd (h.byte_lt byte hTest) (Nat.not_lt.mpr hByte)
    have hMember : member c = false :=
      Bool.eq_false_iff.mpr fun hMember => absurd (h.char_lt c hMember) (Nat.not_lt.mpr hLarge)
    rw [hTest, hMember]

namespace SameTest

variable {test : UInt8 → Bool} {member : Char → Bool}

/-- A run of bytes that satisfy a test is a run of characters that do, so it is not cut inside of
a character. -/
theorem takeWhile_utf8Bytes (h : SameTest test member) (text : List Char) :
    (utf8Bytes text).takeWhile test = utf8Bytes (text.takeWhile member) := by
  induction text with
  | nil => rfl
  | cons c text ih =>
      cases hMember : member c with
      | false =>
          obtain ⟨byte, more, hBytes, hTest⟩ := exists_utf8EncodeChar c
          rw [List.takeWhile_cons_of_neg (by simp [hMember]), utf8Bytes, List.flatMap_cons, hBytes,
            List.cons_append, List.takeWhile_cons_of_neg (by simp [hTest h, hMember])]
          rfl
      | true =>
          have hSmall := h.char_lt c hMember
          rw [List.takeWhile_cons_of_pos hMember, utf8Bytes, utf8Bytes, List.flatMap_cons,
            List.flatMap_cons, utf8EncodeChar_of_lt hSmall, List.singleton_append,
            List.singleton_append, List.takeWhile_cons_of_pos
              ((h.eq_of_lt c hSmall).trans hMember)]
          exact congrArg _ ih

/-- A range of bytes within ASCII is a range of characters. -/
theorem inRange {first last : Char} (hFirst : first.toNat < 128) (hLast : last.toNat < 128)
    (hMember : ∀ {c}, member c = true ↔ first ≤ c ∧ c ≤ last) :
    SameTest (Cursor.inRange first last) member where
  eq_of_lt c hc := by
    rw [Bool.eq_iff_iff, hMember, Cursor.inRange, Bool.and_eq_true, decide_eq_true_iff,
      decide_eq_true_iff, UInt8.le_iff_toNat_le, UInt8.le_iff_toNat_le, toNat_toUInt8 hFirst,
      toNat_toUInt8 hLast, toNat_toUInt8 hc]
    rfl
  byte_lt byte hByte := by
    rw [Cursor.inRange, Bool.and_eq_true, decide_eq_true_iff, decide_eq_true_iff,
      UInt8.le_iff_toNat_le, UInt8.le_iff_toNat_le, toNat_toUInt8 hLast] at hByte
    exact Nat.lt_of_le_of_lt hByte.2 hLast
  char_lt c hc := Nat.lt_of_le_of_lt (hMember.mp hc).2 hLast

theorem beq {d : Char} (hd : d.toNat < 128) : SameTest (· == d.toUInt8) (· == d) where
  eq_of_lt c hc := by
    rw [Bool.eq_iff_iff, beq_iff_eq, beq_iff_eq, ← UInt8.toNat_inj, toNat_toUInt8 hc,
      toNat_toUInt8 hd, Char.toNat_inj]
  byte_lt byte hByte := by
    rw [eq_of_beq hByte, toNat_toUInt8 hd]
    exact hd
  char_lt c hc := by
    rw [eq_of_beq hc]
    exact hd

/-- Every test that only ASCII meets is one of characters. -/
theorem of_lt (h : ∀ byte, test byte = true → byte.toNat < 128) :
    SameTest test fun c => c.toNat < 128 && test c.toUInt8 where
  eq_of_lt c hc := by simp [hc]
  byte_lt := h
  char_lt c hc := by
    rw [Bool.and_eq_true, decide_eq_true_iff] at hc
    exact hc.1

theorem isDigit : SameTest Cursor.isDigit Char.isDigit :=
  inRange (by decide) (by decide) isDigit_iff

theorem isNonzeroDigit : SameTest Cursor.isNonzeroDigit Text.isNonzeroDigit :=
  inRange (by decide) (by decide) isNonzeroDigit_iff

theorem isUpper : SameTest Cursor.isUpper Char.isUpper :=
  inRange (by decide) (by decide) isUpper_iff

theorem isSpace : SameTest Cursor.isSpace Call.isSpace := beq (by decide)

end SameTest

/-- A slice between two parts of a text is what stands there. -/
theorem slice_append (first middle last : String) :
    slice (first ++ middle ++ last) first.utf8ByteSize (first ++ middle).utf8ByteSize =
      .ok middle := by
  have hStart : String.Pos.Raw.IsValid (first ++ middle ++ last) ⟨first.utf8ByteSize⟩ :=
    String.Pos.Raw.isValid_iff_exists_append.mpr
      ⟨first, middle ++ last, String.append_assoc, rfl⟩
  have hStop : String.Pos.Raw.IsValid (first ++ middle ++ last) ⟨(first ++ middle).utf8ByteSize⟩ :=
    String.Pos.Raw.isValid_iff_exists_append.mpr ⟨first ++ middle, last, rfl, rfl⟩
  have hOrder : first.utf8ByteSize ≤ (first ++ middle).utf8ByteSize := by
    rw [String.utf8ByteSize_append]
    exact Nat.le_add_right _ _
  rw [slice, dif_pos ⟨hOrder, hStart, hStop⟩]
  refine congrArg Except.ok (String.toByteArray_inj.mp ?_)
  rw [String.toByteArray_extract, String.offset_pos, String.offset_pos]
  dsimp only
  rw [String.toByteArray_append, ← String.size_toByteArray (s := first ++ middle),
    ByteArray.extract_append_size_left, String.toByteArray_append]
  exact ByteArray.extract_append_eq_right rfl ByteArray.size_append

namespace Cursor

/-- The cursor between two parts of a text. -/
def between (before rest : List Char) : Cursor :=
  ⟨String.ofList (before ++ rest), (String.ofList before).utf8ByteSize⟩

/-- A cursor is not inside a character or behind the end of the text. -/
def OnBoundary (cursor : Cursor) : Prop :=
  String.Pos.Raw.IsValid cursor.text ⟨cursor.position⟩

variable {before rest : List Char}

/-- A cursor is on a boundary when it stands between two parts of its text. -/
theorem onBoundary_iff {cursor : Cursor} :
    cursor.OnBoundary ↔ ∃ before rest, cursor = between before rest := by
  rw [OnBoundary, String.Pos.Raw.isValid_iff_exists_append]
  constructor
  · rintro ⟨before, rest, hText, hPosition⟩
    refine ⟨before.toList, rest.toList, ?_⟩
    obtain ⟨text, position⟩ := cursor
    obtain rfl : position = before.utf8ByteSize := congrArg String.Pos.Raw.byteIdx hPosition
    rw [between, String.ofList_append, String.ofList_toList, String.ofList_toList, ← hText]
  · rintro ⟨before, rest, rfl⟩
    exact ⟨String.ofList before, String.ofList rest, String.ofList_append, rfl⟩

theorem bytes_between (before rest : List Char) : (between before rest).bytes = utf8Bytes rest := by
  rw [bytes, between, toUTF8_ofList, utf8ByteSize_eq_length, utf8Bytes_append,
    List.drop_left]

theorem advance_between (before taken rest : List Char) :
    (between before (taken ++ rest)).advance (utf8Bytes taken).length =
      between (before ++ taken) rest := by
  rw [advance, between, between, List.append_assoc]
  simp only [utf8ByteSize_eq_length, utf8Bytes_append, List.length_append]

theorem sliceFrom_between (before taken rest : List Char) :
    (between (before ++ taken) rest).sliceFrom (between before (taken ++ rest)).position =
      .ok (String.ofList taken) := by
  rw [sliceFrom, between, between, String.ofList_append, String.ofList_append]
  exact slice_append _ _ _

/-- A run of characters is passed and cut out as such. -/
theorem eatWhile_between {test : UInt8 → Bool} {member : Char → Bool} (h : SameTest test member)
    (before rest : List Char) :
    (between before rest).eatWhile test =
      .ok (String.ofList (rest.takeWhile member),
        between (before ++ rest.takeWhile member) (rest.dropWhile member)) := by
  have hAfter := advance_between before (rest.takeWhile member) (rest.dropWhile member)
  have hSlice := sliceFrom_between before (rest.takeWhile member) (rest.dropWhile member)
  rw [List.takeWhile_append_dropWhile] at hAfter hSlice
  rw [eatWhile, bytes_between, h.takeWhile_utf8Bytes, hAfter, hSlice]
  rfl

theorem peek?_between_nil (before : List Char) : (between before []).peek? = none := by
  rw [peek?, bytes_between]
  rfl

theorem exists_peek?_between (before : List Char) (c : Char) (rest : List Char) :
    ∃ byte, (between before (c :: rest)).peek? = some byte ∧
      ∀ {test member}, SameTest test member → test byte = member c := by
  obtain ⟨byte, more, hBytes, hTest⟩ := exists_utf8EncodeChar c
  refine ⟨byte, ?_, hTest⟩
  rw [peek?, bytes_between, utf8Bytes, List.flatMap_cons, hBytes]
  rfl

theorem any_peek?_between {test : UInt8 → Bool} {member : Char → Bool} (h : SameTest test member)
    (before rest : List Char) :
    (between before rest).peek?.any test = rest.head?.any member := by
  cases rest with
  | nil => rw [peek?_between_nil]; rfl
  | cons c rest =>
      obtain ⟨byte, hByte, hTest⟩ := exists_peek?_between before c rest
      rw [hByte]
      exact hTest h

theorem advance_one_between {d : Char} (hd : d.toNat < 128) (before rest : List Char) :
    (between before (d :: rest)).advance 1 = between (before ++ [d]) rest := by
  have hAdvance := advance_between before [d] rest
  rw [utf8Bytes, List.flatMap_singleton, utf8EncodeChar_of_lt hd] at hAdvance
  exact hAdvance

theorem eat_between_of_eq {d : Char} (hd : d.toNat < 128) (before rest : List Char) :
    (between before (d :: rest)).eat d.toUInt8 = (true, between (before ++ [d]) rest) := by
  obtain ⟨byte, hByte, hTest⟩ := exists_peek?_between before d rest
  have hEq : byte = d.toUInt8 := eq_of_beq ((hTest (.beq hd)).trans (beq_self_eq_true d))
  rw [eat, hByte, hEq, if_pos rfl, advance_one_between hd]

theorem eat_between_of_ne {d : Char} (hd : d.toNat < 128) (before : List Char) {rest : List Char}
    (hRest : ∀ more, rest ≠ d :: more) :
    (between before rest).eat d.toUInt8 = (false, between before rest) := by
  rw [eat, if_neg]
  cases rest with
  | nil =>
      rw [peek?_between_nil]
      exact nofun
  | cons c rest =>
      obtain ⟨byte, hByte, hTest⟩ := exists_peek?_between before c rest
      rw [hByte, Option.some.injEq]
      intro hEq
      have hChar : (c == d) = true := (hTest (.beq hd)).symm.trans (beq_iff_eq.mpr hEq)
      exact hRest rest (by rw [eq_of_beq hChar])

/-- A byte of ASCII that comes next is a whole character. -/
theorem exists_of_peek?_between {byte : UInt8} (hByte : byte.toNat < 128)
    (h : (between before rest).peek? = some byte) :
    ∃ c more, c.toNat < 128 ∧ rest = c :: more := by
  have hSame : SameTest (· == byte) _ := .of_lt fun next hNext => eq_of_beq hNext ▸ hByte
  have hAny := any_peek?_between hSame before rest
  rw [h, Option.any_some, beq_self_eq_true] at hAny
  cases rest with
  | nil => cases hAny
  | cons c more => exact ⟨c, more, hSame.char_lt c hAny.symm, rfl⟩

/-- A point and the digits behind it are passed as they are scanned. -/
theorem fraction_between (before rest : List Char) :
    (between before rest).fraction =
      .ok ((Numeral.scanFraction rest).1.isSome,
        between (before ++ Numeral.fractionChars (Numeral.scanFraction rest).1)
          (Numeral.scanFraction rest).2) := by
  unfold Numeral.scanFraction
  split
  next more =>
    rw [fraction, eat_between_of_eq (by decide)]
    dsimp only
    rw [eatWhile_between .isDigit, List.append_assoc]
    rfl
  next hPoint =>
    rw [fraction, eat_between_of_ne (by decide) before hPoint, Numeral.fractionChars,
      List.append_nil]
    rfl

/-- What is passed behind a sign is what is scanned there. -/
theorem unsigned_between (negative : Bool) (before rest : List Char) :
    match Numeral.scanUnsigned? negative rest with
    | some (n, after) => (between (before ++ Numeral.signChars negative) rest).unsigned negative =
        .ok (true, between (before ++ n.chars) after)
    | none => ∃ after : Cursor,
        (between (before ++ Numeral.signChars negative) rest).unsigned negative =
          .ok (false, after) ∧
        after.text = String.ofList (before ++ (Numeral.signChars negative ++ rest)) := by
  cases rest with
  | nil =>
      refine ⟨between (before ++ Numeral.signChars negative) [], ?_, ?_⟩
      · rw [unsigned, peek?_between_nil]
        rfl
      · rw [between, List.append_assoc]
  | cons c more =>
      obtain ⟨byte, hByte, hTest⟩ :=
        exists_peek?_between (before ++ Numeral.signChars negative) c more
      have hZero : byte = '0'.toUInt8 ↔ c = '0' := by
        rw [← beq_iff_eq, hTest (.beq (by decide)), beq_iff_eq]
      rw [unsigned, hByte, Numeral.scanUnsigned?]
      dsimp only
      by_cases hc : c = '0'
      · rw [if_pos hc, if_pos (hZero.mpr hc)]
        subst hc
        rw [advance_one_between (by decide), fraction_between]
        rcases hFraction : Numeral.scanFraction more with ⟨_ | digits, after⟩
        · have hText := Numeral.fractionChars_append_scanFraction hFraction
          cases negative with
          | true =>
              -- A minus sign before a lone zero is found out too late: both have been passed.
              refine ⟨_, rfl, ?_⟩
              simp only [between, List.append_assoc, hText]
              rfl
          | false =>
              simp only [Numeral.chars, List.append_assoc]
              rfl
        · simp only [Numeral.chars, List.append_assoc]
          rfl
      · rw [if_neg hc, if_neg (hZero.not.mpr hc), hTest .isNonzeroDigit]
        by_cases hLeading : Text.isNonzeroDigit c = true
        · have hDigit := Text.isDigit_of_isNonzeroDigit hLeading
          rw [if_pos hLeading, if_pos hLeading, eatWhile_between .isDigit,
            List.takeWhile_cons_of_pos hDigit, List.dropWhile_cons_of_pos hDigit]
          dsimp only [bind, Except.bind]
          rw [fraction_between]
          simp only [Numeral.chars, List.append_assoc]
          rfl
        · rw [if_neg hLeading, if_neg hLeading]
          exact ⟨_, rfl, by rw [between, List.append_assoc]⟩

/-- A minus sign is passed before a number that is read behind it. -/
theorem exists_eat_minus (before rest : List Char) :
    ∃ negative more, Numeral.signChars negative ++ more = rest ∧
      Numeral.scan? rest = Numeral.scanUnsigned? negative more ∧
      (between before rest).eat '-'.toUInt8 =
        (negative, between (before ++ Numeral.signChars negative) more) := by
  unfold Numeral.scan?
  split
  next more => exact ⟨true, more, rfl, rfl, eat_between_of_eq (by decide) before more⟩
  next hMinus =>
    refine ⟨false, rest, rfl, rfl, ?_⟩
    rw [eat_between_of_ne (by decide) before hMinus, Numeral.signChars, if_neg (by decide),
      List.append_nil]

/-- A number is passed as it is scanned in characters, and nothing is passed without one. -/
theorem number_between (before rest : List Char) :
    (between before rest).number =
      .ok (match Numeral.scan? rest with
        | some (n, after) => (some (String.ofList n.chars), between (before ++ n.chars) after)
        | none => (none, between before rest)) := by
  obtain ⟨negative, more, rfl, hScan, hMinus⟩ := exists_eat_minus before rest
  have hUnsigned := unsigned_between negative before more
  rw [number, hScan, hMinus]
  cases hMore : Numeral.scanUnsigned? negative more with
  | some read =>
      obtain ⟨n, after⟩ := read
      rw [hMore] at hUnsigned
      have hSlice := sliceFrom_between before n.chars after
      rw [← Numeral.eq_append_of_scanUnsigned? hMore] at hSlice
      dsimp only [bind, Except.bind]
      rw [hUnsigned]
      dsimp only
      rw [if_pos rfl, hSlice]
      rfl
  | none =>
      rw [hMore] at hUnsigned
      obtain ⟨after, hAfter, hText⟩ := hUnsigned
      dsimp only [bind, Except.bind]
      rw [hAfter]
      dsimp only
      rw [if_neg (by decide), hText]
      rfl

/-- A cursor that goes back is where it was. -/
theorem back_between (before taken rest : List Char) :
    { between (before ++ taken) rest with position := (between before (taken ++ rest)).position } =
      between before (taken ++ rest) := by
  rw [between, between, List.append_assoc]

/-- A cell is passed as it is scanned in characters, and nothing is passed without one. -/
theorem cell_between (before rest : List Char) :
    (between before rest).cell =
      .ok (match Reference.scan? rest with
        | some (r, after) =>
          (some (r.address, String.ofList r.chars), between (before ++ r.chars) after)
        | none => (none, between before rest)) := by
  have hText := List.takeWhile_append_dropWhile (p := Char.isUpper) (l := rest)
  have hBack := back_between before (rest.takeWhile Char.isUpper) (rest.dropWhile Char.isUpper)
  rw [hText] at hBack
  rw [cell, eatWhile_between .isUpper, Reference.scan?]
  dsimp only [bind, Except.bind]
  rw [any_peek?_between .isNonzeroDigit, hBack]
  cases hLetters : rest.takeWhile Char.isUpper with
  | nil => rfl
  | cons letter letters =>
      have hSome : (String.ofList (letter :: letters)).isEmpty = false := by simp
      rw [hSome, Bool.false_or]
      cases hMore : rest.dropWhile Char.isUpper with
      | nil => rfl
      | cons c more =>
          rw [List.head?_cons, Option.any_some]
          dsimp only
          by_cases hLeading : Text.isNonzeroDigit c = true
          · rw [hLetters, hMore] at hText
            have hSlice := sliceFrom_between before
              (letter :: letters ++ (c :: more).takeWhile Char.isDigit)
              ((c :: more).dropWhile Char.isDigit)
            rw [List.append_assoc, List.takeWhile_append_dropWhile, hText,
              ← List.append_assoc] at hSlice
            rw [if_pos hLeading, if_neg (by simp [hLeading]), eatWhile_between .isDigit]
            dsimp only
            rw [hSlice, Reference.chars, String.toList_ofList, String.toList_ofList,
              ← List.append_assoc]
            rfl
          · rw [if_neg hLeading, if_pos (by simp [hLeading])]
            rfl

/-- A separator is passed as it is scanned in characters, and nothing is passed without one. -/
theorem separator_between (before rest : List Char) :
    match Call.scanSeparator? rest with
    | some after => ∃ taken, taken ++ after = rest ∧
        (between before rest).separator = .ok (true, between (before ++ taken) after)
    | none => (between before rest).separator = .ok (false, between before rest) := by
  have hBack := back_between before (rest.takeWhile Call.isSpace) (rest.dropWhile Call.isSpace)
  have hText := List.takeWhile_append_dropWhile (p := Call.isSpace) (l := rest)
  rw [hText] at hBack
  rw [separator, eatWhile_between .isSpace]
  dsimp only [bind, Except.bind]
  generalize hScan : Call.scanSeparator? rest = scanned
  unfold Call.scanSeparator? at hScan
  split at hScan
  next more hComma =>
    subst hScan
    rw [hComma] at hText ⊢
    rw [eat_between_of_eq (by decide)]
    dsimp only
    rw [eatWhile_between .isSpace]
    refine ⟨rest.takeWhile Call.isSpace ++ ',' :: more.takeWhile Call.isSpace, ?_, ?_⟩
    · rw [List.append_assoc, List.cons_append, List.takeWhile_append_dropWhile, hText]
    · rw [List.append_assoc, List.append_assoc]
      rfl
  next hComma =>
    subst hScan
    rw [eat_between_of_ne (by decide) _ hComma]
    dsimp only
    rw [hBack]
    rfl

/-- A token is read as a whole or not at all. Either the longest beginning of the rest that
belongs to the language is passed, and the cursor is then between two characters again; or no
beginning belongs to it, and the cursor is where it was. -/
def ReadsToken {α : Type} (language : List Char → Prop) (found : List Char → α) (missing : α)
    (cursor : Cursor) (rest : List Char) (answer : Except BadSlice (α × Cursor)) : Prop :=
  (∃ taken after, IsLongest language taken rest ∧ answer = .ok (found taken, after) ∧
    after.text = cursor.text ∧
    after.position = cursor.position + (String.ofList taken).utf8ByteSize ∧
    after.OnBoundary ∧ after.position ≤ after.text.utf8ByteSize) ∨
  NoBeginning language rest ∧ answer = .ok (missing, cursor)

section ReadsToken

variable {α : Type} {language : List Char → Prop} {found : List Char → α} {missing : α}
  {cursor : Cursor} {answer : Except BadSlice (α × Cursor)}

theorem onBoundary_between (before rest : List Char) : (between before rest).OnBoundary :=
  onBoundary_iff.mpr ⟨before, rest, rfl⟩

/-- A reader that goes where a scanner for the longest beginning goes reads tokens as a whole. -/
theorem readsToken_of_scan {scan : List Char → Option (List Char)}
    (h : ScansLongest language scan)
    (hSome : ∀ after, scan rest = some after → ∃ taken, taken ++ after = rest ∧
      answer = .ok (found taken, between (before ++ taken) after))
    (hNone : scan rest = none → answer = .ok (missing, between before rest)) :
    ReadsToken language found missing (between before rest) rest answer := by
  cases hScan : scan rest with
  | none => exact .inr ⟨h.noBeginning hScan, hNone hScan⟩
  | some after =>
      obtain ⟨taken, rfl, hAnswer⟩ := hSome after hScan
      have hBoundary := onBoundary_between (before ++ taken) after
      refine .inl ⟨taken, _, h.isLongest hScan, hAnswer, ?_, ?_, hBoundary, hBoundary.le_rawEndPos⟩
      · rw [between, between, List.append_assoc]
      · simp only [between, String.ofList_append, String.utf8ByteSize_append]

/-- Whether there was a token or not, the cursor is in the same text and in no character. -/
theorem ReadsToken.exists_after (h : ReadsToken language found missing cursor rest answer)
    (hCursor : cursor.OnBoundary) :
    ∃ after, answer.map Prod.snd = .ok after ∧ after.text = cursor.text ∧ after.OnBoundary := by
  rcases h with ⟨taken, after, -, rfl, hText, -, hBoundary, -⟩ | ⟨-, rfl⟩
  · exact ⟨after, rfl, hText, hBoundary⟩
  · exact ⟨cursor, rfl, rfl, hCursor⟩

end ReadsToken

theorem readsToken_number (before rest : List Char) :
    ReadsToken IsNumber (fun taken => some (String.ofList taken)) none (between before rest) rest
      (between before rest).number := by
  refine readsToken_of_scan scansLongest_number (fun after hAfter => ?_) fun hNone => ?_
  · obtain ⟨⟨n, _⟩, hScan, rfl⟩ := Option.map_eq_some_iff.mp hAfter
    exact ⟨n.chars, (Numeral.eq_append_of_scan? hScan).symm, by rw [number_between, hScan]⟩
  · rw [number_between, Option.map_eq_none_iff.mp hNone]

/-- What a cell is read as, without its address. -/
def cellText (cursor : Cursor) : Except BadSlice (Option String × Cursor) :=
  cursor.cell.map fun (found, after) => (found.map Prod.snd, after)

theorem readsToken_cell (before rest : List Char) :
    ReadsToken IsCell (fun taken => some (String.ofList taken)) none (between before rest) rest
      (between before rest).cellText := by
  refine readsToken_of_scan scansLongest_cell (fun after hAfter => ?_) fun hNone => ?_
  · obtain ⟨⟨r, _⟩, hScan, rfl⟩ := Option.map_eq_some_iff.mp hAfter
    refine ⟨r.chars, (Reference.eq_append_of_scan? hScan).symm, ?_⟩
    rw [cellText, cell_between, hScan]
    rfl
  · rw [cellText, cell_between, Option.map_eq_none_iff.mp hNone]
    rfl

theorem readsToken_separator (before rest : List Char) :
    ReadsToken IsSeparator (fun _ => true) false (between before rest) rest
      (between before rest).separator := by
  have hSeparator := separator_between before rest
  refine readsToken_of_scan scansLongest_separator (fun after hAfter => ?_) fun hNone => ?_
  · rw [hAfter] at hSeparator
    exact hSeparator
  · rw [hNone] at hSeparator
    exact hSeparator

/-- One call of a reader: of a token, of an ASCII character, or of a run of them. -/
inductive Action where
  | number
  | cell
  | separator
  | eat (byte : UInt8) (ascii : byte.toNat < 128)
  | eatWhile (test : UInt8 → Bool) (ascii : ∀ byte, test byte = true → byte.toNat < 128)

namespace Action

/-- Where a call leaves the cursor. -/
def perform (cursor : Cursor) : Action → Except BadSlice Cursor
  | number => cursor.number.map Prod.snd
  | cell => cursor.cell.map Prod.snd
  | separator => cursor.separator.map Prod.snd
  | eat byte _ => .ok (cursor.eat byte).2
  | eatWhile test _ => (cursor.eatWhile test).map Prod.snd

/-- No single call makes a bad cut or leaves the cursor inside of a character. -/
theorem exists_perform {cursor : Cursor} (h : cursor.OnBoundary) (action : Action) :
    ∃ after, action.perform cursor = .ok after ∧ after.text = cursor.text ∧ after.OnBoundary := by
  obtain ⟨before, rest, rfl⟩ := onBoundary_iff.mp h
  cases action with
  | number => exact (readsToken_number before rest).exists_after h
  | cell =>
      obtain ⟨after, hAfter, hRest⟩ := (readsToken_cell before rest).exists_after h
      refine ⟨after, ?_, hRest⟩
      rw [← hAfter, perform, cellText]
      cases (between before rest).cell <;> rfl
  | separator => exact (readsToken_separator before rest).exists_after h
  | eat byte ascii =>
      rw [perform, Cursor.eat]
      split_ifs with hPeek
      · obtain ⟨c, more, hc, rfl⟩ := exists_of_peek?_between ascii hPeek
        rw [advance_one_between hc]
        exact ⟨_, rfl, by simp [between], onBoundary_between _ _⟩
      · exact ⟨_, rfl, rfl, h⟩
  | eatWhile test ascii =>
      rw [perform, eatWhile_between (.of_lt ascii)]
      exact ⟨_, rfl, by simp [between], onBoundary_between _ _⟩

/-- Calls one after the other never make a bad cut. -/
theorem exists_foldlM_perform {cursor : Cursor} (h : cursor.OnBoundary) (actions : List Action) :
    ∃ after, actions.foldlM perform cursor = .ok after ∧ after.text = cursor.text ∧
      after.OnBoundary := by
  induction actions generalizing cursor with
  | nil => exact ⟨cursor, rfl, rfl, h⟩
  | cons action actions ih =>
      obtain ⟨next, hNext, hNextText, hNextBoundary⟩ := exists_perform h action
      obtain ⟨after, hAfter, hText, hBoundary⟩ := ih hNextBoundary
      refine ⟨after, ?_, hText.trans hNextText, hBoundary⟩
      rw [List.foldlM_cons, hNext]
      exact hAfter

end Action

/-- Tokens are read whole or not at all, wherever the cursor is between two characters. A number,
a cell or a separator is passed when the rest begins with one, the longest there is, and the
cursor stays when it does not; numbers and cells are the ones that are scanned in characters. So
no calls, in whatever order, make a cut that is out of range or inside a character. -/
theorem tokens_atomic (cursor : Cursor) (h : cursor.OnBoundary) :
    ∃ before rest, cursor = between before rest ∧
      ReadsToken IsNumber (fun taken => some (String.ofList taken)) none cursor rest
        cursor.number ∧
      ReadsToken IsCell (fun taken => some (String.ofList taken)) none cursor rest
        cursor.cellText ∧
      ReadsToken IsSeparator (fun _ => true) false cursor rest cursor.separator ∧
      cursor.number = .ok (match Numeral.scan? rest with
        | some (n, after) => (some (String.ofList n.chars), between (before ++ n.chars) after)
        | none => (none, cursor)) ∧
      cursor.cell = .ok (match Reference.scan? rest with
        | some (r, after) =>
          (some (r.address, String.ofList r.chars), between (before ++ r.chars) after)
        | none => (none, cursor)) ∧
      ∀ actions : List Action, ∃ after, actions.foldlM Action.perform cursor = .ok after ∧
        after.text = cursor.text ∧ after.OnBoundary := by
  obtain ⟨before, rest, rfl⟩ := onBoundary_iff.mp h
  exact ⟨before, rest, rfl, readsToken_number before rest, readsToken_cell before rest,
    readsToken_separator before rest, number_between before rest, cell_between before rest,
    Action.exists_foldlM_perform h⟩

/-- Behind a character of two bytes, a minus sign and a zero are passed and taken back. -/
theorem tokens_atomic_at_minus_zero :
    let cursor : Cursor := ⟨"é-0,7", 2⟩
    cursor.OnBoundary ∧ cursor.number = .ok (none, cursor) ∧
      ∀ actions : List Action, ∃ after, actions.foldlM Action.perform cursor = .ok after ∧
        after.text = "é-0,7" ∧ after.OnBoundary := by
  intro cursor
  have hCursor : cursor = between ['é'] ['-', '0', ',', '7'] := by decide
  have hBoundary : cursor.OnBoundary := hCursor ▸ onBoundary_between _ _
  obtain ⟨-, -, -, -, -, -, -, -, hActions⟩ := tokens_atomic cursor hBoundary
  refine ⟨hBoundary, ?_, hActions⟩
  rw [hCursor, number_between]
  rfl

end Cursor

end PlainSheet
