import Mathlib
import BoundedCheck.Proofs.Reading

/-!
# Scanning printed text

Words with a space between them and lines with a line feed after each are found again by the scanner:
the tokens of a printed line have the printed words as their texts.  A printed number is read back.
-/

namespace BoundedCheck

/-! ## Numbers -/

namespace Text.Numeral

theorem digit?_of_isDigit {c : Char} (isDigit : c.isDigit = true) :
    digit? 10 c = some (c.toNat - 48) := by
  obtain ⟨low, high⟩ := Char.isDigit_iff_toNat.mp isDigit
  have inside : 48 ≤ c.toNat ∧ c.toNat ≤ 57 := ⟨low, high⟩
  have small : c.toNat - 48 < 10 := by omega
  simp [digit?, inside, small]

/-- Decimal digits are accumulated as the standard library does it. -/
theorem extend?_of_isDigit {digits : List Char} (allDigits : ∀ c ∈ digits, c.isDigit = true)
    (value : Nat) : extend? 10 value digits = some (Nat.ofDigitChars 10 digits value) := by
  induction digits generalizing value with
  | nil => rfl
  | cons c rest ih =>
      obtain ⟨first, others⟩ := List.forall_mem_cons.mp allDigits
      simp only [extend?, digit?_of_isDigit first, Nat.ofDigitChars_cons]
      exact ih others _

/-- The characters of a printed number. -/
theorem isDigit_of_mem_toString {number : Nat} {c : Char} (member : c ∈ (toString number).toList) :
    c.isDigit = true := by
  rw [Nat.toString_eq_repr, Nat.toList_repr] at member
  exact Nat.isDigit_of_mem_toDigits (Nat.succ_pos 9) le_rfl member

theorem toList_toString_ne_nil (number : Nat) : (toString number).toList ≠ [] := by
  rw [Nat.toString_eq_repr, Nat.toList_repr]
  exact Nat.toDigits_ne_nil

theorem magnitude?_toString (number : Nat) :
    magnitude? 10 (toString number).toList = some number := by
  have read : extend? 10 0 (toString number).toList = some number := by
    rw [extend?_of_isDigit (fun _ member => isDigit_of_mem_toString member),
      Nat.toString_eq_repr, Nat.toList_repr, Nat.ofDigitChars_ten_toDigits]
  cases shape : (toString number).toList with
  | nil => exact absurd shape (toList_toString_ne_nil number)
  | cons first rest => rwa [shape] at read

/-- A printed number starts with a digit, so with no sign. -/
theorem toList_toString_ne_cons {number : Nat} {c : Char} {rest : List Char}
    (noDigit : c.isDigit = false) : (toString number).toList ≠ c :: rest := by
  intro shape
  have isDigit : c.isDigit = true :=
    isDigit_of_mem_toString (by rw [shape]; exact List.mem_cons_self)
  rw [noDigit] at isDigit
  cases isDigit

theorem natural?_toString (number : Nat) : natural? 10 (toString number) = some number := by
  unfold natural?
  split
  · rename_i digits shape
    exact absurd shape (toList_toString_ne_cons (by decide))
  · exact magnitude?_toString number

theorem below?_toString {bound number : Nat} (below : number < bound) :
    below? bound (toString number) = some number := by
  unfold below?
  rw [natural?_toString]
  simp [below]

theorem integer?_toString (number : Nat) : integer? (toString number) = some (number : Int) := by
  unfold integer?
  split
  · rename_i digits shape
    exact absurd shape (toList_toString_ne_cons (by decide))
  · rename_i digits shape
    exact absurd shape (toList_toString_ne_cons (by decide))
  · rw [magnitude?_toString]
    rfl

end Text.Numeral

/-- Letters and digits make a word. -/
theorem isWord_of_isAlphanum {text : String} (nonempty : text ≠ "")
    (plain : text.toList.all Char.isAlphanum = true) : IsWord text := by
  refine ⟨nonempty, fun c member => ?_⟩
  have kind := List.all_eq_true.mp plain c member
  have graphic : 48 ≤ c.toNat ∧ c.toNat ≤ 122 := by
    have same : c.val.toNat = c.toNat := rfl
    simp [Char.isAlphanum, Char.isAlpha, Char.isUpper, Char.isLower, Char.isDigit,
      UInt32.le_iff_toNat_le] at kind
    omega
  constructor
  · simp [Text.isBlank, Text.blankRanges]
    omega
  · rintro rfl
    exact absurd kind (by decide)

theorem isWord_keyword (keyword : Keyword) : IsWord keyword.text := by
  cases keyword with
  | const digits => cases digits <;> exact isWord_of_isAlphanum (by decide) rfl
  | binary op => cases op <;> exact isWord_of_isAlphanum (by decide) rfl
  | _ => exact isWord_of_isAlphanum (by decide) rfl

@[simp]
theorem isWord_repr (number : Nat) : IsWord number.repr := by
  rw [← Nat.toString_eq_repr]
  apply isWord_of_isAlphanum
  · intro empty
    exact Text.Numeral.toList_toString_ne_nil number (by rw [empty]; rfl)
  · apply List.all_eq_true.mpr
    intro c member
    simp [Char.isAlphanum, Text.Numeral.isDigit_of_mem_toString member]

/-! ## Words of a line -/

namespace Source

/-- The characters of a word are taken up one after the other. -/
theorem wordsFrom_append {line start column : Nat} {word plain rest : List Char}
    (noBlank : ∀ c ∈ plain, Text.isBlank c = false) :
    wordsFrom line start column word (plain ++ rest) =
      wordsFrom line start column (plain.reverse ++ word) rest := by
  induction plain generalizing word with
  | nil => rfl
  | cons c others ih =>
      obtain ⟨first, remaining⟩ := List.forall_mem_cons.mp noBlank
      rw [List.cons_append, wordsFrom, if_neg (by simp [first]), ih remaining]
      simp

/-- A word that a blank ends is the next token. -/
theorem wordsFrom_word {line start column : Nat} {text : String} {blank : Char} {rest : List Char}
    (isWord : IsWord text) (ends : Text.isBlank blank = true) :
    wordsFrom line start column [] (text.toList ++ blank :: rest) =
      token line start column text.toList ::
        wordsFrom line (start + byteLength text.toList.reverse + blank.utf8Size)
          (column + text.toList.reverse.length + 1) [] rest := by
  have noBlank : ∀ c ∈ text.toList, Text.isBlank c = false :=
    fun c member => (isWord.2 c member).1
  have nonempty : text.toList ≠ [] := fun empty => isWord.1 (String.toList_eq_nil_iff.mp empty)
  rw [wordsFrom_append noBlank, wordsFrom, if_pos ends, List.append_nil,
    if_neg (by simpa using nonempty), List.reverse_reverse]

/-- Words with a space between them and a line feed at the end are found again. -/
theorem texts_wordsFrom {words : List String} (allWords : ∀ text ∈ words, IsWord text)
    (line start column : Nat) :
    (wordsFrom line start column [] ((" ".intercalate words).toList ++ ['\n'])).map Token.text =
      words := by
  have text_token : ∀ start column (text : String),
      (token line start column text.toList).text = text := fun _ _ text => String.ofList_toList
  induction words generalizing start column with
  | nil => rfl
  | cons text others ih =>
      obtain ⟨isWord, remaining⟩ := List.forall_mem_cons.mp allWords
      cases others with
      | nil =>
          rw [String.intercalate_singleton, wordsFrom_word isWord Text.isBlank_newline,
            List.map_cons, text_token]
          rfl
      | cons second more =>
          have shape : (" ".intercalate (text :: second :: more)).toList ++ ['\n'] =
              text.toList ++ ' ' :: ((" ".intercalate (second :: more)).toList ++ ['\n']) := by
            simp
          rw [shape, wordsFrom_word isWord Text.isBlank_space, List.map_cons, text_token,
            ih remaining]

/-! ## Lines of a text -/

/-- A line without a line feed of its own is one piece. -/
theorem cutFrom_line {piece text rest : List Char} (noBreak : '\n' ∉ text) :
    cutFrom piece (text ++ '\n' :: rest) = (piece.reverse ++ text ++ ['\n']) :: cutFrom [] rest := by
  induction text generalizing piece with
  | nil => simp [cutFrom]
  | cons c others ih =>
      have different : c ≠ '\n' := fun same => noBreak (same ▸ List.mem_cons_self)
      have remaining : '\n' ∉ others := fun inside => noBreak (List.mem_cons_of_mem _ inside)
      rw [List.cons_append, cutFrom, if_neg different, ih remaining]
      simp

/-- The characters of a printed line, its end included. -/
def printed (words : List String) : List Char :=
  (" ".intercalate words).toList ++ ['\n']

/-- Between the characters of the words stands only the space. -/
theorem mem_intercalate {words : List String} {c : Char}
    (member : c ∈ (" ".intercalate words).toList) : c = ' ' ∨ ∃ text ∈ words, c ∈ text.toList := by
  induction words with
  | nil => simp at member
  | cons text others ih =>
      cases others with
      | nil => exact .inr ⟨text, List.mem_cons_self, by simpa using member⟩
      | cons second more =>
          rw [String.intercalate_cons_cons, String.toList_append, String.toList_append,
            List.mem_append, List.mem_append] at member
          obtain (inFirst | isSpace) | later := member
          · exact .inr ⟨text, List.mem_cons_self, inFirst⟩
          · exact .inl (List.mem_singleton.mp isSpace)
          · refine (ih later).imp_right ?_
            rintro ⟨other, inside, holds⟩
            exact ⟨other, List.mem_cons_of_mem _ inside, holds⟩

/-- A character that no word may hold and that is not the space is not in a printed line. -/
theorem not_mem_intercalate {words : List String} (allWords : ∀ text ∈ words, IsWord text) {c : Char}
    (special : Text.isBlank c = true ∨ c = ';') (noSpace : c ≠ ' ') :
    c ∉ (" ".intercalate words).toList := by
  intro member
  rcases mem_intercalate member with isSpace | ⟨text, inside, holds⟩
  · exact noSpace isSpace
  · obtain ⟨noBlank, noComment⟩ := (allWords text inside).2 c holds
    rcases special with isBlank | isComment
    · rw [noBlank] at isBlank
      cases isBlank
    · exact noComment isComment

/-- A printed line is one piece. -/
theorem pieces_flatMap_printed {rows : List (List String)}
    (allWords : ∀ row ∈ rows, ∀ text ∈ row, IsWord text) :
    pieces (rows.flatMap printed) = rows.map printed := by
  unfold pieces
  induction rows with
  | nil => rfl
  | cons row others ih =>
      obtain ⟨rowWords, remaining⟩ := List.forall_mem_cons.mp allWords
      have noBreak : '\n' ∉ (" ".intercalate row).toList :=
        not_mem_intercalate rowWords (.inl Text.isBlank_newline) (by decide)
      rw [List.flatMap_cons, printed, List.append_assoc, List.singleton_append,
        cutFrom_line noBreak, ih remaining]
      rfl

theorem texts_tokens_printed {words : List String} (allWords : ∀ text ∈ words, IsWord text)
    (number start : Nat) : (tokens number start (printed words)).map Token.text = words := by
  have plain : ∀ c ∈ printed words, (c != ';') = true := by
    intro c member
    rcases List.mem_append.mp member with inside | isBreak
    · refine bne_iff_ne.mpr ?_
      rintro rfl
      exact not_mem_intercalate allWords (.inr rfl) (by decide) inside
    · rw [List.mem_singleton.mp isBreak]
      decide
  rw [tokens, code, List.takeWhile_eq_self_iff.mpr plain]
  exact texts_wordsFrom allWords number start 1

/-- The lines of a printed text hold the printed words. -/
theorem texts_linesFrom_printed {rows : List (List String)}
    (allWords : ∀ row ∈ rows, ∀ text ∈ row, IsWord text) (nonempty : ∀ row ∈ rows, row ≠ [])
    (number start : Nat) :
    (linesFrom number start (rows.map printed)).map (·.tokens.map Token.text) = rows := by
  induction rows generalizing number start with
  | nil => rfl
  | cons row others ih =>
      obtain ⟨rowWords, moreWords⟩ := List.forall_mem_cons.mp allWords
      obtain ⟨rowNonempty, moreNonempty⟩ := List.forall_mem_cons.mp nonempty
      have texts := texts_tokens_printed rowWords number start
      rw [List.map_cons, linesFrom]
      split
      · rename_i empty
        rw [empty] at texts
        exact absurd texts.symm rowNonempty
      · rename_i first more shape
        rw [List.map_cons, ih moreWords moreNonempty, ← shape, texts]

/-- The words of a line do not depend on how its places are counted. -/
theorem texts_lines (source : String) :
    (lines source).map (·.tokens.map Token.text) =
      (exactLines source).map (·.tokens.map Token.text) := by
  simp [lines, Line.wrapped, Function.comp_def]

theorem texts_lines_printed {rows : List (List String)}
    (allWords : ∀ row ∈ rows, ∀ text ∈ row, IsWord text) (nonempty : ∀ row ∈ rows, row ≠ [])
    {source : String} (isPrinted : source.toList = rows.flatMap printed) :
    (lines source).map (·.tokens.map Token.text) = rows := by
  rw [texts_lines, exactLines, isPrinted, pieces_flatMap_printed allWords]
  exact texts_linesFrom_printed allWords nonempty 1 0

end Source

end BoundedCheck
