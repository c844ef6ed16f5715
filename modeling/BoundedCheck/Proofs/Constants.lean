import Mathlib
import BoundedCheck.Proofs.Places

/-!
# Constants

The text of a constant is read exactly when it spells a number in its notation that fits the width and
a word of 64 bits; all other texts are refused.  Numbers of 128 bits, with and without sign, are wide
enough for all that is computed on the way.
-/

namespace BoundedCheck

/-! ## Spelled numbers -/

namespace Text.Numeral

/-- The character of a digit: the ten figures, then the letters of both cases. -/
def IsDigit (base : Nat) (c : Char) (digit : Nat) : Prop :=
  digit < base ∧ (digit < 10 ∧ c.toNat = '0'.toNat + digit ∨
    (10 ≤ digit ∧ digit < 16) ∧
      (c.toNat = 'A'.toNat + (digit - 10) ∨ c.toNat = 'a'.toNat + (digit - 10)))

/-- One or more digits spell a number, the most significant digit first. -/
def Spells (base : Nat) (text : List Char) (number : Nat) : Prop :=
  text ≠ [] ∧ ∃ digits, List.Forall₂ (IsDigit base) text digits ∧
    number = Nat.ofDigits base digits.reverse

/-- A decimal integer with an optional sign. -/
def SpellsInteger (text : List Char) (number : Int) : Prop :=
  ∃ digits magnitude, Spells 10 digits magnitude ∧
    (text = digits ∧ number = magnitude ∨ text = '+' :: digits ∧ number = magnitude ∨
      text = '-' :: digits ∧ number = -magnitude)

variable {base : Nat}

theorem digit?_eq_some_iff {c : Char} {digit : Nat} :
    digit? base c = some digit ↔ IsDigit base c digit := by
  have zero : '0'.toNat = 48 := rfl
  have upper : 'A'.toNat = 65 := rfl
  have lower : 'a'.toNat = 97 := rfl
  rw [digit?, Option.filter_eq_some_iff, decide_eq_true_eq, IsDigit, zero, upper, lower]
  split
  · rw [Option.some.injEq]
    omega
  · split
    · rw [Option.some.injEq]
      omega
    · split
      · rw [Option.some.injEq]
        omega
      · simp only [reduceCtorEq, false_and, false_iff]
        omega

theorem ofDigits_reverse_cons (digit : Nat) (digits : List Nat) (value : Nat) :
    base ^ (digit :: digits).length * value + Nat.ofDigits base (digit :: digits).reverse =
      base ^ digits.length * (base * value + digit) + Nat.ofDigits base digits.reverse := by
  rw [List.reverse_cons, Nat.ofDigits_append, Nat.ofDigits_singleton, List.length_reverse,
    List.length_cons]
  ring

/-- Digits shift what was read before them by their count. -/
theorem extend?_eq_some_iff {text : List Char} {value number : Nat} :
    extend? base value text = some number ↔
      ∃ digits, List.Forall₂ (IsDigit base) text digits ∧
        number = base ^ digits.length * value + Nat.ofDigits base digits.reverse := by
  induction text generalizing value with
  | nil => simp [extend?, eq_comm]
  | cons c rest ih =>
      constructor
      · intro read
        unfold extend? at read
        split at read
        · cases read
        · rename_i digit found
          obtain ⟨digits, spelled, rfl⟩ := ih.mp read
          exact ⟨digit :: digits, .cons (digit?_eq_some_iff.mp found) spelled,
            (ofDigits_reverse_cons _ _ _).symm⟩
      · rintro ⟨digits, spelled, rfl⟩
        cases spelled with
        | @cons _ digit _ digits isDigit others =>
            rw [extend?, digit?_eq_some_iff.mpr isDigit]
            exact ih.mpr ⟨digits, others, ofDigits_reverse_cons _ _ _⟩

theorem magnitude?_eq_some_iff {text : List Char} {number : Nat} :
    magnitude? base text = some number ↔ Spells base text number := by
  cases text with
  | nil => simp [magnitude?, Spells]
  | cons c rest =>
      rw [magnitude?, extend?_eq_some_iff, Spells]
      · simp
      · simp

/-- A sign is not a digit. -/
theorem not_spells_cons {c : Char} (low : c.toNat < '0'.toNat) {rest : List Char} {number : Nat} :
    ¬ Spells base (c :: rest) number := by
  rintro ⟨-, digits, spelled, -⟩
  have figure : '0'.toNat < 'A'.toNat ∧ 'A'.toNat < 'a'.toNat := by decide
  cases spelled with
  | cons isDigit _ =>
      obtain ⟨-, small | ⟨-, letter⟩⟩ := isDigit
      · omega
      · omega

theorem natural?_eq_some_iff {text : String} {number : Nat} :
    natural? base text = some number ↔
      Spells base text.toList number ∨
        ∃ digits, text.toList = '+' :: digits ∧ Spells base digits number := by
  unfold natural?
  split
  · rename_i digits shape
    rw [magnitude?_eq_some_iff, shape]
    constructor
    · exact fun spelled => Or.inr ⟨digits, rfl, spelled⟩
    · rintro (signed | ⟨others, same, spelled⟩)
      · exact absurd signed (not_spells_cons (by decide))
      · cases same
        exact spelled
  · rename_i unsigned
    rw [magnitude?_eq_some_iff]
    constructor
    · exact Or.inl
    · rintro (spelled | ⟨digits, signed, -⟩)
      · exact spelled
      · exact absurd signed (unsigned digits)

/-- The same number, taken as an integer. -/
theorem magnitude?_cast_eq_some_iff {digits : List Char} {number : Int} :
    (magnitude? 10 digits >>= fun value => pure (value : Int)) = some number ↔
      ∃ magnitude, Spells 10 digits magnitude ∧ (magnitude : Int) = number := by
  simp only [Option.bind_eq_bind, Option.bind_eq_some_iff, Option.pure_def, Option.some.injEq,
    magnitude?_eq_some_iff]

theorem integer?_eq_some_iff {text : String} {number : Int} :
    integer? text = some number ↔ SpellsInteger text.toList number := by
  unfold integer?
  split
  · rename_i digits shape
    simp only [Option.map_eq_some_iff, magnitude?_cast_eq_some_iff, shape]
    constructor
    · rintro ⟨_, ⟨magnitude, spelled, rfl⟩, rfl⟩
      exact ⟨digits, magnitude, spelled, Or.inr (Or.inr ⟨rfl, rfl⟩)⟩
    · rintro ⟨others, magnitude, spelled, ⟨rfl, -⟩ | ⟨same, -⟩ | ⟨same, rfl⟩⟩
      · exact absurd spelled (not_spells_cons (by decide))
      · cases same
      · cases same
        exact ⟨magnitude, ⟨magnitude, spelled, rfl⟩, rfl⟩
  · rename_i digits shape
    simp only [Option.map_eq_some_iff, magnitude?_cast_eq_some_iff, shape]
    constructor
    · rintro ⟨_, ⟨magnitude, spelled, rfl⟩, rfl⟩
      exact ⟨digits, magnitude, spelled, Or.inr (Or.inl ⟨rfl, rfl⟩)⟩
    · rintro ⟨others, magnitude, spelled, ⟨rfl, -⟩ | ⟨same, rfl⟩ | ⟨same, -⟩⟩
      · exact absurd spelled (not_spells_cons (by decide))
      · cases same
        exact ⟨magnitude, ⟨magnitude, spelled, rfl⟩, rfl⟩
      · cases same
  · rename_i noMinus noPlus
    simp only [Option.map_eq_some_iff, magnitude?_cast_eq_some_iff]
    constructor
    · rintro ⟨_, ⟨magnitude, spelled, rfl⟩, rfl⟩
      exact ⟨text.toList, magnitude, spelled, Or.inl ⟨rfl, rfl⟩⟩
    · rintro ⟨others, magnitude, spelled, ⟨rfl, rfl⟩ | ⟨same, -⟩ | ⟨same, -⟩⟩
      · exact ⟨magnitude, ⟨magnitude, spelled, rfl⟩, rfl⟩
      · exact absurd same (noPlus others)
      · exact absurd same (noMinus others)

namespace Spells

variable {text : List Char} {number : Nat}

/-- Binary digits have one byte each. -/
theorem byteLength_eq (spelled : Spells 2 text number) : Source.byteLength text = text.length := by
  obtain ⟨-, digits, isDigits, -⟩ := spelled
  have zero : '0'.toNat = 48 := rfl
  induction isDigits with
  | nil => rfl
  | @cons c digit rest digits isDigit _ ih =>
      have single : c.utf8Size = 1 := by
        rw [Char.utf8Size_eq_one_iff, UInt32.le_iff_toNat_le]
        obtain ⟨small, ⟨-, code⟩ | ⟨large, -⟩⟩ := isDigit
        · have same : c.val.toNat = c.toNat := rfl
          rw [same, code, zero, show (127 : UInt32).toNat = 127 from rfl]
          omega
        · omega
      rw [Source.byteLength_cons, ih, single, List.length_cons, Nat.add_comm]

theorem lt_pow (large : 1 < base) (spelled : Spells base text number) :
    number < base ^ text.length := by
  obtain ⟨-, digits, isDigits, rfl⟩ := spelled
  have small : ∀ digit ∈ digits, digit < base := by
    induction isDigits with
    | nil => exact fun _ member => absurd member List.not_mem_nil
    | cons isDigit _ ih => exact List.forall_mem_cons.mpr ⟨isDigit.1, ih⟩
  rw [isDigits.length_eq, ← List.length_reverse]
  exact Nat.ofDigits_lt_base_pow_length large fun digit member => small digit (List.mem_reverse.mp member)

end Spells

end Text.Numeral

/-! ## Numbers that fit -/

namespace Constant

open Text.Numeral

/-- An integer has a place in a width and in a word: as a natural number, or in two's complement. -/
def Fits (width : Nat) (number : Int) : Prop :=
  0 ≤ number ∧ number < 2 ^ min width 64 ∨
    number < 0 ∧ width ≤ 64 ∧ -2 ^ (width - 1) ≤ number

/-- The text of a constant of a width denotes a value. -/
def Denotes (width : Nat) (text : String) (value : Nat) : Radix → Prop
  | .binary => Spells 2 text.toList value ∧ text.length ≤ width ∧ value < 2 ^ 64
  | .hexadecimal =>
    (Spells 16 text.toList value ∨
      ∃ digits, text.toList = '+' :: digits ∧ Spells 16 digits value) ∧ value < 2 ^ min width 64
  | .decimal =>
    ∃ number, SpellsInteger text.toList number ∧ Fits width number ∧
      (value : Int) = number % 2 ^ width

variable {width value : Nat} {text : String}

theorem bound_eq_min (width : Nat) : Word.bound width = 2 ^ min width 64 := by
  rw [Word.bound_eq, Nat.one_shiftLeft]
  rfl

theorem lt_two_pow_min {number : Nat} :
    number < 2 ^ min width 64 ↔ number < 2 ^ width ∧ number < 2 ^ 64 := by
  rcases Nat.le_total width 64 with narrow | wide
  · have smaller : 2 ^ width ≤ 2 ^ 64 := Nat.pow_le_pow_right (by decide) narrow
    rw [Nat.min_eq_left narrow]
    omega
  · have greater : 2 ^ 64 ≤ 2 ^ width := Nat.pow_le_pow_right (by decide) wide
    rw [Nat.min_eq_right wide]
    omega

theorem fit_eq_ok_iff {number : Nat} :
    fit width number = .ok value ↔ number < 2 ^ min width 64 ∧ value = number := by
  rw [fit, bound_eq_min]
  split
  · rename_i small
    simp [small, eq_comm]
  · rename_i large
    simp [large]

theorem readBinary_eq_ok_iff :
    readBinary width text = .ok value ↔ Denotes width text value .binary := by
  rw [readBinary, Denotes]
  constructor
  · intro read
    split at read
    · cases read
    · rename_i short
      split at read
      · rename_i number found
        obtain ⟨small, rfl⟩ := fit_eq_ok_iff.mp read
        have bytes := Source.length_le_byteLength text.toList
        rw [Source.byteLength_toList, String.length_toList] at bytes
        exact ⟨magnitude?_eq_some_iff.mp found, by omega, (lt_two_pow_min.mp small).2⟩
      · cases read
  · rintro ⟨spelled, short, small⟩
    have bytes := spelled.byteLength_eq
    rw [Source.byteLength_toList, String.length_toList] at bytes
    have narrow : value < 2 ^ width := by
      have least := spelled.lt_pow (by decide)
      rw [String.length_toList] at least
      exact Nat.lt_of_lt_of_le least (Nat.pow_le_pow_right (by decide) short)
    rw [if_neg (by omega), magnitude?_eq_some_iff.mpr spelled]
    exact fit_eq_ok_iff.mpr ⟨lt_two_pow_min.mpr ⟨narrow, small⟩, rfl⟩

theorem readHexadecimal_eq_ok_iff :
    readHexadecimal width text = .ok value ↔ Denotes width text value .hexadecimal := by
  rw [readHexadecimal, Denotes, ← natural?_eq_some_iff]
  constructor
  · intro read
    split at read
    · rename_i number found
      obtain ⟨small, rfl⟩ := fit_eq_ok_iff.mp read
      exact ⟨(Option.filter_eq_some_iff.mp found).1, small⟩
    · cases read
  · rintro ⟨found, small⟩
    have long : value < 1 <<< 128 := Nat.lt_trans (lt_two_pow_min.mp small).2 (by decide)
    rw [Option.filter_eq_some_iff.mpr ⟨found, by simpa using long⟩]
    exact fit_eq_ok_iff.mpr ⟨small, rfl⟩

/-- The two's complement of a negative number. -/
theorem neg_emod {magnitude modulus : Nat} (positive : 0 < magnitude)
    (small : magnitude ≤ modulus) : -(magnitude : Int) % modulus = modulus - magnitude := by
  rw [← Int.add_emod_right, Int.emod_eq_of_lt (by omega) (by omega)]
  omega

theorem fits_natCast {number : Nat} : Fits width number ↔ number < 2 ^ min width 64 := by
  rw [Fits]
  constructor
  · rintro (⟨-, small⟩ | ⟨negative, -⟩)
    · exact_mod_cast small
    · omega
  · intro small
    exact Or.inl ⟨by omega, by exact_mod_cast small⟩

theorem fits_neg {magnitude : Nat} (nonzero : 0 < magnitude) :
    Fits width (-magnitude) ↔ width ≤ 64 ∧ magnitude ≤ 2 ^ (width - 1) := by
  rw [Fits]
  constructor
  · rintro (⟨natural, -⟩ | ⟨-, narrow, least⟩)
    · omega
    · exact ⟨narrow, by exact_mod_cast neg_le_neg_iff.mp least⟩
  · rintro ⟨narrow, least⟩
    exact Or.inr ⟨by omega, narrow, neg_le_neg_iff.mpr (by exact_mod_cast least)⟩

/-- Natural numbers stand for themselves. -/
theorem ofInteger_natCast (number : Nat) :
    ofInteger width number = .ok value ↔
      Fits width number ∧ (value : Int) = number % 2 ^ width := by
  have read : ofInteger width number = fit width number := rfl
  rw [read, fit_eq_ok_iff, fits_natCast]
  refine and_congr_right fun small => ?_
  have reduced : (number : Int) % 2 ^ width = number := by
    exact_mod_cast Nat.mod_eq_of_lt (lt_two_pow_min.mp small).1
  rw [reduced]
  exact Int.ofNat_inj.symm

/-- Negative numbers stand for their two's complement. -/
theorem ofInteger_neg (positive : 1 ≤ width) {magnitude : Nat} (nonzero : 0 < magnitude) :
    ofInteger width (-magnitude) = .ok value ↔
      Fits width (-magnitude) ∧ (value : Int) = -magnitude % 2 ^ width := by
  obtain ⟨predecessor, rfl⟩ := Nat.exists_eq_add_of_le' nonzero
  obtain ⟨rest, rfl⟩ := Nat.exists_eq_add_of_le' positive
  rw [fits_neg nonzero, Nat.add_sub_cancel]
  have read : ofInteger (rest + 1) (-(predecessor + 1 : Nat)) =
      if 64 < rest + 1 then .error .overflow
      else if predecessor + 1 ≤ Word.bound (rest + 1) / 2 then
        fit (rest + 1) (Word.bound (rest + 1) - (predecessor + 1))
      else .error .overflow := rfl
  rw [read]
  split
  · rename_i wide
    simp [Nat.not_le.mpr wide]
  · rename_i narrow
    have fits : rest + 1 ≤ 64 := Nat.not_lt.mp narrow
    have double : 2 ^ (rest + 1) = 2 ^ rest + 2 ^ rest := by rw [Nat.pow_succ, Nat.mul_two]
    have half : 2 ^ (rest + 1) / 2 = 2 ^ rest := by omega
    rw [Word.bound_eq_pow fits, half]
    split
    · rename_i least
      have complement : -((predecessor + 1 : Nat) : Int) % 2 ^ (rest + 1) =
          (2 ^ (rest + 1) - (predecessor + 1) : Nat) := by
        have reduced := neg_emod nonzero (show predecessor + 1 ≤ 2 ^ (rest + 1) by omega)
        push_cast at reduced ⊢
        rw [reduced, Nat.cast_sub (by omega)]
        push_cast
        rfl
      rw [fit_eq_ok_iff, Nat.min_eq_left fits, complement, Int.ofNat_inj]
      have below : 2 ^ (rest + 1) - (predecessor + 1) < 2 ^ (rest + 1) := by omega
      simp [below, fits, least]
    · rename_i greater
      simp [greater]

theorem ofInteger_eq_ok_iff (positive : 1 ≤ width) {number : Int} :
    ofInteger width number = .ok value ↔
      Fits width number ∧ (value : Int) = number % 2 ^ width := by
  obtain ⟨magnitude, rfl | rfl⟩ := Int.eq_nat_or_neg number
  · exact ofInteger_natCast magnitude
  · rcases Nat.eq_zero_or_pos magnitude with rfl | nonzero
    · exact ofInteger_natCast 0
    · exact ofInteger_neg positive nonzero

/-- Numbers that fit are numbers of 128 bits with sign. -/
theorem Fits.signed {number : Int} (fits : Fits width number) :
    -2 ^ 127 ≤ number ∧ number < 2 ^ 127 := by
  rcases fits with ⟨natural, small⟩ | ⟨negative, narrow, least⟩
  · have wide : (2 : Int) ^ min width 64 ≤ 2 ^ 64 :=
      pow_le_pow_right₀ (by decide) (Nat.min_le_right _ _)
    omega
  · have wide : (2 : Int) ^ (width - 1) ≤ 2 ^ 63 := pow_le_pow_right₀ (by decide) (by omega)
    omega

theorem readDecimal_eq_ok_iff (positive : 1 ≤ width) :
    readDecimal width text = .ok value ↔ Denotes width text value .decimal := by
  rw [readDecimal, Denotes]
  constructor
  · intro read
    split at read
    · rename_i number found
      have spelled := (Option.filter_eq_some_iff.mp found).1
      exact ⟨number, integer?_eq_some_iff.mp spelled, (ofInteger_eq_ok_iff positive).mp read⟩
    · cases read
  · rintro ⟨number, spelled, fits, reduced⟩
    have signed : signed? 128 text = some number := by
      refine Option.filter_eq_some_iff.mpr ⟨integer?_eq_some_iff.mpr spelled, ?_⟩
      simpa using fits.signed
    rw [signed]
    exact (ofInteger_eq_ok_iff positive).mpr ⟨fits, reduced⟩

theorem read_eq_ok_iff (positive : 1 ≤ width) (radix : Radix) :
    read radix width text = .ok value ↔ Denotes width text value radix := by
  cases radix with
  | binary => exact readBinary_eq_ok_iff
  | decimal => exact readDecimal_eq_ok_iff positive
  | hexadecimal => exact readHexadecimal_eq_ok_iff

/-! ## Numbers of 128 bits -/

/-- A number of 128 bits with sign, or a fault. -/
def signed (number : Int) : Except Fault Int :=
  if -2 ^ 127 ≤ number ∧ number < 2 ^ 127 then .ok number else .error .overflow

/-- What is left of a number of 128 bits above the given places, or a fault. -/
def above (number places : Nat) : Except Fault Nat :=
  if places < 128 then .ok (number >>> places) else .error .shift

/-- A number of 128 bits as a word that fits the width. -/
def checkedFit (width number : Nat) : Except (Stop Refusal) Nat :=
  match if width < 128 then above number width else .ok 0 with
  | .error fault => .error (.fault fault)
  | .ok high =>
    if high = 0 ∧ number < wideBound then .ok number else .error (.error .overflow)

/-- The word of a number of 128 bits with sign. -/
def checkedInteger (width : Nat) (number : Int) : Except (Stop Refusal) Nat :=
  if 0 ≤ number then checkedFit width number.toNat
  else if 64 < width then .error (.error .overflow)
  else
    match signed (2 ^ width) with
    | .error fault => .error (.fault fault)
    | .ok modulus =>
      -- The least number has no opposite, which is an answer and not a fault.
      match signed (-number) with
      | .error _ => .error (.error .overflow)
      | .ok magnitude =>
        if magnitude ≤ modulus / 2 then
          match signed (number + modulus) with
          | .error fault => .error (.fault fault)
          | .ok sum => checkedFit width sum.toNat
        else .error (.error .overflow)

/-- The value of a constant, computed with numbers of 128 bits. -/
def checked (width : Nat) (text : String) : Radix → Except (Stop Refusal) Nat
  | .binary =>
    if width < text.utf8ByteSize then .error (.error .overflow)
    else
      match magnitude? 2 text.toList with
      | none => .error (.error .invalid)
      | some number =>
        if number < 2 ^ 128 then checkedFit width number else .error (.error .overflow)
  | .hexadecimal =>
    match natural? 16 text with
    | none => .error (.error .invalid)
    | some number =>
      if number < 2 ^ 128 then checkedFit width number else .error (.error .invalid)
  | .decimal =>
    match signed? 128 text with
    | none => .error (.error .invalid)
    | some number => checkedInteger width number

theorem signed_eq_ok {number : Int} (least : -2 ^ 127 ≤ number) (greatest : number < 2 ^ 127) :
    signed number = .ok number :=
  if_pos ⟨least, greatest⟩

theorem signed_cases (number : Int) :
    signed number = .ok number ∨ signed number = .error .overflow := by
  unfold signed
  split
  · exact Or.inl rfl
  · exact Or.inr rfl

/-- Looking at the bits above a width needs no shift by 128 places. -/
theorem checkedFit_eq (width number : Nat) :
    checkedFit width number = (fit width number).mapError Stop.error := by
  have wide : wideBound = 2 ^ 64 := rfl
  rw [checkedFit, fit, bound_eq_min]
  by_cases narrow : width < 128
  · have empty : number >>> width = 0 ↔ number < 2 ^ width := by
      rw [Nat.shiftRight_eq_div_pow, Nat.div_eq_zero_iff]
      have positive := Nat.two_pow_pos width
      omega
    simp only [if_pos narrow, above, empty, wide, ← lt_two_pow_min]
    split
    · rfl
    · rfl
  · simp only [if_neg narrow, true_and, wide, Nat.min_eq_right (show 64 ≤ width by omega)]
    split
    · rfl
    · rfl

theorem checkedInteger_eq (width : Nat) (number : Int) :
    checkedInteger width number = (ofInteger width number).mapError Stop.error := by
  cases number with
  | ofNat natural =>
      rw [checkedInteger, if_pos (show 0 ≤ Int.ofNat natural from Int.natCast_nonneg _)]
      exact checkedFit_eq width natural
  | negSucc predecessor =>
      have opposite : -Int.negSucc predecessor = (predecessor + 1 : Nat) := rfl
      rw [checkedInteger, if_neg (Int.negSucc_not_nonneg _).mp, ofInteger, opposite]
      split
      · rfl
      · rename_i narrow
        have fits : width ≤ Word.maxWidth := Nat.not_lt.mp narrow
        have small : 2 ^ width ≤ 2 ^ 64 := Nat.pow_le_pow_right (by decide) fits
        have cast : (2 : Int) ^ width = (2 ^ width : Nat) := by push_cast; rfl
        rw [Word.bound_eq_pow fits, cast]
        generalize 2 ^ width = modulus at small ⊢
        rw [signed_eq_ok (by omega) (by omega)]
        by_cases least : predecessor + 1 ≤ modulus / 2
        · have sum : (Int.negSucc predecessor + modulus).toNat = modulus - (predecessor + 1) := by
            omega
          rw [if_pos least, signed_eq_ok (by omega) (by omega)]
          simp only
          rw [if_pos (by omega), signed_eq_ok (by omega) (by omega)]
          simp only
          rw [sum, checkedFit_eq]
        · rw [if_neg least]
          rcases signed_cases (predecessor + 1 : Nat) with found | found
          · rw [found]
            simp only
            rw [if_neg (by omega)]
            rfl
          · rw [found]
            rfl

/-- A number of more than 128 bits fits no word. -/
theorem fit_of_long {number : Nat} (long : ¬ number < 2 ^ 128) :
    fit width number = .error .overflow := by
  rw [fit, bound_eq_min]
  apply if_neg
  rw [lt_two_pow_min]
  rintro ⟨-, small⟩
  exact long (Nat.lt_trans small (by decide))

/-- The bounds of 128 bits never decide about a value. -/
theorem checked_eq (width : Nat) (text : String) (radix : Radix) :
    checked width text radix = (read radix width text).mapError Stop.error := by
  cases radix with
  | binary =>
      rw [checked, read, readBinary]
      split
      · rfl
      · cases magnitude? 2 text.toList with
        | none => rfl
        | some number =>
            simp only
            split
            · exact checkedFit_eq width number
            · rename_i long
              rw [fit_of_long long]
              rfl
  | hexadecimal =>
      rw [checked, read, readHexadecimal, Nat.one_shiftLeft]
      cases natural? 16 text with
      | none => rfl
      | some number =>
          simp only [Option.filter_some, decide_eq_true_eq]
          split
          · exact checkedFit_eq width number
          · rfl
  | decimal =>
      rw [checked, read, readDecimal]
      cases signed? 128 text with
      | none => rfl
      | some number => exact checkedInteger_eq width number

end Constant

/--
A constant is read as the number that its text denotes, and refused as no number or as too large when
it denotes none.  Nothing that is computed leaves 128 bits.
-/
theorem constant_exact {width : Nat} (positive : 1 ≤ width) (radix : Radix) (token : Token)
    (rest : List Token) :
    Constant.checked width token.text radix =
        (Constant.read radix width token.text).mapError Stop.error ∧
      (∀ value, Reader.constant (ε := ReadError) radix width token rest = .ok (value, rest) ↔
        Constant.Denotes width token.text value radix) ∧
      ((∀ value, ¬ Constant.Denotes width token.text value radix) →
        Reader.constant (ε := ReadError) radix width token rest =
            .error ⟨.invalidNumber token.text, token.span⟩ ∨
          Reader.constant (ε := ReadError) radix width token rest =
            .error ⟨.constantOverflow token.text width, token.span⟩) := by
  refine ⟨Constant.checked_eq width token.text radix, ?_, ?_⟩
  · intro value
    rw [← Constant.read_eq_ok_iff positive, Reader.constant_eq]
    cases Constant.read radix width token.text with
    | ok number => simp [Reader.judge, Pure.pure, StateT.pure, Except.pure]
    | error refusal => cases refusal <;> simp [Reader.judge, Reader.refuse]
  · intro none
    rw [Reader.constant_eq]
    cases outcome : Constant.read radix width token.text with
    | ok number => exact absurd ((Constant.read_eq_ok_iff positive radix).mp outcome) (none number)
    | error refusal =>
        cases refusal with
        | invalid => exact Or.inl rfl
        | overflow => exact Or.inr rfl

/-- The least number of 64 bits in two's complement, with a zero before its digits. -/
theorem constant_exact_least :
    1 ≤ 64 ∧
      Reader.constant (ε := ReadError) .decimal 64
          ⟨"-09223372036854775808", ⟨8, 29, 1, 9⟩⟩ [] = .ok (9223372036854775808, []) ∧
      Constant.Denotes 64 "-09223372036854775808" 9223372036854775808 .decimal := by
  have read : Reader.constant (ε := ReadError) .decimal 64
      ⟨"-09223372036854775808", ⟨8, 29, 1, 9⟩⟩ [] = .ok (9223372036854775808, []) := by
    decide +kernel
  exact ⟨by decide, read, ((constant_exact (by decide) .decimal _ []).2.1 _).mp read⟩

end BoundedCheck
