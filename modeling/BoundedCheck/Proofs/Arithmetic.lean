import Mathlib
import BoundedCheck.Proofs.Words

/-!
# Arithmetic of words

The operators on words of at most 64 bits, in the terms of the theory of bit vectors: each has the
value of the operation on bit vectors, which fits the width that the operator announces.  Quotients,
remainders and shifts are also told by numbers and two's complement readings, where zero divisors,
the least number divided by minus one, and shifts beyond the width have their place.
-/

namespace BoundedCheck.Word

/-! ## Values as operations on bit vectors -/

theorem meaning_eq_onWords {op : BinaryOp} (single : op ≠ .concat) (widthA widthB a b : Nat) :
    op.meaning widthA widthB a b =
      op.onWords (BitVec.ofNat widthA a) (BitVec.ofNat widthA b) := by
  cases op with
  | concat => exact absurd rfl single
  | _ => rfl

/-- The bits of the first operand stand in front of those of the second. -/
theorem meaning_concat {widthA widthB a b : Nat} (smallA : a < 2 ^ widthA)
    (smallB : b < 2 ^ widthB) :
    BinaryOp.meaning .concat widthA widthB a b = a * 2 ^ widthB + b := by
  simp only [BinaryOp.meaning, BitVec.toNat_append, BitVec.toNat_ofNat, Nat.mod_eq_of_lt smallA,
    Nat.mod_eq_of_lt smallB]
  rw [← Nat.shiftLeft_add_eq_or_of_lt smallB, Nat.shiftLeft_eq]

theorem slice_eq_extractLsb {width value high low : Nat} (fits : width ≤ maxWidth)
    (small : value < 2 ^ width) (ordered : low ≤ high) (inside : high < width) :
    slice value high low = .ok ((BitVec.ofNat width value).extractLsb high low).toNat := by
  have upper : low + (high - low + 1 - 1) = high := by omega
  have within : low + (high - low + 1) ≤ width := by omega
  have taken := slice_eq (Nat.succ_pos (high - low)) within fits small
  rw [upper] at taken
  exact taken

theorem binary_eq_onWords {width a b : Nat} (fits : width ≤ maxWidth) (smallA : a < 2 ^ width)
    (smallB : b < 2 ^ width) {op : BinaryOp} (single : op ≠ .concat) :
    binary op a b width width =
      .ok (op.onWords (BitVec.ofNat width a) (BitVec.ofNat width b)) := by
  have widths : Operands op width width := ⟨fits, fun _ => rfl, fun joins => absurd joins single⟩
  rw [binary_eq_ok widths smallA smallB, meaning_eq_onWords single]

/-! ## Quotients and remainders -/

/-- A remainder by floor division has the sign of the divisor and is nearer to zero. -/
theorem fmod_of_ne_zero {x y : Int} (nonzero : y ≠ 0) :
    y ∣ x - x.fmod y ∧ |x.fmod y| < |y| ∧ (x.fmod y = 0 ∨ (x.fmod y < 0 ↔ y < 0)) := by
  have divides : y ∣ x - x.fmod y := ⟨x.fdiv y, by have := Int.mul_fdiv_add_fmod x y; omega⟩
  refine ⟨divides, ?_⟩
  rcases Int.lt_or_gt_of_ne nonzero with negative | positive
  · -- Both signs turned, the divisor is positive.
    have opposite : 0 < -y := by omega
    have turned := Int.neg_fmod_neg x y
    have low := Int.fmod_nonneg_of_pos (-x) opposite
    have high := Int.fmod_lt_of_pos (-x) opposite
    rw [abs_of_nonpos (by omega), abs_of_neg negative]
    omega
  · have low := Int.fmod_nonneg_of_pos x positive
    have high := Int.fmod_lt_of_pos x positive
    rw [abs_of_nonneg low, abs_of_pos positive]
    omega

/-- The word of a number other than zero is not zero. -/
theorem ofNat_ne_zero {width value : Nat} (small : value < 2 ^ width) (nonzero : value ≠ 0) :
    BitVec.ofNat width value ≠ BitVec.ofNat width 0 := by
  intro same
  have values := congrArg BitVec.toNat same
  rw [BitVec.toNat_ofNat, BitVec.toNat_ofNat, Nat.mod_eq_of_lt small, Nat.zero_mod] at values
  exact nonzero values

/--
Division of words told by numbers.  Away from zero divisors the signed quotient is truncated and
wraps, and the signed remainder has the sign of the divisor.
-/
structure Divides (width a b : Nat) : Prop where
  byZero : b = 0 → binary .udiv a b width width = .ok (2 ^ width - 1) ∧
    binary .sdiv a b width width =
      .ok (if (BitVec.ofNat width a).toInt < 0 then 1 else 2 ^ width - 1) ∧
    binary .smod a b width width = .ok a
  unsigned : b ≠ 0 → binary .udiv a b width width = .ok (a / b)
  truncated : b ≠ 0 → ∃ quotient : BitVec width,
    binary .sdiv a b width width = .ok quotient.toNat ∧
    quotient.toInt =
      ((BitVec.ofNat width a).toInt.tdiv (BitVec.ofNat width b).toInt).bmod (2 ^ width)
  remainder : b ≠ 0 → ∃ rest : BitVec width,
    binary .smod a b width width = .ok rest.toNat ∧
    (BitVec.ofNat width b).toInt ∣ (BitVec.ofNat width a).toInt - rest.toInt ∧
    |rest.toInt| < |(BitVec.ofNat width b).toInt| ∧
    (rest.toInt = 0 ∨ (rest.toInt < 0 ↔ (BitVec.ofNat width b).toInt < 0))

section OneWidth

variable {width a b : Nat} (fits : width ≤ maxWidth) (smallA : a < 2 ^ width)
  (smallB : b < 2 ^ width)

include fits smallA smallB

theorem divides : Divides width a b where
  byZero := by
    rintro rfl
    have ones := bound_eq_pow fits
    have reading : toSigned a width = (BitVec.ofNat width a).toInt := by
      rw [← toSigned_toNat fits, BitVec.toNat_ofNat, Nat.mod_eq_of_lt smallA]
    have zero : toSigned 0 width = 0 := by simp [toSigned]
    simp only [binary, fault?_eq_none fits]
    unfold apply
    simp only [reading, zero, mask, ones, if_true]
    refine ⟨trivial, ?_, trivial⟩
    by_cases negative : (BitVec.ofNat width a).toInt < 0
    · rw [if_pos negative, if_neg (Int.not_le.mpr negative)]
    · rw [if_neg negative, if_pos (Int.not_lt.mp negative)]
  unsigned := by
    intro nonzero
    simp only [binary, fault?_eq_none fits]
    unfold apply
    simp only [if_neg nonzero]
  truncated := by
    intro nonzero
    refine ⟨_, binary_eq_onWords fits smallA smallB (by decide), ?_⟩
    rw [smtSDiv_eq_sdiv (ofNat_ne_zero smallB nonzero), BitVec.toInt_sdiv]
  remainder := by
    intro nonzero
    have divisor : (BitVec.ofNat width b).toInt ≠ 0 := by
      intro reading
      apply ofNat_ne_zero smallB nonzero
      exact BitVec.eq_of_toInt_eq (by rw [reading, BitVec.toInt_zero])
    refine ⟨_, binary_eq_onWords fits smallA smallB (by decide), ?_⟩
    rw [BitVec.toInt_smod]
    exact fmod_of_ne_zero divisor

/-! ## Shifts -/

/-- Shifts of words told by numbers, by any number of places. -/
structure Shifts (width a b : Nat) : Prop where
  left : binary .sll a b width width = .ok (a * 2 ^ b % 2 ^ width)
  right : binary .srl a b width width = .ok (a / 2 ^ b)
  signed : ∃ shifted : BitVec width, binary .sra a b width width = .ok shifted.toNat ∧
    shifted.toInt = (BitVec.ofNat width a).toInt / 2 ^ b

theorem shifts : Shifts width a b where
  left := by
    rw [binary_eq_onWords fits smallA smallB (by decide)]
    simp only [BinaryOp.onWords, BitVec.shiftLeft_eq', BitVec.toNat_shiftLeft, BitVec.toNat_ofNat,
      Nat.mod_eq_of_lt smallA, Nat.mod_eq_of_lt smallB, Nat.shiftLeft_eq]
  right := by
    rw [binary_eq_onWords fits smallA smallB (by decide)]
    simp only [BinaryOp.onWords, BitVec.ushiftRight_eq', BitVec.toNat_ushiftRight,
      BitVec.toNat_ofNat, Nat.mod_eq_of_lt smallA, Nat.mod_eq_of_lt smallB,
      Nat.shiftRight_eq_div_pow]
  signed := by
    refine ⟨_, binary_eq_onWords fits smallA smallB (by decide), ?_⟩
    rw [BitVec.toInt_sshiftRight', BitVec.toNat_ofNat, Nat.mod_eq_of_lt smallB,
      Int.shiftRight_eq_div_pow]
    norm_cast

end OneWidth

/-! ## All operators -/

/--
On words of one width, of at most 64 bits, every operator has the value of the operation on bit
vectors, below the power of two of its result width.  A concatenation puts one number in front of
another, the complement turns all bits, and a slice takes the bits between two positions.
-/
theorem operators_exact {width a b : Nat} (fits : width ≤ maxWidth) (smallA : a < 2 ^ width)
    (smallB : b < 2 ^ width) :
    (∀ op : BinaryOp, op ≠ .concat →
      binary op a b width width =
        .ok (op.onWords (BitVec.ofNat width a) (BitVec.ofNat width b)) ∧
      op.onWords (BitVec.ofNat width a) (BitVec.ofNat width b) < 2 ^ resultWidth op width width) ∧
    Divides width a b ∧ Shifts width a b ∧
    (∀ other c, width + other ≤ maxWidth → c < 2 ^ other →
      binary .concat a c width other = .ok (a * 2 ^ other + c) ∧
      a * 2 ^ other + c < 2 ^ resultWidth .concat width other) ∧
    complement a width = (~~~ BitVec.ofNat width a).toNat ∧
    ∀ high low, low ≤ high → high < width →
      slice a high low = .ok ((BitVec.ofNat width a).extractLsb high low).toNat := by
  refine ⟨?_, divides fits smallA smallB, shifts fits smallA smallB, ?_,
    complement_eq fits smallA, fun high low => slice_eq_extractLsb fits smallA⟩
  · intro op single
    exact ⟨binary_eq_onWords fits smallA smallB single, onWords_lt _ _ single⟩
  · intro other c fitsBoth smallC
    have widths : Operands .concat width other :=
      ⟨fits, fun single => absurd rfl single, fun _ => fitsBoth⟩
    rw [← meaning_concat smallA smallC]
    exact ⟨binary_eq_ok widths smallA smallC, meaning_lt widths a c⟩

/-- The least number of eight bits, divided by minus one, and in front of two more bits. -/
theorem operators_exact_least :
    8 ≤ maxWidth ∧ 128 < 2 ^ 8 ∧ 255 < 2 ^ 8 ∧ binary .sdiv 128 255 8 8 = .ok 128 ∧
      binary .concat 128 3 8 2 = .ok 515 ∧ slice 128 7 6 = .ok 2 := by
  have fits : 8 ≤ maxWidth := by decide
  have smallA : 128 < 2 ^ 8 := by decide
  have smallB : 255 < 2 ^ 8 := by decide
  obtain ⟨values, -, -, joined, -, sliced⟩ := operators_exact fits smallA smallB
  exact ⟨fits, smallA, smallB, (values .sdiv (by decide)).1,
    (joined 2 3 (by decide) (by decide)).1, sliced 7 6 (by decide) (by decide)⟩

end BoundedCheck.Word
