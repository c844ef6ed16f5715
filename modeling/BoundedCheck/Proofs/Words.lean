import Mathlib
import BoundedCheck.Design.Meaning
import BoundedCheck.Word

/-!
# Words are bit vectors

On words of at most 64 bits the operators compute what the operations on bit vectors of the same
widths do, and the results are words of the width that the operator announces.
-/

namespace BoundedCheck.Word

theorem bound_eq_pow {width : Nat} (fits : width ≤ maxWidth) : bound width = 2 ^ width := by
  rw [bound_eq, Nat.one_shiftLeft, Nat.min_eq_left fits]

theorem mask_eq_allOnes {width : Nat} (fits : width ≤ maxWidth) :
    mask width = (BitVec.allOnes width).toNat := by
  rw [mask, bound_eq_pow fits, BitVec.toNat_allOnes]

/-! ## Two's complement -/

theorem toSigned_toNat {width : Nat} (fits : width ≤ maxWidth) (x : BitVec width) :
    toSigned x.toNat width = x.toInt := by
  rw [toSigned, bound_eq_pow fits, BitVec.toInt_eq_toNat_bmod]

/-- A bit vector is told by its two's complement reading. -/
theorem ofInt_eq_of_toInt {width : Nat} (fits : width ≤ maxWidth) {value : Int} {x : BitVec width}
    (reading : x.toInt = value.bmod (2 ^ width)) : ofInt width value = x.toNat := by
  rw [ofInt, bound_eq_pow fits, ← BitVec.toNat_ofInt]
  congr 1
  apply BitVec.eq_of_toInt_eq
  rw [BitVec.toInt_ofInt, reading]

/-- Away from zero divisors the two conventions of signed division agree. -/
theorem smtSDiv_eq_sdiv {width : Nat} {x y : BitVec width} (nonzero : y ≠ BitVec.ofNat width 0) :
    x.smtSDiv y = x.sdiv y := by
  have opposite : -y ≠ BitVec.ofNat width 0 := fun zero => nonzero (BitVec.neg_eq_zero_iff.mp zero)
  unfold BitVec.smtSDiv BitVec.sdiv
  cases x.msb <;> cases y.msb <;> simp [BitVec.smtUDiv_eq, nonzero, opposite]

/-! ## Operators on words of one width -/

theorem apply_srl {width : Nat} (x y : BitVec width) :
    apply .srl x.toNat y.toNat width width = (x >>> y).toNat := by
  unfold apply
  simp only [BitVec.ushiftRight_eq', BitVec.toNat_ushiftRight]
  split
  case isTrue beyond =>
    have small : x.toNat < 2 ^ y.toNat :=
      Nat.lt_of_lt_of_le x.isLt (Nat.pow_le_pow_right (by decide) beyond)
    rw [Nat.shiftRight_eq_div_pow, Nat.div_eq_of_lt small]
  case isFalse => rfl

section OneWidth

variable {width : Nat} (fits : width ≤ maxWidth) (x y : BitVec width)

include fits

theorem apply_sdiv : apply .sdiv x.toNat y.toNat width width = (x.smtSDiv y).toNat := by
  unfold apply
  simp only [toSigned_toNat fits]
  by_cases zero : y = BitVec.ofNat width 0
  · subst zero
    rw [if_pos BitVec.toInt_zero]
    unfold BitVec.smtSDiv
    cases negative : x.msb with
    | false =>
        rw [if_pos (BitVec.toInt_nonneg_of_msb_false negative), mask_eq_allOnes fits]
        simp
    | true =>
        have below : x.toInt < 0 := BitVec.toInt_neg_of_msb_true negative
        rw [if_neg (Int.not_le.mpr below)]
        have positive : width ≠ 0 := by
          rintro rfl
          simp [BitVec.eq_nil x] at negative
        have large : 1 < 2 ^ width := Nat.one_lt_two_pow positive
        have difference : 2 ^ width - (2 ^ width - 1) = 1 := by omega
        simp [difference, Nat.mod_eq_of_lt large]
  · have nonzero : y.toInt ≠ 0 := fun reading =>
      zero (BitVec.eq_of_toInt_eq (by rw [reading, BitVec.toInt_zero]))
    rw [if_neg nonzero, smtSDiv_eq_sdiv zero]
    exact ofInt_eq_of_toInt fits (BitVec.toInt_sdiv x y)

theorem apply_smod : apply .smod x.toNat y.toNat width width = (x.smod y).toNat := by
  unfold apply
  simp only [toSigned_toNat fits]
  split
  case isTrue reading =>
    have zero : y = BitVec.ofNat width 0 := BitVec.eq_of_toInt_eq (by rw [reading, BitVec.toInt_zero])
    rw [zero, BitVec.smod_zero]
  case isFalse =>
    apply ofInt_eq_of_toInt fits
    rw [← BitVec.toInt_smod, BitVec.toInt_bmod_cancel]

theorem apply_sll : apply .sll x.toNat y.toNat width width = (x <<< y).toNat := by
  unfold apply
  simp only [BitVec.shiftLeft_eq', BitVec.toNat_shiftLeft, bound_eq_pow fits]
  split
  case isTrue beyond =>
    obtain ⟨extra, shift⟩ := Nat.exists_eq_add_of_le beyond
    rw [shift, Nat.shiftLeft_eq, Nat.pow_add, Nat.mul_left_comm, Nat.mul_mod_right]
  case isFalse => rfl

theorem apply_sra : apply .sra x.toNat y.toNat width width = (x.sshiftRight' y).toNat := by
  unfold apply
  simp only [toSigned_toNat fits]
  have reading : (x.sshiftRight' y).toInt = (x.toInt >>> y.toNat).bmod (2 ^ width) := by
    rw [← BitVec.toInt_sshiftRight', BitVec.toInt_bmod_cancel]
  split
  case isTrue beyond =>
    have small {value : Nat} (below : value < 2 ^ width) : value >>> y.toNat = 0 := by
      rw [Nat.shiftRight_eq_div_pow]
      exact Nat.div_eq_of_lt (Nat.lt_of_lt_of_le below (Nat.pow_le_pow_right (by decide) beyond))
    cases negative : x.msb with
    | false =>
        rw [if_neg (Int.not_lt.mpr (BitVec.toInt_nonneg_of_msb_false negative)),
          BitVec.toNat_sshiftRight'_of_msb_false negative, small x.isLt]
    | true =>
        have below : 2 ^ width - 1 - x.toNat < 2 ^ width := by have := x.isLt; omega
        rw [if_pos (BitVec.toInt_neg_of_msb_true negative), mask, bound_eq_pow fits,
          BitVec.toNat_sshiftRight'_of_msb_true negative, small below, Nat.sub_zero]
  case isFalse => exact ofInt_eq_of_toInt fits reading

theorem complement_toNat : complement x.toNat width = (~~~x).toNat := by
  rw [complement, bound_eq_pow fits, Nat.mod_eq_of_lt x.isLt, BitVec.toNat_not]

theorem apply_implies : apply .implies x.toNat y.toNat width width = (~~~x ||| y).toNat := by
  unfold apply
  simp only [complement_toNat fits, bound_eq_pow fits]
  rw [← BitVec.toNat_or, Nat.mod_eq_of_lt (BitVec.isLt _)]

theorem apply_iff : apply .iff x.toNat y.toNat width width = (~~~(x ^^^ y)).toNat := by
  unfold apply
  simp only
  rw [← BitVec.toNat_xor, complement_toNat fits]

theorem apply_udiv : apply .udiv x.toNat y.toNat width width = (x.smtUDiv y).toNat := by
  unfold apply
  simp only [BitVec.smtUDiv_eq, mask_eq_allOnes fits]
  by_cases zero : y = BitVec.ofNat width 0
  · subst zero
    simp
  · have nonzero : y.toNat ≠ 0 := fun value => zero (BitVec.eq_of_toNat_eq value)
    rw [if_neg nonzero, if_neg zero, BitVec.toNat_udiv]

/-- All operators but concatenation work on operands of one width. -/
theorem apply_toNat {op : BinaryOp} (single : op ≠ .concat) :
    apply op x.toNat y.toNat width width = op.onWords x y := by
  cases op with
  | concat => exact absurd rfl single
  | add => simp [apply, BinaryOp.onWords, bound_eq_pow fits]
  | sub =>
      simp [apply, BinaryOp.onWords, bound_eq_pow fits, BitVec.toNat_sub,
        Nat.mod_eq_of_lt y.isLt, Nat.add_comm]
  | mul => simp [apply, BinaryOp.onWords, bound_eq_pow fits]
  | sdiv => exact apply_sdiv fits x y
  | udiv => exact apply_udiv fits x y
  | smod => exact apply_smod fits x y
  | sll => exact apply_sll fits x y
  | srl => exact apply_srl x y
  | sra => exact apply_sra fits x y
  | implies => exact apply_implies fits x y
  | iff => exact apply_iff fits x y
  | sgt | sgte | slt | slte =>
      simp [apply, BinaryOp.onWords, ofBool, toSigned_toNat fits, BitVec.slt_eq_decide,
        BitVec.sle_eq_decide]
  | ugt | ugte | ult | ulte =>
      simp [apply, BinaryOp.onWords, ofBool, BitVec.ult_eq_decide, BitVec.ule_eq_decide]
  | eq | neq =>
      simp [apply, BinaryOp.onWords, ofBool, BitVec.toNat_eq, bne, BEq.beq]
  | and | or | xor => simp [apply, BinaryOp.onWords]

end OneWidth

/-! ## Operators on words of two widths -/

theorem apply_concat {widthA widthB a b : Nat} (fitsBoth : widthA + widthB ≤ maxWidth)
    (smallA : a < 2 ^ widthA) (smallB : b < 2 ^ widthB) :
    apply .concat a b widthA widthB = BinaryOp.meaning .concat widthA widthB a b := by
  have joined : BinaryOp.meaning .concat widthA widthB a b = a <<< widthB ||| b := by
    simp [BinaryOp.meaning, Nat.mod_eq_of_lt smallA, Nat.mod_eq_of_lt smallB]
  have below : BinaryOp.meaning .concat widthA widthB a b < 2 ^ (widthA + widthB) :=
    BitVec.isLt _
  unfold apply
  simp only
  split
  case isTrue whole =>
    have empty : widthA = 0 := by omega
    subst empty
    have zero : a = 0 := by simpa using smallA
    rw [joined, zero, Nat.zero_shiftLeft, Nat.zero_or]
  case isFalse =>
    rw [bound_eq_pow fitsBoth, ← joined, Nat.mod_eq_of_lt below]

/-- The widths that an operator can be applied to. -/
structure Operands (op : BinaryOp) (widthA widthB : Nat) : Prop where
  fits : widthA ≤ maxWidth
  alike : op ≠ .concat → widthB = widthA
  joint : op = .concat → widthA + widthB ≤ maxWidth

theorem apply_eq_meaning {op : BinaryOp} {widthA widthB a b : Nat}
    (widths : Operands op widthA widthB) (smallA : a < 2 ^ widthA) (smallB : b < 2 ^ widthB) :
    apply op a b widthA widthB = op.meaning widthA widthB a b := by
  by_cases joins : op = .concat
  · subst joins
    exact apply_concat (widths.joint rfl) smallA smallB
  · have same := widths.alike joins
    subst same
    have readA : (BitVec.ofNat widthB a).toNat = a := Nat.mod_eq_of_lt smallA
    have readB : (BitVec.ofNat widthB b).toNat = b := Nat.mod_eq_of_lt smallB
    have single := apply_toNat widths.fits (BitVec.ofNat widthB a) (BitVec.ofNat widthB b) joins
    rw [readA, readB] at single
    rw [single]
    cases op <;> rfl

theorem onWords_lt {width : Nat} (x y : BitVec width) {op : BinaryOp} (single : op ≠ .concat) :
    op.onWords x y < 2 ^ resultWidth op width width := by
  cases op with
  | concat => exact absurd rfl single
  | eq | neq | ugt | sgt | ugte | sgte | ult | slt | ulte | slte => exact Bool.toNat_lt _
  | add | sub | mul | sdiv | udiv | smod | sll | srl | sra | and | or | xor | implies | iff =>
      exact BitVec.isLt _

theorem resultWidth_concat {widthA widthB : Nat} (fitsBoth : widthA + widthB ≤ maxWidth) :
    resultWidth .concat widthA widthB = widthA + widthB := by
  have narrow : widthA + widthB ≤ narrowBound - 1 := Nat.le_trans fitsBoth (by decide)
  simp [resultWidth, BinaryOp.isComparison, Nat.min_eq_left narrow]

theorem meaning_lt {op : BinaryOp} {widthA widthB : Nat} (widths : Operands op widthA widthB)
    (a b : Nat) :
    op.meaning widthA widthB a b < 2 ^ resultWidth op widthA widthB := by
  by_cases joins : op = .concat
  · subst joins
    rw [resultWidth_concat (widths.joint rfl)]
    exact BitVec.isLt _
  · rw [widths.alike joins]
    have single := onWords_lt (BitVec.ofNat widthA a) (BitVec.ofNat widthA b) joins
    cases op <;> exact single

theorem binary_eq_ok {op : BinaryOp} {widthA widthB a b : Nat}
    (widths : Operands op widthA widthB) (smallA : a < 2 ^ widthA) (smallB : b < 2 ^ widthB) :
    binary op a b widthA widthB = .ok (op.meaning widthA widthB a b) := by
  rw [binary, fault?_eq_none widths.fits, apply_eq_meaning widths smallA smallB]

theorem complement_eq {width value : Nat} (fits : width ≤ maxWidth) (small : value < 2 ^ width) :
    complement value width = (~~~ BitVec.ofNat width value).toNat := by
  rw [← complement_toNat fits, BitVec.toNat_ofNat, Nat.mod_eq_of_lt small]

theorem slice_eq {value wide low count : Nat} (positive : 0 < count) (inside : low + count ≤ wide)
    (fits : wide ≤ maxWidth) (small : value < 2 ^ wide) :
    slice value (low + (count - 1)) low =
      .ok ((BitVec.ofNat wide value).extractLsb' low count).toNat := by
  have size : low + (count - 1) - low + 1 = count := by omega
  have short : count ≤ maxWidth := Nat.le_trans (Nat.le_of_add_left_le inside) fits
  have narrowed : narrow count = .ok count :=
    narrow_eq_ok (Nat.lt_of_le_of_lt short (by decide))
  rw [slice, sliceWidth, size, narrowed]
  simp [bound_eq_pow short, Nat.mod_eq_of_lt small]

end BoundedCheck.Word
