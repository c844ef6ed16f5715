import Mathlib
import BoundedCheck.Proofs.Arithmetic
import BoundedCheck.Proofs.Constants

/-!
# Words of a machine

A machine has registers of 64 bits, and counts widths with 32 bits.  It refuses to shift a register
by 64 places or more, to divide by zero, to compute beyond a range, and to read or write beyond an
array.  When it computes the operators on words step by step it comes to the same results and to the
same faults, on operands of any widths and with any bits above them.
-/

namespace BoundedCheck.Machine

open Word (maxWidth)

/-! ## Instructions -/

/-- A register with its bits moved up; those that leave it are lost. -/
def shiftLeft (value places : Nat) : Except Fault Nat :=
  if places < maxWidth then .ok ((value <<< places) % wideBound) else .error .shift

/-- A register with its bits moved down. -/
def shiftRight (value places : Nat) : Except Fault Nat :=
  if places < maxWidth then .ok (value >>> places) else .error .shift

/-- A register with sign, its bits moved down. -/
def shiftSigned (value : Int) (places : Nat) : Except Fault Int :=
  if places < maxWidth then .ok (value >>> places) else .error .shift

/-- What is left of a number without sign. -/
def difference (a b : Nat) : Except Fault Nat :=
  if b ≤ a then .ok (a - b) else .error .overflow

/-- The quotient of numbers without sign. -/
def quotient (a b : Nat) : Except Fault Nat :=
  if b = 0 then .error .division else .ok (a / b)

/-- The quotient of numbers of 128 bits with sign, rounded towards zero. -/
def signedQuotient (a b : Int) : Except Fault Int :=
  if b = 0 then .error .division else Constant.signed (a.tdiv b)

/-- The remainder of numbers of 128 bits with sign, which is refused with the quotient. -/
def signedRemainder (a b : Int) : Except Fault Int := do
  let _ ← signedQuotient a b
  return a.tmod b

/-- The entry of an array at a place. -/
def fetch {α : Type} (entries : Array α) (place : Nat) : Except Fault α :=
  match entries[place]? with
  | some entry => .ok entry
  | none => .error .index

/-- An array with another entry at a place. -/
def store {α : Type} (entries : Array α) (place : Nat) (entry : α) : Except Fault (Array α) :=
  if place < entries.size then .ok (entries.setIfInBounds place entry) else .error .index

/-- The two's complement reading of a register. -/
def reading (value : Nat) : Int :=
  (value : Int).bmod wideBound

/-- The lowest 64 bits of a number with sign. -/
def lowBits (value : Int) : Nat :=
  (value % wideBound).toNat

/-- A register with all bits turned. -/
def turned (value : Nat) : Nat :=
  wideBound - 1 - value

/-! ## Operators -/

/-- The register with the bits of a width set. -/
def mask (width : Nat) : Except Fault Nat :=
  if maxWidth ≤ width then .ok (wideBound - 1)
  else do
    difference (← shiftLeft 1 width) 1

/-- The two's complement reading of a word, by shifting its sign to the top and back. -/
def toSigned (value width : Nat) : Except Fault Int :=
  if width = 0 then .ok 0
  else do
    let places ← difference maxWidth (min width maxWidth)
    shiftSigned (reading (← shiftLeft value places)) places

/-- All bits of a word turned. -/
def complement (value width : Nat) : Except Fault Nat := do
  return turned value &&& (← mask width)

/-- The bits of a word between two positions; a shift out of the register leaves nothing. -/
def slice (value high low : Nat) : Except Fault Nat := do
  let width ← narrow (high - low + 1)
  let rest := if low < maxWidth then value >>> low else 0
  return rest &&& (← mask width)

/-- The signed remainder with the sign of the divisor, before it is reduced to a width. -/
def modulo (x y : Int) : Except Fault Int := do
  let rest ← signedRemainder x y
  if rest ≠ 0 ∧ ¬ (rest < 0 ↔ y < 0) then Constant.signed (rest + y) else return rest

/-- The result of an operator. -/
def binary (op : BinaryOp) (a b widthA widthB : Nat) : Except Fault Nat := do
  let ones ← mask widthA
  let x ← toSigned a widthA
  let y ← toSigned b widthA
  match op with
  | .add => return (a + b) % wideBound &&& ones
  | .sub => return (a + (wideBound - b)) % wideBound &&& ones
  | .mul => return (a * b) % wideBound &&& ones
  | .udiv => if b = 0 then return ones else quotient a b
  | .sdiv =>
    if y = 0 then return if 0 ≤ x then ones else 1
    else return lowBits (← signedQuotient x y) &&& ones
  | .smod => if y = 0 then return a else return lowBits (← modulo x y) &&& ones
  | .sll => if widthA ≤ b then return 0 else return (← shiftLeft a b) &&& ones
  | .srl => if widthA ≤ b then return 0 else shiftRight a b
  | .sra =>
    if widthA ≤ b then return if x < 0 then ones else 0
    else return lowBits (← shiftSigned x b) &&& ones
  | .and => return a &&& b
  | .or => return a ||| b
  | .xor => return a ^^^ b
  | .concat =>
    if maxWidth ≤ widthB then return b
    else
      let high ← shiftLeft a widthB
      let width ← narrow (widthA + widthB)
      return (high ||| b) &&& (← mask width)
  | .eq => return Word.ofBool (a == b)
  | .neq => return Word.ofBool (a != b)
  | .ugt => return Word.ofBool (b < a)
  | .sgt => return Word.ofBool (y < x)
  | .ugte => return Word.ofBool (b ≤ a)
  | .sgte => return Word.ofBool (y ≤ x)
  | .ult => return Word.ofBool (a < b)
  | .slt => return Word.ofBool (x < y)
  | .ulte => return Word.ofBool (a ≤ b)
  | .slte => return Word.ofBool (x ≤ y)
  | .implies => return (turned a ||| b) &&& ones
  | .iff => return turned (a ^^^ b) &&& ones

/-! ## Masks -/

theorem shiftLeft_eq_ok {value places : Nat} (inside : places < maxWidth) :
    shiftLeft value places = .ok ((value <<< places) % wideBound) :=
  if_pos inside

theorem bound_dvd_wideBound (width : Nat) : Word.bound width ∣ wideBound := by
  rw [Constant.bound_eq_min]
  exact Nat.pow_dvd_pow 2 (Nat.min_le_right _ _)

theorem mask_eq_ok (width : Nat) : mask width = .ok (Word.mask width) := by
  unfold mask Word.mask
  rw [Constant.bound_eq_min]
  split
  · rename_i wide
    rw [Nat.min_eq_right (show 64 ≤ width from wide)]
    rfl
  · rename_i narrow
    have inside : width < maxWidth := Nat.not_le.mp narrow
    have small : 2 ^ width < wideBound := Nat.pow_lt_pow_right (by decide) inside
    have least : min width 64 = width := Nat.min_eq_left (Nat.le_of_lt inside)
    have positive : 1 ≤ 2 ^ width := Nat.one_le_two_pow
    rw [shiftLeft_eq_ok inside, Nat.one_shiftLeft, Nat.mod_eq_of_lt small, least]
    exact if_pos positive

/-- What a mask leaves of a number. -/
theorem and_mask (value width : Nat) : value &&& Word.mask width = value % Word.bound width := by
  rw [Word.mask, Constant.bound_eq_min, Nat.and_two_pow_sub_one_eq_mod]

theorem mod_wideBound_mod (value width : Nat) :
    value % wideBound % Word.bound width = value % Word.bound width :=
  Nat.mod_mod_of_dvd value (bound_dvd_wideBound width)

/-! ## Two's complement -/

/-- The reading of a multiple is a multiple of the reading. -/
theorem bmod_mul (x : Int) (modulus : Nat) {factor : Nat} (positive : 0 < factor) :
    (x * factor).bmod (modulus * factor) = x.bmod modulus * factor := by
  have scaled : x * factor % (modulus * factor : Nat) = x % modulus * factor := by
    push_cast
    rw [mul_comm x, mul_comm (modulus : Int), Int.mul_emod_mul_of_pos _ _ (by omega), mul_comm]
  have halves : x % modulus * factor < ((modulus * factor : Nat) + 1) / 2 ↔
      x % modulus < ((modulus : Int) + 1) / 2 := by
    have factored : x % modulus * factor * 2 < (modulus * factor : Nat) ↔
        x % modulus * 2 < modulus := by
      push_cast
      rw [mul_right_comm]
      exact mul_lt_mul_iff_left₀ (by omega)
    omega
  rw [Int.bmod_def, Int.bmod_def, scaled]
  simp only [halves]
  split
  · rfl
  · push_cast
    ring

theorem toSigned_eq_ok (value width : Nat) :
    toSigned value width = .ok (Word.toSigned value width) := by
  unfold toSigned Word.toSigned
  rw [Constant.bound_eq_min]
  split
  · rename_i empty
    rw [empty, Nat.zero_min, pow_zero, Int.bmod_one]
  · rename_i nonempty
    have least : min width maxWidth ≤ maxWidth := Nat.min_le_right _ _
    have inside : maxWidth - min width maxWidth < maxWidth := by
      simp only [maxWidth]
      omega
    have whole : wideBound = 2 ^ min width maxWidth * 2 ^ (maxWidth - min width maxWidth) := by
      rw [← Nat.pow_add, Nat.add_sub_cancel' least]
      rfl
    have restored : reading (value <<< (maxWidth - min width maxWidth) % wideBound) =
        (value : Int).bmod (2 ^ min width maxWidth) *
          (2 ^ (maxWidth - min width maxWidth) : Nat) := by
      rw [reading, Int.natCast_emod, Int.emod_bmod, Nat.shiftLeft_eq, Int.natCast_mul]
      nth_rewrite 1 [whole]
      exact bmod_mul _ _ (Nat.two_pow_pos _)
    simp only [difference, if_pos least, bind, Except.bind, shiftLeft_eq_ok inside, restored,
      shiftSigned, if_pos inside]
    rw [Int.shiftRight_eq_div_pow, Int.mul_ediv_cancel _ (by positivity)]
    rfl

/-- A word is read from the lowest 64 bits of a number. -/
theorem lowBits_and_mask (value : Int) (width : Nat) :
    lowBits value &&& Word.mask width = Word.ofInt width value := by
  have positive : (0 : Int) ≤ value % wideBound := Int.emod_nonneg _ (by decide)
  have divides : (Word.bound width : Int) ∣ (wideBound : Int) :=
    Int.natCast_dvd_natCast.mpr (bound_dvd_wideBound width)
  rw [and_mask, lowBits, Word.ofInt, ← Int.emod_emod_of_dvd value divides,
    Int.toNat_emod positive (Int.natCast_nonneg _), Int.toNat_natCast]

theorem toSigned_range (value width : Nat) :
    -2 ^ 63 ≤ Word.toSigned value width ∧ Word.toSigned value width < 2 ^ 63 := by
  have positive := Word.bound_pos width
  have large : (Word.bound width : Int) ≤ 2 ^ 64 := by exact_mod_cast Word.bound_le width
  have low := Int.le_bmod (x := value) positive
  have high := Int.bmod_lt (x := value) positive
  unfold Word.toSigned
  omega

/-! ## Quotients and remainders -/

section Division

variable {x y : Int}

/-- A quotient is no larger than the dividend. -/
theorem signedQuotient_eq_ok (least : -2 ^ 63 ≤ x) (greatest : x < 2 ^ 63) (nonzero : y ≠ 0) :
    signedQuotient x y = .ok (x.tdiv y) := by
  have smaller := Int.natAbs_tdiv_le_natAbs x y
  rw [signedQuotient, if_neg nonzero]
  exact Constant.signed_eq_ok (by omega) (by omega)

/-- A remainder by truncation becomes one by floor division if its sign is corrected. -/
theorem fmod_eq_corrected (x y : Int) :
    x.fmod y = if x.tmod y ≠ 0 ∧ ¬ (x.tmod y < 0 ↔ y < 0) then x.tmod y + y else x.tmod y := by
  have divisible : y ∣ x ↔ x.tmod y = 0 := Int.dvd_iff_tmod_eq_zero
  rw [Int.fmod_eq_tmod]
  rcases Int.lt_or_le x 0 with negative | nonnegative
  · have sign : x.tmod y ≤ 0 := by
      have opposite := Int.tmod_nonneg (a := -x) y (by omega)
      rw [Int.neg_tmod] at opposite
      omega
    simp only [divisible, if_neg (Int.not_le.mpr negative)]
    split_ifs <;> omega
  · have sign : 0 ≤ x.tmod y := Int.tmod_nonneg y nonnegative
    simp only [divisible, if_pos nonnegative]
    split_ifs <;> omega

theorem modulo_eq_ok (least : -2 ^ 63 ≤ x) (greatest : x < 2 ^ 63) (leastY : -2 ^ 63 ≤ y)
    (greatestY : y < 2 ^ 63) (nonzero : y ≠ 0) : modulo x y = .ok (x.fmod y) := by
  have divided := signedQuotient_eq_ok least greatest nonzero
  have smaller : (x.tmod y).natAbs < y.natAbs := by
    rw [Int.natAbs_tmod]
    exact Nat.mod_lt _ (by omega)
  have sum : Constant.signed (x.tmod y + y) = .ok (x.tmod y + y) :=
    Constant.signed_eq_ok (by omega) (by omega)
  rw [fmod_eq_corrected]
  simp only [modulo, signedRemainder, divided, sum, bind, Except.bind, pure, Except.pure]
  split <;> rfl

end Division

/-! ## Operators on words -/

section Operators

variable {a b widthA widthB : Nat}

theorem turned_mod (small : a < wideBound) (width : Nat) :
    turned a % Word.bound width = Word.complement a width := by
  obtain ⟨factor, whole⟩ := bound_dvd_wideBound width
  rw [whole] at small
  rw [turned, Word.complement, whole, Nat.sub_sub, Nat.sub_sub, Nat.add_comm 1 a,
    Nat.mul_sub_mod small, Nat.add_comm 1]

theorem complement_lt (a width : Nat) : Word.complement a width < Word.bound width := by
  have positive := Word.bound_pos width
  unfold Word.complement
  omega

/-- A difference is the same modulo the width, whether it is wrapped at 64 bits or before. -/
theorem difference_mod (a : Nat) (small : b < wideBound) (width : Nat) :
    (a + (wideBound - b)) % wideBound % Word.bound width =
      (a + (Word.bound width - b % Word.bound width)) % Word.bound width := by
  have wraps : wideBound - b ≡ Word.bound width - b % Word.bound width [MOD Word.bound width] := by
    apply Nat.ModEq.add_right_cancel' b
    have below := Nat.mod_lt b (Word.bound_pos width)
    calc wideBound - b + b
        = wideBound := Nat.sub_add_cancel (Nat.le_of_lt small)
      _ ≡ 0 [MOD Word.bound width] := (Nat.modEq_zero_iff_dvd).mpr (bound_dvd_wideBound width)
      _ ≡ Word.bound width [MOD Word.bound width] := (Nat.modEq_zero_iff_dvd.mpr dvd_rfl).symm
      _ = Word.bound width - b % Word.bound width + b % Word.bound width := by omega
      _ ≡ Word.bound width - b % Word.bound width + b [MOD Word.bound width] :=
          (Nat.mod_modEq b _).add_left _
  rw [mod_wideBound_mod]
  exact wraps.add_left a

theorem or_mod (a b width : Nat) :
    (a ||| b) % Word.bound width = a % Word.bound width ||| b % Word.bound width := by
  rw [Constant.bound_eq_min, Nat.or_mod_two_pow]

theorem binary_of_fault {op : BinaryOp} {condition : Prop} [Decidable condition] {fault : Fault}
    (found : Word.fault? op b widthA widthB = if condition then some fault else none) (a : Nat) :
    Word.binary op a b widthA widthB =
      if condition then .error fault else .ok (Word.apply op a b widthA widthB) := by
  unfold Word.binary
  rw [found]
  by_cases faulty : condition
  · rw [if_pos faulty, if_pos faulty]
  · rw [if_neg faulty, if_neg faulty]

/-- The cases of a shift: beyond the width, inside the register, and outside of it. -/
theorem shift_cases (b widthA : Nat) :
    widthA ≤ b ∧ ¬ (b < widthA ∧ maxWidth ≤ b) ∨
      ¬ widthA ≤ b ∧ b < maxWidth ∧ ¬ (b < widthA ∧ maxWidth ≤ b) ∨
      ¬ widthA ≤ b ∧ ¬ b < maxWidth ∧ b < widthA ∧ maxWidth ≤ b := by
  omega

/-- A shift, given what it leaves beyond the width and what the register does inside of it. -/
theorem binary_of_shift {op : BinaryOp} (found : Word.fault? op b widthA widthB =
      if b < widthA ∧ maxWidth ≤ b then some .shift else none) {beyond : Nat}
    {moved : Except Fault Nat} (out : widthA ≤ b → beyond = Word.apply op a b widthA widthB)
    (near : ¬ widthA ≤ b → b < maxWidth → moved = .ok (Word.apply op a b widthA widthB))
    (far : ¬ b < maxWidth → moved = .error .shift) :
    (if widthA ≤ b then .ok beyond else moved) = Word.binary op a b widthA widthB := by
  rw [binary_of_fault found]
  rcases shift_cases b widthA with ⟨past, fine⟩ | ⟨within, inside, fine⟩ | ⟨within, outside, fault⟩
  · rw [if_pos past, if_neg fine, out past]
  · rw [if_neg within, if_neg fine, near within inside]
  · rw [if_neg within, if_pos fault, far outside]

/--
The operators computed by the machine: the same results, and the same faults, whatever the widths
are and whatever bits stand above them.
-/
theorem binary_eq (op : BinaryOp) (smallA : a < wideBound) (smallB : b < wideBound)
    (widthA widthB : Nat) : binary op a b widthA widthB = Word.binary op a b widthA widthB := by
  obtain ⟨leastA, greatestA⟩ := toSigned_range a widthA
  obtain ⟨leastB, greatestB⟩ := toSigned_range b widthA
  unfold binary
  rw [mask_eq_ok, toSigned_eq_ok, toSigned_eq_ok]
  simp only [bind, Except.bind, pure, Except.pure]
  cases op with
  | add => exact congrArg Except.ok ((and_mask _ _).trans (mod_wideBound_mod _ _))
  | sub => exact congrArg Except.ok ((and_mask _ _).trans (difference_mod a smallB _))
  | mul => exact congrArg Except.ok ((and_mask _ _).trans (mod_wideBound_mod _ _))
  | udiv =>
      change _ = Except.ok (if b = 0 then Word.mask widthA else a / b)
      by_cases zero : b = 0
      · rw [if_pos zero, if_pos zero]
      · rw [if_neg zero, if_neg zero, quotient, if_neg zero]
  | sdiv =>
      dsimp only
      change _ = Except.ok (if Word.toSigned b widthA = 0 then _ else _)
      by_cases zero : Word.toSigned b widthA = 0
      · rw [if_pos zero, if_pos zero]
      · rw [if_neg zero, if_neg zero, signedQuotient_eq_ok leastA greatestA zero]
        exact congrArg Except.ok (lowBits_and_mask _ _)
  | smod =>
      dsimp only
      change _ = Except.ok (if Word.toSigned b widthA = 0 then _ else _)
      by_cases zero : Word.toSigned b widthA = 0
      · rw [if_pos zero, if_pos zero]
      · rw [if_neg zero, if_neg zero, modulo_eq_ok leastA greatestA leastB greatestB zero]
        exact congrArg Except.ok (lowBits_and_mask _ _)
  | sll =>
      refine binary_of_shift rfl (fun past => (if_pos past).symm) (fun within inside => ?_)
        fun outside => by rw [shiftLeft, if_neg outside]
      rw [shiftLeft, if_pos inside]
      refine congrArg Except.ok (Eq.trans ?_ (if_neg within).symm)
      rw [and_mask, mod_wideBound_mod]
  | srl =>
      refine binary_of_shift rfl (fun past => (if_pos past).symm) (fun within inside => ?_)
        fun outside => by rw [shiftRight, if_neg outside]
      rw [shiftRight, if_pos inside]
      exact congrArg Except.ok (if_neg within).symm
  | sra =>
      refine binary_of_shift rfl (fun past => (if_pos past).symm) (fun within inside => ?_)
        fun outside => by rw [shiftSigned, if_neg outside]
      rw [shiftSigned, if_pos inside]
      exact congrArg Except.ok ((lowBits_and_mask _ _).trans (if_neg within).symm)
  | concat =>
      dsimp only
      rw [binary_of_fault rfl]
      by_cases whole : maxWidth ≤ widthB
      · rw [if_pos whole, if_neg (by omega)]
        exact congrArg Except.ok (if_pos whole).symm
      · have inside : widthB < maxWidth := Nat.not_le.mp whole
        rw [if_neg whole, shiftLeft, if_pos inside]
        rcases Nat.lt_or_ge (widthA + widthB) narrowBound with fits | large
        · rw [narrow_eq_ok fits, if_neg (by omega)]
          dsimp only
          rw [mask_eq_ok]
          refine congrArg Except.ok (Eq.trans ?_ (if_neg whole).symm)
          rw [and_mask, or_mod, mod_wideBound_mod, or_mod]
        · rw [narrow_eq_error large, if_pos ⟨inside, large⟩]
  | implies =>
      refine congrArg Except.ok ?_
      change _ = (Word.complement a widthA ||| b) % Word.bound widthA
      rw [and_mask, or_mod, turned_mod smallA, or_mod, Nat.mod_eq_of_lt (complement_lt a widthA)]
  | iff =>
      have small : a ^^^ b < wideBound := Nat.xor_lt_two_pow (n := 64) smallA smallB
      exact congrArg Except.ok ((and_mask _ _).trans (turned_mod small widthA))
  | and | or | xor | eq | neq | ugt | sgt | ugte | sgte | ult | slt | ulte | slte => rfl

theorem complement_eq_ok (small : a < wideBound) (width : Nat) :
    complement a width = .ok (Word.complement a width) := by
  unfold complement
  rw [mask_eq_ok]
  exact congrArg Except.ok ((and_mask _ _).trans (turned_mod small width))

/-- Nothing is left of a register that is shifted by more places than it has. -/
theorem shiftRight_or_zero (small : a < wideBound) (places : Nat) :
    (if places < maxWidth then a >>> places else 0) = a >>> places := by
  split
  · rfl
  · rename_i far
    have large : 2 ^ maxWidth ≤ 2 ^ places := Nat.pow_le_pow_right (by decide) (Nat.not_lt.mp far)
    rw [Nat.shiftRight_eq_div_pow, Nat.div_eq_of_lt (Nat.lt_of_lt_of_le small large)]

theorem slice_eq (small : a < wideBound) (high low : Nat) :
    slice a high low = Word.slice a high low := by
  unfold slice Word.slice Word.sliceWidth
  rw [shiftRight_or_zero small]
  cases narrow (high - low + 1) with
  | error fault => rfl
  | ok width =>
      simp only [bind, Except.bind, mask_eq_ok]
      exact congrArg Except.ok (and_mask _ _)

/--
On words of one width the machine computes the operations on bit vectors.  It puts words in front of
others, turns them and takes their bits as they are.
-/
theorem operators_onWords {width : Nat} (fits : width ≤ maxWidth) (smallA : a < 2 ^ width)
    (smallB : b < 2 ^ width) :
    (∀ op : BinaryOp, op ≠ .concat → binary op a b width width =
      .ok (op.onWords (BitVec.ofNat width a) (BitVec.ofNat width b))) ∧
    (∀ other c, width + other ≤ maxWidth → c < 2 ^ other →
      binary .concat a c width other = .ok (a * 2 ^ other + c)) ∧
    complement a width = .ok (~~~ BitVec.ofNat width a).toNat ∧
    ∀ high low, low ≤ high → high < width →
      slice a high low = .ok ((BitVec.ofNat width a).extractLsb high low).toNat := by
  have register {value places : Nat} (few : places ≤ maxWidth) (small : value < 2 ^ places) :
      value < wideBound :=
    Nat.lt_of_lt_of_le small (Nat.pow_le_pow_right (by decide) few)
  have wideA := register fits smallA
  refine ⟨fun op single => ?_, fun other c fitsBoth smallC => ?_, ?_,
    fun high low ordered inside => ?_⟩
  · rw [binary_eq op wideA (register fits smallB), Word.binary_eq_onWords fits smallA smallB single]
  · have widths : Word.Operands .concat width other :=
      ⟨fits, fun single => absurd rfl single, fun _ => fitsBoth⟩
    rw [binary_eq .concat wideA (register (by omega) smallC),
      Word.binary_eq_ok widths smallA smallC, Word.meaning_concat smallA smallC]
  · rw [complement_eq_ok wideA, Word.complement_eq fits smallA]
  · rw [slice_eq wideA, Word.slice_eq_extractLsb fits smallA ordered inside]

/-! ## Results fit a register -/

theorem ofInt_lt (width : Nat) (value : Int) : Word.ofInt width value < wideBound := by
  have positive : (0 : Int) < Word.bound width := by exact_mod_cast Word.bound_pos width
  have large := Word.bound_le width
  have below := Int.emod_lt_of_pos value positive
  have nonnegative := Int.emod_nonneg value (Int.ne_of_gt positive)
  unfold Word.ofInt
  omega

theorem mask_lt (width : Nat) : Word.mask width < wideBound := by
  have positive := Word.bound_pos width
  have large := Word.bound_le width
  unfold Word.mask
  omega

theorem mod_lt (value width : Nat) : value % Word.bound width < wideBound :=
  Nat.lt_of_lt_of_le (Nat.mod_lt _ (Word.bound_pos width)) (Word.bound_le width)

theorem ofBool_lt (holds : Bool) : Word.ofBool holds < wideBound :=
  Nat.lt_of_lt_of_le (Bool.toNat_lt holds) (by decide)

/-- No operator leaves the register, also on operands with bits above their widths. -/
theorem apply_lt (op : BinaryOp) (smallA : a < wideBound) (smallB : b < wideBound)
    (widthA widthB : Nat) : Word.apply op a b widthA widthB < wideBound := by
  have zero : 0 < wideBound := by decide
  cases op with
  | add | sub | mul | implies => exact mod_lt _ _
  | udiv =>
      unfold Word.apply
      dsimp only
      split
      · exact mask_lt widthA
      · exact Nat.lt_of_le_of_lt (Nat.div_le_self a b) smallA
  | sdiv =>
      unfold Word.apply
      dsimp only
      split
      · split
        · exact mask_lt widthA
        · decide
      · exact ofInt_lt _ _
  | smod =>
      unfold Word.apply
      dsimp only
      split
      · exact smallA
      · exact ofInt_lt _ _
  | sll =>
      unfold Word.apply
      dsimp only
      split
      · exact zero
      · exact mod_lt _ _
  | srl =>
      unfold Word.apply
      dsimp only
      split
      · exact zero
      · rw [Nat.shiftRight_eq_div_pow]
        exact Nat.lt_of_le_of_lt (Nat.div_le_self a _) smallA
  | sra =>
      unfold Word.apply
      dsimp only
      split
      · split
        · exact mask_lt widthA
        · exact zero
      · exact ofInt_lt _ _
  | concat =>
      unfold Word.apply
      dsimp only
      split
      · exact smallB
      · exact mod_lt _ _
  | iff => exact Nat.lt_of_lt_of_le (complement_lt _ _) (Word.bound_le widthA)
  | and => exact Nat.and_lt_two_pow (n := 64) a smallB
  | or => exact Nat.or_lt_two_pow (n := 64) smallA smallB
  | xor => exact Nat.xor_lt_two_pow (n := 64) smallA smallB
  | eq | neq | ugt | sgt | ugte | sgte | ult | slt | ulte | slte => exact ofBool_lt _

theorem lt_of_binary {op : BinaryOp} {value : Nat} (smallA : a < wideBound)
    (smallB : b < wideBound) (computed : Word.binary op a b widthA widthB = .ok value) :
    value < wideBound := by
  unfold Word.binary at computed
  split at computed
  · cases computed
  · cases computed
    exact apply_lt op smallA smallB widthA widthB

theorem lt_of_slice {high low value : Nat} (computed : Word.slice a high low = .ok value) :
    value < wideBound := by
  unfold Word.slice at computed
  split at computed
  · cases computed
    exact mod_lt _ _
  · cases computed

end Operators

end BoundedCheck.Machine
