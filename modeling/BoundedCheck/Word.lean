import BoundedCheck.Design.Operator
import BoundedCheck.Fault

/-!
# Words

A word of a given width is a natural number; words have at most 64 bits.  The operators take the
numbers as they are, also with bits above the width, and count a width above 64 as 64.
-/

namespace BoundedCheck.Word

/-- The widest word. -/
def maxWidth : Nat := 64

/-- The powers of two up to the bound of the widest words, which every operator looks up. -/
def powers : Array Nat :=
  ((List.range (maxWidth + 1)).map (1 <<< ·)).toArray

/-- The words of a width lie below this bound. -/
def bound (width : Nat) : Nat :=
  powers.getD width wideBound

/-- The bound is a power of two. -/
theorem bound_eq (width : Nat) : bound width = 1 <<< min width maxWidth := by
  unfold bound powers
  by_cases inside : width < maxWidth + 1
  · have least : min width maxWidth = width := by omega
    simp [Array.getD, inside, least]
  · have least : min width maxWidth = maxWidth := by omega
    simp [Array.getD, inside, least]
    rfl

/-- The word with all bits set. -/
def mask (width : Nat) : Nat :=
  bound width - 1

/-- The two's complement reading of a word. -/
def toSigned (value width : Nat) : Int :=
  (value : Int).bmod (bound width)

/-- The word with the two's complement reading of a number, reduced to the width. -/
def ofInt (width : Nat) (value : Int) : Nat :=
  (value % (bound width : Int)).toNat

/-- All bits of a word turned. -/
def complement (value width : Nat) : Nat :=
  bound width - 1 - value % bound width

/-- The number of bits of a slice, as far as it is a width. -/
def sliceWidth (high low : Nat) : Except Fault Nat :=
  narrow (high - low + 1)

/-- The bits of a word between two positions, both included. -/
def slice (value high low : Nat) : Except Fault Nat :=
  match sliceWidth high low with
  | .ok width => .ok ((value >>> low) % bound width)
  | .error fault => .error fault

/-- The width of the result of an operator; the widths of a concatenation add up, up to 32 bits. -/
def resultWidth (op : BinaryOp) (left right : Nat) : Nat :=
  if op.isComparison then 1
  else if op = .concat then min (left + right) (narrowBound - 1)
  else left

/-- The word for a truth value. -/
def ofBool (holds : Bool) : Nat :=
  holds.toNat

/-- The result of an operator.  The first operand gives the width of all but a concatenation. -/
def apply (op : BinaryOp) (a b widthA widthB : Nat) : Nat :=
  match op with
  | .add => (a + b) % bound widthA
  | .sub => (a + (bound widthA - b % bound widthA)) % bound widthA
  | .mul => (a * b) % bound widthA
  | .udiv => if b = 0 then mask widthA else a / b
  | .sdiv =>
    let x := toSigned a widthA
    let y := toSigned b widthA
    if y = 0 then if 0 ≤ x then mask widthA else 1 else ofInt widthA (x.tdiv y)
  | .smod =>
    let y := toSigned b widthA
    if y = 0 then a else ofInt widthA ((toSigned a widthA).fmod y)
  | .sll => if widthA ≤ b then 0 else (a <<< b) % bound widthA
  | .srl => if widthA ≤ b then 0 else a >>> b
  | .sra =>
    let x := toSigned a widthA
    if widthA ≤ b then if x < 0 then mask widthA else 0 else ofInt widthA (x >>> b)
  | .and => a &&& b
  | .or => a ||| b
  | .xor => a ^^^ b
  | .concat => if maxWidth ≤ widthB then b else ((a <<< widthB) ||| b) % bound (widthA + widthB)
  | .eq => ofBool (a == b)
  | .neq => ofBool (a != b)
  | .ugt => ofBool (b < a)
  | .sgt => ofBool (toSigned b widthA < toSigned a widthA)
  | .ugte => ofBool (b ≤ a)
  | .sgte => ofBool (toSigned b widthA ≤ toSigned a widthA)
  | .ult => ofBool (a < b)
  | .slt => ofBool (toSigned a widthA < toSigned b widthA)
  | .ulte => ofBool (a ≤ b)
  | .slte => ofBool (toSigned a widthA ≤ toSigned b widthA)
  | .implies => (complement a widthA ||| b) % bound widthA
  | .iff => complement (a ^^^ b) widthA

/--
Why an operator has no result: a shift inside the width goes beyond 64 places, or the widths of a
concatenation do not add up to a width.
-/
def fault? (op : BinaryOp) (b widthA widthB : Nat) : Option Fault :=
  match op with
  | .sll | .srl | .sra => if b < widthA ∧ maxWidth ≤ b then some .shift else none
  | .concat =>
    if widthB < maxWidth ∧ narrowBound ≤ widthA + widthB then some .overflow else none
  | _ => none

/-- The result of an operator, or its fault. -/
def binary (op : BinaryOp) (a b widthA widthB : Nat) : Except Fault Nat :=
  match fault? op b widthA widthB with
  | some fault => .error fault
  | none => .ok (apply op a b widthA widthB)

/-- A first operand of at most 64 bits never causes a fault. -/
theorem fault?_eq_none {op : BinaryOp} {b widthA widthB : Nat} (fits : widthA ≤ maxWidth) :
    fault? op b widthA widthB = none := by
  have noShift : ¬ (b < widthA ∧ maxWidth ≤ b) := by omega
  have noOverflow : ¬ (widthB < maxWidth ∧ narrowBound ≤ widthA + widthB) := by
    simp only [maxWidth, narrowBound] at fits ⊢
    omega
  cases op <;> simp only [fault?, if_neg noShift, if_neg noOverflow]

theorem bound_pos (width : Nat) : 0 < bound width := by
  rw [bound_eq, Nat.one_shiftLeft]
  exact Nat.two_pow_pos _

theorem bound_le (width : Nat) : bound width ≤ wideBound := by
  rw [bound_eq, Nat.one_shiftLeft]
  exact Nat.pow_le_pow_right (by decide) (Nat.min_le_right _ _)

end BoundedCheck.Word
