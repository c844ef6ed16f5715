import BoundedCheck.Design.Operator

/-!
# Meaning of operators

The operators as operations on bit vectors, with the conventions of the SMT-LIB theory: a quotient
by zero is the word of all ones, up to sign, a remainder by zero is the dividend, and a shift by the
width or more leaves no bit but copies of the sign.
-/

namespace BoundedCheck.BinaryOp

/-- The meaning of an operator on operands of one width. -/
def onWords (op : BinaryOp) {width : Nat} (a b : BitVec width) : Nat :=
  match op with
  | .add => (a + b).toNat
  | .sub => (a - b).toNat
  | .mul => (a * b).toNat
  | .udiv => (a.smtUDiv b).toNat
  | .sdiv => (a.smtSDiv b).toNat
  | .smod => (a.smod b).toNat
  | .sll => (a <<< b).toNat
  | .srl => (a >>> b).toNat
  | .sra => (a.sshiftRight' b).toNat
  | .and => (a &&& b).toNat
  | .or => (a ||| b).toNat
  | .xor => (a ^^^ b).toNat
  | .concat => (a ++ b).toNat
  | .eq => (a == b).toNat
  | .neq => (a != b).toNat
  | .ugt => (b.ult a).toNat
  | .sgt => (b.slt a).toNat
  | .ugte => (b.ule a).toNat
  | .sgte => (b.sle a).toNat
  | .ult => (a.ult b).toNat
  | .slt => (a.slt b).toNat
  | .ulte => (a.ule b).toNat
  | .slte => (a.sle b).toNat
  | .implies => (~~~a ||| b).toNat
  | .iff => (~~~(a ^^^ b)).toNat

/-- The meaning of an operator on numbers of given widths; only a concatenation uses the second. -/
def meaning (op : BinaryOp) (widthA widthB a b : Nat) : Nat :=
  match op with
  | .concat => (BitVec.ofNat widthA a ++ BitVec.ofNat widthB b).toNat
  | op => op.onWords (BitVec.ofNat widthA a) (BitVec.ofNat widthA b)

end BoundedCheck.BinaryOp
