import BoundedCheck.Design.ReadError

/-!
# Scopes and width rules

A scope holds the instructions before the one under way.  The width rules of an instruction compare
widths that the scope knows; a rule about an unknown width holds.
-/

namespace BoundedCheck

/-- The instructions read so far, newest first. -/
abbrev Scope := List Instruction

namespace Scope

/-- The instruction with the given line id. -/
def find (scope : Scope) (lid : Nat) : Option Instruction :=
  scope.find? (·.lid == lid)

/-- The greatest line id of a scope in increasing order, or zero. -/
def lastLid : Scope → Nat
  | [] => 0
  | newest :: _ => newest.lid

/-- The width of a sort of bit vectors. -/
def sortWidth? (scope : Scope) (lid : Nat) : Option Nat :=
  match scope.find lid with
  | some ⟨_, .sort kind⟩ => kind.width?
  | _ => none

/-- The width of a value whose sort is one of bit vectors. -/
def valueWidth? (scope : Scope) (lid : Nat) : Option Nat :=
  match scope.find lid with
  | some instruction =>
    if instruction.operation.isValue then instruction.operation.sort?.bind scope.sortWidth?
    else none
  | none => none

end Scope

/-- A condition on the widths of an instruction. -/
inductive WidthRule where
  /-- Two widths agree, if both are known. -/
  | equal (role : Role) (actual expected : Option Nat)
  /-- A bit position lies inside the operand, if the width of that is known. -/
  | inside (upper : Nat) (operandWidth : Option Nat)
  deriving DecidableEq, Repr

namespace WidthRule

/-- The disagreement that breaks a rule. -/
def mismatch? : WidthRule → Option Mismatch
  | equal role (some actual) (some expected) =>
    if actual = expected then none else some (.width role actual expected)
  | inside upper (some operandWidth) =>
    if upper < operandWidth then none else some (.outside upper operandWidth)
  | _ => none

end WidthRule

namespace Scope

/-- The rules of an operator for operands and a result of the given widths. -/
def binaryRules (op : BinaryOp) (result left right : Option Nat) : List WidthRule :=
  match op with
  | .concat =>
    [.equal .resultSort result (left.bind fun l => right.map fun r => l + r)]
  | .implies | .iff =>
    [.equal .leftOperand left (some 1), .equal .rightOperand right (some 1),
      .equal .resultSort result (some 1)]
  | _ =>
    [.equal .rightOperand right left,
      .equal .resultSort result (if op.isComparison then some 1 else left)]

/-- The width rules of an operation, in the order in which they are checked. -/
def rules (scope : Scope) (operation : Operation) : List WidthRule :=
  let result := operation.sort?.bind scope.sortWidth?
  match operation with
  | .init _ state value | .next _ state value =>
    [.equal .state (scope.valueWidth? state) result,
      .equal .value (scope.valueWidth? value) result]
  | .constraint condition _ | .bad condition _ =>
    [.equal .condition (scope.valueWidth? condition) (some 1)]
  | .not _ operand => [.equal .operand (scope.valueWidth? operand) result]
  | .ite _ condition onTrue onFalse =>
    [.equal .condition (scope.valueWidth? condition) (some 1),
      .equal .thenBranch (scope.valueWidth? onTrue) result,
      .equal .elseBranch (scope.valueWidth? onFalse) result]
  | .uext _ operand extra _ =>
    [.equal .resultSort result ((scope.valueWidth? operand).map (· + extra))]
  | .slice _ operand lowBit width =>
    [.inside (lowBit + width - 1) (scope.valueWidth? operand),
      .equal .resultSort result (some width)]
  | .binary op _ left right =>
    binaryRules op result (scope.valueWidth? left) (scope.valueWidth? right)
  | _ => []

/-- The first rule that an operation breaks. -/
def mismatch? (scope : Scope) (operation : Operation) : Option Mismatch :=
  (scope.rules operation).findSome? WidthRule.mismatch?

end Scope

end BoundedCheck
