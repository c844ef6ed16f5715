import BoundedCheck.Design.Operator

/-!
# Instructions

A design is a list of instructions.  Each has a number of its own, its line id, by which later
instructions refer to it.
-/

namespace BoundedCheck

/-- What a sort instruction declares. -/
inductive SortKind where
  | bitVec (width : Nat)
  | array (index element : Nat)
  deriving DecidableEq, Repr

/-- The width of a sort of bit vectors. -/
def SortKind.width? : SortKind → Option Nat
  | .bitVec width => some width
  | .array _ _ => none

/-- What an instruction does. -/
inductive Operation where
  | sort (kind : SortKind)
  | input (sort : Nat) (name : Option String)
  | state (sort : Nat) (name : Option String)
  | init (sort state value : Nat)
  | next (sort state value : Nat)
  | constraint (condition : Nat) (name : Option String)
  | bad (condition : Nat) (name : Option String)
  | output (value : Nat) (name : Option String)
  | const (sort : Nat) (value : Nat)
  | zero (sort : Nat)
  | one (sort : Nat)
  | ones (sort : Nat)
  | not (sort operand : Nat)
  | binary (op : BinaryOp) (sort left right : Nat)
  | ite (sort condition onTrue onFalse : Nat)
  | uext (sort operand : Nat) (extra : Nat) (name : Option String)
  | slice (sort operand : Nat) (lowBit width : Nat)
  deriving DecidableEq, Repr

/-- The sort that an operation declares for its result. -/
def Operation.sort? : Operation → Option Nat
  | .sort _ | .constraint _ _ | .bad _ _ | .output _ _ => none
  | .input s _ | .state s _ | .init s _ _ | .next s _ _ | .const s _ | .zero s
  | .one s | .ones s | .not s _ | .binary _ s _ _ | .ite s _ _ _ | .uext s _ _ _
  | .slice s _ _ _ => some s

/-- The instructions that an operation refers to, apart from sorts. -/
def Operation.operands : Operation → List Nat
  | .sort _ | .input _ _ | .state _ _ | .const _ _ | .zero _ | .one _ | .ones _ => []
  | .init _ target value | .next _ target value => [target, value]
  | .constraint condition _ | .bad condition _ => [condition]
  | .output value _ => [value]
  | .not _ operand | .uext _ operand _ _ | .slice _ operand _ _ => [operand]
  | .binary _ _ left right => [left, right]
  | .ite _ condition onTrue onFalse => [condition, onTrue, onFalse]

/-- The symbol of an operation that carries one. -/
def Operation.name? : Operation → Option String
  | .input _ name | .state _ name | .constraint _ name | .bad _ name | .output _ name
  | .uext _ _ _ name => name
  | _ => none

/-- An extension by no bits with a symbol gives its operand another name. -/
def Operation.isRenaming : Operation → Bool
  | .uext _ _ 0 (some _) => true
  | _ => false

/-- Whether an operation gives its instruction a value that others may use. -/
def Operation.isValue : Operation → Bool
  | .sort _ | .init _ _ _ | .next _ _ _ | .constraint _ _ | .bad _ _ | .output _ _ => false
  | _ => true

/-- Whether an operation declares a state. -/
def Operation.isState : Operation → Bool
  | .state _ _ => true
  | _ => false

/-- An operation under its line id. -/
structure Instruction where
  lid : Nat
  operation : Operation
  deriving DecidableEq, Repr

/-- A list of instructions. -/
abbrev Design := List Instruction

/-- The greatest line id, or zero for the empty design. -/
def Design.maxLid (design : Design) : Nat :=
  design.foldl (fun greatest instruction => max greatest instruction.lid) 0

end BoundedCheck
