import BoundedCheck.Design.Instruction

/-!
# Keywords

The second word of a line tells what the instruction does.
-/

namespace BoundedCheck

/-- How the digits of a constant are to be read. -/
inductive Radix where
  | binary
  | decimal
  | hexadecimal
  deriving DecidableEq, Repr

/-- A word that starts an operation. -/
inductive Keyword where
  | sort | input | state | init | next | constraint | bad | output
  | const (digits : Radix)
  | zero | one | ones | not
  | binary (op : BinaryOp)
  | ite | uext | slice
  deriving DecidableEq, Repr

namespace Keyword

/-- The spelling of a keyword. -/
def text : Keyword → String
  | sort => "sort"
  | input => "input"
  | state => "state"
  | init => "init"
  | next => "next"
  | constraint => "constraint"
  | bad => "bad"
  | output => "output"
  | const .binary => "const"
  | const .decimal => "constd"
  | const .hexadecimal => "consth"
  | zero => "zero"
  | one => "one"
  | ones => "ones"
  | not => "not"
  | binary op => op.name
  | ite => "ite"
  | uext => "uext"
  | slice => "slice"

/-- Every keyword once. -/
def all : List Keyword :=
  [sort, input, state, init, next, constraint, bad, output, const .binary, const .decimal,
    const .hexadecimal, zero, one, ones, not, ite, uext, slice] ++ BinaryOp.all.map binary

/-- The keyword with the given spelling. -/
def ofText? (word : String) : Option Keyword :=
  all.find? (·.text == word)

theorem ofText?_text (keyword : Keyword) : ofText? keyword.text = some keyword := by
  cases keyword with
  | const digits => cases digits <;> decide
  | binary op => cases op <;> decide
  | _ => decide

end Keyword

/-- The keyword of an operation; constants are written in decimal. -/
def Operation.keyword : Operation → Keyword
  | .sort _ => .sort
  | .input _ _ => .input
  | .state _ _ => .state
  | .init _ _ _ => .init
  | .next _ _ _ => .next
  | .constraint _ _ => .constraint
  | .bad _ _ => .bad
  | .output _ _ => .output
  | .const _ _ => .const .decimal
  | .zero _ => .zero
  | .one _ => .one
  | .ones _ => .ones
  | .not _ _ => .not
  | .binary op _ _ _ => .binary op
  | .ite _ _ _ _ => .ite
  | .uext _ _ _ _ => .uext
  | .slice _ _ _ _ => .slice

end BoundedCheck
