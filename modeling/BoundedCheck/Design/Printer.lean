import BoundedCheck.Design.Keyword
import BoundedCheck.Fault

/-!
# Printed designs

An instruction is printed as its words with one space between them, a design as one line for each
instruction.
-/

namespace BoundedCheck

/-- The upper bit of a slice, as far as it is a bit position. -/
def sliceUpper (lowBit width : Nat) : Except Fault Nat :=
  narrow (lowBit + (width - 1))

/-- The numbers after the keyword. -/
def Operation.arguments : Operation → Except Fault (List String)
  | .sort (.bitVec width) => .ok ["bitvec", toString width]
  | .sort (.array index element) => .ok ["array", toString index, toString element]
  | .input s _ | .state s _ | .zero s | .one s | .ones s => .ok [toString s]
  | .init s target value | .next s target value =>
    .ok [toString s, toString target, toString value]
  | .constraint condition _ | .bad condition _ => .ok [toString condition]
  | .output value _ => .ok [toString value]
  | .const s value => .ok [toString s, toString value]
  | .not s operand => .ok [toString s, toString operand]
  | .binary _ s left right => .ok [toString s, toString left, toString right]
  | .ite s condition onTrue onFalse =>
    .ok [toString s, toString condition, toString onTrue, toString onFalse]
  | .uext s operand extra _ => .ok [toString s, toString operand, toString extra]
  | .slice s operand lowBit width =>
    match sliceUpper lowBit width with
    | .ok upper => .ok [toString s, toString operand, toString upper, toString lowBit]
    | .error fault => .error fault

namespace Instruction

/-- The words of a printed instruction. -/
def words (instruction : Instruction) : Except Fault (List String) :=
  match instruction.operation.arguments with
  | .ok arguments =>
    .ok (toString instruction.lid :: instruction.operation.keyword.text ::
      (arguments ++ instruction.operation.name?.toList))
  | .error fault => .error fault

/-- The line of an instruction, without its end. -/
def text (instruction : Instruction) : Except Fault String :=
  match instruction.words with
  | .ok words => .ok (" ".intercalate words)
  | .error fault => .error fault

end Instruction

/-- The lines of a design. -/
def Design.text : Design → Except Fault String
  | [] => .ok ""
  | instruction :: rest =>
    match instruction.text, Design.text rest with
    | .ok line, .ok lines => .ok (line ++ "\n" ++ lines)
    | .error fault, _ => .error fault
    | .ok _, .error fault => .error fault

end BoundedCheck
