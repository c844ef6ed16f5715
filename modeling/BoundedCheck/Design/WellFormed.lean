import BoundedCheck.Design.Instruction
import BoundedCheck.Fault
import BoundedCheck.Text.Blank

/-!
# Well-formed designs

An instruction is well formed after some earlier ones when it refers to earlier instructions of the
right kind, its literals fit, its symbol is one word, and its widths agree wherever they are known.
A design is well formed when each instruction is so after those before it.
-/

namespace BoundedCheck

namespace Design

/-- A line id names a sort. -/
def DeclaresSort (design : Design) (lid : Nat) : Prop :=
  ∃ kind, ⟨lid, .sort kind⟩ ∈ design

/-- A line id names the sort of bit vectors of a width. -/
def DeclaresWidth (design : Design) (lid width : Nat) : Prop :=
  ⟨lid, .sort (.bitVec width)⟩ ∈ design

/-- A line id names a state. -/
def DeclaresState (design : Design) (lid : Nat) : Prop :=
  ∃ sort name, ⟨lid, .state sort name⟩ ∈ design

/-- A line id names an instruction with a value. -/
def DeclaresValue (design : Design) (lid : Nat) : Prop :=
  ∃ operation, ⟨lid, operation⟩ ∈ design ∧ operation.isValue = true

/-- A line id names a value of bit vectors of a width. -/
def HasWidth (design : Design) (lid width : Nat) : Prop :=
  ∃ operation sort, ⟨lid, operation⟩ ∈ design ∧ operation.isValue = true ∧
    operation.sort? = some sort ∧ design.DeclaresWidth sort width

end Design

namespace Operation

/-- The sorts that an operation refers to. -/
def sortReferences : Operation → List Nat
  | .sort (.array index element) => [index, element]
  | operation => operation.sort?.toList

/-- The state that an operation gives a value to. -/
def target? : Operation → Option Nat
  | .init _ target _ | .next _ target _ => some target
  | _ => none

/-- Every reference names an earlier instruction of the right kind. -/
structure Resolved (earlier : Design) (operation : Operation) : Prop where
  sorts : ∀ sort ∈ operation.sortReferences, earlier.DeclaresSort sort
  target : ∀ state, operation.target? = some state → earlier.DeclaresState state
  operands : ∀ lid ∈ operation.operands, earlier.DeclaresValue lid

/-- The numbers of an operation lie in their ranges, and constants in that of their sort. -/
def LiteralsFit (earlier : Design) : Operation → Prop
  | .sort (.bitVec width) => 0 < width ∧ width < narrowBound
  | .const s value =>
    value < wideBound ∧ ∃ width, earlier.DeclaresWidth s width ∧ value < 1 <<< width
  | .uext _ _ extra _ => extra < narrowBound
  | .slice _ _ lowBit width =>
    0 < width ∧ width < narrowBound ∧ lowBit + width - 1 < narrowBound
  | _ => True

/-- A symbol is one word of a line. -/
def SymbolFits (operation : Operation) : Prop :=
  ∀ name, operation.name? = some name →
    name ≠ "" ∧ ∀ c ∈ name.toList, Text.isBlank c = false ∧ c ≠ ';'

/-- The widths of an operation agree, where they are known. -/
def WidthsAgree (earlier : Design) : Operation → Prop
  | .init s target value | .next s target value =>
    ∀ result, earlier.DeclaresWidth s result →
      (∀ width, earlier.HasWidth target width → width = result) ∧
      (∀ width, earlier.HasWidth value width → width = result)
  | .constraint condition _ | .bad condition _ =>
    ∀ width, earlier.HasWidth condition width → width = 1
  | .not s operand =>
    ∀ result width, earlier.DeclaresWidth s result → earlier.HasWidth operand width →
      width = result
  | .ite s condition onTrue onFalse =>
    (∀ width, earlier.HasWidth condition width → width = 1) ∧
    ∀ result, earlier.DeclaresWidth s result →
      (∀ width, earlier.HasWidth onTrue width → width = result) ∧
      (∀ width, earlier.HasWidth onFalse width → width = result)
  | .uext s operand extra _ =>
    ∀ result width, earlier.DeclaresWidth s result → earlier.HasWidth operand width →
      result = width + extra
  | .slice s operand lowBit bits =>
    (∀ width, earlier.HasWidth operand width → lowBit + bits ≤ width) ∧
    ∀ result, earlier.DeclaresWidth s result → result = bits
  | .binary .concat s left right =>
    ∀ l r result, earlier.HasWidth left l → earlier.HasWidth right r →
      earlier.DeclaresWidth s result → result = l + r
  | .binary op s left right =>
    if op = .implies ∨ op = .iff then
      (∀ width, earlier.HasWidth left width → width = 1) ∧
      (∀ width, earlier.HasWidth right width → width = 1) ∧
      ∀ result, earlier.DeclaresWidth s result → result = 1
    else
      (∀ l r, earlier.HasWidth left l → earlier.HasWidth right r → r = l) ∧
      if op.isComparison then ∀ result, earlier.DeclaresWidth s result → result = 1
      else ∀ l result, earlier.HasWidth left l → earlier.DeclaresWidth s result → result = l
  | _ => True

end Operation

/-- An instruction may stand after some earlier ones. -/
structure Instruction.WellFormed (earlier : Design) (instruction : Instruction) : Prop where
  positive : 0 < instruction.lid
  inRange : instruction.lid < wideBound
  increasing : ∀ other ∈ earlier, other.lid < instruction.lid
  resolved : instruction.operation.Resolved earlier
  literals : instruction.operation.LiteralsFit earlier
  symbol : instruction.operation.SymbolFits
  widths : instruction.operation.WidthsAgree earlier

/-- Every instruction may stand where it stands. -/
inductive Design.WellFormed : Design → Prop where
  | nil : WellFormed []
  | snoc {earlier : Design} {instruction : Instruction} : WellFormed earlier →
      instruction.WellFormed earlier → WellFormed (earlier ++ [instruction])

end BoundedCheck
