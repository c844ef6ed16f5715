import BoundedCheck.Design.Instruction
import BoundedCheck.Design.Meaning

/-!
# Runs of a design

A run gives every instruction a value at every step.  From outside come the inputs of each step, all
states of the first step, and the states without `next` of every later step; a state with `next`
takes the value that its last `next` named one step before.
-/

namespace BoundedCheck

/-- Values by line id. -/
abbrev Valuation := Nat → Nat

/-- The values from outside, by step and line id; the first step has number zero. -/
abbrev Supply := Nat → Valuation

namespace Valuation

/-- Gives one line id another value. -/
def set (values : Valuation) (lid value : Nat) : Valuation :=
  fun other => if other = lid then value else values other

end Valuation

namespace Design

/-- The width of the sort of bit vectors with a line id, or zero. -/
def sortWidth (design : Design) (lid : Nat) : Nat :=
  (design.findSome? fun instruction =>
    match instruction.operation with
    | .sort kind => if instruction.lid = lid then kind.width? else none
    | _ => none).getD 0

/-- The width of the sort that an instruction declares, or zero. -/
def valueWidth (design : Design) (lid : Nat) : Nat :=
  (design.findSome? fun instruction =>
    if instruction.lid = lid then instruction.operation.sort?.map design.sortWidth else none).getD 0

/-- What the last `next` of a state names. -/
def lastNext? (design : Design) (state : Nat) : Option Nat :=
  design.reverse.findSome? fun instruction =>
    match instruction.operation with
    | .next _ target value => if target = state then some value else none
    | _ => none

/-- The value of an operation, apart from those that come from outside or from the step before. -/
def compute? (design : Design) (values : Valuation) : Operation → Option Nat
  | .const sort value => some (BitVec.ofNat (design.sortWidth sort) value).toNat
  | .zero _ => some 0
  | .one sort => some (BitVec.ofNat (design.sortWidth sort) 1).toNat
  | .ones sort => some (BitVec.allOnes (design.sortWidth sort)).toNat
  | .not _ operand => some (~~~ BitVec.ofNat (design.valueWidth operand) (values operand)).toNat
  | .binary op _ left right =>
    some (op.meaning (design.valueWidth left) (design.valueWidth right) (values left) (values right))
  | .ite _ condition onTrue onFalse =>
    some (if values condition = 1 then values onTrue else values onFalse)
  | .uext _ operand _ _ => some (values operand)
  | .slice _ operand lowBit width =>
    some ((BitVec.ofNat (design.valueWidth operand) (values operand)).extractLsb' lowBit width).toNat
  | _ => none

/-- Computes the values of instructions in order. -/
def settle (design : Design) : List Instruction → Valuation → Valuation
  | [], values => values
  | instruction :: rest, values =>
    match design.compute? values instruction.operation with
    | some value => design.settle rest (values.set instruction.lid value)
    | none => design.settle rest values

/-- The values of a run, step by step. -/
def run (design : Design) (supply : Supply) : Supply
  | 0 => design.settle design (supply 0)
  | step + 1 => design.settle design fun lid =>
    match design.lastNext? lid with
    | some value => design.run supply step value
    | none => supply (step + 1) lid

/-- The values from outside fit their widths. -/
def Fits (design : Design) (supply : Supply) : Prop :=
  ∀ step lid, supply step lid < 1 <<< design.valueWidth lid

/-- All constraints hold at a step of a run. -/
def Constrained (design : Design) (supply : Supply) (step : Nat) : Prop :=
  ∀ lid condition name, ⟨lid, .constraint condition name⟩ ∈ design →
    design.run supply step condition = 1

/-- A bad condition can hold at a step of a run that keeps all constraints so far. -/
def CanFail (design : Design) (step bad : Nat) : Prop :=
  ∃ supply condition name, ⟨bad, .bad condition name⟩ ∈ design ∧ design.Fits supply ∧
    (∀ earlier ≤ step, design.Constrained supply earlier) ∧
    design.run supply step condition = 1

end Design

end BoundedCheck
