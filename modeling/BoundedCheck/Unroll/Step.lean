import BoundedCheck.Design.Printer
import BoundedCheck.Unroll.Tables

/-!
# Steps

One step evaluates the instructions of a design in order, in the frame of the step.  Values of
`next` instructions go to the following frame; bad conditions and constraints are set aside.
-/

namespace BoundedCheck

/-- The frames of a step under way. -/
structure StepFrames (Term : Type) where
  current : Frame Term
  next : Frame Term := {}
  bads : Frame Term := {}
  constraints : Frame Term := {}

namespace StepFrames

variable {σ Handle Term : Type} [Backend σ Handle Term]

/-- A new variable of the sort of an instruction. -/
def freshVariable (tables : Tables Handle) (lid sort step : Nat) : CheckM σ Term := do
  let handle ← CheckM.ofExcept (tables.sortOf lid sort)
  CheckM.ofSolver (Backend.makeVariable (tables.stepName lid step) handle)

/-- A constant of the sort of an instruction. -/
def constant (tables : Tables Handle) (lid sort value : Nat) : CheckM σ Term := do
  let handle ← CheckM.ofExcept (tables.sortOf lid sort)
  CheckM.ofSolver (Backend.makeConstant value handle)

/-- The operator of a solver, if it knows the operator. -/
def binaryOperator (op : BinaryOp) (a b : Term) : CheckM σ Term := do
  if Backend.supports (← get) op then CheckM.ofOperator (Backend.binary op a b)
  else CheckM.fail (.missingOperator op)

/-- The value that an instruction computes in a frame, if it has one of its own in each step. -/
def value? (tables : Tables Handle) (step : Nat) (frame : Frame Term) (instruction : Instruction) :
    CheckM σ (Option Term) :=
  let lid := instruction.lid
  match instruction.operation with
  | .input sort _ => do
    return some (← freshVariable tables lid sort step)
  | .init _ _ _ | .ones _ =>
    CheckM.fail (.unsupportedInstruction lid instruction.operation.keyword)
  | .const sort value => do
    return some (← constant tables lid sort value)
  | .zero sort => do
    return some (← constant tables lid sort 0)
  | .one sort => do
    return some (← constant tables lid sort 1)
  | .not sort operand => do
    let _ ← CheckM.ofExcept (tables.sortOf lid sort)
    let a ← CheckM.ofExcept (frame.resolve lid operand)
    return some (← CheckM.ofOperator (Backend.not a))
  | .binary op sort left right => do
    let _ ← CheckM.ofExcept (tables.sortOf lid sort)
    let a ← CheckM.ofExcept (frame.resolve lid left)
    let b ← CheckM.ofExcept (frame.resolve lid right)
    return some (← binaryOperator op a b)
  | .ite sort condition onTrue onFalse => do
    let _ ← CheckM.ofExcept (tables.sortOf lid sort)
    let c ← CheckM.ofExcept (frame.resolve lid condition)
    let a ← CheckM.ofExcept (frame.resolve lid onTrue)
    let b ← CheckM.ofExcept (frame.resolve lid onFalse)
    return some (← CheckM.ofOperator (Backend.ite c a b))
  | .uext sort operand extra _ => do
    let _ ← CheckM.ofExcept (tables.sortOf lid sort)
    let a ← CheckM.ofExcept (frame.resolve lid operand)
    return some (← CheckM.ofOperator (Backend.uext a extra))
  | .slice sort operand lowBit width => do
    let _ ← CheckM.ofExcept (tables.sortOf lid sort)
    let a ← CheckM.ofExcept (frame.resolve lid operand)
    match sliceUpper lowBit width with
    | .error fault => throw (.fault fault)
    | .ok upper => return some (← CheckM.ofOperator (Backend.slice a upper lowBit))
  | .sort _ | .state _ _ | .output _ _ | .next _ _ _ | .constraint _ _ | .bad _ _ => return none

/-- Evaluates one instruction. -/
def evaluate (tables : Tables Handle) (step : Nat) (frames : StepFrames Term)
    (instruction : Instruction) : CheckM σ (StepFrames Term) :=
  let lid := instruction.lid
  match instruction.operation with
  | .next _ _ value =>
    match tables.nexts.get? lid with
    | none => CheckM.fail (.missingNext lid)
    | some state => do
      let term ← CheckM.ofExcept (frames.current.resolve lid value)
      return { frames with next := frames.next.insert state term }
  | .constraint condition _ => do
    let term ← CheckM.ofExcept (frames.current.resolve lid condition)
    return { frames with constraints := frames.constraints.insert lid term }
  | .bad condition _ => do
    let term ← CheckM.ofExcept (frames.current.resolve lid condition)
    return { frames with bads := frames.bads.insert lid term }
  | _ => do
    match ← value? tables step frames.current instruction with
    | some term => return { frames with current := frames.current.insert lid term }
    | none => return frames

/-- Evaluates instructions in order. -/
def evaluateAll (tables : Tables Handle) (step : Nat) :
    Design → StepFrames Term → CheckM σ (StepFrames Term)
  | [], frames => return frames
  | instruction :: rest, frames => do
    evaluateAll tables step rest (← evaluate tables step frames instruction)

/-- Gives free states a new variable in the following frame. -/
def renewAll (tables : Tables Handle) (step : Nat) :
    List (Nat × Nat) → StepFrames Term → CheckM σ (StepFrames Term)
  | [], frames => return frames
  | (lid, sort) :: rest, frames => do
    let term ← freshVariable tables lid sort (step + 1)
    renewAll tables step rest { frames with next := frames.next.insert lid term }

/-- The frames of a step that starts from the given frame. -/
def run (tables : Tables Handle) (design : Design) (step : Nat) (frame : Frame Term) :
    CheckM σ (StepFrames Term) := do
  let frames ← evaluateAll tables step design { current := frame }
  renewAll tables step design.freeStates frames

end StepFrames

end BoundedCheck
