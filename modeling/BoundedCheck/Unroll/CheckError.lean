import BoundedCheck.Backend
import BoundedCheck.Design.Keyword

/-!
# Errors of a check

Why a design cannot be unrolled or decided.
-/

namespace BoundedCheck

/-- The cause of a failed check. -/
inductive CheckError where
  | unsupportedSort (lid index element : Nat)
  | unsupportedInstruction (lid : Nat) (keyword : Keyword)
  | alreadyPrepared
  | unknownSort (lid sort : Nat)
  | unresolvedOperand (lid operand : Nat)
  | missingNext (lid : Nat)
  | missingOperator (op : BinaryOp)
  | backendUnavailable (name : String)
  | solver (error : SolverError)
  deriving DecidableEq, Repr

/-- The wording of an error. -/
def CheckError.message : CheckError → String
  | .unsupportedSort lid index element => s!"unsupported sort at {lid}: array {index} {element}"
  | .unsupportedInstruction lid keyword => s!"unsupported instruction '{keyword.text}' at {lid}"
  | .alreadyPrepared => "program is already preprocessed"
  | .unknownSort lid sort => s!"instruction {lid} refers to unknown sort {sort}"
  | .unresolvedOperand lid operand => s!"instruction {lid} refers to {operand}, which has no value"
  | .missingNext lid => s!"next instruction {lid} was not registered during preprocessing"
  | .missingOperator op => s!"solver provides no method for '{op.name}'"
  | .backendUnavailable name => s!"solver backend '{name}' is not compiled in"
  | .solver error => error.message

/-- A step of a check over a state `σ`, which is kept when the step fails. -/
abbrev CheckM (σ α : Type) := EStateM (Stop CheckError) σ α

namespace CheckM

variable {σ α : Type}

/-- Stops with an error. -/
def fail (error : CheckError) : CheckM σ α :=
  throw (.error error)

/-- A computation without state. -/
def ofExcept : Except CheckError α → CheckM σ α
  | .ok a => pure a
  | .error error => fail error

/-- A request to the solver. -/
def ofSolver (request : SolverM σ α) : CheckM σ α :=
  request.adaptExcept (Stop.map .solver)

/-- A computation that can only fail by a fault. -/
def ofOperator (request : EStateM Fault σ α) : CheckM σ α :=
  request.adaptExcept .fault

end CheckM

end BoundedCheck
