import BoundedCheck.Design.Operator
import BoundedCheck.Fault

/-!
# Solver backends

What the unrolling of a design asks of a solver: sorts, variables, constants and operators of bit
vectors, scoped assertions, assumptions for one query, queries and models.  Every operation passes
the state of the solver on, also when it fails.
-/

namespace BoundedCheck

/-- Why a solver refuses a request. -/
inductive SolverError where
  | unknown (reason : String)
  | unsupportedWidth (width : Nat)
  | searchSpaceTooLarge (bits limit : Nat)
  | noModel
  | backend (text : String)
  deriving DecidableEq, Repr

/-- The wording of a solver's error. -/
def SolverError.message : SolverError → String
  | .unknown reason => s!"solver returned unknown: {reason}"
  | .unsupportedWidth width => s!"bitvector width {width} is not supported by this backend"
  | .searchSpaceTooLarge bits limit =>
    s!"search space of {bits} free bits exceeds the limit of {limit}"
  | .noModel => "no model available: the last query was not satisfiable"
  | .backend text => s!"backend error: {text}"

/-- A request to a solver with state `σ`. -/
abbrev SolverM (σ α : Type) := EStateM (Stop SolverError) σ α

/-- A solver with state `σ`, handles for its sorts and terms. -/
class Backend (σ : Type) (Handle Term : outParam Type) where
  /-- The sort of bit vectors of a width. -/
  makeSort : Nat → SolverM σ Handle
  /-- A new variable. -/
  makeVariable : String → Handle → SolverM σ Term
  /-- The constant with a value, reduced to the width of the sort. -/
  makeConstant : Nat → Handle → SolverM σ Term
  /-- Requires a term in the next query only. -/
  assume : Term → σ → σ
  /-- Requires a term in all queries of the scope. -/
  assert : Term → σ → σ
  /-- Opens a scope of assertions. -/
  push : σ → σ
  /-- Drops the assertions of the innermost scope. -/
  pop : σ → σ
  /-- Whether all requirements can hold together. -/
  checkSat : SolverM σ Bool
  /-- The text of a model of the last query. -/
  getModel : SolverM σ String
  /-- Whether the solver knows a binary operator. -/
  supports : σ → BinaryOp → Bool
  /-- The complement of a term. -/
  not : Term → EStateM Fault σ Term
  /-- A binary operator on two terms. -/
  binary : BinaryOp → Term → Term → EStateM Fault σ Term
  /-- The second or the third term, by the lowest bit of the first. -/
  ite : Term → Term → Term → EStateM Fault σ Term
  /-- A term with zero bits put in front. -/
  uext : Term → Nat → EStateM Fault σ Term
  /-- The bits of a term from a high to a low position. -/
  slice : Term → Nat → Nat → EStateM Fault σ Term

end BoundedCheck
