import BoundedCheck.Enumerator.Solver
import BoundedCheck.Verdict

/-!
# Checking a design

A check runs the bounded search over a solver chosen by name.
-/

namespace BoundedCheck

/-- The solvers that can be asked for. -/
inductive SolverKind where
  | exhaustive
  | z3
  deriving DecidableEq, Repr

namespace SolverKind

/-- The name of a solver. -/
def name : SolverKind → String
  | .exhaustive => "exhaustive"
  | .z3 => "z3"

/-- The solver with a name. -/
def ofName? (name : String) : Option SolverKind :=
  [exhaustive, z3].find? (·.name == name)

/-- The complaint about a name that no solver has. -/
def unknownName (name : String) : String :=
  s!"unknown solver '{name}' (expected exhaustive or z3)"

end SolverKind

/-- How a design is to be checked. -/
structure Settings where
  depth : Nat := 3
  solver : SolverKind := .z3
  /-- A time limit for each query; the enumerating solver has none. -/
  timeoutMs : Option Nat := none
  freeBitLimit : Nat := 20
  deriving DecidableEq, Repr

/-- An engine for a design over a fresh enumerating solver. -/
def Engine.fresh (freeBitLimit : Nat) (design : Design) :
    Engine Enumerator Enumerator.BitSort Nat where
  design := design
  solver := { freeBitLimit := freeBitLimit }

/-- Checks a design; only the enumerating solver is built in. -/
def check (settings : Settings) (design : Design) : Except (Stop CheckError) Verdict :=
  match settings.solver with
  | .z3 => .error (.error (.backendUnavailable SolverKind.z3.name))
  | .exhaustive =>
    match Engine.bmc settings.depth (Engine.fresh settings.freeBitLimit design) with
    | .ok verdict _ => .ok verdict
    | .error stop _ => .error stop

end BoundedCheck
