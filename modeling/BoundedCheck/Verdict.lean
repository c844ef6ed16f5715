import BoundedCheck.Unroll.Engine

/-!
# Verdicts

A bounded check unrolls a design step by step.  After each step every bad condition of that step is
asked for in a scope of its own, under the constraints of all steps so far.
-/

namespace BoundedCheck

/-- The answer of a bounded check. -/
inductive Verdict where
  /-- No bad condition can hold within the given number of steps. -/
  | safe (depth : Nat)
  /-- A bad condition can hold at a step, as the model shows. -/
  | violated (step bad : Nat) (model : String)
  /-- The solver could not decide a query. -/
  | undecided (step : Nat) (reason : String)
  deriving DecidableEq, Repr

namespace Verdict

/-- Whether no bad condition was found. -/
def isSafe : Verdict → Bool
  | .safe _ => true
  | _ => false

/-- Whether a bad condition was found. -/
def isViolated : Verdict → Bool
  | .violated _ _ _ => true
  | _ => false

end Verdict

/-- The answer to one query. -/
inductive Answer where
  | unreachable
  | reachable (model : String)
  | undecided (reason : String)
  deriving DecidableEq, Repr

section Queries

variable {σ Handle Term : Type} [Backend σ Handle Term]

/-- Opens a scope in which a condition is asserted under constraints. -/
def pose (constraints : List Term) (condition : Term) (solver : σ) : σ :=
  Backend.assert condition
    (constraints.foldl (fun solver term => Backend.assume term solver) (Backend.push solver))

/-- Asks whether a condition can hold under constraints, and closes the scope of the query. -/
def query (constraints : List Term) (condition : Term) : CheckM σ Answer := fun solver =>
  match Backend.checkSat (pose constraints condition solver) with
  | .ok false solver => .ok .unreachable (Backend.pop solver)
  | .ok true solver =>
    match Backend.getModel solver with
    | .ok model solver => .ok (.reachable model) (Backend.pop solver)
    | .error (.error error) solver => .error (.error (.solver error)) (Backend.pop solver)
    | .error (.fault fault) solver => .error (.fault fault) solver
  | .error (.error (.unknown reason)) solver => .ok (.undecided reason) (Backend.pop solver)
  | .error (.error error) solver => .error (.error (.solver error)) (Backend.pop solver)
  | .error (.fault fault) solver => .error (.fault fault) solver

/-- Asks for bad conditions in order, up to the first that is not unreachable. -/
def queryAll (step : Nat) (constraints : List Term) : List (Nat × Term) → CheckM σ (Option Verdict)
  | [] => return none
  | (bad, condition) :: rest => do
    match ← query constraints condition with
    | .unreachable => queryAll step constraints rest
    | .reachable model => return some (.violated step bad model)
    | .undecided reason => return some (.undecided step reason)

namespace Engine

/-- The constraints of all steps so far. -/
def allConstraints (engine : Engine σ Handle Term) : List Term :=
  engine.constraints.toList.flatMap OrderedMap.values

/-- The bad conditions of the last step. -/
def lastBads (engine : Engine σ Handle Term) : List (Nat × Term) :=
  (engine.bads.back?.getD {}).entries

/-- Asks for the bad conditions of the last step. -/
def askLast (step : Nat) : CheckM (Engine σ Handle Term) (Option Verdict) := fun engine =>
  match queryAll step engine.allConstraints engine.lastBads engine.solver with
  | .ok verdict solver => .ok verdict { engine with solver := solver }
  | .error stop solver => .error stop { engine with solver := solver }

/-- Unrolls and asks for a number of steps, up to the first answer that ends the check. -/
def explore : Nat → CheckM (Engine σ Handle Term) (Option Verdict)
  | 0 => return none
  | remaining + 1 => do
    let step ← execute
    match ← askLast step with
    | some verdict => return some verdict
    | none => explore remaining

/-- Checks a number of further steps. -/
def bmc (depth : Nat) : CheckM (Engine σ Handle Term) Verdict := do
  match ← explore depth with
  | some verdict => return verdict
  | none => return .safe depth

end Engine

end Queries

end BoundedCheck
