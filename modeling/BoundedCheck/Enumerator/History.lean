import BoundedCheck.Enumerator.Solver

/-!
# Histories of a solver

What can be done with the enumerating solver, as data, and the states that it can come to when
operators are only applied to existing terms.
-/

namespace BoundedCheck.Enumerator

/-- One use of the solver. -/
inductive Action where
  | makeSort (width : Nat)
  | makeVariable (name : String) (sort : BitSort)
  | makeConstant (value : Nat) (sort : BitSort)
  | assume (t : Nat)
  | assert (t : Nat)
  | push
  | pop
  | checkSat
  | getModel
  | not (a : Nat)
  | binary (op : BinaryOp) (a b : Nat)
  | ite (condition onTrue onFalse : Nat)
  | uext (a extra : Nat)
  | slice (a high low : Nat)
  deriving DecidableEq, Repr

namespace Action

/-- The terms that an action uses. -/
def operands : Action → List Nat
  | .assume t | .assert t => [t]
  | .not a | .uext a _ | .slice a _ _ => [a]
  | .binary _ a b => [a, b]
  | .ite condition onTrue onFalse => [condition, onTrue, onFalse]
  | _ => []

/-- The state after a request, whether it failed or not. -/
def stateOf {ε α : Type} : EStateM.Result ε Enumerator α → Enumerator
  | .ok _ s | .error _ s => s

/-- The state after an action. -/
def perform (s : Enumerator) : Action → Enumerator
  | .makeSort width => stateOf (Enumerator.makeSort width s)
  | .makeVariable name sort => stateOf (Enumerator.makeVariable name sort s)
  | .makeConstant value sort => stateOf (Enumerator.makeConstant value sort s)
  | .assume t => s.assume t
  | .assert t => s.assert t
  | .push => s.push
  | .pop => s.pop
  | .checkSat => stateOf (Enumerator.checkSat s)
  | .getModel => stateOf (Enumerator.getModel s)
  | .not a => stateOf (Enumerator.not a s)
  | .binary op a b => stateOf (Enumerator.binary op a b s)
  | .ite condition onTrue onFalse => stateOf (Enumerator.ite condition onTrue onFalse s)
  | .uext a extra => stateOf (Enumerator.uext a extra s)
  | .slice a high low => stateOf (Enumerator.slice a high low s)

end Action

/-- The states that a solver with a given limit can come to. -/
inductive Reachable (freeBitLimit : Nat) : Enumerator → Prop where
  | start : Reachable freeBitLimit { freeBitLimit := freeBitLimit }
  | act {s : Enumerator} (action : Action) : Reachable freeBitLimit s →
      (∀ t ∈ action.operands, t < s.terms.size) → Reachable freeBitLimit (action.perform s)

end BoundedCheck.Enumerator
