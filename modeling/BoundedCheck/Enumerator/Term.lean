import BoundedCheck.Word

/-!
# Terms

The terms of a solver stand in one array and refer to earlier terms by number, so that common parts
are shared.
-/

namespace BoundedCheck.Enumerator

/-- How a term is built. -/
inductive Node where
  | var (index : Nat)
  | constant (value : Nat)
  | not (a : Nat)
  | binary (op : BinaryOp) (a b : Nat)
  | ite (condition onTrue onFalse : Nat)
  | slice (a : Nat) (high low : Nat)
  deriving DecidableEq, Repr

/-- The terms that a node refers to. -/
def Node.children : Node → List Nat
  | .var _ | .constant _ => []
  | .not a | .slice a _ _ => [a]
  | .binary _ a b => [a, b]
  | .ite condition onTrue onFalse => [condition, onTrue, onFalse]

/-- A node with the width of its value. -/
structure Term where
  node : Node
  width : Nat
  deriving DecidableEq, Repr

/-- The children of the term with the given number. -/
def children (terms : Array Term) (t : Nat) : List Nat :=
  match terms[t]? with
  | some term => term.node.children
  | none => []

/-- The width of the term with the given number. -/
def widthOf (terms : Array Term) (t : Nat) : Nat :=
  match terms[t]? with
  | some term => term.width
  | none => 0

/-- The variable that the term with the given number stands for. -/
def varIndex? (terms : Array Term) (t : Nat) : Option Nat :=
  match terms[t]? with
  | some ⟨.var index, _⟩ => some index
  | _ => none

/-- Every term refers to terms with smaller numbers only. -/
def WellFounded (terms : Array Term) : Prop :=
  ∀ t, ∀ child ∈ children terms t, child < t

end BoundedCheck.Enumerator
