import BoundedCheck.Enumerator.Term

/-!
# Values of terms

An assignment gives each variable a word.  Values are computed term by term in an array, children
first; `denote` is the value by recursion on the term.
-/

namespace BoundedCheck.Enumerator

/-- The value of a term, given the values of its children. -/
def Term.evaluate (terms : Array Term) (assignment values : Array Nat) (term : Term) :
    Except Fault Nat :=
  match term.node with
  | .var index => .ok (assignment.getD index 0)
  | .constant value => .ok value
  | .not a => .ok (Word.complement (values.getD a 0) term.width)
  | .binary op a b =>
    Word.binary op (values.getD a 0) (values.getD b 0) (widthOf terms a) (widthOf terms b)
  | .ite condition onTrue onFalse =>
    .ok (if values.getD condition 0 % 2 = 1 then values.getD onTrue 0 else values.getD onFalse 0)
  | .slice a high low => Word.slice (values.getD a 0) high low

/-- Computes the values of the given terms one after the other. -/
def evaluate (terms : Array Term) (assignment : Array Nat) :
    List Nat → Array Nat → Except Fault (Array Nat)
  | [], values => .ok values
  | t :: rest, values =>
    match terms[t]? with
    | none => .error .index
    | some term =>
      match term.evaluate terms assignment values with
      | .error fault => .error fault
      | .ok value => evaluate terms assignment rest (values.setIfInBounds t value)

/-- The value of a term under an assignment, by recursion on what it is built from. -/
def denote (terms : Array Term) (assignment : Nat → Nat) (t : Nat) : Except Fault Nat :=
  match terms[t]? with
  | none => .error .index
  | some term =>
    match term.node with
    | .var index => .ok (assignment index)
    | .constant value => .ok value
    | .not a =>
      if a < t then (denote terms assignment a).map fun x => Word.complement x term.width
      else .error .index
    | .binary op a b =>
      if a < t ∧ b < t then
        match denote terms assignment a, denote terms assignment b with
        | .ok x, .ok y => Word.binary op x y (widthOf terms a) (widthOf terms b)
        | .error fault, _ => .error fault
        | .ok _, .error fault => .error fault
      else .error .index
    | .ite condition onTrue onFalse =>
      if condition < t ∧ onTrue < t ∧ onFalse < t then
        match denote terms assignment condition, denote terms assignment onTrue,
          denote terms assignment onFalse with
        | .ok c, .ok x, .ok y => .ok (if c % 2 = 1 then x else y)
        | .error fault, _, _ => .error fault
        | .ok _, .error fault, _ => .error fault
        | .ok _, .ok _, .error fault => .error fault
      else .error .index
    | .slice a high low =>
      if a < t then (denote terms assignment a).bind fun x => Word.slice x high low
      else .error .index
  termination_by t
  decreasing_by all_goals omega

end BoundedCheck.Enumerator
