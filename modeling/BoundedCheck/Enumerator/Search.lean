import BoundedCheck.Enumerator.Cone
import BoundedCheck.Enumerator.Evaluation

/-!
# Search through all assignments

The free variables of a query are the digits of one number, the first variable being the least
significant.  Counting that number up visits every assignment once.
-/

namespace BoundedCheck.Enumerator

/-- A variable with the width of its words. -/
structure FreeVariable where
  index : Nat
  width : Nat
  deriving DecidableEq, Repr

/-- The number of bits of some variables. -/
def freeBits (free : List FreeVariable) : Nat :=
  free.foldr (fun var bits => var.width + bits) 0

/-- Sets the variables to the digits of a number, the first variable being the least significant. -/
def assign : List FreeVariable → Nat → Array Nat → Array Nat
  | [], _, assignment => assignment
  | var :: rest, counter, assignment =>
    assign rest (counter >>> var.width)
      (assignment.setIfInBounds var.index (counter % Word.bound var.width))

/-- All roots have their lowest bit set. -/
def holds (roots : List Nat) (values : Array Nat) : Bool :=
  roots.all fun root => values.getD root 0 % 2 == 1

/--
The first assignment under which all roots hold, among a number of counters from the given one on.
Both arrays are used again for the next counter.
-/
def search (terms : Array Term) (roots order : List Nat) (free : List FreeVariable) :
    Nat → Nat → Array Nat → Array Nat → Except Fault (Option (Array Nat))
  | 0, _, _, _ => .ok none
  | remaining + 1, counter, assignment, values =>
    let assignment := assign free counter assignment
    match evaluate terms assignment order values with
    | .error fault => .error fault
    | .ok values =>
      if holds roots values then .ok (some assignment)
      else search terms roots order free remaining (counter + 1) assignment values

end BoundedCheck.Enumerator
