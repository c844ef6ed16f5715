import BoundedCheck.Enumerator.Term

/-!
# Cones

The cone of some terms consists of these terms and all that they are built from.  It is found by
one pass from the last term down to the first, in which each marked term marks its children.
-/

namespace BoundedCheck.Enumerator

/-- A term is reached from another through zero or more steps to a child. -/
inductive Reaches (terms : Array Term) : Nat → Nat → Prop where
  | refl (t : Nat) : Reaches terms t t
  | step {t child target : Nat} : child ∈ children terms t → Reaches terms child target →
      Reaches terms t target

/-- Marks the given terms. -/
def mark (marks : Array Bool) (ts : List Nat) : Array Bool :=
  ts.foldl (fun marks t => marks.setIfInBounds t true) marks

/-- Passes marks on to children, for the terms below a number from the last to the first. -/
def sweep (terms : Array Term) : Nat → Array Bool → Array Bool
  | 0, marks => marks
  | t + 1, marks =>
    if marks.getD t false then sweep terms t (mark marks (children terms t))
    else sweep terms t marks

/-- The terms that the roots are built from, in increasing order. -/
def cone (terms : Array Term) (roots : List Nat) : List Nat :=
  let marks := sweep terms terms.size (mark (Array.replicate terms.size false) roots)
  (List.range terms.size).filter fun t => marks.getD t false

end BoundedCheck.Enumerator
