import BoundedCheck.Design.Printer

/-!
# Proof schedules

A schedule adds a counter to a design: a state that grows by one in each step and is wide enough to
tell the steps of the schedule apart.
-/

namespace BoundedCheck

/-- The name of the counter and the number of steps that it tells apart. -/
structure Schedule where
  counterName : String := "fv__counter"
  steps : Nat := 2
  deriving DecidableEq, Repr

namespace Schedule

/-- The least positive number of bits that hold the numbers below the number of steps. -/
def counterWidth (schedule : Schedule) : Nat :=
  (schedule.steps - 1).log2 + 1

/-- The six instructions of the counter, numbered from a line id on. -/
def counter (schedule : Schedule) (start : Nat) : Design :=
  [⟨start, .sort (.bitVec schedule.counterWidth)⟩,
    ⟨start + 1, .const start 0⟩,
    ⟨start + 2, .const start 1⟩,
    ⟨start + 3, .state start (some schedule.counterName)⟩,
    ⟨start + 4, .binary .add start (start + 2) (start + 3)⟩,
    ⟨start + 5, .next start (start + 3) (start + 4)⟩]

/-- The counter, provided that its last line id is one. -/
def counterFrom (schedule : Schedule) (start : Nat) : Except Fault Design :=
  if start + 5 < wideBound then .ok (schedule.counter start) else .error .overflow

/-- The counter for a design, numbered after all its instructions. -/
def counterFor (schedule : Schedule) (design : Design) : Except Fault Design :=
  schedule.counterFrom (design.maxLid + 1)

/-- A design followed by its counter. -/
def splice (schedule : Schedule) (design : Design) : Except Fault Design :=
  match schedule.counterFor design with
  | .ok counter => .ok (design ++ counter)
  | .error fault => .error fault

end Schedule

end BoundedCheck
