/-!
# Faults

Quantities of a design have fixed ranges: bit positions, widths and columns have 32 bits, line ids
and words have 64.  An operation that leaves its range stops with a fault, which is kept apart from
the errors that a design or a solver can report.  Only the places in a source are counted on from
zero when they leave their range.
-/

namespace BoundedCheck

/-- Why a computation could not go on. -/
inductive Fault where
  /-- A sum or difference left the range of its quantity. -/
  | overflow
  /-- A 64-bit word was shifted by 64 places or more. -/
  | shift
  /-- A number was divided by zero. -/
  | division
  /-- A term number was used that no term has. -/
  | index
  deriving DecidableEq, Repr

/-- Widths, bit positions and columns stay below this bound. -/
def narrowBound : Nat := 0x100000000

/-- Line ids and words stay below this bound. -/
def wideBound : Nat := 0x10000000000000000

/-- A quantity of 32 bits, or a fault. -/
def narrow (value : Nat) : Except Fault Nat :=
  if value < narrowBound then .ok value else .error .overflow

theorem narrow_eq_ok {value : Nat} (fits : value < narrowBound) : narrow value = .ok value :=
  if_pos fits

theorem narrow_eq_error {value : Nat} (large : narrowBound ≤ value) :
    narrow value = .error .overflow :=
  if_neg (Nat.not_lt.mpr large)

/-- What ends a computation early: a fault, or an error of its own kind. -/
inductive Stop (ε : Type) where
  | fault (cause : Fault)
  | error (cause : ε)
  deriving DecidableEq, Repr

/-- Changes the kind of error and keeps faults. -/
def Stop.map {ε δ : Type} (f : ε → δ) : Stop ε → Stop δ
  | .fault cause => .fault cause
  | .error cause => .error (f cause)

end BoundedCheck
