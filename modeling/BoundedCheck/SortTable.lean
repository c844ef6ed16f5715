import BoundedCheck.Design.Instruction
import BoundedCheck.OrderedMap

/-!
# Sort tables

The bit-vector sorts of a design, each with the handle that a solver gave for it.
-/

namespace BoundedCheck

/-- A sort that is known to a solver. -/
structure SortEntry (Handle : Type) where
  width : Nat
  handle : Handle
  deriving DecidableEq, Repr

/-- Sorts by line id, in order of registration. -/
abbrev SortTable (Handle : Type) := OrderedMap Nat (SortEntry Handle)

/-- Registers a sort and tells whether it is new; a line id keeps its first sort. -/
def SortTable.register {Handle : Type} (table : SortTable Handle) (lid : Nat) (width : Nat)
    (handle : Handle) : Bool × SortTable Handle :=
  if table.contains lid then (false, table) else (true, table.insert lid ⟨width, handle⟩)

end BoundedCheck
