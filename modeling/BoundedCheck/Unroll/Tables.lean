import BoundedCheck.SortTable
import BoundedCheck.Unroll.CheckError

/-!
# Tables of a design

What is known about a design before its first step: the sorts with their handles, the symbols, the
names of variables and the state of each `next`.
-/

namespace BoundedCheck

/-- Terms by the line id of the instruction that they belong to. -/
abbrev Frame (Term : Type) := OrderedMap Nat Term

/-- The tables that are filled while a design is prepared. -/
structure Tables (Handle : Type) where
  sorts : SortTable Handle := {}
  /-- The symbols of inputs and states and their renamings, with line ids. -/
  names : OrderedMap String Nat := {}
  /-- The names of the variables of inputs and states, without the number of the step. -/
  varNames : OrderedMap Nat String := {}
  /-- The state that each `next` instruction belongs to. -/
  nexts : OrderedMap Nat Nat := {}

namespace Tables

variable {Handle : Type}

/-- The handle of the sort of an instruction. -/
def sortOf (tables : Tables Handle) (lid sort : Nat) : Except CheckError Handle :=
  match tables.sorts.get? sort with
  | some entry => .ok entry.handle
  | none => .error (.unknownSort lid sort)

/-- The name of the variable of an input or state in a step. -/
def stepName (tables : Tables Handle) (lid step : Nat) : String :=
  let base := (tables.varNames.get? lid).getD ""
  s!"{base}_{step}"

/-- Binds a symbol; one that is taken is told apart by the line id in names of variables. -/
def bindName (tables : Tables Handle) (lid : Nat) (name : String) : Tables Handle :=
  let base := if tables.names.contains name then s!"{name}@{lid}" else name
  { tables with
    varNames := tables.varNames.insert lid base
    names := tables.names.insert name lid }

end Tables

/-- The value of an operand in a frame. -/
def Frame.resolve {Term : Type} (frame : Frame Term) (lid operand : Nat) :
    Except CheckError Term :=
  match frame.get? operand with
  | some term => .ok term
  | none => .error (.unresolvedOperand lid operand)

/-- The states of a design with their sorts, in order. -/
def Design.states (design : Design) : List (Nat × Nat) :=
  design.filterMap fun instruction =>
    match instruction.operation with
    | .state sort _ => some (instruction.lid, sort)
    | _ => none

/-- The states that have a `next` instruction. -/
def Design.updated (design : Design) : List Nat :=
  design.filterMap fun instruction =>
    match instruction.operation with
    | .next _ state _ => some state
    | _ => none

/-- The states that take a new value of their own in each step. -/
def Design.freeStates (design : Design) : List (Nat × Nat) :=
  design.states.filter fun (lid, _) => !design.updated.contains lid

end BoundedCheck
