import BoundedCheck.Unroll.Tables

/-!
# Preparation

One pass over a design registers its sorts, symbols and `next` instructions, and makes a variable
for each state of the first step.  What was registered before a failure stays registered.
-/

namespace BoundedCheck

/-- The state of a preparation: the solver, the tables and the first frame. -/
structure Preparation (σ Handle Term : Type) where
  solver : σ
  tables : Tables Handle
  seed : Frame Term := {}

namespace Preparation

variable {σ Handle Term : Type} [Backend σ Handle Term]

/-- A request to the solver of a preparation. -/
def ask {α : Type} (request : SolverM σ α) : CheckM (Preparation σ Handle Term) α := fun p =>
  match CheckM.ofSolver request p.solver with
  | .ok a solver => .ok a { p with solver := solver }
  | .error stop solver => .error stop { p with solver := solver }

/-- Registers a sort that is not known yet. -/
def registerSort (lid width : Nat) : CheckM (Preparation σ Handle Term) Unit := do
  unless (← get).tables.sorts.contains lid do
    let handle ← ask (Backend.makeSort width)
    modify fun p =>
      { p with tables := { p.tables with sorts := (p.tables.sorts.register lid width handle).2 } }

/-- Binds the symbol of an input or state. -/
def bindName (lid : Nat) (name : String) : CheckM (Preparation σ Handle Term) Unit :=
  modify fun p => { p with tables := p.tables.bindName lid name }

/-- Makes the variable of a state in the first step. -/
def seedState (lid sort : Nat) : CheckM (Preparation σ Handle Term) Unit := do
  let tables := (← get).tables
  let handle ← CheckM.ofExcept (tables.sortOf lid sort)
  let term ← ask (Backend.makeVariable (tables.stepName lid 1) handle)
  modify fun p => { p with seed := p.seed.insert lid term }

/-- Registers one instruction. -/
def register (instruction : Instruction) : CheckM (Preparation σ Handle Term) Unit :=
  let lid := instruction.lid
  match instruction.operation with
  | .sort (.bitVec width) => registerSort lid width
  | .sort (.array index element) => CheckM.fail (.unsupportedSort lid index element)
  | .input _ name => bindName lid (name.getD s!"input{lid}")
  | .state sort name => do
    bindName lid (name.getD s!"state{lid}")
    seedState lid sort
  | .uext _ operand 0 (some name) =>
    modify fun p => { p with tables := { p.tables with names := p.tables.names.insert name operand } }
  | .next _ state _ =>
    modify fun p => { p with tables := { p.tables with nexts := p.tables.nexts.insert lid state } }
  | _ => pure ()

/-- Registers the instructions of a design in order. -/
def registerAll : Design → CheckM (Preparation σ Handle Term) Unit
  | [] => pure ()
  | instruction :: rest => do
    register instruction
    registerAll rest

end Preparation

end BoundedCheck
