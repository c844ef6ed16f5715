import BoundedCheck.Unroll.Preparation
import BoundedCheck.Unroll.Step

/-!
# Unrolled designs

An engine unrolls a design over a solver, step by step.  The last frame of states holds the values
at the start of the coming step; a step completes it and appends the next one.
-/

namespace BoundedCheck

/-- A design with its solver and the frames of the steps so far. -/
structure Engine (σ Handle Term : Type) where
  design : Design
  solver : σ
  tables : Tables Handle := {}
  states : Array (Frame Term) := #[]
  bads : Array (Frame Term) := #[]
  constraints : Array (Frame Term) := #[]

namespace Engine

variable {σ Handle Term : Type} [Backend σ Handle Term]

/-- The number of completed steps. -/
def step (engine : Engine σ Handle Term) : Nat :=
  engine.bads.size

/-- Fills the tables and makes the first frame; an engine with frames is left as it is. -/
def prepare : CheckM (Engine σ Handle Term) Unit := fun engine =>
  if engine.states.isEmpty then
    match Preparation.registerAll engine.design ⟨engine.solver, engine.tables, {}⟩ with
    | .ok _ p =>
      .ok () { engine with solver := p.solver, tables := p.tables, states := #[p.seed] }
    | .error stop p => .error stop { engine with solver := p.solver, tables := p.tables }
  else .error (.error .alreadyPrepared) engine

/-- Unrolls one step of a prepared engine and gives its number. -/
def advance : CheckM (Engine σ Handle Term) Nat := fun engine =>
  let number := engine.states.size
  match StepFrames.run engine.tables engine.design number (engine.states.back?.getD {})
    engine.solver with
  | .ok frames solver =>
    .ok number { engine with
      solver := solver
      states := (engine.states.pop.push frames.current).push frames.next
      bads := engine.bads.push frames.bads
      constraints := engine.constraints.push frames.constraints }
  | .error stop solver => .error stop { engine with solver := solver }

/-- Unrolls one step, after a preparation if there was none. -/
def execute : CheckM (Engine σ Handle Term) Nat := do
  if (← get).states.isEmpty then prepare
  advance

end Engine

end BoundedCheck
