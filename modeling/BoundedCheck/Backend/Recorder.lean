import BoundedCheck.Backend

/-!
# Recorded backends

A recorder stands in front of a backend, notes the calls that it passes on, and makes planned calls
fail.  It shows what the unrolling of a design asks of its solver.
-/

namespace BoundedCheck

/-- The requests that can be planned to fail. -/
inductive Request where
  | makeSort
  | makeVariable
  | makeConstant
  | checkSat
  | getModel
  deriving DecidableEq, Repr

/-- A call to a backend, with its result where it has one. -/
inductive Call (Handle Term : Type) where
  | makeSort (width : Nat)
  | makeVariable (name : String) (sort : Handle) (result : Term)
  | makeConstant (value : Nat) (sort : Handle) (result : Term)
  | assume (term : Term)
  | assert (term : Term)
  | push
  | pop
  | checkSat (result : Option Bool)
  | getModel
  | not (a result : Term)
  | binary (op : BinaryOp) (a b result : Term)
  | ite (condition onTrue onFalse result : Term)
  | uext (a : Term) (extra : Nat) (result : Term)
  | slice (a : Term) (high low : Nat) (result : Term)
  | refused (request : Request)
  deriving DecidableEq, Repr

/-- Which calls fail, and which operators are held back. -/
structure Script where
  /-- The number of the call that fails, counted from one, and its error. -/
  failures : Request → Option (Nat × SolverError) := fun _ => none
  missing : List BinaryOp := []

/-- A backend with the calls so far, oldest first. -/
structure Recorder (σ Handle Term : Type) where
  inner : σ
  script : Script := {}
  counts : Request → Nat := fun _ => 0
  log : Array (Call Handle Term) := #[]

namespace Recorder

variable {σ Handle Term : Type} [Backend σ Handle Term]

/-- Notes a call. -/
def note (call : Call Handle Term) (r : Recorder σ Handle Term) : Recorder σ Handle Term :=
  { r with log := r.log.push call }

/-- Counts a request. -/
def count (request : Request) (r : Recorder σ Handle Term) : Recorder σ Handle Term :=
  { r with counts := fun other => if other = request then r.counts other + 1 else r.counts other }

/-- The error planned for the request counted last. -/
def planned? (request : Request) (r : Recorder σ Handle Term) : Option SolverError :=
  match r.script.failures request with
  | some (turn, error) => if r.counts request = turn then some error else none
  | none => none

/-- Passes a request on, unless it is planned to fail. -/
def forward {α : Type} (request : Request) (before : Option (Call Handle Term))
    (after : Except (Stop SolverError) α → Option (Call Handle Term)) (inner : SolverM σ α) :
    SolverM (Recorder σ Handle Term) α := fun r =>
  let r := r.count request
  match r.planned? request with
  | some error => .error (.error error) (r.note (.refused request))
  | none =>
    let r := match before with
      | some call => r.note call
      | none => r
    match inner r.inner with
    | .ok a s =>
      let r := { r with inner := s }
      .ok a (match after (.ok a) with
        | some call => r.note call
        | none => r)
    | .error stop s =>
      let r := { r with inner := s }
      .error stop (match after (.error stop) with
        | some call => r.note call
        | none => r)

/-- Passes an operator on and notes its result. -/
def operator (note : Term → Call Handle Term) (inner : EStateM Fault σ Term) :
    EStateM Fault (Recorder σ Handle Term) Term := fun r =>
  match inner r.inner with
  | .ok t s => .ok t ({ r with inner := s }.note (note t))
  | .error fault s => .error fault { r with inner := s }

/-- Notes a result that a request gave. -/
def onSuccess {α : Type} (note : α → Call Handle Term) :
    Except (Stop SolverError) α → Option (Call Handle Term)
  | .ok a => some (note a)
  | .error _ => none

/-- Notes whether a query was decided, and how. -/
def onAnswer : Except (Stop SolverError) Bool → Option (Call Handle Term)
  | .ok answer => some (.checkSat (some answer))
  | .error _ => some (.checkSat none)

instance : Backend (Recorder σ Handle Term) Handle Term where
  makeSort width :=
    forward .makeSort (some (.makeSort width)) (fun _ => none) (Backend.makeSort width)
  makeVariable name sort :=
    forward .makeVariable none (onSuccess (.makeVariable name sort)) (Backend.makeVariable name sort)
  makeConstant value sort :=
    forward .makeConstant none (onSuccess (.makeConstant value sort))
      (Backend.makeConstant value sort)
  assume term r := { r with inner := Backend.assume term r.inner }.note (.assume term)
  assert term r := { r with inner := Backend.assert term r.inner }.note (.assert term)
  push r := { r with inner := Backend.push r.inner }.note .push
  pop r := { r with inner := Backend.pop r.inner }.note .pop
  checkSat := forward .checkSat none onAnswer Backend.checkSat
  getModel := forward .getModel (some .getModel) (fun _ => none) Backend.getModel
  supports r op := !r.script.missing.contains op && Backend.supports r.inner op
  not a := operator (.not a) (Backend.not a)
  binary op a b := operator (.binary op a b) (Backend.binary op a b)
  ite condition onTrue onFalse :=
    operator (.ite condition onTrue onFalse) (Backend.ite condition onTrue onFalse)
  uext a extra := operator (.uext a extra) (Backend.uext a extra)
  slice a high low := operator (.slice a high low) (Backend.slice a high low)

end Recorder

end BoundedCheck
