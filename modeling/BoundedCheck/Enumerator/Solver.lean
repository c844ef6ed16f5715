import BoundedCheck.Backend
import BoundedCheck.Enumerator.Search
import BoundedCheck.Text.Numeral

/-!
# The enumerating solver

A solver that decides a query by trying all assignments of the variables which the query reaches.
It refuses queries with too many free bits, and every query once a term wider than a word exists.
-/

namespace BoundedCheck

namespace Enumerator

/-- A width that words can have. -/
structure BitSort where
  width : Nat
  pos : 0 < width
  le : width ≤ Word.maxWidth
  deriving DecidableEq, Repr

/-- A variable as it is shown in models. -/
structure Variable where
  name : String
  width : Nat
  deriving DecidableEq, Repr

end Enumerator

/-- The state of the solver. -/
structure Enumerator where
  /-- The greatest number of free bits asked for by the user. -/
  freeBitLimit : Nat := 20
  terms : Array Enumerator.Term := #[]
  /-- The width of the first term that was wider than a word. -/
  overflow : Option Nat := none
  vars : Array Enumerator.Variable := #[]
  assertions : Array Nat := #[]
  /-- The number of assertions at the start of each open scope, innermost first. -/
  marks : List Nat := []
  assumptions : Array Nat := #[]
  /-- The assignment found by the last query. -/
  model : Option (Array Nat) := none
  deriving DecidableEq, Repr

namespace Enumerator

/-- Counting stops at 63 bits whatever the user asked for. -/
def limit (s : Enumerator) : Nat :=
  min s.freeBitLimit 63

/-- Adds a term.  The width of the first one that is wider than a word is kept. -/
def add (node : Node) (width : Nat) (s : Enumerator) : Nat × Enumerator :=
  (s.terms.size, { s with
    terms := s.terms.push ⟨node, width⟩
    overflow := s.overflow.or (if Word.maxWidth < width then some width else none) })

/-- The width of an existing term. -/
def width (s : Enumerator) (t : Nat) : Except Fault Nat :=
  match s.terms[t]? with
  | some term => .ok term.width
  | none => .error .index

/-- The sort of a width, if words can have it. -/
def makeSort (width : Nat) : SolverM Enumerator BitSort := fun s =>
  if valid : 0 < width ∧ width ≤ Word.maxWidth then .ok ⟨width, valid.1, valid.2⟩ s
  else .error (.error (.unsupportedWidth width)) s

/-- A new variable and its term. -/
def makeVariable (name : String) (sort : BitSort) : SolverM Enumerator Nat := fun s =>
  let index := s.vars.size
  let s := { s with vars := s.vars.push ⟨name, sort.width⟩ }
  let (t, s) := s.add (.var index) sort.width
  .ok t s

/-- A constant, reduced to its width. -/
def makeConstant (value : Nat) (sort : BitSort) : SolverM Enumerator Nat := fun s =>
  let (t, s) := s.add (.constant (value % Word.bound sort.width)) sort.width
  .ok t s

/-- Requires a term in the next query. -/
def assume (t : Nat) (s : Enumerator) : Enumerator :=
  { s with assumptions := s.assumptions.push t }

/-- Requires a term until its scope is closed. -/
def assert (t : Nat) (s : Enumerator) : Enumerator :=
  { s with assertions := s.assertions.push t }

/-- Opens a scope. -/
def push (s : Enumerator) : Enumerator :=
  { s with marks := s.assertions.size :: s.marks }

/-- Closes the innermost scope, if there is one. -/
def pop (s : Enumerator) : Enumerator :=
  match s.marks with
  | [] => s
  | size :: outer => { s with assertions := s.assertions.take size, marks := outer }

/-- The terms that the next query requires. -/
def roots (s : Enumerator) : List Nat :=
  s.assertions.toList ++ s.assumptions.toList

/-- The variables among some terms, with their widths. -/
def freeVariables (s : Enumerator) (order : List Nat) : List FreeVariable :=
  order.filterMap fun t =>
    (varIndex? s.terms t).map fun index =>
      ⟨index, match s.vars[index]? with
        | some var => var.width
        | none => 0⟩

/-- Decides whether some terms can hold together, and finds the first assignment. -/
def solve (s : Enumerator) (roots : List Nat) :
    Except (Stop SolverError) (Option (Array Nat)) :=
  match s.overflow with
  | some width => .error (.error (.unsupportedWidth width))
  | none =>
    let order := cone s.terms roots
    let free := s.freeVariables order
    let bits := freeBits free
    if narrowBound ≤ bits then .error (.fault .overflow)
    else if s.limit < bits then .error (.error (.searchSpaceTooLarge bits s.limit))
    else
      match search s.terms roots order free (1 <<< bits) 0 (Array.replicate s.vars.size 0)
        (Array.replicate s.terms.size 0) with
      | .ok found => .ok found
      | .error fault => .error (.fault fault)

/-- Decides the assertions and assumptions; the assumptions are used up whatever the answer is. -/
def checkSat : SolverM Enumerator Bool := fun s =>
  let answer := s.solve s.roots
  let s := { s with model := none, assumptions := #[] }
  match answer with
  | .ok (some assignment) => .ok true { s with model := some assignment }
  | .ok none => .ok false s
  | .error stop => .error stop s

/-- One line of a model: the number of a variable, its binary digits and its name. -/
def modelLine (assignment : Array Nat) (index : Nat) (var : Variable) : String :=
  s!"{index} {Text.Numeral.binaryDigits var.width (assignment.getD index 0)} {var.name}\n"

/-- The lines of a model; variables without a value are zero. -/
def modelText (vars : Array Variable) (assignment : Array Nat) : String :=
  String.join (vars.toList.mapIdx (modelLine assignment))

/-- The model of the last query. -/
def getModel : SolverM Enumerator String := fun s =>
  match s.model with
  | some assignment => .ok (modelText s.vars assignment) s
  | none => .error (.error .noModel) s

/-- The value of a term in the model of the last query. -/
def modelValue (s : Enumerator) (t : Nat) : Except Fault (Option Nat) :=
  match s.model with
  | none => .ok none
  | some assignment =>
    match evaluate s.terms assignment (cone s.terms [t]) (Array.replicate s.terms.size 0) with
    | .ok values => .ok values[t]?
    | .error fault => .error fault

/-- The complement of a term. -/
def not (a : Nat) : EStateM Fault Enumerator Nat := fun s =>
  match s.width a with
  | .error fault => .error fault s
  | .ok width =>
    let (t, s) := s.add (.not a) width
    .ok t s

/-- A binary operator on two terms. -/
def binary (op : BinaryOp) (a b : Nat) : EStateM Fault Enumerator Nat := fun s =>
  match s.width a, s.width b with
  | .ok widthA, .ok widthB =>
    let (t, s) := s.add (.binary op a b) (Word.resultWidth op widthA widthB)
    .ok t s
  | .error fault, _ => .error fault s
  | .ok _, .error fault => .error fault s

/-- A choice between two terms, as wide as the first of them. -/
def ite (condition onTrue onFalse : Nat) : EStateM Fault Enumerator Nat := fun s =>
  match s.width onTrue with
  | .error fault => .error fault s
  | .ok width =>
    let (t, s) := s.add (.ite condition onTrue onFalse) width
    .ok t s

/-- Zero bits in front of a term; without any the term itself. -/
def uext (a : Nat) (extra : Nat) : EStateM Fault Enumerator Nat := fun s =>
  if extra = 0 then .ok a s
  else
    match s.width a with
    | .error fault => .error fault s
    | .ok width =>
      let (zeros, s) := s.add (.constant 0) extra
      let (t, s) := s.add (.binary .concat zeros a) (min (width + extra) (narrowBound - 1))
      .ok t s

/-- The bits of a term between two positions. -/
def slice (a : Nat) (high low : Nat) : EStateM Fault Enumerator Nat := fun s =>
  match Word.sliceWidth high low with
  | .error fault => .error fault s
  | .ok width =>
    let (t, s) := s.add (.slice a high low) width
    .ok t s

instance : Backend Enumerator BitSort Nat where
  makeSort := makeSort
  makeVariable := makeVariable
  makeConstant := makeConstant
  assume := assume
  assert := assert
  push := push
  pop := pop
  checkSat := checkSat
  getModel := getModel
  supports _ _ := true
  not := not
  binary := binary
  ite := ite
  uext := uext
  slice := slice

end Enumerator

end BoundedCheck
