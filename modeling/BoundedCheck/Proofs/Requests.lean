import Mathlib
import BoundedCheck.Proofs.Histories

/-!
# Requests of an unrolling

While a design is prepared and unrolled, its solver is asked for sorts, variables, constants and
operators, and for nothing else.  A relation between states of a solver that all these requests
respect therefore holds from the start of a step to its end, also of a step that fails.  The relation
may depend on the names of the variables that were asked for; that of a recorder says which calls
were noted.
-/

namespace BoundedCheck

/-! ## Relations between states -/

/-- A relation between states, by names, that can be put together along a run. -/
structure Graded {σ : Type} (R : List String → σ → σ → Prop) : Prop where
  refl (s : σ) : R [] s s
  trans {first second : List String} {s middle later : σ} : R first s middle →
    R second middle later → R (first ++ second) s later

/-- A run goes along a relation: with given names if it succeeds, and with some if it fails. -/
inductive Passes {ε σ α : Type} (R : List String → σ → σ → Prop) (names : List String) (s : σ) :
    EStateM.Result ε σ α → Prop where
  | ok {a : α} {later : σ} : R names s later → Passes R names s (.ok a later)
  | error {stop : ε} {later : σ} {asked : List String} : R asked s later →
      Passes R names s (.error stop later)

namespace Passes

variable {ε δ σ τ α β : Type} {R : List String → σ → σ → Prop} {names more : List String} {s : σ}

theorem endState {result : EStateM.Result ε σ α} (passes : Passes R names s result) :
    ∃ asked, R asked s (endState result) := by
  cases passes with
  | ok related => exact ⟨_, related⟩
  | error related => exact ⟨_, related⟩

theorem of_ok {a : α} {later : σ}
    (passes : Passes R names s (.ok a later : EStateM.Result ε σ α)) : R names s later := by
  cases passes with
  | ok related => exact related

theorem adaptExcept {request : EStateM ε σ α} (convert : ε → δ)
    (passes : Passes R names s (request s)) :
    Passes R names s (request.adaptExcept convert s) := by
  unfold EStateM.adaptExcept
  generalize request s = result at passes
  cases passes with
  | ok related => exact .ok related
  | error related => exact .error related

theorem bind (graded : Graded R) {request : EStateM ε σ α} {next : α → EStateM ε σ β}
    (first : Passes R names s (request s))
    (second : ∀ a middle, Passes R more middle (next a middle)) :
    Passes R (names ++ more) s ((request >>= next) s) := by
  simp only [Bind.bind, EStateM.bind]
  generalize request s = result at first
  cases first with
  | error related => exact .error related
  | @ok a middle related =>
      have rest := second a middle
      simp only
      generalize next a middle = last at rest
      cases rest with
      | ok further => exact .ok (graded.trans related further)
      | error further => exact .error (graded.trans related further)

/-- A run that asks for no name, before another one. -/
theorem bind_nil (graded : Graded R) {request : EStateM ε σ α} {next : α → EStateM ε σ β}
    (first : Passes R [] s (request s))
    (second : ∀ a middle, Passes R names middle (next a middle)) :
    Passes R names s ((request >>= next) s) :=
  first.bind graded second

/-- A run that asks for no name, after another one. -/
theorem bind_last (graded : Graded R) {request : EStateM ε σ α} {next : α → EStateM ε σ β}
    (first : Passes R names s (request s))
    (second : ∀ a middle, Passes R [] middle (next a middle)) :
    Passes R names s ((request >>= next) s) := by
  have whole := first.bind graded second
  rwa [List.append_nil] at whole

/-- A run whose result is only looked at. -/
theorem map (graded : Graded R) {request : EStateM ε σ α} (f : α → β)
    (passes : Passes R names s (request s)) :
    Passes R names s ((do return f (← request)) s) :=
  passes.bind_last graded fun _ middle => .ok (graded.refl middle)

theorem ofExcept (graded : Graded R) (outcome : Except CheckError α) (s : σ) :
    Passes R [] s (CheckM.ofExcept outcome s) := by
  cases outcome with
  | ok a => exact .ok (graded.refl s)
  | error error => exact .error (graded.refl s)

end Passes

namespace Preparation

variable {σ Handle Term : Type} {R : List String → σ → σ → Prop} {p : Preparation σ Handle Term}

/-- The solvers of two preparations are related. -/
def OnSolver (R : List String → σ → σ → Prop) (names : List String)
    (p later : Preparation σ Handle Term) : Prop :=
  R names p.solver later.solver

theorem passes_ask {α : Type} {request : SolverM σ α} {names : List String}
    (passes : Passes R names p.solver (request p.solver)) :
    Passes (OnSolver R) names p (ask request p) := by
  have adapted : Passes R names p.solver (CheckM.ofSolver request p.solver) := passes.adaptExcept _
  unfold ask
  generalize CheckM.ofSolver request p.solver = result at adapted
  cases adapted with
  | ok related => exact .ok related
  | error related => exact .error related

theorem graded_onSolver (graded : Graded R) :
    Graded (OnSolver R : List String → Preparation σ Handle Term → _ → Prop) where
  refl p := graded.refl p.solver
  trans first second := graded.trans first second

/-- What is only entered into tables leaves the solver alone. -/
theorem passes_enter (graded : Graded R) (tables : Tables Handle) :
    Passes (OnSolver R) [] p
      (.ok () { p with tables := tables } : EStateM.Result (Stop CheckError) _ Unit) :=
  .ok (graded.refl p.solver)

/-- What was entered into tables before does not matter. -/
theorem passes_of_entered {ε α : Type} {tables : Tables Handle} {names : List String}
    {result : EStateM.Result ε (Preparation σ Handle Term) α}
    (passes : Passes (OnSolver R) names { p with tables := tables } result) :
    Passes (OnSolver R) names p result := by
  cases passes with
  | ok related => exact .ok related
  | error related => exact .error related

end Preparation

/-- The requests that build terms respect a relation; each new variable adds its name. -/
structure Respected {σ Handle Term : Type} [Backend σ Handle Term]
    (R : List String → σ → σ → Prop) : Prop extends Graded R where
  makeSort (width : Nat) (s : σ) : Passes R [] s (Backend.makeSort width s)
  makeVariable (name : String) (sort : Handle) (s : σ) :
    Passes R [name] s (Backend.makeVariable name sort s)
  makeConstant (value : Nat) (sort : Handle) (s : σ) :
    Passes R [] s (Backend.makeConstant value sort s)
  not (a : Term) (s : σ) : Passes R [] s (Backend.not a s)
  binary (op : BinaryOp) (a b : Term) (s : σ) : Passes R [] s (Backend.binary op a b s)
  ite (c a b : Term) (s : σ) : Passes R [] s (Backend.ite c a b s)
  uext (a : Term) (extra : Nat) (s : σ) : Passes R [] s (Backend.uext a extra s)
  slice (a : Term) (high low : Nat) (s : σ) : Passes R [] s (Backend.slice a high low s)

variable {σ Handle Term : Type} [Backend σ Handle Term] {R : List String → σ → σ → Prop}

/-! ## One step -/

namespace StepFrames

variable (tables : Tables Handle)

theorem passes_freshVariable (respected : Respected R) (lid sort step : Nat) (s : σ) :
    Passes R [tables.stepName lid step] s (freshVariable tables lid sort step s) :=
  .bind_nil respected.toGraded (.ofExcept respected.toGraded _ s) fun handle middle =>
    (respected.makeVariable _ handle middle).adaptExcept _

theorem passes_constant (respected : Respected R) (lid sort value : Nat) (s : σ) :
    Passes R [] s (constant tables lid sort value s) :=
  .bind_nil respected.toGraded (.ofExcept respected.toGraded _ s) fun handle middle =>
    (respected.makeConstant value handle middle).adaptExcept _

theorem passes_binaryOperator (respected : Respected R) (op : BinaryOp) (a b : Term) (s : σ) :
    Passes R [] s (binaryOperator op a b s) := by
  refine .bind_nil respected.toGraded (.ok (respected.refl s)) fun solver middle => ?_
  split
  · exact (respected.binary op a b middle).adaptExcept _
  · exact .error (respected.refl middle)

/-- The names of the variables that an instruction asks for in a step. -/
def asked (step : Nat) (instruction : Instruction) : List String :=
  match instruction.operation with
  | .input _ _ => [tables.stepName instruction.lid step]
  | _ => []

/-- An instruction asks for a variable if it is an input, and else for constants and operators. -/
theorem passes_value? (respected : Respected R) (step : Nat) (frame : Frame Term)
    (instruction : Instruction) (s : σ) :
    Passes R (asked tables step instruction) s (value? tables step frame instruction s) := by
  have graded := respected.toGraded
  -- The sort of an instruction and its operands are looked up without the solver.
  have looked {α β : Type} (outcome : Except CheckError α) {next : α → CheckM σ β} {s : σ}
      (rest : ∀ a middle, Passes R [] middle (next a middle)) :
      Passes R [] s ((CheckM.ofExcept outcome >>= next) s) :=
    .bind_nil graded (.ofExcept graded outcome s) rest
  obtain ⟨lid, operation⟩ := instruction
  cases operation with
  | input sort name => exact (passes_freshVariable tables respected lid sort step s).map graded _
  | init | ones => exact .error (graded.refl s)
  | const sort value => exact (passes_constant tables respected lid sort value s).map graded _
  | zero sort => exact (passes_constant tables respected lid sort 0 s).map graded _
  | one sort => exact (passes_constant tables respected lid sort 1 s).map graded _
  | not sort operand =>
      refine looked _ fun _ _ => looked _ fun a middle => ?_
      exact ((respected.not a middle).adaptExcept _).map graded _
  | binary op sort left right =>
      refine looked _ fun _ _ => looked _ fun a _ => looked _ fun b middle => ?_
      exact (passes_binaryOperator respected op a b middle).map graded _
  | ite sort condition onTrue onFalse =>
      refine looked _ fun _ _ => looked _ fun c _ => looked _ fun a _ => looked _ fun b middle => ?_
      exact ((respected.ite c a b middle).adaptExcept _).map graded _
  | uext sort operand extra name =>
      refine looked _ fun _ _ => looked _ fun a middle => ?_
      exact ((respected.uext a extra middle).adaptExcept _).map graded _
  | slice sort operand lowBit width =>
      refine looked _ fun _ _ => looked _ fun a middle => ?_
      cases sliceUpper lowBit width with
      | error fault => exact .error (graded.refl middle)
      | ok upper => exact ((respected.slice a upper lowBit middle).adaptExcept _).map graded _
  | sort | state | output | next | constraint | bad => exact .ok (graded.refl s)

theorem passes_evaluate (respected : Respected R) (step : Nat) (frames : StepFrames Term)
    (instruction : Instruction) (s : σ) :
    Passes R (asked tables step instruction) s (evaluate tables step frames instruction s) := by
  have graded := respected.toGraded
  have valued := passes_value? tables respected step frames.current instruction s
  obtain ⟨lid, operation⟩ := instruction
  cases operation with
  | next sort state value =>
      simp only [evaluate]
      cases tables.nexts.get? lid with
      | none => exact .error (graded.refl s)
      | some state => exact (Passes.ofExcept graded _ s).map graded _
  | constraint condition name => exact (Passes.ofExcept graded _ s).map graded _
  | bad condition name => exact (Passes.ofExcept graded _ s).map graded _
  | _ =>
      refine valued.bind_last graded fun value middle => ?_
      cases value with
      | none => exact .ok (graded.refl middle)
      | some term => exact .ok (graded.refl middle)

theorem passes_evaluateAll (respected : Respected R) (step : Nat) (design : Design)
    (frames : StepFrames Term) (s : σ) :
    Passes R (design.inputs.map fun lid => tables.stepName lid step) s
      (evaluateAll tables step design frames s) := by
  induction design generalizing frames s with
  | nil => exact .ok (respected.refl s)
  | cons instruction rest ih =>
      have split : Design.inputs (instruction :: rest) =
          Design.inputs [instruction] ++ Design.inputs rest := by
        rw [Design.inputs, ← List.singleton_append, List.filterMap_append]
        rfl
      have first : (Design.inputs [instruction]).map (fun lid => tables.stepName lid step) =
          asked tables step instruction := by
        obtain ⟨lid, operation⟩ := instruction
        cases operation <;> rfl
      rw [split, List.map_append, first]
      exact (passes_evaluate tables respected step frames instruction s).bind respected.toGraded ih

theorem passes_renewAll (respected : Respected R) (step : Nat) (free : List (Nat × Nat))
    (frames : StepFrames Term) (s : σ) :
    Passes R (free.map fun state => tables.stepName state.1 (step + 1)) s
      (renewAll tables step free frames s) := by
  induction free generalizing frames s with
  | nil => exact .ok (respected.refl s)
  | cons state rest ih =>
      obtain ⟨lid, sort⟩ := state
      exact (passes_freshVariable tables respected lid sort (step + 1) s).bind respected.toGraded
        fun term middle => ih _ middle

/-- A step asks for a variable of each input, and then of each free state for the step after it. -/
theorem passes_run (respected : Respected R) (design : Design) (step : Nat) (frame : Frame Term)
    (s : σ) :
    Passes R (design.inputs.map (fun lid => tables.stepName lid step) ++
        design.freeStates.map fun state => tables.stepName state.1 (step + 1)) s
      (run tables design step frame s) :=
  (passes_evaluateAll tables respected step design { current := frame } s).bind respected.toGraded
    fun frames middle => passes_renewAll tables respected step design.freeStates frames middle

end StepFrames

/-! ## The preparation -/

namespace Preparation

variable {p : Preparation σ Handle Term}

theorem passes_registerSort (respected : Respected R) (lid width : Nat) :
    Passes (OnSolver R) [] p (registerSort lid width p) := by
  have graded : Graded (OnSolver R : List String → Preparation σ Handle Term → _ → Prop) :=
    graded_onSolver respected.toGraded
  refine .bind_nil graded (.ok (graded.refl p)) fun own middle => ?_
  split
  · exact .ok (graded.refl middle)
  · exact (passes_ask (respected.makeSort width middle.solver)).bind_last graded
      fun handle last => .ok (graded.refl last)

theorem passes_seedState (respected : Respected R) (lid sort : Nat) :
    Passes (OnSolver R) [p.tables.stepName lid 1] p (seedState lid sort p) := by
  have graded : Graded (OnSolver R : List String → Preparation σ Handle Term → _ → Prop) :=
    graded_onSolver respected.toGraded
  have read : (get : CheckM (Preparation σ Handle Term) _) p = .ok p p := rfl
  rw [seedState, CheckM.bind_of_ok read]
  refine .bind_nil graded (.ofExcept graded _ p) fun handle middle => ?_
  exact (passes_ask (respected.makeVariable _ handle middle.solver)).bind_last graded
    fun term last => .ok (graded.refl last)

/-- The names of the variables that an instruction asks for while it is registered. -/
def asked (tables : Tables Handle) (instruction : Instruction) : List String :=
  match instruction.operation with
  | .state _ name =>
    [(tables.bindName instruction.lid (name.getD s!"state{instruction.lid}")).stepName
      instruction.lid 1]
  | _ => []

/-- An instruction asks for a variable if it is a state, and for a sort if it is one. -/
theorem passes_register (respected : Respected R) (instruction : Instruction) :
    Passes (OnSolver R) (asked p.tables instruction) p (register instruction p) := by
  have graded : Graded (OnSolver R : List String → Preparation σ Handle Term → _ → Prop) :=
    graded_onSolver respected.toGraded
  obtain ⟨lid, operation⟩ := instruction
  cases operation with
  | sort kind =>
      cases kind with
      | bitVec width => exact passes_registerSort respected lid width
      | array index element => exact .error (graded.refl p)
  | state sort name =>
      have bound : bindName lid (name.getD s!"state{lid}") p =
          .ok () { p with tables := p.tables.bindName lid (name.getD s!"state{lid}") } := rfl
      have seeded := passes_seedState (p := { p with
        tables := p.tables.bindName lid (name.getD s!"state{lid}") }) respected lid sort
      simp only [register]
      rw [CheckM.bind_of_ok bound]
      exact passes_of_entered seeded
  | uext sort operand extra name =>
      cases extra with
      | zero =>
          cases name with
          | none => exact .ok (graded.refl p)
          | some symbol => exact passes_enter respected.toGraded _
      | succ extra => exact .ok (graded.refl p)
  | input | next => exact passes_enter respected.toGraded _
  | _ => exact .ok (graded.refl p)

theorem related_registerAll (respected : Respected R) (design : Design)
    (p : Preparation σ Handle Term) :
    ∃ names, R names p.solver (endState (registerAll design p)).solver := by
  induction design generalizing p with
  | nil => exact ⟨[], respected.refl p.solver⟩
  | cons instruction rest ih =>
      obtain ⟨names, first⟩ := (passes_register (p := p) respected instruction).endState
      rw [registerAll]
      cases ran : register instruction p with
      | error stop last =>
          rw [CheckM.bind_of_error ran]
          rw [ran] at first
          exact ⟨names, first⟩
      | ok _ middle =>
          rw [CheckM.bind_of_ok ran]
          rw [ran] at first
          obtain ⟨more, others⟩ := ih middle
          exact ⟨names ++ more, respected.trans first others⟩

end Preparation

/-! ## The engine -/

namespace Engine

variable {engine later : Engine σ Handle Term}

theorem related_prepare (respected : Respected R) (engine : Engine σ Handle Term) :
    ∃ names, R names engine.solver (endState (prepare engine)).solver := by
  have registered := Preparation.related_registerAll respected engine.design
    ⟨engine.solver, engine.tables, {}⟩
  unfold prepare
  split
  · cases ran : Preparation.registerAll engine.design ⟨engine.solver, engine.tables, {}⟩ with
    | ok _ p =>
        rw [ran] at registered
        exact registered
    | error stop p =>
        rw [ran] at registered
        exact registered
  · exact ⟨[], respected.refl engine.solver⟩

/-- The names of the variables that the next step of an engine asks for. -/
def asked (engine : Engine σ Handle Term) : List String :=
  engine.design.inputs.map (fun lid => engine.tables.stepName lid engine.states.size) ++
    engine.design.freeStates.map fun state =>
      engine.tables.stepName state.1 (engine.states.size + 1)

theorem passes_advance (respected : Respected R) (engine : Engine σ Handle Term) :
    Passes (fun names (e later : Engine σ Handle Term) => R names e.solver later.solver)
      engine.asked engine (advance engine) := by
  have stepped := StepFrames.passes_run engine.tables respected engine.design engine.states.size
    (engine.states.back?.getD {}) engine.solver
  unfold advance
  simp only
  generalize StepFrames.run engine.tables engine.design engine.states.size
    (engine.states.back?.getD {}) engine.solver = result at stepped
  cases stepped with
  | ok related => exact .ok related
  | error related => exact .error related

/-- What the requests for terms respect holds from the start of a step to its end. -/
theorem related_execute (respected : Respected R) (engine : Engine σ Handle Term) :
    ∃ names, R names engine.solver (endState (execute engine)).solver := by
  have read : (get : CheckM (Engine σ Handle Term) _) engine = .ok engine engine := rfl
  unfold execute
  rw [CheckM.bind_of_ok read]
  split
  · obtain ⟨names, first⟩ := related_prepare respected engine
    cases ran : prepare engine with
    | error stop last =>
        rw [CheckM.bind_of_error ran]
        rw [ran] at first
        exact ⟨names, first⟩
    | ok _ middle =>
        rw [CheckM.bind_of_ok ran]
        rw [ran] at first
        obtain ⟨more, others⟩ := (passes_advance respected middle).endState
        exact ⟨names ++ more, respected.trans first others⟩
  · exact (passes_advance respected engine).endState

end Engine

/-! ## Recorded calls -/

namespace Call

/-- Whether a call asks for a sort or a term. -/
def builds : Call Handle Term → Bool
  | .makeSort _ | .makeVariable _ _ _ | .makeConstant _ _ _ | .not _ _ | .binary _ _ _ _
  | .ite _ _ _ _ | .uext _ _ _ | .slice _ _ _ _ => true
  | .refused .makeSort | .refused .makeVariable | .refused .makeConstant => true
  | _ => false

/-- The name of a variable that was made. -/
def variableName? : Call Handle Term → Option String
  | .makeVariable name _ _ => some name
  | _ => none

end Call

namespace Recorder

section Notes

omit [Backend σ Handle Term]

variable {r : Recorder σ Handle Term}

/-- What a recorder does with a request: it notes a refusal, or what comes before and after it. -/
inductive Forwarded {α : Type} (r : Recorder σ Handle Term) (request : Request)
    (before : Option (Call Handle Term))
    (after : Except (Stop SolverError) α → Option (Call Handle Term)) :
    EStateM.Result (Stop SolverError) (Recorder σ Handle Term) α → Prop where
  | refused {error : SolverError} {later : Recorder σ Handle Term} :
      r.script.failures request ≠ none → later.script = r.script →
      later.log.toList = r.log.toList ++ [.refused request] →
      Forwarded r request before after (.error (.error error) later)
  | ok {a : α} {later : Recorder σ Handle Term} : later.script = r.script →
      later.log.toList = r.log.toList ++ (before.toList ++ (after (.ok a)).toList) →
      Forwarded r request before after (.ok a later)
  | error {stop : Stop SolverError} {later : Recorder σ Handle Term} : later.script = r.script →
      later.log.toList = r.log.toList ++ (before.toList ++ (after (.error stop)).toList) →
      Forwarded r request before after (.error stop later)

theorem forwarded_forward {α : Type} (r : Recorder σ Handle Term) (request : Request)
    (before : Option (Call Handle Term))
    (after : Except (Stop SolverError) α → Option (Call Handle Term)) (inner : SolverM σ α) :
    Forwarded r request before after (forward request before after inner r) := by
  unfold forward
  simp only
  cases planned : (r.count request).planned? request with
  | some error =>
      refine .refused ?_ rfl (by simp [note, count])
      intro none
      simp [planned?, count, none] at planned
  | none =>
      -- What was noted before does not matter to the solver inside.
      cases before with
      | none =>
          simp only [count]
          cases inner r.inner with
          | ok a s =>
              refine .ok ?_ ?_ <;> cases after (.ok a) <;> simp [note]
          | error stop s =>
              refine .error ?_ ?_ <;> cases after (.error stop) <;> simp [note]
      | some call =>
          simp only [count, note]
          cases inner r.inner with
          | ok a s =>
              refine .ok ?_ ?_ <;> cases after (.ok a) <;> simp
          | error stop s =>
              refine .error ?_ ?_ <;> cases after (.error stop) <;> simp

/-- A recorder has noted calls that build terms, and among them the variables of the given names. -/
structure Built (names : List String) (r later : Recorder σ Handle Term) : Prop where
  script : later.script = r.script
  calls : ∃ calls, later.log.toList = r.log.toList ++ calls ∧ (∀ call ∈ calls, call.builds = true) ∧
    calls.filterMap Call.variableName? = names

theorem graded_built : Graded (Built : List String → Recorder σ Handle Term → _ → Prop) where
  refl r := ⟨rfl, [], by simp, by simp, rfl⟩
  trans first second := by
    obtain ⟨script, calls, noted, building, named⟩ := first
    obtain ⟨script', more, noted', building', named'⟩ := second
    refine ⟨script'.trans script, calls ++ more, ?_, ?_, ?_⟩
    · rw [noted', noted, List.append_assoc]
    · intro call member
      rcases List.mem_append.mp member with early | late
      · exact building call early
      · exact building' call late
    · rw [List.filterMap_append, named, named']

/-- A request that notes only calls that build terms. -/
theorem Forwarded.passes {α : Type} {request : Request} {before : Option (Call Handle Term)}
    {after : Except (Stop SolverError) α → Option (Call Handle Term)}
    {result : EStateM.Result (Stop SolverError) (Recorder σ Handle Term) α} {names : List String}
    (forwarded : Forwarded r request before after result)
    (planned : (Call.refused request : Call Handle Term).builds = true)
    (building : ∀ outcome, ∀ call ∈ before.toList ++ (after outcome).toList, call.builds = true)
    (named : ∀ a, (before.toList ++ (after (.ok a)).toList).filterMap Call.variableName? = names) :
    Passes Built names r result := by
  cases forwarded with
  | refused _ script noted => exact .error ⟨script, _, noted, by simpa using planned, rfl⟩
  | ok script noted => exact .ok ⟨script, _, noted, building _, named _⟩
  | error script noted => exact .error ⟨script, _, noted, building _, rfl⟩

theorem passes_operator {call : Term → Call Handle Term} {inner : EStateM Fault σ Term}
    (building : ∀ t, (call t).builds = true) (plain : ∀ t, (call t).variableName? = none) :
    Passes Built [] r (operator call inner r) := by
  unfold operator
  cases inner r.inner with
  | ok t s =>
      refine .ok ⟨rfl, [call t], by simp [note], by simpa using building t, ?_⟩
      simp [plain]
  | error fault s => exact .error ⟨rfl, [], by simp, by simp, rfl⟩

end Notes

/-- A recorder notes what it is asked for while terms are built. -/
theorem respected_built :
    Respected (Built : List String → Recorder σ Handle Term → _ → Prop) where
  toGraded := graded_built
  makeSort width r :=
    (forwarded_forward r _ _ _ _).passes rfl (by simp [Call.builds]) (by simp [Call.variableName?])
  makeVariable name sort r := by
    refine (forwarded_forward r _ _ _ _).passes rfl ?_ ?_
    · intro outcome
      cases outcome <;> simp [onSuccess, Call.builds]
    · simp [onSuccess, Call.variableName?]
  makeConstant value sort r := by
    refine (forwarded_forward r _ _ _ _).passes rfl ?_ ?_
    · intro outcome
      cases outcome <;> simp [onSuccess, Call.builds]
    · simp [onSuccess, Call.variableName?]
  not a r := passes_operator (fun _ => rfl) fun _ => rfl
  binary op a b r := passes_operator (fun _ => rfl) fun _ => rfl
  ite c a b r := passes_operator (fun _ => rfl) fun _ => rfl
  uext a extra r := passes_operator (fun _ => rfl) fun _ => rfl
  slice a high low r := passes_operator (fun _ => rfl) fun _ => rfl

end Recorder

/-- An engine as it stands, with a recorder in front of its solver. -/
def Engine.recorded (engine : Engine σ Handle Term) :
    Engine (Recorder σ Handle Term) Handle Term where
  design := engine.design
  solver := { inner := engine.solver }
  tables := engine.tables
  states := engine.states
  bads := engine.bads
  constraints := engine.constraints

end BoundedCheck
