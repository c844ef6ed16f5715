import Mathlib
import BoundedCheck.Proofs.Coupling
import BoundedCheck.Proofs.Mirroring

/-!
# Symbols

Symbols give names to variables and nothing else.  Two designs that differ in symbols only are
unrolled side by side: at each step both solvers have the same terms, and variables of the same
widths.  So the frames are the same, and all queries have the same answers and models up to names.
-/

namespace BoundedCheck

/-! ## Designs that differ in symbols -/

/-- An operation with another symbol, if it can carry one. -/
def Operation.withName (name : Option String) : Operation → Operation
  | .input declared _ => .input declared name
  | .state declared _ => .state declared name
  | .constraint condition _ => .constraint condition name
  | .bad condition _ => .bad condition name
  | .output value _ => .output value name
  | .uext declared operand extra _ => .uext declared operand extra name
  | operation => operation

theorem Operation.withName_withName (operation : Operation) (name other : Option String) :
    (operation.withName name).withName other = operation.withName other := by
  cases operation <;> rfl

theorem Operation.withName_name? (operation : Operation) :
    operation.withName operation.name? = operation := by
  cases operation <;> rfl

/-- An instruction with another symbol. -/
def Instruction.withName (name : Option String) (instruction : Instruction) : Instruction :=
  { instruction with operation := instruction.operation.withName name }

/-- A design without its symbols. -/
def Design.unnamed (design : Design) : Design :=
  design.map (Instruction.withName none)

/-- Instructions that differ in their symbols only. -/
def Instruction.Relabelled (instruction other : Instruction) : Prop :=
  ∃ name, other = instruction.withName name

/-- Designs that are the same without symbols are so instruction by instruction. -/
theorem Design.relabelled_of_unnamed_eq {first second : Design}
    (same : first.unnamed = second.unnamed) :
    List.Forall₂ Instruction.Relabelled first second := by
  have pointwise : List.Forall₂ Eq first.unnamed second.unnamed := by
    rw [same]
    exact List.forall₂_refl _
  rw [unnamed, unnamed, List.forall₂_map_left_iff, List.forall₂_map_right_iff] at pointwise
  refine pointwise.imp fun instruction other equal => ?_
  obtain ⟨lid, operation⟩ := instruction
  obtain ⟨lid', operation'⟩ := other
  obtain ⟨rfl, erased⟩ := Instruction.mk.inj equal
  refine ⟨operation'.name?, congrArg (Instruction.mk lid) ?_⟩
  -- the symbol of the second operation can be put into either of them
  rw [← operation.withName_withName none, erased, Operation.withName_withName,
    Operation.withName_name?]

theorem Design.states_unnamed (design : Design) : design.unnamed.states = design.states := by
  rw [unnamed, states, states, List.filterMap_map]
  refine List.filterMap_congr fun instruction _ => ?_
  obtain ⟨lid, operation⟩ := instruction
  cases operation <;> rfl

theorem Design.updated_unnamed (design : Design) : design.unnamed.updated = design.updated := by
  rw [unnamed, updated, updated, List.filterMap_map]
  refine List.filterMap_congr fun instruction _ => ?_
  obtain ⟨lid, operation⟩ := instruction
  cases operation <;> rfl

theorem Design.freeStates_unnamed (design : Design) :
    design.unnamed.freeStates = design.freeStates := by
  rw [freeStates, freeStates, states_unnamed, updated_unnamed]

section Evaluation

variable {σ Handle Term : Type} [Backend σ Handle Term]

/-- No symbol is looked at while an instruction is evaluated. -/
theorem StepFrames.evaluate_withName (tables : Tables Handle) (step : Nat)
    (frames : StepFrames Term) (instruction : Instruction) (name : Option String) :
    (evaluate tables step frames (instruction.withName name) : CheckM σ (StepFrames Term)) =
      evaluate tables step frames instruction := by
  obtain ⟨lid, operation⟩ := instruction
  cases operation <;> rfl

theorem StepFrames.evaluateAll_unnamed (tables : Tables Handle) (step : Nat) (design : Design)
    (frames : StepFrames Term) :
    (evaluateAll tables step design.unnamed frames : CheckM σ (StepFrames Term)) =
      evaluateAll tables step design frames := by
  induction design generalizing frames with
  | nil => rfl
  | cons instruction rest ih =>
      rw [Design.unnamed, List.map_cons, evaluateAll, evaluateAll, evaluate_withName]
      exact bind_congr ih

theorem StepFrames.run_unnamed (tables : Tables Handle) (design : Design) (step : Nat)
    (frame : Frame Term) :
    (run tables design.unnamed step frame : CheckM σ (StepFrames Term)) =
      run tables design step frame := by
  rw [run, run, evaluateAll_unnamed, Design.freeStates_unnamed]

end Evaluation

/-! ## Solvers that differ in names -/

namespace Enumerator

/-- Two solvers differ in the names of their variables only. -/
def Relabelled (s t : Enumerator) : Prop :=
  ∃ vars, vars.map Variable.width = s.vars.map Variable.width ∧ t = { s with vars := vars }

variable {s t : Enumerator}

theorem Relabelled.refl (s : Enumerator) : Relabelled s s :=
  ⟨s.vars, rfl, rfl⟩

theorem Relabelled.widths (relabelled : Relabelled s t) :
    t.vars.map Variable.width = s.vars.map Variable.width := by
  obtain ⟨vars, widths, rfl⟩ := relabelled
  exact widths

theorem Relabelled.size_vars (relabelled : Relabelled s t) : t.vars.size = s.vars.size := by
  simpa using congrArg Array.size relabelled.widths

/-- A change that neither reads nor writes variables. -/
theorem Relabelled.map (relabelled : Relabelled s t) (change : Enumerator → Enumerator)
    (blind : ∀ s vars, change { s with vars := vars } = { change s with vars := vars })
    (kept : ∀ s, (change s).vars = s.vars) : Relabelled (change s) (change t) := by
  obtain ⟨vars, widths, rfl⟩ := relabelled
  exact ⟨vars, by rw [kept, widths], blind s vars⟩

theorem relabelled_foldl_assume (constraints : List Nat) (relabelled : Relabelled s t) :
    Relabelled (constraints.foldl (fun s term => s.assume term) s)
      (constraints.foldl (fun s term => s.assume term) t) := by
  induction constraints generalizing s t with
  | nil => exact relabelled
  | cons term rest ih => exact ih (relabelled.map (assume term) (fun _ _ => rfl) fun _ => rfl)

/-! ### Requests -/

/-- Variables of the same sort get the same term, whatever their names are. -/
theorem coupled_makeVariable (name name' : String) (sort : BitSort) :
    Coupled Relabelled (makeVariable name sort) (makeVariable name' sort) := by
  intro s t relabelled
  have size := relabelled.size_vars
  obtain ⟨vars, widths, rfl⟩ := relabelled
  refine .ok ⟨vars.push ⟨name', sort.width⟩, ?_, ?_⟩ rfl
  · simp only [Array.map_push, widths]
  · simp only [show vars.size = s.vars.size from size]

theorem coupling_relabelled : Coupling (fun _ _ => True) Relabelled where
  terms := by
    rintro s _ ⟨vars, -, rfl⟩
    rfl
  flag := by
    rintro s _ ⟨vars, -, rfl⟩
    rfl
  grow terms overflow relabelled :=
    relabelled.map (fun s => { s with terms := terms, overflow := overflow }) (fun _ _ => rfl)
      fun _ => rfl
  makeVariable sort _ := coupled_makeVariable _ _ sort

/-! ### Queries -/

/-- The width of a variable, or zero beyond the last one. -/
theorem freeVariables_eq_widths (s : Enumerator) (order : List Nat) :
    s.freeVariables order = order.filterMap fun t =>
      (varIndex? s.terms t).map fun index => ⟨index, (s.vars.map Variable.width).getD index 0⟩ := by
  unfold freeVariables
  refine List.filterMap_congr fun t _ => ?_
  congr 1
  funext index
  rw [Array.getD_eq_getD_getElem?, Array.getElem?_map]
  cases s.vars[index]? <;> rfl

theorem Relabelled.solve_eq (relabelled : Relabelled s t) (roots : List Nat) :
    t.solve roots = s.solve roots := by
  have size := relabelled.size_vars
  have free (order : List Nat) : t.freeVariables order = s.freeVariables order := by
    rw [freeVariables_eq_widths, freeVariables_eq_widths, relabelled.widths]
    obtain ⟨vars, widths, rfl⟩ := relabelled
    rfl
  unfold solve
  rw [size]
  simp only [free]
  obtain ⟨vars, widths, rfl⟩ := relabelled
  rfl

theorem coupled_checkSat : Coupled Relabelled checkSat checkSat := by
  intro s t relabelled
  have same := relabelled.solve_eq s.roots
  obtain ⟨vars, widths, rfl⟩ := relabelled
  unfold checkSat
  rw [show ({ s with vars := vars } : Enumerator).roots = s.roots from rfl, same]
  cases s.solve s.roots with
  | error stop => exact .error ⟨vars, widths, rfl⟩
  | ok found =>
      cases found with
      | none => exact .ok ⟨vars, widths, rfl⟩ rfl
      | some assignment => exact .ok ⟨vars, widths, rfl⟩ rfl

/-- Models that give variables of the same widths the same values, and differ in names only. -/
structure SameValues (vars vars' : Array Variable) (model model' : String) : Prop where
  widths : vars'.map Variable.width = vars.map Variable.width
  shown : ∃ assignment, model = modelText vars assignment ∧ model' = modelText vars' assignment

theorem lockstep_getModel (relabelled : Relabelled s t) :
    Lockstep Relabelled (fun model model' s t => SameValues s.vars t.vars model model')
      (getModel s) (getModel t) := by
  obtain ⟨vars, widths, rfl⟩ := relabelled
  obtain ⟨limit, terms, overflow, own, assertions, marks, assumptions, model⟩ := s
  cases model with
  | none => exact .error ⟨vars, widths, rfl⟩
  | some assignment => exact .ok ⟨vars, widths, rfl⟩ ⟨widths, assignment, rfl, rfl⟩

end Enumerator

open Enumerator

/-! ## Preparation -/

namespace Preparation

/-- Preparations that differ in names only. -/
structure Relabelled (p q : Preparation Enumerator BitSort Nat) : Prop where
  solver : Enumerator.Relabelled p.solver q.solver
  tables : Tables.Relabelled p.tables q.tables
  seed : q.seed = p.seed

theorem coupled_ask {α : Type} {request request' : SolverM Enumerator α}
    (coupled : Coupled Enumerator.Relabelled request request') :
    Coupled Relabelled (ask request : CheckM (Preparation Enumerator BitSort Nat) α)
      (ask request') := by
  intro p q related
  have ran := coupled.adaptExcept (Stop.map CheckError.solver) _ _ related.solver
  simp only [ask, CheckM.ofSolver]
  generalize request.adaptExcept _ p.solver = left at ran
  generalize request'.adaptExcept _ q.solver = right at ran
  cases ran with
  | ok solver same => exact .ok { related with solver } same
  | error solver => exact .error { related with solver }

theorem coupled_registerSort (lid width : Nat) :
    Coupled Relabelled
      (registerSort lid width : CheckM (Preparation Enumerator BitSort Nat) Unit)
      (registerSort lid width) := by
  refine .of_get fun p q related => ?_
  simp only [related.tables.sorts]
  split
  · exact .of_pure ()
  · refine (coupled_ask (Coupling.makeSort width)).bind fun handle => ?_
    refine .of_modify fun p q related => { related with tables := ⟨?_, related.tables.nexts⟩ }
    rw [related.tables.sorts]

/-- Symbols go into the tables of names, whether they are taken or not. -/
theorem coupled_bindName (lid : Nat) (name name' : String) :
    Coupled Relabelled (bindName lid name : CheckM (Preparation Enumerator BitSort Nat) Unit)
      (bindName lid name') :=
  .of_modify fun _ _ related =>
    { related with tables := ⟨related.tables.sorts, related.tables.nexts⟩ }

theorem coupled_seedState (lid sort : Nat) :
    Coupled Relabelled (seedState lid sort : CheckM (Preparation Enumerator BitSort Nat) Unit)
      (seedState lid sort) := by
  refine .of_get fun p q related => ?_
  simp only [related.tables.sortOf_eq]
  refine (Coupled.ofExcept _).bind fun handle => ?_
  refine (coupled_ask (coupled_makeVariable _ _ handle)).bind fun term => ?_
  refine .of_modify fun p q related => { related with seed := ?_ }
  rw [related.seed]

/-- An extension by no bits enters its symbol, if it has one, into the table of names. -/
theorem coupled_register_uext (lid sort operand extra : Nat) (name name' : Option String) :
    Coupled Relabelled
      (register ⟨lid, .uext sort operand extra name⟩ :
        CheckM (Preparation Enumerator BitSort Nat) Unit)
      (register ⟨lid, .uext sort operand extra name'⟩) := by
  intro p q related
  cases extra with
  | succ extra => exact .ok related rfl
  | zero =>
      cases name <;> cases name' <;>
        exact .ok { related with tables := ⟨related.tables.sorts, related.tables.nexts⟩ } rfl

theorem coupled_register {instruction other : Instruction}
    (same : instruction.Relabelled other) :
    Coupled Relabelled (register instruction : CheckM (Preparation Enumerator BitSort Nat) Unit)
      (register other) := by
  obtain ⟨name, rfl⟩ := same
  obtain ⟨lid, operation⟩ := instruction
  cases operation with
  | sort kind =>
      cases kind with
      | bitVec width => exact coupled_registerSort lid width
      | array index element => exact .of_throw _
  | input sort own => exact coupled_bindName lid _ _
  | state sort own => exact (coupled_bindName lid _ _).bind fun _ => coupled_seedState lid sort
  | uext sort operand extra own => exact coupled_register_uext lid sort operand extra own name
  | next sort state value =>
      refine .of_modify fun p q related => { related with tables := ⟨related.tables.sorts, ?_⟩ }
      exact congrArg (OrderedMap.insert · lid state) related.tables.nexts
  | _ => exact .of_pure ()

theorem coupled_registerAll {first second : Design}
    (same : List.Forall₂ Instruction.Relabelled first second) :
    Coupled Relabelled (registerAll first : CheckM (Preparation Enumerator BitSort Nat) Unit)
      (registerAll second) := by
  induction same with
  | nil => exact .of_pure ()
  | cons head _ ih => exact (coupled_register head).bind fun _ => ih

end Preparation

/-! ## Steps -/

/-- A step of two designs that differ in symbols makes the same frames. -/
theorem StepFrames.coupled_run_of_unnamed {tables tables' : Tables BitSort}
    (relabelled : tables.Relabelled tables') {first second : Design}
    (same : first.unnamed = second.unnamed) (step : Nat) (frame : Frame Nat) :
    Coupled Relabelled (run tables first step frame : CheckM Enumerator (StepFrames Nat))
      (run tables' second step frame) := by
  rw [← run_unnamed tables first, ← run_unnamed tables' second, same]
  exact coupled_run coupling_relabelled relabelled (fun _ _ => trivial) _ step frame

/-! ## Queries -/

/-- Answers that differ in the names in their models only. -/
inductive Answer.Relabelled (vars vars' : Array Variable) : Answer → Answer → Prop where
  | unreachable : Relabelled vars vars' .unreachable .unreachable
  | reachable {model model' : String} : SameValues vars vars' model model' →
      Relabelled vars vars' (.reachable model) (.reachable model')
  | undecided (reason : String) : Relabelled vars vars' (.undecided reason) (.undecided reason)

/-- Verdicts that differ in the names in their models only. -/
inductive Verdict.Relabelled (vars vars' : Array Variable) : Verdict → Verdict → Prop where
  | safe (depth : Nat) : Relabelled vars vars' (.safe depth) (.safe depth)
  | violated (step bad : Nat) {model model' : String} : SameValues vars vars' model model' →
      Relabelled vars vars' (.violated step bad model) (.violated step bad model')
  | undecided (step : Nat) (reason : String) :
      Relabelled vars vars' (.undecided step reason) (.undecided step reason)

theorem vars_pop (s : Enumerator) : s.pop.vars = s.vars := by
  unfold Enumerator.pop
  split <;> rfl

theorem Enumerator.Relabelled.pop {s t : Enumerator} (relabelled : Relabelled s t) :
    Relabelled s.pop t.pop := by
  refine relabelled.map Enumerator.pop (fun s vars => ?_) vars_pop
  obtain ⟨limit, terms, overflow, own, assertions, marks, assumptions, model⟩ := s
  cases marks <;> rfl

theorem Enumerator.Relabelled.pose {s t : Enumerator} (relabelled : Relabelled s t)
    (constraints : List Nat) (condition : Nat) :
    Relabelled (pose constraints condition s) (pose constraints condition t) := by
  have opened : Relabelled s.push t.push := relabelled.map push (fun _ _ => rfl) fun _ => rfl
  exact (relabelled_foldl_assume constraints opened).map (Enumerator.assert condition)
    (fun _ _ => rfl) fun _ => rfl

/-- An answer is given when the scope of its query is closed, which keeps the variables. -/
theorem lockstep_answer {s t : Enumerator} {answer answer' : Answer} (relabelled : Relabelled s t)
    (same : Answer.Relabelled s.vars t.vars answer answer') :
    Lockstep Relabelled (fun answer answer' s t => Answer.Relabelled s.vars t.vars answer answer')
      (.ok answer s.pop : EStateM.Result (Stop CheckError) _ _) (.ok answer' t.pop) := by
  refine .ok relabelled.pop ?_
  rwa [vars_pop, vars_pop]

theorem lockstep_query (constraints : List Nat) (condition : Nat) {s t : Enumerator}
    (relabelled : Relabelled s t) :
    Lockstep Relabelled (fun answer answer' s t => Answer.Relabelled s.vars t.vars answer answer')
      (query constraints condition s) (query constraints condition t) := by
  have asked := coupled_checkSat _ _ (relabelled.pose constraints condition)
  simp only [query, Backend.checkSat]
  generalize checkSat (pose constraints condition s) = left at asked
  generalize checkSat (pose constraints condition t) = right at asked
  cases asked with
  | @error stop s t related =>
      cases stop with
      | fault fault => exact .error related
      | error error =>
          cases error with
          | unknown reason => exact lockstep_answer related (.undecided reason)
          | _ => exact .error related.pop
  | @ok found _ s t related same =>
      subst same
      cases found with
      | false => exact lockstep_answer related .unreachable
      | true =>
          have shown := lockstep_getModel related
          simp only [Backend.getModel]
          generalize getModel s = left at shown
          generalize getModel t = right at shown
          cases shown with
          | ok related same => exact lockstep_answer related (.reachable same)
          | @error stop _ _ related =>
              cases stop with
              | fault fault => exact .error related
              | error error => exact .error related.pop

theorem lockstep_queryAll (step : Nat) (constraints : List Nat) (conditions : List (Nat × Nat))
    {s t : Enumerator} (relabelled : Relabelled s t) :
    Lockstep Relabelled
      (fun found found' s t => Option.Rel (Verdict.Relabelled s.vars t.vars) found found')
      (queryAll step constraints conditions s) (queryAll step constraints conditions t) := by
  induction conditions generalizing s t with
  | nil => exact .ok relabelled .none
  | cons entry rest ih =>
      refine (lockstep_query constraints entry.2 relabelled).bind ?_
      intro answer answer' s t related same
      cases same with
      | unreachable => exact ih related
      | reachable model => exact .ok related (.some (.violated step entry.1 model))
      | undecided reason => exact .ok related (.some (.undecided step reason))

/-! ## Engines -/

namespace Engine

/-- Engines over designs that differ in symbols, with the same frames in all tables. -/
structure Relabelled (engine other : Engine Enumerator BitSort Nat) : Prop where
  design : engine.design.unnamed = other.design.unnamed
  solver : Enumerator.Relabelled engine.solver other.solver
  tables : Tables.Relabelled engine.tables other.tables
  states : other.states = engine.states
  bads : other.bads = engine.bads
  constraints : other.constraints = engine.constraints

variable {engine other : Engine Enumerator BitSort Nat} {first second : Design}

theorem relabelled_fresh (same : first.unnamed = second.unnamed) (limit : Nat) :
    Relabelled (fresh limit first) (fresh limit second) where
  design := same
  solver := .refl _
  tables := ⟨rfl, rfl⟩
  states := rfl
  bads := rfl
  constraints := rfl

theorem coupled_prepare : Coupled Relabelled prepare prepare := by
  intro engine other related
  have ran := Preparation.coupled_registerAll (Design.relabelled_of_unnamed_eq related.design)
    ⟨engine.solver, engine.tables, {}⟩ ⟨other.solver, other.tables, {}⟩
    ⟨related.solver, related.tables, rfl⟩
  unfold prepare
  rw [related.states]
  split
  · generalize (Preparation.registerAll engine.design : CheckM (Preparation _ _ _) _)
      ⟨engine.solver, engine.tables, {}⟩ = left at ran
    generalize (Preparation.registerAll other.design : CheckM (Preparation _ _ _) _)
      ⟨other.solver, other.tables, {}⟩ = right at ran
    cases ran with
    | ok prepared _ =>
        exact .ok { related with
          solver := prepared.solver
          tables := prepared.tables
          states := congrArg (#[·]) prepared.seed } rfl
    | error prepared =>
        exact .error { related with
          solver := prepared.solver
          tables := prepared.tables
          states := rfl }
  · exact .error related

theorem coupled_advance : Coupled Relabelled advance advance := by
  intro engine other related
  have ran := StepFrames.coupled_run_of_unnamed related.tables related.design engine.states.size
    (engine.states.back?.getD {}) engine.solver other.solver related.solver
  unfold advance
  rw [related.states]
  simp only
  generalize StepFrames.run engine.tables engine.design _ _ engine.solver = left at ran
  generalize StepFrames.run other.tables other.design _ _ other.solver = right at ran
  cases ran with
  | error solver => exact .error { related with solver := solver, states := rfl }
  | ok solver same =>
      subst same
      exact .ok { related with
        solver := solver
        states := rfl
        bads := congrArg (Array.push · _) related.bads
        constraints := congrArg (Array.push · _) related.constraints } rfl

theorem coupled_execute : Coupled Relabelled execute execute := by
  refine .of_get fun engine other related => ?_
  rw [related.states]
  split
  · exact coupled_prepare.bind fun _ => coupled_advance
  · exact coupled_advance

theorem coupled_unroll (count : Nat) : Coupled Relabelled (unroll count) (unroll count) := by
  induction count with
  | zero => exact .of_pure ()
  | succ count ih => exact coupled_execute.bind fun _ => ih

theorem lockstep_askLast (step : Nat) (related : Relabelled engine other) :
    Lockstep Relabelled
      (fun found found' engine other =>
        Option.Rel (Verdict.Relabelled engine.solver.vars other.solver.vars) found found')
      (askLast step engine) (askLast step other) := by
  have asked := lockstep_queryAll step engine.allConstraints engine.lastBads related.solver
  have constraints : other.allConstraints = engine.allConstraints := by
    rw [allConstraints, allConstraints, related.constraints]
  have bads : other.lastBads = engine.lastBads := by
    rw [lastBads, lastBads, related.bads]
  unfold askLast
  rw [constraints, bads]
  generalize queryAll step _ _ engine.solver = left at asked
  generalize queryAll step _ _ other.solver = right at asked
  cases asked with
  | ok solver found => exact .ok { related with solver := solver } found
  | error solver => exact .error { related with solver := solver }

theorem lockstep_explore (depth : Nat) (related : Relabelled engine other) :
    Lockstep Relabelled
      (fun found found' engine other =>
        Option.Rel (Verdict.Relabelled engine.solver.vars other.solver.vars) found found')
      (explore depth engine) (explore depth other) := by
  induction depth generalizing engine other with
  | zero => exact .ok related .none
  | succ depth ih =>
      refine (coupled_execute engine other related).bind ?_
      rintro step _ unrolled unrolled' related rfl
      refine (lockstep_askLast step related).bind ?_
      intro found found' asked asked' related same
      cases same with
      | none => exact ih related
      | some verdicts => exact .ok related (.some verdicts)

theorem lockstep_bmc (depth : Nat) (related : Relabelled engine other) :
    Lockstep Relabelled
      (fun verdict verdict' engine other =>
        Verdict.Relabelled engine.solver.vars other.solver.vars verdict verdict')
      (bmc depth engine) (bmc depth other) := by
  refine (lockstep_explore depth related).bind ?_
  intro found found' explored explored' related same
  cases same with
  | none => exact .ok related (.safe depth)
  | some verdicts => exact .ok related verdicts

end Engine

/-- The variables that there are when a check of a design ends. -/
def finalVariables (settings : Settings) (design : Design) : Array Variable :=
  (endState (Engine.bmc settings.depth (Engine.fresh settings.freeBitLimit design))).solver.vars

theorem lockstep_check {first second : Design} (same : first.unnamed = second.unnamed)
    (settings : Settings) :
    Alike (Verdict.Relabelled (finalVariables settings first) (finalVariables settings second))
      (check settings first) (check settings second) := by
  have ran := Engine.lockstep_bmc settings.depth
    (Engine.relabelled_fresh same settings.freeBitLimit)
  unfold finalVariables check
  generalize Engine.bmc settings.depth (Engine.fresh settings.freeBitLimit first) = left at ran
  generalize Engine.bmc settings.depth (Engine.fresh settings.freeBitLimit second) = right at ran
  cases settings.solver with
  | z3 => exact .error
  | exhaustive =>
      cases ran with
      | ok _ verdicts => exact .ok verdicts
      | error _ => exact .error

/--
Designs that differ in symbols only have the same verdict up to the names in its model, or fail with
the same error.  They are unrolled as far as each other, and after any number of steps, with queries
or without, their engines have the same frames, bad conditions and constraints, and solvers with the
same terms.
-/
theorem check_of_unnamed_eq {first second : Design} (same : first.unnamed = second.unnamed)
    (settings : Settings) :
    Alike (Verdict.Relabelled (finalVariables settings first) (finalVariables settings second))
        (check settings first) (check settings second) ∧
      ∀ limit count,
        outcome (Engine.unroll count (Engine.fresh limit second)) =
          outcome (Engine.unroll count (Engine.fresh limit first)) ∧
        Engine.Relabelled (endState (Engine.unroll count (Engine.fresh limit first)))
          (endState (Engine.unroll count (Engine.fresh limit second))) ∧
        Engine.Relabelled (endState (Engine.bmc count (Engine.fresh limit first)))
          (endState (Engine.bmc count (Engine.fresh limit second))) := by
  refine ⟨lockstep_check same settings, fun limit count => ?_⟩
  have fresh := Engine.relabelled_fresh same limit
  have unrolled := Engine.coupled_unroll count
  exact ⟨unrolled.outcome_eq fresh, (unrolled _ _ fresh).endState,
    (Engine.lockstep_bmc count fresh).endState⟩

namespace Sample

/-- An input under two symbols; the second is taken when the state asks for it. -/
def aliased : Design :=
  [⟨1, .sort (.bitVec 2)⟩, ⟨2, .input 1 (some "a")⟩, ⟨3, .uext 1 2 0 (some "b")⟩,
    ⟨4, .state 1 (some "b")⟩, ⟨5, .binary .ugt 1 3 4⟩, ⟨6, .bad 5 (some "a")⟩]

/-- The same design with one symbol, that of another variable. -/
def anonymous : Design :=
  [⟨1, .sort (.bitVec 2)⟩, ⟨2, .input 1 none⟩, ⟨3, .uext 1 2 0 none⟩,
    ⟨4, .state 1 (some "input2")⟩, ⟨5, .binary .ugt 1 3 4⟩, ⟨6, .bad 5 none⟩]

end Sample

/-- The models of a violation differ in the names only, which are told apart in different ways. -/
theorem check_of_unnamed_eq_aliased :
    let settings : Settings := { depth := 2, solver := .exhaustive }
    let model := "0 00 b@4_1\n1 01 a_1\n2 00 b@4_2\n"
    let model' := "0 00 input2@4_1\n1 01 input2_1\n2 00 input2@4_2\n"
    Sample.aliased.unnamed = Sample.anonymous.unnamed ∧
      check settings Sample.aliased = .ok (.violated 1 6 model) ∧
      check settings Sample.anonymous = .ok (.violated 1 6 model') ∧
      SameValues (finalVariables settings Sample.aliased)
        (finalVariables settings Sample.anonymous) model model' := by
  intro settings model model'
  have same : Sample.aliased.unnamed = Sample.anonymous.unnamed := rfl
  have first : check settings Sample.aliased = .ok (.violated 1 6 model) := by decide +kernel
  have second : check settings Sample.anonymous = .ok (.violated 1 6 model') := by decide +kernel
  have verdicts := (check_of_unnamed_eq same settings).1
  rw [first, second] at verdicts
  cases verdicts with
  | ok related =>
      cases related with
      | violated step bad shown => exact ⟨same, first, second, shown⟩

end BoundedCheck
