import Mathlib
import BoundedCheck.Proofs.Verdicts

/-!
# Refused checks

A check of a design that was read is refused for the first sort that is not one of words, or else for
the first operation that cannot be evaluated.  Every other check is stopped by nothing but a query
that has too many free bits.
-/

namespace BoundedCheck

open Enumerator

/-! ## What is refused -/

namespace Instruction

/-- The error for a sort that is not one of words. -/
def sortRefusal? (instruction : Instruction) : Option CheckError :=
  match instruction.operation with
  | .sort (.array index element) => some (.unsupportedSort instruction.lid index element)
  | .sort (.bitVec width) =>
    if Word.maxWidth < width then some (.solver (.unsupportedWidth width)) else none
  | _ => none

/-- The error for an operation that cannot be evaluated. -/
def operationRefusal? (instruction : Instruction) : Option CheckError :=
  if instruction.operation.isSupported then none
  else some (.unsupportedInstruction instruction.lid instruction.operation.keyword)

end Instruction

namespace Design

/-- The error for the first unsupported sort, or else for the first unsupported operation. -/
def refusal? (design : Design) : Option CheckError :=
  (design.findSome? Instruction.sortRefusal?).or (design.findSome? Instruction.operationRefusal?)

variable {design : Design}

theorem words_of_sortRefusal? (fine : ∀ instruction ∈ design, instruction.sortRefusal? = none) :
    design.Words := by
  intro lid kind member
  have accepted := fine _ member
  cases kind with
  | bitVec width =>
      refine ⟨width, rfl, Nat.not_lt.mp fun wide => ?_⟩
      simp [Instruction.sortRefusal?, wide] at accepted
  | array index element => cases accepted

theorem isSupported_of_operationRefusal? {instruction : Instruction}
    (accepted : instruction.operationRefusal? = none) :
    instruction.operation.isSupported = true := by
  by_contra unsupported
  simp [Instruction.operationRefusal?, unsupported] at accepted

theorem supported_of_refusal? (accepted : design.refusal? = none) : design.Supported := by
  obtain ⟨sorts, operations⟩ := Option.or_eq_none_iff.mp accepted
  rw [List.findSome?_eq_none_iff] at sorts operations
  refine ⟨words_of_sortRefusal? sorts, ?_, ?_⟩
  · intro lid sort state value member
    exact absurd (isSupported_of_operationRefusal? (operations _ member))
      (by simp [Operation.isSupported])
  · intro lid sort member
    exact absurd (isSupported_of_operationRefusal? (operations _ member))
      (by simp [Operation.isSupported])

/-- With all values from outside zero, every design of words has a setting. -/
theorem setting_zero (wellFormed : design.WellFormed) (words : design.Words) (steps base : Nat) :
    design.Setting steps base (fun _ => 0) (fun _ _ => 0) :=
  ⟨wellFormed, words, fun _ _ _ _ => rfl, fun _ _ _ => Nat.two_pow_pos _⟩

end Design

/-! ## Refused designs -/

namespace CheckM

variable {σ α β : Type} {s later : σ} {a : α}

theorem bind_of_error {first : CheckM σ α} {next : α → CheckM σ β} {stop : Stop CheckError}
    (ran : first s = .error stop later) : (first >>= next) s = .error stop later := by
  simp [bind, EStateM.bind, ran]

theorem ofSolver_of_error {request : SolverM σ α} {error : SolverError}
    (ran : request s = .error (.error error) later) :
    ofSolver request s = .error (.error (.solver error)) later := by
  simp [ofSolver, EStateM.adaptExcept, ran, Stop.map]

end CheckM

namespace Preparation

variable {p : Preparation Enumerator BitSort Nat} {instruction : Instruction} {error : CheckError}

theorem registerAll_append (before rest : Design) :
    (registerAll (before ++ rest) : CheckM (Preparation Enumerator BitSort Nat) Unit) =
      (registerAll before >>= fun _ => registerAll rest) := by
  induction before with
  | nil => rfl
  | cons first others ih =>
      rw [List.cons_append, registerAll, ih, registerAll, bind_assoc]

/-- A sort that is refused cannot be registered. -/
theorem register_of_sortRefusal? (refused : instruction.sortRefusal? = some error)
    (new : p.tables.sorts.contains instruction.lid = false) :
    ∃ later, register instruction p = .error (.error error) later := by
  obtain ⟨lid, operation⟩ := instruction
  cases operation with
  | sort kind =>
      cases kind with
      | array index element =>
          cases refused
          exact ⟨p, rfl⟩
      | bitVec width =>
          obtain ⟨wide, same⟩ : Word.maxWidth < width ∧
              CheckError.solver (.unsupportedWidth width) = error := by
            simpa [Instruction.sortRefusal?] using refused
          have failed : (Backend.makeSort width : SolverM Enumerator BitSort) p.solver =
              .error (.error (.unsupportedWidth width)) p.solver := by
            simp [Backend.makeSort, Enumerator.makeSort, Nat.not_le.mpr wide]
          have asked : (ask (Backend.makeSort width) : CheckM (Preparation Enumerator BitSort Nat) _)
              p = .error (.error error) p := by
            simp only [ask, CheckM.ofSolver_of_error failed, same]
          have read : (get : CheckM (Preparation Enumerator BitSort Nat) _) p = .ok p p := rfl
          refine ⟨p, ?_⟩
          simp only [register, registerSort]
          rw [CheckM.bind_of_ok read, if_neg (by simpa using new)]
          exact CheckM.bind_of_error asked
  | _ => cases refused

end Preparation

namespace StepFrames

variable {tables : Tables BitSort} {number : Nat} {frames : StepFrames Nat} {s : Enumerator}

theorem evaluateAll_append (before rest : Design) :
    (evaluateAll tables number (before ++ rest) frames : CheckM Enumerator (StepFrames Nat)) =
      (evaluateAll tables number before frames >>= evaluateAll tables number rest) := by
  induction before generalizing frames with
  | nil => rfl
  | cons first others ih =>
      rw [List.cons_append, evaluateAll, evaluateAll, bind_assoc]
      congr 1
      funext middle
      exact ih

theorem evaluate_of_operationRefusal? {instruction : Instruction} {error : CheckError}
    (refused : instruction.operationRefusal? = some error) :
    evaluate tables number frames instruction s = .error (.error error) s := by
  obtain ⟨lid, operation⟩ := instruction
  cases operation with
  | init sort state value =>
      cases refused
      rfl
  | ones sort =>
      cases refused
      rfl
  | _ => cases refused

end StepFrames

namespace Engine

variable {design before after : Design} {instruction : Instruction} {error : CheckError}
  {limit count step : Nat} {engine : Engine Enumerator BitSort Nat}

/-- Preparation stops at the first sort that is refused. -/
theorem prepare_of_sortRefusal? (wellFormed : design.WellFormed) (solver : Enumerator)
    (whole : design = before ++ instruction :: after)
    (fine : ∀ earlier ∈ before, earlier.sortRefusal? = none)
    (refused : instruction.sortRefusal? = some error) :
    ∃ later, prepare { design := design, solver := solver } = .error (.error error) later := by
  have setting := Design.setting_zero (whole ▸ wellFormed).of_append
    (Design.words_of_sortRefusal? fine) 0 solver.vars.size
  obtain ⟨p, ran, -, covered, -⟩ := Preparation.registerAll_of_setting setting
  have new := Tables.sort_absent covered.fresh (whole ▸ wellFormed).at_place.increasing
  obtain ⟨last, failed⟩ := Preparation.register_of_sortRefusal? refused new
  have stopped : Preparation.registerAll design ⟨solver, {}, {}⟩ = .error (.error error) last := by
    rw [whole, Preparation.registerAll_append, CheckM.bind_of_ok ran, Preparation.registerAll]
    exact CheckM.bind_of_error failed
  exact ⟨{ design := design, solver := last.solver, tables := last.tables }, by
    simp [prepare, stopped]⟩

/-- A step stops at the first operation that is refused. -/
theorem advance_of_operationRefusal? {assignment : Nat → Nat} {supply : Supply}
    {start : Array Variable} (unrolled : Unrolled design start assignment supply 0 engine)
    (setting : design.Setting 1 start.size assignment supply)
    (whole : design = before ++ instruction :: after)
    (fine : ∀ earlier ∈ before, earlier.operationRefusal? = none)
    (refused : instruction.operationRefusal? = some error) :
    ∃ later, advance engine = .error (.error error) later := by
  obtain ⟨frame, last, tracks, owns⟩ := unrolled.states 0 (Nat.le_refl 0)
  obtain ⟨frames, solver, ran, -, -⟩ :=
    StepFrames.evaluateAll_ok (.initial unrolled.made (tracks.mono fun _ => Or.inl) owns) setting
      Nat.one_pos unrolled.covers whole
      fun earlier member => Design.isSupported_of_operationRefusal? (fine earlier member)
  have current : engine.states.back?.getD {} = frame := by
    rw [Array.back?_eq_getElem?, unrolled.size, Nat.add_sub_cancel, last, Option.getD_some]
  have stopped : StepFrames.run engine.tables engine.design engine.states.size
      (engine.states.back?.getD {}) engine.solver = .error (.error error) solver := by
    rw [current, unrolled.same, unrolled.size]
    refine CheckM.bind_of_error ?_
    rw [whole, StepFrames.evaluateAll_append, CheckM.bind_of_ok ran, StepFrames.evaluateAll]
    exact CheckM.bind_of_error (StepFrames.evaluate_of_operationRefusal? refused)
  exact ⟨_, by simp only [advance, stopped]; rfl⟩

/-- The first step of a refused design ends with its refusal. -/
theorem execute_of_refusal? (wellFormed : design.WellFormed) (refused : design.refusal? = some error)
    (limit : Nat) :
    ∃ later, execute (Engine.fresh limit design) = .error (.error error) later := by
  have read : (get : CheckM (Engine Enumerator BitSort Nat) _) (Engine.fresh limit design) =
      .ok (Engine.fresh limit design) (Engine.fresh limit design) := rfl
  have empty : (Engine.fresh limit design).states.isEmpty = true := rfl
  unfold execute
  rw [CheckM.bind_of_ok read, if_pos empty]
  rcases Option.or_eq_some_iff.mp refused with sorts | ⟨sorts, operations⟩
  · obtain ⟨before, instruction, after, whole, here, fine⟩ := List.findSome?_eq_some_iff.mp sorts
    obtain ⟨later, stopped⟩ :=
      prepare_of_sortRefusal? wellFormed { freeBitLimit := limit } whole fine here
    exact ⟨later, CheckM.bind_of_error stopped⟩
  · obtain ⟨before, instruction, after, whole, here, fine⟩ :=
      List.findSome?_eq_some_iff.mp operations
    have words := Design.words_of_sortRefusal? (List.findSome?_eq_none_iff.mp sorts)
    have setting := Design.setting_zero wellFormed words 1 0
    obtain ⟨prepared, ran, -, unrolled⟩ := prepare_ok { freeBitLimit := limit } setting
    obtain ⟨later, stopped⟩ := advance_of_operationRefusal? unrolled setting whole fine here
    exact ⟨later, (CheckM.bind_of_ok ran).trans stopped⟩

/-! ## Queries that are too large -/

/-- A stop because a query has more free bits than can be counted, or than the limit allows. -/
def TooLarge (limit : Nat) (stop : Stop CheckError) : Prop :=
  stop = .fault .overflow ∨
    ∃ bits, limit < bits ∧ stop = .error (.solver (.searchSpaceTooLarge bits limit))

end Engine

section Queries

variable {s later : Enumerator} {constraints : List Nat} {condition : Nat} {stop : Stop CheckError}

/-- A query over words fails only for the number of its bits. -/
theorem query_eq_error (idle : s.Idle) (valid : Valid s)
    (inside : ∀ root ∈ condition :: constraints, root < s.terms.size)
    (narrow : ∀ t, widthOf s.terms t ≤ Word.maxWidth)
    (ran : query constraints condition s = .error stop later) : Engine.TooLarge s.limit stop := by
  obtain ⟨found, -, solved⟩ := solve_of_narrow valid inside narrow
  by_cases immense : narrowBound ≤ s.queryBits (condition :: constraints)
  · rw [if_pos immense] at solved
    obtain ⟨last, failed⟩ := query_of_error idle solved
    rw [failed] at ran
    cases ran
    exact Or.inl rfl
  rw [if_neg immense] at solved
  by_cases many : s.limit < s.queryBits (condition :: constraints)
  · rw [if_pos many] at solved
    obtain ⟨last, failed⟩ := query_of_error idle solved
    rw [failed] at ran
    cases ran
    exact Or.inr ⟨_, many, rfl⟩
  · rw [if_neg many] at solved
    rw [query_of_ok idle solved] at ran
    cases ran

theorem queryAll_eq_error (idle : s.Idle) (valid : Valid s) {step : Nat}
    {conditions : List (Nat × Nat)} (insideAll : ∀ root ∈ constraints, root < s.terms.size)
    (inside : ∀ entry ∈ conditions, entry.2 < s.terms.size)
    (narrow : ∀ t, widthOf s.terms t ≤ Word.maxWidth)
    (ran : queryAll step constraints conditions s = .error stop later) :
    Engine.TooLarge s.limit stop := by
  induction conditions generalizing s with
  | nil => cases ran
  | cons entry rest ih =>
      obtain ⟨bad, t⟩ := entry
      have roots : ∀ root ∈ t :: constraints, root < s.terms.size := by
        intro root member
        rcases List.mem_cons.mp member with rfl | other
        · exact inside (bad, root) List.mem_cons_self
        · exact insideAll root other
      cases asked : query constraints t s with
      | error cause middle =>
          rw [queryAll, CheckM.bind_of_error asked] at ran
          cases ran
          exact query_eq_error idle valid roots narrow asked
      | ok answer middle =>
          obtain ⟨same, answered⟩ := query_eq_ok idle valid roots asked
          rw [queryAll, CheckM.bind_of_ok asked] at ran
          generalize middle.model = model at same answered
          subst same
          cases answered with
          | unreachable refuted =>
              have again := ih (idle.of_model none) (valid.of_model none) insideAll
                (fun other member => inside other (List.mem_cons_of_mem _ member)) narrow ran
              exact again
          | reachable isModel => cases ran

end Queries

/-! ## Supported designs -/

namespace Engine

variable {design : Design} {limit count step : Nat} {engine : Engine Enumerator BitSort Nat}

/-- Another step of a supported design can be unrolled. -/
theorem Ready.execute_ok (ready : Ready design limit count engine) (wellFormed : design.WellFormed)
    (supported : design.Supported) :
    ∃ later, Engine.execute engine = .ok (count + 1) later ∧ Grows engine.solver later.solver ∧
      Explored design (count + 1) later := by
  have scenario := scenario_zero wellFormed supported (count + 1) 0
  obtain ⟨later, ran, grown⟩ : ∃ later,
      Engine.execute engine = .ok (count + 1) later ∧ Grows engine.solver later.solver := by
    rcases ready with ⟨rfl, rfl⟩ | explored
    · obtain ⟨later, ran, grown, -⟩ :=
        first_execute_ok { freeBitLimit := limit } scenario Nat.one_pos
      exact ⟨later, ran, grown⟩
    · obtain ⟨later, ran, grown, -⟩ := explored.base.execute_ok scenario (Nat.lt_succ_self count)
      exact ⟨later, ran, grown⟩
  exact ⟨later, ran, grown, (ready.execute wellFormed ran).2⟩

/-- A solver that holds only words and searches up to a limit. -/
structure Modest (limit : Nat) (s : Enumerator) : Prop where
  narrow : ∀ t, widthOf s.terms t ≤ Word.maxWidth
  limited : s.limit = limit

theorem Modest.grows {s later : Enumerator} (modest : Modest limit s) (grown : Grows s later) :
    Modest limit later := by
  refine ⟨grown.narrow modest.narrow, ?_⟩
  rw [← modest.limited, grown.rest]
  rfl

theorem Modest.fresh (limit : Nat) (design : Design) :
    Modest (min limit 63) (Engine.fresh limit design).solver :=
  ⟨fun t => by simp [Engine.fresh, widthOf], rfl⟩

/-- The queries of a step fail only for the number of their bits. -/
theorem Explored.askLast_eq_error (explored : Explored design (step + 1) engine)
    (modest : Modest limit engine.solver) {stop : Stop CheckError}
    {later : Engine Enumerator BitSort Nat}
    (ran : Engine.askLast (step + 1) engine = .error stop later) : TooLarge limit stop := by
  obtain ⟨constraintsLt, badsLt⟩ := explored.roots_lt
  unfold Engine.askLast at ran
  split at ran
  · cases ran
  · rename_i cause solver asked
    cases ran
    rw [← modest.limited]
    exact queryAll_eq_error explored.idle explored.valid constraintsLt badsLt modest.narrow asked

theorem Explored.askLast_modest (explored : Explored design (step + 1) engine)
    (modest : Modest limit engine.solver) {result : Option Verdict}
    {later : Engine Enumerator BitSort Nat}
    (ran : Engine.askLast (step + 1) engine = .ok result later) : Modest limit later.solver := by
  obtain ⟨constraintsLt, badsLt⟩ := explored.roots_lt
  unfold Engine.askLast at ran
  split at ran
  · rename_i verdict solver asked
    cases ran
    obtain ⟨same, -⟩ := queryAll_eq_ok explored.idle explored.valid constraintsLt badsLt asked
    rw [same]
    exact ⟨modest.narrow, modest.limited⟩
  · cases ran

/-- A search in a supported design fails only for the number of bits of a query. -/
theorem explore_eq_error {limit' remaining : Nat} (wellFormed : design.WellFormed)
    (supported : design.Supported) (ready : Ready design limit' count engine)
    (modest : Modest limit engine.solver) {stop : Stop CheckError}
    {later : Engine Enumerator BitSort Nat}
    (ran : explore remaining engine = .error stop later) : TooLarge limit stop := by
  induction remaining generalizing count engine with
  | zero => cases ran
  | succ remaining ih =>
      obtain ⟨middle, executed, grown, explored⟩ := ready.execute_ok wellFormed supported
      rw [explore, CheckM.bind_of_ok executed] at ran
      cases asked : Engine.askLast (count + 1) middle with
      | error cause last =>
          rw [CheckM.bind_of_error asked] at ran
          cases ran
          exact explored.askLast_eq_error (modest.grows grown) asked
      | ok result last =>
          rw [CheckM.bind_of_ok asked] at ran
          have modestAgain := explored.askLast_modest (modest.grows grown) asked
          obtain ⟨further, ⟨rfl, -⟩ | ⟨bad, model, rfl, -⟩⟩ := explored.askLast asked
          · exact ih (Or.inr further) modestAgain ran
          · cases ran

/-- Without bad conditions nothing is asked for. -/
theorem explore_of_no_bads {remaining : Nat} (wellFormed : design.WellFormed)
    (supported : design.Supported) (nothing : design.conditions Operation.bad? = [])
    (ready : Ready design limit count engine) :
    ∃ later, explore remaining engine = .ok none later := by
  induction remaining generalizing count engine with
  | zero => exact ⟨engine, rfl⟩
  | succ remaining ih =>
      obtain ⟨middle, executed, -, explored⟩ := ready.execute_ok wellFormed supported
      have keys := explored.base.lists_lastBads.keys
      rw [nothing] at keys
      have empty : middle.lastBads = [] := List.map_eq_nil_iff.mp keys
      have asked : Engine.askLast (count + 1) middle = .ok none middle := by
        simp only [Engine.askLast, empty, queryAll]
        rfl
      obtain ⟨later, ran⟩ := ih (Or.inr explored)
      refine ⟨later, ?_⟩
      rw [explore, CheckM.bind_of_ok executed, CheckM.bind_of_ok asked]
      exact ran

theorem explore_of_bmc_error {depth : Nat} {stop : Stop CheckError}
    {later : Engine Enumerator BitSort Nat} (ran : bmc depth engine = .error stop later) :
    explore depth engine = .error stop later := by
  cases explored : explore depth engine with
  | error cause last =>
      rw [bmc, CheckM.bind_of_error explored] at ran
      cases ran
      rfl
  | ok result last =>
      rw [bmc, CheckM.bind_of_ok explored] at ran
      cases result <;> cases ran

/-- The first step of a search that is refused ends the search. -/
theorem bmc_of_refusal? (wellFormed : design.WellFormed) {error : CheckError}
    (refused : design.refusal? = some error) (limit remaining : Nat) :
    ∃ later, bmc (remaining + 1) (Engine.fresh limit design) = .error (.error error) later := by
  obtain ⟨later, stopped⟩ := execute_of_refusal? wellFormed refused limit
  refine ⟨later, CheckM.bind_of_error ?_⟩
  rw [explore]
  exact CheckM.bind_of_error stopped

end Engine

section Check

variable {settings : Settings} {design : Design} {engine : Engine Enumerator BitSort Nat}

theorem check_of_ok (exhaustive : settings.solver = .exhaustive) {verdict : Verdict}
    (ran : Engine.bmc settings.depth (Engine.fresh settings.freeBitLimit design) =
      .ok verdict engine) : check settings design = .ok verdict := by
  simp only [check, exhaustive, ran]

theorem check_of_error (exhaustive : settings.solver = .exhaustive) {stop : Stop CheckError}
    (ran : Engine.bmc settings.depth (Engine.fresh settings.freeBitLimit design) =
      .error stop engine) : check settings design = .error stop := by
  simp only [check, exhaustive, ran]

end Check

end BoundedCheck
