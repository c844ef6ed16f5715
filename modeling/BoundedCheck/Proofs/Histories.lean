import Mathlib
import BoundedCheck.Backend.Recorder
import BoundedCheck.Proofs.Refusals

/-!
# Histories of an engine

An engine is prepared, unrolled and checked in any order, over any solver and with any failures.  Its
tables are logs: entries are only appended, a step that fails appends none, and of the frames of
states only the newest is ever replaced.
-/

namespace BoundedCheck

/-- The state that a run ends in, whether it failed or not. -/
def endState {ε σ α : Type} : EStateM.Result ε σ α → σ
  | .ok _ s | .error _ s => s

/-- What a run gives back, apart from its state. -/
def outcome {ε σ α : Type} : EStateM.Result ε σ α → Except ε α
  | .ok a _ => .ok a
  | .error stop _ => .error stop

namespace Engine

variable {σ Handle Term : Type} {engine middle later : Engine σ Handle Term}

/-! ## The tables as logs -/

/-- The tables have an entry for each step, and frames of states if the engine is prepared. -/
structure Consistent (engine : Engine σ Handle Term) : Prop where
  bads : engine.bads.size = engine.step
  constraints : engine.constraints.size = engine.step
  states : engine.states.size = 0 ∧ engine.step = 0 ∨ engine.states.size = engine.step + 1

theorem consistent_start (design : Design) (solver : σ) :
    ({ design := design, solver := solver } : Engine σ Handle Term).Consistent :=
  ⟨rfl, rfl, Or.inl ⟨rfl, rfl⟩⟩

/-- Another engine has all entries of the tables but the newest frame of states, and maybe more. -/
structure Keeps (engine later : Engine σ Handle Term) : Prop where
  bads : engine.bads.toList <+: later.bads.toList
  constraints : engine.constraints.toList <+: later.constraints.toList
  frames : engine.states.toList.dropLast <+: later.states.toList
  size : engine.states.size ≤ later.states.size

theorem Keeps.refl (engine : Engine σ Handle Term) : Keeps engine engine :=
  ⟨List.prefix_refl _, List.prefix_refl _, List.dropLast_prefix _, Nat.le_refl _⟩

theorem Keeps.trans (first : Keeps engine middle) (second : Keeps middle later) :
    Keeps engine later where
  bads := first.bads.trans second.bads
  constraints := first.constraints.trans second.constraints
  frames := by
    have inside : engine.states.toList.dropLast <+: middle.states.toList.dropLast := by
      apply List.prefix_of_prefix_length_le first.frames (List.dropLast_prefix _)
      have size := first.size
      simp only [List.length_dropLast, Array.length_toList]
      omega
    exact inside.trans second.frames
  size := Nat.le_trans first.size second.size

/-! ## What one action does -/

/-- What a preparation comes to. -/
inductive Prepared (engine : Engine σ Handle Term) :
    EStateM.Result (Stop CheckError) (Engine σ Handle Term) Unit → Prop where
  | seeded (solver : σ) (tables : Tables Handle) (seed : Frame Term) : engine.states = #[] →
      Prepared engine
        (.ok () { engine with solver := solver, tables := tables, states := #[seed] })
  | failed (stop : Stop CheckError) (solver : σ) (tables : Tables Handle) : engine.states = #[] →
      Prepared engine (.error stop { engine with solver := solver, tables := tables })
  | refused : engine.states ≠ #[] → Prepared engine (.error (.error .alreadyPrepared) engine)

namespace Prepared

variable {result : EStateM.Result (Stop CheckError) (Engine σ Handle Term) Unit}

theorem consistent (prepared : Prepared engine result) (consistent : engine.Consistent) :
    (endState result).Consistent := by
  cases prepared with
  | seeded solver tables seed empty =>
      have fresh : engine.step = 0 := by
        rcases consistent.states with ⟨-, zero⟩ | more
        · exact zero
        · rw [empty] at more
          cases more
      exact ⟨rfl, consistent.constraints, Or.inr (congrArg (· + 1) fresh.symm)⟩
  | failed stop solver tables _ => exact ⟨rfl, consistent.constraints, consistent.states⟩
  | refused _ => exact consistent

theorem keeps (prepared : Prepared engine result) : Keeps engine (endState result) := by
  cases prepared with
  | seeded solver tables seed empty =>
      exact ⟨List.prefix_refl _, List.prefix_refl _, by simp [empty], by simp [empty]⟩
  | failed stop solver tables _ =>
      exact ⟨List.prefix_refl _, List.prefix_refl _, List.dropLast_prefix _, Nat.le_refl _⟩
  | refused _ => exact .refl engine

end Prepared

/-- What a step of a prepared engine comes to. -/
inductive Advanced (engine : Engine σ Handle Term) :
    EStateM.Result (Stop CheckError) (Engine σ Handle Term) Nat → Prop where
  | recorded (solver : σ) (frames : StepFrames Term) :
      Advanced engine (.ok engine.states.size { engine with
        solver := solver
        states := (engine.states.pop.push frames.current).push frames.next
        bads := engine.bads.push frames.bads
        constraints := engine.constraints.push frames.constraints })
  | failed (stop : Stop CheckError) (solver : σ) :
      Advanced engine (.error stop { engine with solver := solver })

namespace Advanced

variable {result : EStateM.Result (Stop CheckError) (Engine σ Handle Term) Nat}

theorem consistent (advanced : Advanced engine result) (filled : engine.states ≠ #[])
    (consistent : engine.Consistent) : (endState result).Consistent := by
  have more : engine.states.size = engine.step + 1 := by
    rcases consistent.states with ⟨none, -⟩ | more
    · exact absurd (Array.eq_empty_of_size_eq_zero none) filled
    · exact more
  cases advanced with
  | recorded solver frames =>
      refine ⟨rfl, ?_, Or.inr ?_⟩
      · simp [endState, step, consistent.constraints]
      · simp [endState, step, more]
  | failed stop solver => exact ⟨rfl, consistent.constraints, Or.inr more⟩

theorem keeps (advanced : Advanced engine result) : Keeps engine (endState result) := by
  cases advanced with
  | recorded solver frames =>
      refine ⟨by simp [endState], by simp [endState], ?_, ?_⟩
      · simp [endState, List.append_assoc]
      · simp only [endState, Array.size_push, Array.size_pop]
        omega
  | failed stop solver =>
      exact ⟨List.prefix_refl _, List.prefix_refl _, List.dropLast_prefix _, Nat.le_refl _⟩

end Advanced

variable [Backend σ Handle Term]

theorem prepared_prepare (engine : Engine σ Handle Term) : Prepared engine (prepare engine) := by
  unfold prepare
  split
  · rename_i empty
    have none : engine.states = #[] := Array.isEmpty_iff.mp empty
    split
    · exact .seeded _ _ _ none
    · exact .failed _ _ _ none
  · rename_i filled
    exact .refused fun none => filled (by simp [none])

theorem advanced_advance (engine : Engine σ Handle Term) : Advanced engine (advance engine) := by
  unfold advance
  simp only
  split
  · exact .recorded _ _
  · exact .failed _ _

/-- What a step comes to that is prepared if needed. -/
inductive Executed (engine : Engine σ Handle Term) :
    EStateM.Result (Stop CheckError) (Engine σ Handle Term) Nat → Prop where
  | advanced {result : EStateM.Result (Stop CheckError) (Engine σ Handle Term) Nat} :
      engine.states ≠ #[] → Advanced engine result → Executed engine result
  | first {seeded : Engine σ Handle Term}
      {result : EStateM.Result (Stop CheckError) (Engine σ Handle Term) Nat} :
      engine.states = #[] → prepare engine = .ok () seeded → Advanced seeded result →
      Executed engine result
  | unprepared (stop : Stop CheckError) (solver : σ) (tables : Tables Handle) :
      engine.states = #[] →
      Executed engine (.error stop { engine with solver := solver, tables := tables })

theorem executed_execute (engine : Engine σ Handle Term) : Executed engine (execute engine) := by
  have read : (get : CheckM (Engine σ Handle Term) _) engine = .ok engine engine := rfl
  unfold execute
  rw [CheckM.bind_of_ok read]
  by_cases empty : engine.states = #[]
  · rw [if_pos (by simp [empty])]
    have prepared := prepared_prepare engine
    generalize ran : prepare engine = result at prepared
    cases prepared with
    | seeded solver tables seed =>
        rw [CheckM.bind_of_ok ran]
        exact .first empty ran (advanced_advance _)
    | failed stop solver tables =>
        rw [CheckM.bind_of_error ran]
        exact .unprepared stop solver tables empty
    | refused filled => exact absurd empty filled
  · rw [if_neg (by simpa using empty)]
    exact .advanced empty (advanced_advance engine)

/-- A preparation that succeeds installs one frame and no other entry. -/
theorem prepare_installs {seeded : Engine σ Handle Term} (ran : prepare engine = .ok () seeded) :
    (∃ seed, seeded.states = #[seed]) ∧ seeded.bads = engine.bads ∧
      seeded.constraints = engine.constraints := by
  have prepared := prepared_prepare engine
  rw [ran] at prepared
  cases prepared with
  | seeded solver tables seed => exact ⟨⟨seed, rfl⟩, rfl, rfl⟩

theorem Consistent.execute (consistent : engine.Consistent) :
    (endState (Engine.execute engine)).Consistent := by
  have executed := executed_execute engine
  generalize Engine.execute engine = result at executed
  cases executed with
  | advanced filled advanced => exact advanced.consistent filled consistent
  | first _ ran advanced =>
      have prepared := (prepared_prepare engine).consistent consistent
      rw [ran] at prepared
      obtain ⟨⟨seed, installed⟩, -, -⟩ := prepare_installs ran
      exact advanced.consistent (by simp [installed]) prepared
  | unprepared stop solver tables _ => exact ⟨rfl, consistent.constraints, consistent.states⟩

theorem Keeps.execute (engine : Engine σ Handle Term) :
    Keeps engine (endState (Engine.execute engine)) := by
  have executed := executed_execute engine
  generalize Engine.execute engine = result at executed
  cases executed with
  | advanced _ advanced => exact advanced.keeps
  | first _ ran advanced =>
      have prepared := (prepared_prepare engine).keeps
      rw [ran] at prepared
      exact prepared.trans advanced.keeps
  | unprepared stop solver tables _ =>
      exact ⟨List.prefix_refl _, List.prefix_refl _, List.dropLast_prefix _, Nat.le_refl _⟩

/-! ## Histories -/

/-- One use of an engine. -/
inductive Action where
  | prepare
  | execute
  | bmc (depth : Nat)
  deriving DecidableEq, Repr

/-- The engine after an action, whether it failed or not. -/
def Action.perform (engine : Engine σ Handle Term) : Action → Engine σ Handle Term
  | .prepare => endState (Engine.prepare engine)
  | .execute => endState (Engine.execute engine)
  | .bmc depth => endState (Engine.bmc depth engine)

/-- An engine can be followed by another, whatever is done with the solver in between. -/
inductive Leads (engine : Engine σ Handle Term) : Engine σ Handle Term → Prop where
  | refl : Leads engine engine
  | act {later : Engine σ Handle Term} (action : Action) : Leads engine later →
      Leads engine (action.perform later)
  | solve {later : Engine σ Handle Term} (solver : σ) : Leads engine later →
      Leads engine { later with solver := solver }

/-- An engine is followed by another through preparations, steps and uses of its solver. -/
inductive Moves (engine : Engine σ Handle Term) : Engine σ Handle Term → Prop where
  | refl : Moves engine engine
  | prepare {later : Engine σ Handle Term} : Moves engine later →
      Moves engine (endState (Engine.prepare later))
  | execute {later : Engine σ Handle Term} : Moves engine later →
      Moves engine (endState (Engine.execute later))
  | solve {later : Engine σ Handle Term} (solver : σ) : Moves engine later →
      Moves engine { later with solver := solver }

theorem Moves.trans (first : Moves engine middle) (second : Moves middle later) :
    Moves engine later := by
  induction second with
  | refl => exact first
  | prepare _ ih => exact ih.prepare
  | execute _ ih => exact ih.execute
  | solve solver _ ih => exact ih.solve solver

theorem endState_askLast (step : Nat) (engine : Engine σ Handle Term) :
    ∃ solver, endState (askLast step engine) = { engine with solver := solver } := by
  unfold askLast
  split
  · exact ⟨_, rfl⟩
  · exact ⟨_, rfl⟩

/-- Unrolling and asking is nothing but steps and uses of the solver. -/
theorem moves_explore (depth : Nat) (engine : Engine σ Handle Term) :
    Moves engine (endState (explore depth engine)) := by
  induction depth generalizing engine with
  | zero => exact .refl
  | succ depth ih =>
      have stepped : Moves engine (endState (execute engine)) := Moves.refl.execute
      rw [explore]
      cases ran : execute engine with
      | error stop last =>
          rw [CheckM.bind_of_error ran]
          rwa [ran] at stepped
      | ok number unrolled =>
          rw [CheckM.bind_of_ok ran]
          rw [ran] at stepped
          obtain ⟨solver, asked⟩ := endState_askLast number unrolled
          have posed : Moves engine { unrolled with solver := solver } := stepped.solve solver
          rw [← asked] at posed
          cases answered : askLast number unrolled with
          | error stop last =>
              rw [CheckM.bind_of_error answered]
              rwa [answered] at posed
          | ok verdict last =>
              rw [CheckM.bind_of_ok answered]
              rw [answered] at posed
              cases verdict with
              | some verdict => exact posed
              | none => exact posed.trans (ih last)

theorem endState_bmc (depth : Nat) (engine : Engine σ Handle Term) :
    endState (bmc depth engine) = endState (explore depth engine) := by
  unfold bmc
  cases ran : explore depth engine with
  | error stop last =>
      rw [CheckM.bind_of_error ran]
      rfl
  | ok verdict last =>
      rw [CheckM.bind_of_ok ran]
      cases verdict <;> rfl

theorem Leads.moves (leads : Leads engine later) : Moves engine later := by
  induction leads with
  | refl => exact .refl
  | solve solver _ ih => exact ih.solve solver
  | act action _ ih =>
      cases action with
      | prepare => exact ih.prepare
      | execute => exact ih.execute
      | bmc depth =>
          rw [Action.perform, endState_bmc]
          exact ih.trans (moves_explore depth _)

theorem Moves.consistent (moves : Moves engine later) (consistent : engine.Consistent) :
    later.Consistent := by
  induction moves with
  | refl => exact consistent
  | prepare _ ih => exact (prepared_prepare _).consistent ih
  | execute _ ih => exact ih.execute
  | solve solver _ ih => exact ⟨rfl, ih.constraints, ih.states⟩

theorem Moves.keeps (moves : Moves engine later) : Keeps engine later := by
  induction moves with
  | refl => exact .refl engine
  | prepare _ ih => exact ih.trans (prepared_prepare _).keeps
  | execute _ ih => exact ih.trans (.execute _)
  | solve solver _ ih => exact ⟨ih.bads, ih.constraints, ih.frames, ih.size⟩

/-! ## Steps that succeed and steps that fail -/

/-- The number of a step that succeeds is the number of steps after it. -/
theorem Consistent.execute_ok (consistent : engine.Consistent) {number : Nat}
    (ran : Engine.execute engine = .ok number later) :
    number = later.step ∧ later.step = engine.step + 1 := by
  have executed := executed_execute engine
  rw [ran] at executed
  cases executed with
  | advanced filled advanced =>
      cases advanced with
      | recorded solver frames =>
          have more : engine.states.size = engine.step + 1 :=
            consistent.states.resolve_left fun none =>
              filled (Array.eq_empty_of_size_eq_zero none.1)
          exact ⟨by simp [more, step], by simp [step]⟩
  | first empty prepared advanced =>
      obtain ⟨⟨seed, installed⟩, bads, -⟩ := prepare_installs prepared
      have fresh : engine.step = 0 := by
        rcases consistent.states with ⟨-, zero⟩ | more
        · exact zero
        · rw [empty] at more
          cases more
      cases advanced with
      | recorded solver frames =>
          have first : engine.bads.size = 0 := fresh
          exact ⟨by simp [installed, step, bads, first], by simp [step, bads]⟩

/-- A step that fails leaves all entries alone, unless it was the first and installed a frame. -/
theorem execute_failed {stop : Stop CheckError} (ran : Engine.execute engine = .error stop later) :
    later.bads = engine.bads ∧ later.constraints = engine.constraints ∧
      (later.states = engine.states ∨
        engine.states = #[] ∧ ∃ seeded seed, Engine.prepare engine = .ok () seeded ∧
          seeded.states = #[seed] ∧ later.states = #[seed]) := by
  have executed := executed_execute engine
  rw [ran] at executed
  cases executed with
  | advanced _ advanced =>
      cases advanced with
      | failed stop solver => exact ⟨rfl, rfl, Or.inl rfl⟩
  | first empty prepared advanced =>
      obtain ⟨⟨seed, installed⟩, bads, constraints⟩ := prepare_installs prepared
      cases advanced with
      | failed stop solver =>
          exact ⟨bads, constraints, Or.inr ⟨empty, _, seed, prepared, installed, installed⟩⟩
  | unprepared stop solver tables _ => exact ⟨rfl, rfl, Or.inl rfl⟩

/--
The tables of an engine are logs, over any solver and after any history.  They have as many entries
as there are steps.  A step that succeeds appends one entry and gives its number; one that fails
appends none.  A second preparation is refused, and what was recorded once stays, but for the newest
frame of states.
-/
theorem tables_append_only {design : Design} {solver : σ}
    (reached : Leads { design := design, solver := solver } engine) :
    engine.Consistent ∧
      (∀ number later, Engine.execute engine = .ok number later →
        number = later.step ∧ later.step = engine.step + 1 ∧ Keeps engine later) ∧
      (∀ stop later, Engine.execute engine = .error stop later →
        later.bads = engine.bads ∧ later.constraints = engine.constraints ∧
          later.step = engine.step ∧
          (later.states = engine.states ∨
            engine.states = #[] ∧ ∃ seeded seed, Engine.prepare engine = .ok () seeded ∧
              seeded.states = #[seed] ∧ later.states = #[seed])) ∧
      (engine.states ≠ #[] → Engine.prepare engine = .error (.error .alreadyPrepared) engine) ∧
      (∀ later, Leads engine later → Keeps engine later) := by
  have consistent := reached.moves.consistent (consistent_start design solver)
  refine ⟨consistent, ?_, ?_, ?_, fun later leads => leads.moves.keeps⟩
  · intro number later ran
    obtain ⟨counted, further⟩ := consistent.execute_ok ran
    have keeps := Keeps.execute engine
    rw [ran] at keeps
    exact ⟨counted, further, keeps⟩
  · intro stop later ran
    obtain ⟨bads, constraints, states⟩ := execute_failed ran
    exact ⟨bads, constraints, congrArg Array.size bads, states⟩
  · intro filled
    have prepared := prepared_prepare engine
    generalize Engine.prepare engine = result at prepared
    cases prepared with
    | seeded _ _ _ empty => exact absurd empty filled
    | failed _ _ _ empty => exact absurd empty filled
    | refused _ => rfl

end Engine

namespace Sample

/-- The sample over a solver that cannot make its sixth variable, the last of the second step. -/
def interrupted : Engine (Recorder Enumerator Enumerator.BitSort Nat) Enumerator.BitSort Nat where
  design := design
  solver := {
    inner := {}
    script := {
      failures := fun request =>
        if request = .makeVariable then some (6, .backend "no more") else none } }

end Sample

namespace Engine

/-- A second step that fails at its last variable leaves the tables as the first step left them. -/
theorem tables_append_only_interrupted :
    ∃ engine later stop, Leads Sample.interrupted engine ∧ engine.step = 1 ∧
      Engine.execute engine = .error stop later ∧ later.bads = engine.bads ∧
      later.constraints = engine.constraints ∧ later.step = 1 ∧ engine.states.size = 2 ∧
      Engine.prepare later = .error (.error .alreadyPrepared) later := by
  have reached : Leads Sample.interrupted (Action.execute.perform Sample.interrupted) :=
    .act .execute .refl
  have once : (Action.execute.perform Sample.interrupted).step = 1 := by decide +kernel
  have fails :
      CheckM.succeeds Engine.execute (Action.execute.perform Sample.interrupted) = false := by
    decide +kernel
  obtain ⟨consistent, -, failed, -, -⟩ := tables_append_only reached
  cases ran : Engine.execute (Action.execute.perform Sample.interrupted) with
  | ok number later => simp [CheckM.succeeds, ran] at fails
  | error stop later =>
      have ended : Leads Sample.interrupted later := by
        have further := reached.act Action.execute
        rwa [Action.perform, ran] at further
      obtain ⟨bads, constraints, steps, -⟩ := failed stop later ran
      obtain ⟨⟨-, -, frames⟩, -, -, refused, -⟩ := tables_append_only ended
      have two : (Action.execute.perform Sample.interrupted).states.size = 2 := by
        rcases consistent.states with ⟨-, none⟩ | more
        · omega
        · omega
      refine ⟨_, later, stop, reached, once, ran, bads, constraints, by omega, two, refused ?_⟩
      rintro empty
      rw [empty] at frames
      rcases frames with ⟨-, none⟩ | more
      · omega
      · cases more

end Engine

end BoundedCheck
