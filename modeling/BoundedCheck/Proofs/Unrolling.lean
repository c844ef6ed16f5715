import Mathlib
import BoundedCheck.Proofs.Decision
import BoundedCheck.Proofs.Reading
import BoundedCheck.Proofs.Stepping

/-!
# Unrolled designs and runs

An engine that has unrolled some steps of a design holds, for each step, the terms of the values, bad
conditions and constraints of that step.  Under every assignment they denote what a run has that
takes its values from outside from the assignment, and every run comes from an assignment.
-/

namespace BoundedCheck

namespace Engine

open Enumerator

variable {design : Design} {start : Array Variable} {assignment : Nat → Nat} {supply : Supply}
  {steps count : Nat} {engine : Engine Enumerator BitSort Nat}

/-- The frames of some steps list conditions with their values. -/
structure Logged (frames : Array (Frame Nat)) (terms : Array Enumerator.Term)
    (assignment : Nat → Nat) (values : Nat → Valuation) (conditions : List (Nat × Nat))
    (count : Nat) : Prop where
  size : frames.size = count
  lists : ∀ step < count, ∃ frame, frames[step]? = some frame ∧
    frame.Lists terms assignment (values step) conditions

theorem Logged.push {frames : Array (Frame Nat)} {frame : Frame Nat}
    {terms more : Array Enumerator.Term} {values : Nat → Valuation} {conditions : List (Nat × Nat)}
    (logged : Logged frames terms assignment values conditions count) (grown : Extends terms more)
    (lists : frame.Lists more assignment (values count) conditions) :
    Logged (frames.push frame) more assignment values conditions (count + 1) := by
  refine ⟨by rw [Array.size_push, logged.size], ?_⟩
  intro step below
  rw [Array.getElem?_push, logged.size]
  rcases Nat.lt_or_eq_of_le (Nat.le_of_lt_succ below) with earlier | last
  · obtain ⟨old, found, listed⟩ := logged.lists step earlier
    exact ⟨old, by rw [if_neg (Nat.ne_of_lt earlier), found], listed.later grown⟩
  · subst last
    exact ⟨frame, if_pos rfl, lists⟩

/-- An engine after some steps, under an assignment that stands for a supply. -/
structure Unrolled (design : Design) (start : Array Variable) (assignment : Nat → Nat)
    (supply : Supply) (count : Nat) (engine : Engine Enumerator BitSort Nat) : Prop where
  same : engine.design = design
  covers : engine.tables.Covers design design
  made : design.Made engine.tables start (design.origins count) engine.solver.vars
  size : engine.states.size = count + 1
  states : ∀ step ≤ count, ∃ frame, engine.states[step]? = some frame ∧
    frame.Tracks design engine.solver.terms assignment (design.run supply step)
      (fun lid => design.DeclaresState lid ∨ (step < count ∧ design.DeclaresValue lid)) ∧
    frame.Owns engine.solver.terms start.size (design.origins count) step
  bads : Logged engine.bads engine.solver.terms assignment (design.run supply)
    (design.conditions Operation.bad?) count
  constraints : Logged engine.constraints engine.solver.terms assignment (design.run supply)
    (design.conditions Operation.constraint?) count

theorem prepare_of_ok {p : Preparation Enumerator BitSort Nat} (empty : engine.states = #[])
    (ran : Preparation.registerAll engine.design ⟨engine.solver, engine.tables, {}⟩ = .ok () p) :
    prepare engine =
      .ok () { engine with solver := p.solver, tables := p.tables, states := #[p.seed] } := by
  simp [prepare, empty, ran]

theorem advance_of_ok {frames : StepFrames Nat} {solver : Enumerator}
    (ran : StepFrames.run engine.tables engine.design engine.states.size
      (engine.states.back?.getD {}) engine.solver = .ok frames solver) :
    advance engine = .ok engine.states.size { engine with
      solver := solver
      states := (engine.states.pop.push frames.current).push frames.next
      bads := engine.bads.push frames.bads
      constraints := engine.constraints.push frames.constraints } := by
  simp [advance, ran]

/-- The preparation of a design of words succeeds. -/
theorem prepare_ok (solver : Enumerator)
    (setting : design.Setting steps solver.vars.size assignment supply) :
    ∃ engine, prepare { design := design, solver := solver } = .ok () engine ∧
      Grows solver engine.solver ∧
      Unrolled design solver.vars assignment supply 0 engine := by
  obtain ⟨p, ran, grown, covered, done⟩ := Preparation.registerAll_of_setting setting
  refine ⟨_, prepare_of_ok rfl ran, grown, rfl, covered, done.made, rfl, ?_,
    ⟨rfl, fun _ below => absurd below (Nat.not_lt_zero _)⟩,
    ⟨rfl, fun _ below => absurd below (Nat.not_lt_zero _)⟩⟩
  intro step first
  have zero : step = 0 := Nat.le_zero.mp first
  subst zero
  refine ⟨p.seed, rfl, ?_, done.owns⟩
  rintro lid (declared | ⟨below, -⟩)
  · rw [Design.run_state setting.wellFormed declared]
    exact done.tracks lid declared
  · exact absurd below (Nat.not_lt_zero _)

/-- The variables of a further step belong to later frames. -/
theorem owns_succ {frame : Frame Nat} {terms : Array Enumerator.Term} {base step : Nat}
    (owns : frame.Owns terms base (design.origins count) step) (earlier : step < count) :
    frame.Owns terms base (design.origins (count + 1)) step := by
  refine (owns.append ?_).append ?_
  · intro origin member
    have := (Design.mem_map_inputs.mp member).1
    omega
  · intro origin member
    have := (Design.mem_map_freeStates.mp member).1
    omega

/-- Another step of a supported design succeeds. -/
theorem advance_ok (unrolled : Unrolled design start assignment supply count engine)
    (scenario : design.Scenario steps start.size assignment supply) (inTime : count < steps) :
    ∃ later, advance engine = .ok (count + 1) later ∧ Grows engine.solver later.solver ∧
      Unrolled design start assignment supply (count + 1) later := by
  obtain ⟨frame, last, tracks, owns⟩ := unrolled.states count (Nat.le_refl count)
  obtain ⟨frames, solver, ran, grown, completed⟩ :=
    StepFrames.run_ok scenario inTime unrolled.covers unrolled.made (tracks.mono fun _ => Or.inl)
      owns
  have current : engine.states.back?.getD {} = frame := by
    rw [Array.back?_eq_getElem?, unrolled.size, Nat.add_sub_cancel, last, Option.getD_some]
  have stepped : StepFrames.run engine.tables engine.design engine.states.size
      (engine.states.back?.getD {}) engine.solver = .ok frames solver := by
    rw [current, unrolled.same, unrolled.size]
    exact ran
  have advanced := advance_of_ok stepped
  rw [unrolled.size] at advanced
  refine ⟨_, advanced, grown, unrolled.same, unrolled.covers, completed.made, ?_, ?_,
    unrolled.bads.push grown.terms completed.bads,
    unrolled.constraints.push grown.terms completed.constraints⟩
  · simp [unrolled.size]
  -- Earlier frames stay, the last one is completed, and a new one starts the next step.
  intro step le
  simp only [Array.getElem?_push, Array.getElem?_pop, Array.size_push, Array.size_pop,
    unrolled.size, Nat.add_sub_cancel]
  rcases Nat.lt_trichotomy step count with earlier | here | beyond
  · obtain ⟨old, found, oldTracks, oldOwns⟩ := unrolled.states step (Nat.le_of_lt earlier)
    refine ⟨old, ?_, (oldTracks.later grown.terms).mono ?_,
      owns_succ (oldOwns.later grown.terms) earlier⟩
    · rw [if_neg (by omega), if_neg (by omega), if_pos earlier, found]
    · exact fun lid => Or.imp_right fun ⟨_, declared⟩ => ⟨earlier, declared⟩
  · subst here
    refine ⟨frames.current, by simp, completed.current.mono ?_, completed.owns⟩
    rintro lid (⟨sort, name, member⟩ | ⟨-, declared⟩)
    · exact ⟨_, member, rfl⟩
    · exact declared
  · have next : step = count + 1 := by omega
    subst next
    refine ⟨frames.next, by simp, completed.next.mono ?_, completed.ownsNext⟩
    rintro lid (declared | ⟨below, -⟩)
    · exact declared
    · omega

/-! ## Several steps -/

theorem execute_of_prepared {σ Handle Term : Type} [Backend σ Handle Term]
    {engine : Engine σ Handle Term} (prepared : engine.states.isEmpty = false) :
    execute engine = advance engine := by
  have read : (get : CheckM (Engine σ Handle Term) _) engine = .ok engine engine := rfl
  unfold execute
  rw [CheckM.bind_of_ok read, if_neg (by simp [prepared])]

theorem execute_of_empty {later : Engine Enumerator BitSort Nat}
    (empty : engine.states.isEmpty = true) (ran : prepare engine = .ok () later) :
    execute engine = advance later := by
  have read : (get : CheckM (Engine Enumerator BitSort Nat) _) engine = .ok engine engine := rfl
  unfold execute
  rw [CheckM.bind_of_ok read, if_pos empty, CheckM.bind_of_ok ran]

theorem Unrolled.execute_ok (unrolled : Unrolled design start assignment supply count engine)
    (scenario : design.Scenario steps start.size assignment supply) (inTime : count < steps) :
    ∃ later, execute engine = .ok (count + 1) later ∧ Grows engine.solver later.solver ∧
      Unrolled design start assignment supply (count + 1) later := by
  have prepared : engine.states.isEmpty = false := by
    simp [Array.isEmpty, unrolled.size]
  rw [execute_of_prepared prepared]
  exact advance_ok unrolled scenario inTime

theorem first_execute_ok (solver : Enumerator)
    (scenario : design.Scenario steps solver.vars.size assignment supply) (inTime : 0 < steps) :
    ∃ engine, execute { design := design, solver := solver } = .ok 1 engine ∧
      Grows solver engine.solver ∧
      Unrolled design solver.vars assignment supply 1 engine := by
  obtain ⟨prepared, ran, grown, unrolled⟩ := prepare_ok solver scenario.setting
  obtain ⟨later, advanced, more, done⟩ := advance_ok unrolled scenario inTime
  rw [execute_of_empty rfl ran]
  exact ⟨later, advanced, grown.trans more, done⟩

/-- Unrolls a number of steps. -/
def unroll {σ Handle Term : Type} [Backend σ Handle Term] : Nat → CheckM (Engine σ Handle Term) Unit
  | 0 => return
  | count + 1 => do
    let _ ← execute
    unroll count

/-- What a step leads to from count to count holds after any number of steps. -/
theorem unroll_invariant {σ Handle Term : Type} [Backend σ Handle Term]
    {holds : Nat → Engine σ Handle Term → Prop}
    (stepped : ∀ {count number : Nat} {engine later : Engine σ Handle Term}, holds count engine →
      execute engine = .ok number later → holds (count + 1) later)
    {count further : Nat} {engine later : Engine σ Handle Term} (start : holds count engine)
    (ran : unroll further engine = .ok () later) : holds (count + further) later := by
  induction further generalizing count engine with
  | zero =>
      cases ran
      exact start
  | succ further ih =>
      obtain ⟨number, middle, executed, others⟩ := CheckM.bind_eq_ok.mp ran
      rw [Nat.add_comm further 1, ← Nat.add_assoc]
      exact ih (stepped start executed) others

theorem Unrolled.unroll_ok (unrolled : Unrolled design start assignment supply count engine)
    (scenario : design.Scenario steps start.size assignment supply) {further : Nat}
    (inTime : count + further ≤ steps) :
    ∃ later, unroll further engine = .ok () later ∧ Grows engine.solver later.solver ∧
      Unrolled design start assignment supply (count + further) later := by
  induction further generalizing count engine with
  | zero => exact ⟨engine, rfl, .refl engine.solver, unrolled⟩
  | succ further ih =>
      obtain ⟨middle, ran, grown, done⟩ := unrolled.execute_ok scenario (by omega)
      obtain ⟨later, others, more, final⟩ := ih done (by omega)
      refine ⟨later, ?_, grown.trans more, by rwa [← Nat.add_assoc, Nat.add_right_comm]⟩
      rw [unroll, CheckM.bind_of_ok ran, others]

/-! ## Supported designs -/

theorem prepare_eq_ok {σ Handle Term : Type} [Backend σ Handle Term]
    {engine later : Engine σ Handle Term} (ran : prepare engine = .ok () later) :
    ∃ p, Preparation.registerAll engine.design ⟨engine.solver, engine.tables, {}⟩ = .ok () p ∧
      later = { engine with solver := p.solver, tables := p.tables, states := #[p.seed] } := by
  unfold prepare at ran
  split at ran
  · split at ran
    · rename_i _ p registered
      cases ran
      exact ⟨p, registered, rfl⟩
    · cases ran
  · cases ran

theorem advance_eq_ok {later : Engine Enumerator BitSort Nat} {number : Nat}
    (ran : advance engine = .ok number later) :
    ∃ frames solver, StepFrames.run engine.tables engine.design engine.states.size
      (engine.states.back?.getD {}) engine.solver = .ok frames solver := by
  unfold advance at ran
  simp only at ran
  split at ran
  · rename_i frames solver stepped
    exact ⟨frames, solver, stepped⟩
  · cases ran

/-- A design whose first step can be unrolled is supported. -/
theorem supported_of_execute (wellFormed : design.WellFormed) {solver : Enumerator} {number : Nat}
    (ran : execute { design := design, solver := solver } = .ok number engine) :
    design.Supported := by
  obtain ⟨own, same, read, ran⟩ := CheckM.bind_eq_ok.mp ran
  cases read
  have empty : ({ design := design, solver := solver } :
      Engine Enumerator BitSort Nat).states.isEmpty = true := rfl
  rw [if_pos empty] at ran
  obtain ⟨_, prepared, preparation, advanced⟩ := CheckM.bind_eq_ok.mp ran
  obtain ⟨p, registered, rfl⟩ := prepare_eq_ok preparation
  obtain ⟨frames, last, stepped⟩ := advance_eq_ok advanced
  obtain ⟨middle, between, evaluated, -⟩ := CheckM.bind_eq_ok.mp stepped
  obtain ⟨noInit, noOnes⟩ := StepFrames.supported_of_evaluateAll evaluated
  have whole : Design.WellFormed ([] ++ design) := wellFormed
  have sorts := Preparation.sorts_of_registerAll whole (fun lid present => by cases present)
    registered
  exact ⟨sorts, noInit, noOnes⟩

/-! ## Assignments and supplies -/

theorem getElem?_of_made {tables : Tables BitSort} {vars : Array Variable} {made : List (Nat × Nat)}
    (holds : design.Made tables start made vars) (index : Nat) :
    vars[start.size + index]? = made[index]?.map (design.variableOf tables) := by
  rw [← Array.getElem?_toList, holds, List.getElem?_append_right (by simp)]
  simp

/-- Without values from outside other than zero, every design fits. -/
theorem scenario_zero (wellFormed : design.WellFormed) (supported : design.Supported)
    (steps base : Nat) : design.Scenario steps base (fun _ => 0) (fun _ _ => 0) :=
  ⟨wellFormed, supported, fun _ _ _ _ => rfl, fun _ _ _ => Nat.two_pow_pos _⟩

/-- A successful unrolling is the one that follows the values of a scenario. -/
theorem unrolled_of_unroll {solver : Enumerator}
    (scenario : design.Scenario (count + 1) solver.vars.size assignment supply)
    (ran : unroll (count + 1) { design := design, solver := solver } = .ok () engine) :
    Unrolled design solver.vars assignment supply (count + 1) engine := by
  obtain ⟨first, executed, -, unrolled⟩ := first_execute_ok solver scenario (Nat.succ_pos count)
  obtain ⟨later, others, -, done⟩ :=
    unrolled.unroll_ok scenario (Nat.le_of_eq (Nat.add_comm 1 count))
  rw [unroll, CheckM.bind_of_ok executed, others] at ran
  cases ran
  rwa [Nat.add_comm 1 count] at done

/-- Values in range of all variables fit the widths of their origins. -/
theorem Unrolled.fits (unrolled : Unrolled design start assignment supply count engine)
    {values : Nat → Nat} (inRange : engine.solver.InRange values) {index step lid : Nat}
    (found : (design.origins count)[index]? = some (step, lid)) :
    values (start.size + index) < 2 ^ design.valueWidth lid := by
  apply inRange (start.size + index) (design.variableOf engine.tables (step, lid))
  rw [getElem?_of_made unrolled.made, found, Option.map_some]

/-- The assignment of a fitting supply is in range. -/
theorem Unrolled.inRange (unrolled : Unrolled design start assignment supply count engine)
    {values : Supply} (fits : design.Fits values) :
    engine.solver.InRange (design.assignmentOf count start.size values) := by
  intro index var found
  unfold Design.assignmentOf
  split
  · rename_i step lid origin
    split
    · rename_i late
      have place := getElem?_of_made unrolled.made (index - start.size)
      rw [Nat.add_sub_cancel' late, found, origin, Option.map_some, Option.some.injEq] at place
      rw [place]
      have small := fits step lid
      rw [Nat.one_shiftLeft] at small
      exact small
    · exact Nat.two_pow_pos _
  · exact Nat.two_pow_pos _

/-! ## Refinement -/

/-- The terms of a frame, in order, denote the values of conditions. -/
def Denotes (frames : Array (Frame Nat)) (terms : Array Enumerator.Term) (assignment : Nat → Nat)
    (values : Nat → Valuation) (conditions : List (Nat × Nat)) (step : Nat) : Prop :=
  ∃ frame, frames[step]? = some frame ∧
    frame.keys = conditions.map Prod.fst ∧
    frame.values.map (denote terms assignment) =
      conditions.map fun condition => .ok (values step condition.2)

/-- The terms that an engine has for a step denote what a run has there. -/
structure Shows (engine : Engine Enumerator BitSort Nat) (design : Design)
    (assignment : Nat → Nat) (supply : Supply) (step : Nat) : Prop where
  values : ∃ frame, engine.states[step]? = some frame ∧
    ∀ lid, design.DeclaresValue lid → ∃ t, frame.get? lid = some t ∧
      denote engine.solver.terms assignment t = .ok (design.run supply step lid)
  bads : Denotes engine.bads engine.solver.terms assignment (design.run supply)
    (design.conditions Operation.bad?) step
  constraints : Denotes engine.constraints engine.solver.terms assignment (design.run supply)
    (design.conditions Operation.constraint?) step

theorem Logged.denotes {frames : Array (Frame Nat)} {terms : Array Enumerator.Term}
    {values : Nat → Valuation} {conditions : List (Nat × Nat)}
    (logged : Logged frames terms assignment values conditions count) {step : Nat}
    (below : step < count) : Denotes frames terms assignment values conditions step := by
  obtain ⟨frame, found, lists⟩ := logged.lists step below
  exact ⟨frame, found, lists.keys, lists.denoted⟩

theorem Unrolled.shows (unrolled : Unrolled design start assignment supply count engine)
    {step : Nat} (below : step < count) : engine.Shows design assignment supply step where
  values := by
    obtain ⟨frame, found, tracks, -⟩ := unrolled.states step (Nat.le_of_lt below)
    refine ⟨frame, found, fun lid declared => ?_⟩
    obtain ⟨t, present, carries⟩ := tracks lid (Or.inr ⟨below, declared⟩)
    exact ⟨t, present, carries.denoted⟩
  bads := unrolled.bads.denotes below
  constraints := unrolled.constraints.denotes below

theorem run_congr {first second : Supply} {step : Nat}
    (agree : ∀ earlier ≤ step, first earlier = second earlier) :
    design.run first step = design.run second step := by
  induction step with
  | zero => rw [Design.run, Design.run, agree 0 (Nat.le_refl 0)]
  | succ step ih =>
      rw [Design.run, Design.run, agree (step + 1) (Nat.le_refl _),
        ih fun earlier le => agree earlier (Nat.le_succ_of_le le)]

theorem shows_congr {first second : Supply} {step : Nat}
    (agree : ∀ earlier ≤ step, first earlier = second earlier)
    (holds : engine.Shows design assignment first step) :
    engine.Shows design assignment second step := by
  have same : design.run first step = design.run second step := run_congr agree
  obtain ⟨values, bads, constraints⟩ := holds
  refine ⟨?_, ?_, ?_⟩
  · rwa [same] at values
  · unfold Denotes at *
    rwa [same] at bads
  · unfold Denotes at *
    rwa [same] at constraints

/-- The variable of an origin. -/
def owner (design : Design) (count base step lid : Nat) : Nat :=
  base + (design.origins count).idxOf (step, lid)

theorem getElem?_origins {step lid : Nat} (below : step < count)
    (external : design.External step lid) :
    (design.origins count)[(design.origins count).idxOf (step, lid)]? = some (step, lid) :=
  List.getElem?_idxOf (Design.mem_origins.mpr (Or.inl ⟨below, external⟩))

/-- A supply that takes the values of some steps from their variables stands for the assignment. -/
theorem scenario_of_owner (wellFormed : design.WellFormed) (supported : design.Supported)
    {base : Nat}
    (small : ∀ index step lid : Nat, (design.origins count)[index]? = some (step, lid) →
      assignment (base + index) < 2 ^ design.valueWidth lid)
    (taken : ∀ step < count, ∀ lid, design.External step lid →
      supply step lid = assignment (owner design count base step lid)) :
    design.Scenario count base assignment fun step lid =>
      if step < count then supply step lid else design.supplyOf count base assignment step lid := by
  have realises : design.Realises count base assignment fun step lid =>
      if step < count then supply step lid else design.supplyOf count base assignment step lid := by
    intro index step lid found
    rw [Design.realises_supplyOf wellFormed count base assignment index step lid found]
    have member := List.mem_of_getElem? found
    rcases Design.mem_origins.mp member with ⟨below, external⟩ | ⟨last, -⟩
    · simp only [if_pos below, taken step below lid external, owner, Design.supplyOf, if_pos member]
    · simp only [last, Nat.lt_irrefl, if_false]
  refine ⟨wellFormed, supported, realises, ?_⟩
  intro step lid member
  have place := List.getElem?_idxOf member
  exact lt_of_eq_of_lt (realises _ step lid place).symm (small _ step lid place)

/--
The terms of an unrolled design denote the values of a run.  There is a different variable for each
input of each step, each state of the first step and each state without `next` of a later step.
Under values in range for the variables, the terms of each step denote the values, bad conditions and
constraints of every run that takes its values from outside from these variables; and every run
takes them from some such values.
-/
theorem unroll_refines {source : String} (accepted : Design.read source = .ok design)
    {solver : Enumerator}
    (ran : unroll count { design := design, solver := solver } = .ok () engine) :
    ∃ owner : Nat → Nat → Nat,
      (∀ step < count, ∀ lid, design.External step lid →
        ∃ frame t, engine.states[step]? = some frame ∧ frame.get? lid = some t ∧
          varIndex? engine.solver.terms t = some (owner step lid)) ∧
      (∀ step < count, ∀ lid, design.External step lid →
        ∀ other < count, ∀ lid', design.External other lid' →
          owner step lid = owner other lid' → step = other ∧ lid = lid') ∧
      (∀ assignment, engine.solver.InRange assignment → ∀ supply : Supply,
        (∀ step < count, ∀ lid, design.External step lid →
          supply step lid = assignment (owner step lid)) →
        ∀ step < count, engine.Shows design assignment supply step) ∧
      (∀ supply, design.Fits supply → ∃ assignment, engine.solver.InRange assignment ∧
        ∀ step < count, ∀ lid, design.External step lid →
          supply step lid = assignment (owner step lid)) := by
  have wellFormed := Design.wellFormed_of_read accepted
  cases count with
  | zero =>
      exact ⟨fun _ _ => 0, by simp, by simp, by simp,
        fun _ _ => ⟨fun _ => 0, fun _ _ _ => Nat.two_pow_pos _, by simp⟩⟩
  | succ count =>
      obtain ⟨number, first, executed, -⟩ := CheckM.bind_eq_ok.mp ran
      have supported := supported_of_execute wellFormed executed
      have base := unrolled_of_unroll (scenario_zero wellFormed supported _ _) ran
      refine ⟨owner design (count + 1) solver.vars.size, ?_, ?_, ?_, ?_⟩
      · intro step below lid external
        obtain ⟨frame, found, -, owns⟩ := base.states step (Nat.le_of_lt below)
        obtain ⟨t, present, named⟩ := owns _ lid (getElem?_origins below external)
        exact ⟨frame, t, found, present, named⟩
      · intro step below lid external other otherBelow lid' otherExternal same
        have first := getElem?_origins below external
        have second := getElem?_origins otherBelow otherExternal
        rw [Nat.add_left_cancel same, second] at first
        cases first
        exact ⟨rfl, rfl⟩
      · intro assignment inRange supply taken step below
        have scenario := scenario_of_owner wellFormed supported
          (fun index step lid => base.fits inRange) taken
        refine shows_congr (fun earlier le => ?_) ((unrolled_of_unroll scenario ran).shows below)
        simp only [if_pos (Nat.lt_of_le_of_lt le below)]
      · intro supply fits
        refine ⟨_, base.inRange fits, fun step below lid external => ?_⟩
        exact (Design.realises_assignmentOf design _ _ supply _ step lid
          (getElem?_origins below external)).symm

end Engine

/-! ## A design with every kind of origin -/

namespace Sample

/-- A state that adds up an input, a free state, two bad conditions and a constraint after them. -/
def source : String :=
  "1 sort bitvec 2\n2 state 1 s\n3 input 1 x\n4 add 1 2 3\n5 next 1 2 4\n6 state 1\n" ++
  "7 sort bitvec 1\n8 eq 7 2 3\n9 bad 8 same\n10 ult 7 6 2\n11 bad 10\n12 not 7 8\n13 constraint 12\n"

def design : Design :=
  [⟨1, .sort (.bitVec 2)⟩, ⟨2, .state 1 (some "s")⟩, ⟨3, .input 1 (some "x")⟩,
    ⟨4, .binary .add 1 2 3⟩, ⟨5, .next 1 2 4⟩, ⟨6, .state 1 none⟩, ⟨7, .sort (.bitVec 1)⟩,
    ⟨8, .binary .eq 7 2 3⟩, ⟨9, .bad 8 (some "same")⟩, ⟨10, .binary .ult 7 6 2⟩, ⟨11, .bad 10 none⟩,
    ⟨12, .not 7 8⟩, ⟨13, .constraint 12 none⟩]

theorem read_source : Design.read source = .ok design := by decide +kernel

end Sample

namespace Engine

/-- Every run of the sample over two steps is shown by its terms. -/
theorem unroll_refines_sample :
    ∃ engine, Design.read Sample.source = .ok Sample.design ∧
      unroll 2 { design := Sample.design, solver := ({} : Enumerator) } = .ok () engine ∧
      ∀ supply, Sample.design.Fits supply → ∃ assignment, engine.solver.InRange assignment ∧
        ∀ step < 2, engine.Shows Sample.design assignment supply step := by
  have fine : CheckM.succeeds (unroll 2)
      { design := Sample.design, solver := ({} : Enumerator) } = true := by decide +kernel
  obtain ⟨_, engine, ran⟩ := CheckM.exists_of_succeeds fine
  obtain ⟨owner, -, -, shown, realised⟩ := unroll_refines Sample.read_source ran
  refine ⟨engine, Sample.read_source, ran, fun supply fits => ?_⟩
  obtain ⟨assignment, inRange, taken⟩ := realised supply fits
  exact ⟨assignment, inRange, shown assignment inRange supply taken⟩

end Engine

end BoundedCheck
