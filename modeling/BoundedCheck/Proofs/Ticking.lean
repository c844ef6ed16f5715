import Mathlib
import BoundedCheck.Proofs.Emission
import BoundedCheck.Proofs.Symbols

/-!
# Counters that count

The counter of a schedule is as narrow as its number of steps allows.  In every run it grows by one
from step to step and starts again after its greatest value, and the terms of an unrolling denote
just that.  So it tells as many steps in a row apart as the schedule has.
-/

namespace BoundedCheck

open Enumerator

/-! ## The width of a counter -/

theorem Schedule.counterWidth_isLeast {schedule : Schedule} (few : schedule.steps < wideBound) :
    IsLeast { width | 1 ≤ width ∧ width ≤ 64 ∧ schedule.steps ≤ 2 ^ width }
      schedule.counterWidth := by
  refine ⟨⟨Nat.succ_pos _, counterWidth_le few, ?_⟩, ?_⟩
  · have below : schedule.steps - 1 < 2 ^ schedule.counterWidth := Nat.lt_log2_self
    omega
  · rintro width ⟨positive, -, enough⟩
    rcases Nat.eq_zero_or_pos (schedule.steps - 1) with none | some
    · rw [counterWidth, none]
      exact positive
    · have below : schedule.steps - 1 < 2 ^ width := by omega
      exact (Nat.log2_lt (Nat.ne_of_gt some)).mpr below

/-- Numbers that are less than the modulus apart stay different when the same is added to both. -/
theorem Schedule.add_mod_ne {modulus step later : Nat} (first : Nat) (before : step < later)
    (near : later < step + modulus) : (first + step) % modulus ≠ (first + later) % modulus := by
  intro same
  have congruent : step ≡ later [MOD modulus] := Nat.ModEq.add_left_cancel' first same
  have divides : modulus ∣ later - step := (Nat.modEq_iff_dvd' (Nat.le_of_lt before)).mp congruent
  have large := Nat.le_of_dvd (Nat.sub_pos_of_lt before) divides
  omega

/-! ## Runs of a counter -/

namespace Design

variable {design : Design} {schedule : Schedule} {start : Nat} {supply : Supply}

theorem Supported.counter (supported : design.Supported) (schedule : Schedule)
    (few : schedule.steps < wideBound) (start : Nat) :
    Supported (design ++ schedule.counter start) where
  sorts lid kind member := by
    rcases List.mem_append.mp member with old | new
    · exact supported.sorts lid kind old
    · obtain ⟨-, own⟩ : lid = start ∧ kind = .bitVec schedule.counterWidth := by
        simpa [Schedule.counter] using new
      exact ⟨schedule.counterWidth, own, Schedule.counterWidth_le few⟩
  noInit lid sort state value member := by
    rcases List.mem_append.mp member with old | new
    · exact supported.noInit lid sort state value old
    · simp [Schedule.counter] at new
  noOnes lid sort member := by
    rcases List.mem_append.mp member with old | new
    · exact supported.noOnes lid sort old
    · simp [Schedule.counter] at new

theorem declaresState_counter (design : Design) (schedule : Schedule) (start : Nat) :
    DeclaresState (design ++ schedule.counter start) (start + 3) :=
  ⟨start, some schedule.counterName, by simp [Schedule.counter]⟩

theorem lastNext?_counter (design : Design) (schedule : Schedule) (start : Nat) :
    lastNext? (design ++ schedule.counter start) (start + 3) = some (start + 4) := by
  have last : design ++ schedule.counter start = (design ++ (schedule.counter start).dropLast) ++
      [⟨start + 5, .next start (start + 3) (start + 4)⟩] := by
    simp [Schedule.counter]
  rw [last, lastNext?_snoc]
  exact if_pos rfl

section Counter

variable (wellFormed : WellFormed (design ++ schedule.counter start))

include wellFormed

theorem sortWidth_counter :
    sortWidth (design ++ schedule.counter start) start = schedule.counterWidth :=
  sortWidth_eq wellFormed (by simp [DeclaresWidth, Schedule.counter])

theorem valueWidth_counter {lid : Nat} {operation : Operation}
    (member : ⟨lid, operation⟩ ∈ schedule.counter start) (sorted : operation.sort? = some start) :
    valueWidth (design ++ schedule.counter start) lid = schedule.counterWidth := by
  rw [valueWidth_eq wellFormed (List.mem_append_right design member) sorted,
    sortWidth_counter wellFormed]

/-- The constant that is added has the value one, as no counter is narrower than a bit. -/
theorem run_counter_one (step : Nat) :
    run (design ++ schedule.counter start) supply step (start + 2) = 1 := by
  have member : ⟨start + 2, .const start 1⟩ ∈ design ++ schedule.counter start := by
    simp [Schedule.counter]
  refine run_of_compute? wellFormed member ?_
  have small : 1 < 2 ^ schedule.counterWidth := Nat.one_lt_two_pow (Nat.succ_ne_zero _)
  rw [compute?, sortWidth_counter wellFormed, BitVec.toNat_ofNat, Nat.mod_eq_of_lt small]

theorem run_counter_sum (step : Nat) :
    run (design ++ schedule.counter start) supply step (start + 4) =
      (run (design ++ schedule.counter start) supply step (start + 3) + 1) %
        2 ^ schedule.counterWidth := by
  have member : ⟨start + 4, .binary .add start (start + 2) (start + 3)⟩ ∈
      design ++ schedule.counter start := by
    simp [Schedule.counter]
  have one : ⟨start + 2, .const start 1⟩ ∈ schedule.counter start := by simp [Schedule.counter]
  refine run_of_compute? wellFormed member ?_
  rw [compute?, run_counter_one wellFormed, valueWidth_counter wellFormed one rfl]
  simp [BinaryOp.meaning, BinaryOp.onWords, Nat.add_comm]

/-- From one step to the next the counter grows by one. -/
theorem run_counter_succ (step : Nat) :
    run (design ++ schedule.counter start) supply (step + 1) (start + 3) =
      (run (design ++ schedule.counter start) supply step (start + 3) + 1) %
        2 ^ schedule.counterWidth := by
  rw [run_state wellFormed (declaresState_counter design schedule start)]
  simp only [entry, lastNext?_counter]
  exact run_counter_sum wellFormed step

/-- The counter has counted the steps of a run. -/
theorem run_counter {first : Nat} (small : first < 2 ^ schedule.counterWidth)
    (begins : run (design ++ schedule.counter start) supply 0 (start + 3) = first) (step : Nat) :
    run (design ++ schedule.counter start) supply step (start + 3) =
      (first + step) % 2 ^ schedule.counterWidth := by
  induction step with
  | zero => rw [begins, Nat.add_zero, Nat.mod_eq_of_lt small]
  | succ step ih => rw [run_counter_succ wellFormed, ih, Nat.mod_add_mod, Nat.add_assoc]

end Counter

/-- The name of a counter is its only symbol. -/
theorem unnamed_counter (design : Design) (schedule : Schedule) (start : Nat) :
    unnamed (design ++ Schedule.counter { steps := schedule.steps } start) =
      unnamed (design ++ schedule.counter start) := by
  simp [unnamed, Schedule.counter, Schedule.counterWidth, Instruction.withName, Operation.withName]

end Design

/-! ## Unrolled counters -/

namespace Engine

variable {design : Design} {assignment : Nat → Nat} {supply : Supply} {steps count : Nat}
  {engine other : Engine Enumerator BitSort Nat} {solver : Enumerator}

/-- What the term of an instruction denotes at a step; the first step has number zero. -/
def valueAt? (engine : Engine Enumerator BitSort Nat) (assignment : Nat → Nat) (step lid : Nat) :
    Option Nat := do
  let frame ← engine.states[step]?
  let t ← frame.get? lid
  (denote engine.solver.terms assignment t).toOption

theorem Unrolled.valueAt?_of_state {start : Array Variable}
    (unrolled : Unrolled design start assignment supply count engine) {step lid : Nat}
    (inTime : step ≤ count) (declared : design.DeclaresState lid) :
    engine.valueAt? assignment step lid = some (design.run supply step lid) ∧
      design.run supply step lid < 2 ^ design.valueWidth lid := by
  obtain ⟨frame, found, tracks, -⟩ := unrolled.states step inTime
  obtain ⟨t, present, carries⟩ := tracks lid (Or.inl declared)
  refine ⟨?_, carries.small⟩
  simp [valueAt?, found, present, carries.denoted, Except.toOption]

theorem prepare_unroll_ok (solver : Enumerator)
    (scenario : design.Scenario steps solver.vars.size assignment supply) (inTime : count ≤ steps) :
    ∃ engine, (do prepare; unroll count) { design := design, solver := solver } = .ok () engine ∧
      Unrolled design solver.vars assignment supply count engine := by
  obtain ⟨prepared, ran, -, unrolled⟩ := prepare_ok solver scenario.setting
  have whole : 0 + count ≤ steps := by rwa [Nat.zero_add]
  obtain ⟨later, others, -, done⟩ := unrolled.unroll_ok scenario whole
  rw [Nat.zero_add] at done
  exact ⟨later, by rw [CheckM.bind_of_ok ran, others], done⟩

/-- The first step of an engine prepares it. -/
theorem unroll_of_prepare_unroll (ran : (do prepare; unroll (count + 1)) engine = .ok () other)
    (empty : engine.states.isEmpty = true) : unroll (count + 1) engine = .ok () other := by
  obtain ⟨_, prepared, preparation, others⟩ := CheckM.bind_eq_ok.mp ran
  have filled : prepared.states.isEmpty = false := by
    obtain ⟨p, -, rfl⟩ := prepare_eq_ok preparation
    rfl
  have first : execute engine = execute prepared := by
    rw [execute_of_empty empty preparation, execute_of_prepared filled]
  rw [← others]
  simp only [unroll, bind, EStateM.bind, first]

/-- Under values in range, an unrolling stands for a run. -/
theorem exists_unrolled_of_inRange (wellFormed : design.WellFormed) (supported : design.Supported)
    (ran : (do prepare; unroll count) { design := design, solver := solver } = .ok () engine)
    (inRange : engine.solver.InRange assignment) :
    ∃ supply, Unrolled design solver.vars assignment supply count engine := by
  have same {values : Nat → Nat} {supply : Supply}
      (scenario : design.Scenario count solver.vars.size values supply) :
      Unrolled design solver.vars values supply count engine := by
    obtain ⟨own, again, unrolled⟩ := prepare_unroll_ok solver scenario (Nat.le_refl count)
    rw [ran] at again
    cases again
    exact unrolled
  have base := same (scenario_zero wellFormed supported count solver.vars.size)
  exact ⟨_, same (scenario_of_owner wellFormed supported
    (fun index step lid => base.fits inRange) fun step _ lid _ => rfl)⟩

theorem Relabelled.valueAt?_eq (relabelled : engine.Relabelled other) :
    other.valueAt? = engine.valueAt? := by
  funext assignment step lid
  have terms : other.solver.terms = engine.solver.terms := by
    obtain ⟨vars, -, same⟩ := relabelled.solver
    rw [same]
  rw [valueAt?, valueAt?, relabelled.states, terms]

end Engine

/-- Values in range for variables are so for variables of the same widths. -/
theorem Enumerator.Relabelled.inRange {s t : Enumerator} (relabelled : Enumerator.Relabelled s t)
    {assignment : Nat → Nat} (inRange : t.InRange assignment) : s.InRange assignment := by
  intro index var found
  have width : (t.vars.map Variable.width)[index]? = some var.width := by
    rw [relabelled.widths, Array.getElem?_map, found, Option.map_some]
  rw [Array.getElem?_map, Option.map_eq_some_iff] at width
  obtain ⟨other, present, same⟩ := width
  exact same ▸ inRange index other present

/-! ## The values of a counter -/

namespace Engine

variable {design : Design} {schedule : Schedule} {assignment : Nat → Nat} {count : Nat}
  {engine : Engine Enumerator BitSort Nat}

/-- A design under other symbols has the same unrolling. -/
theorem exists_relabelled {first second : Design} (same : first.unnamed = second.unnamed)
    {solver : Enumerator}
    (ran : (do prepare; unroll count) { design := first, solver := solver } = .ok () engine) :
    ∃ other, (do prepare; unroll count) { design := second, solver := solver } = .ok () other ∧
      engine.Relabelled other := by
  have coupled := coupled_prepare.bind fun _ => coupled_unroll count
  have lockstep := coupled { design := first, solver := solver }
    { design := second, solver := solver } ⟨same, .refl solver, ⟨rfl, rfl⟩, rfl, rfl, rfl⟩
  rw [ran] at lockstep
  generalize reached : (do prepare; unroll count : CheckM (Engine Enumerator BitSort Nat) Unit)
    { design := second, solver := solver } = result at lockstep
  cases lockstep with
  | ok relabelled _ => exact ⟨_, rfl, relabelled⟩

/-- The terms of a counter denote its values in the run that an unrolling stands for. -/
theorem Unrolled.counter_values {start : Nat} {vars : Array Variable} {supply : Supply}
    (wellFormed : Design.WellFormed (design ++ schedule.counter start))
    (unrolled : Unrolled (design ++ schedule.counter start) vars assignment supply count engine) :
    ∃ first < 2 ^ schedule.counterWidth, ∀ step ≤ count,
      engine.valueAt? assignment step (start + 3) =
        some ((first + step) % 2 ^ schedule.counterWidth) := by
  have declared := Design.declaresState_counter design schedule start
  have member : ⟨start + 3, .state start (some schedule.counterName)⟩ ∈ schedule.counter start := by
    simp [Schedule.counter]
  have small := (unrolled.valueAt?_of_state (Nat.zero_le count) declared).2
  rw [Design.valueWidth_counter wellFormed member rfl] at small
  refine ⟨_, small, fun step inTime => ?_⟩
  rw [(unrolled.valueAt?_of_state inTime declared).1, Design.run_counter wellFormed small rfl]

/-- The counter is wide enough and no wider, and its terms count the steps from any first value. -/
theorem counter_counts {source : String} (accepted : Design.read source = .ok design)
    (supported : design.Supported) (room : design.maxLid + 7 ≤ wideBound)
    (few : schedule.steps < wideBound) (solver : Enumerator) (count : Nat) :
    IsLeast { width | 1 ≤ width ∧ width ≤ 64 ∧ schedule.steps ≤ 2 ^ width }
        schedule.counterWidth ∧
      ∃ spliced engine, schedule.splice design = .ok spliced ∧
        ⟨design.maxLid + 4, .state (design.maxLid + 1) (some schedule.counterName)⟩ ∈ spliced ∧
        (do prepare; unroll count) { design := spliced, solver := solver } = .ok () engine ∧
        (count ≠ 0 → unroll count { design := spliced, solver := solver } = .ok () engine) ∧
        ∀ assignment, engine.solver.InRange assignment →
          ∃ first < 2 ^ schedule.counterWidth,
            (∀ step ≤ count, engine.valueAt? assignment step (design.maxLid + 4) =
              some ((first + step) % 2 ^ schedule.counterWidth)) ∧
            ∀ step later, step < later → later < step + schedule.steps → later ≤ count →
              engine.valueAt? assignment step (design.maxLid + 4) ≠
                engine.valueAt? assignment later (design.maxLid + 4) := by
  have least := Schedule.counterWidth_isLeast few
  have wellFormed := Schedule.wellFormed_splice (Design.wellFormed_of_read accepted) room few
  have spliced := supported.counter { steps := schedule.steps } few (design.maxLid + 1)
  -- unrolled under the usual name first, which unlike others is sure to be a word
  obtain ⟨plain, ran, -⟩ := prepare_unroll_ok solver
    (scenario_zero wellFormed spliced count solver.vars.size) (Nat.le_refl count)
  obtain ⟨engine, named, relabelled⟩ :=
    exists_relabelled (Design.unnamed_counter design schedule (design.maxLid + 1)) ran
  refine ⟨least, _, engine, Schedule.splice_eq schedule room, by simp [Schedule.counter], named,
    ?_, ?_⟩
  · intro executed
    obtain ⟨before, rfl⟩ := Nat.exists_eq_succ_of_ne_zero executed
    exact unroll_of_prepare_unroll named rfl
  · intro assignment inRange
    obtain ⟨supply, unrolled⟩ := exists_unrolled_of_inRange wellFormed spliced ran
      (relabelled.solver.inRange inRange)
    obtain ⟨first, small, counts⟩ := unrolled.counter_values wellFormed
    rw [← relabelled.valueAt?_eq] at counts
    refine ⟨first, small, counts, fun step later before near inTime => ?_⟩
    have apart := Schedule.add_mod_ne first before
      (Nat.lt_of_lt_of_le near (Nat.add_le_add_left least.1.2.2 step))
    intro same
    rw [counts step (by omega), counts later inTime] at same
    exact apart (Option.some.inj same)

/-- A counter of three bits beside the sample, under a symbol that is taken, over nine steps. -/
theorem counter_counts_sample :
    Design.read Sample.source = .ok Sample.design ∧ Sample.design.Supported ∧
      Sample.design.maxLid + 7 ≤ wideBound ∧
      ∃ spliced engine,
        Schedule.splice { counterName := "s", steps := 5 } Sample.design = .ok spliced ∧
        unroll 9 { design := spliced, solver := ({} : Enumerator) } = .ok () engine ∧
        ∃ first < 8,
          (∀ step ≤ 9, engine.valueAt? (fun _ => 0) step 17 = some ((first + step) % 8)) ∧
          engine.valueAt? (fun _ => 0) 5 17 ≠ engine.valueAt? (fun _ => 0) 9 17 := by
  have supported : Sample.design.Supported := Design.supported_of_refusal? (by decide)
  have room : Sample.design.maxLid + 7 ≤ wideBound := by decide
  have few : ({ counterName := "s", steps := 5 } : Schedule).steps < wideBound := by decide
  obtain ⟨-, spliced, engine, counted, -, -, ran, values⟩ :=
    counter_counts Sample.read_source supported room few {} 9
  obtain ⟨first, small, counts, apart⟩ := values (fun _ => 0) fun _ _ _ => Nat.two_pow_pos _
  have width : ({ counterName := "s", steps := 5 } : Schedule).counterWidth = 3 := by decide
  rw [width] at small counts
  exact ⟨Sample.read_source, supported, room, spliced, engine, counted, ran (by decide), first,
    small, counts, apart 5 9 (by decide) (by decide) (by decide)⟩

end Engine

end BoundedCheck
