import Mathlib
import BoundedCheck.Check
import BoundedCheck.Proofs.Queries
import BoundedCheck.Proofs.Unrolling

/-!
# Verdicts and runs

A check answers with the least step at which a bad condition can hold in a run that keeps all
constraints, and with the first such condition of that step; it calls a design safe if there is none.
-/

namespace BoundedCheck

open Enumerator

/-! ## Conditions and roots of a query -/

/-- A term of one bit is odd if its value is one. -/
theorem Enumerator.Carries.odd_iff {terms : Array Enumerator.Term} {assignment : Nat → Nat}
    {t value : Nat} (carries : Carries terms assignment t 1 value) :
    (∃ x, denote terms assignment t = .ok x ∧ x % 2 = 1) ↔ value = 1 := by
  have small : value < 2 := carries.small
  rw [carries.denoted]
  constructor
  · rintro ⟨x, same, odd⟩
    cases same
    omega
  · rintro rfl
    exact ⟨1, rfl, rfl⟩

namespace Engine

variable {design : Design} {start : Array Variable} {assignment : Nat → Nat} {supply : Supply}
  {count step : Nat} {engine : Engine Enumerator BitSort Nat}

/-- The constraint that a root of a query stands for. -/
theorem Unrolled.constraint_of_root
    (unrolled : Unrolled design start assignment supply count engine) {root : Nat}
    (member : root ∈ engine.allConstraints) :
    ∃ step < count, ∃ lid condition name, ⟨lid, .constraint condition name⟩ ∈ design ∧
      Carries engine.solver.terms assignment root 1 (design.run supply step condition) := by
  obtain ⟨frame, among, inside⟩ := List.mem_flatMap.mp member
  obtain ⟨step, found⟩ := List.mem_iff_getElem?.mp among
  obtain ⟨entry, listed, rfl⟩ := List.mem_map.mp inside
  obtain ⟨place, here⟩ := List.mem_iff_getElem?.mp listed
  rw [Array.getElem?_toList] at found
  have below : step < count := by
    rw [← unrolled.constraints.size]
    exact (Array.getElem?_eq_some_iff.mp found).1
  obtain ⟨same, found', lists⟩ := unrolled.constraints.lists step below
  rw [found] at found'
  cases found'
  obtain ⟨⟨lid, condition⟩, stated, -, carries⟩ := lists.condition_at here
  obtain ⟨name, isConstraint⟩ := Design.mem_constraints.mp (List.mem_of_getElem? stated)
  exact ⟨step, below, lid, condition, name, isConstraint, carries⟩

/-- The root of a query that a constraint stands for. -/
theorem Unrolled.root_of_constraint
    (unrolled : Unrolled design start assignment supply count engine) (below : step < count)
    {lid condition : Nat} {name : Option String}
    (member : ⟨lid, .constraint condition name⟩ ∈ design) :
    ∃ root ∈ engine.allConstraints,
      Carries engine.solver.terms assignment root 1 (design.run supply step condition) := by
  obtain ⟨frame, found, lists⟩ := unrolled.constraints.lists step below
  have listed : (lid, condition) ∈ design.conditions Operation.constraint? :=
    Design.mem_constraints.mpr ⟨name, member⟩
  obtain ⟨place, here⟩ := List.mem_iff_getElem?.mp listed
  obtain ⟨entry, present, -, carries⟩ := lists.entry_at here
  refine ⟨entry.2, List.mem_flatMap.mpr ⟨frame, ?_, ?_⟩, carries⟩
  · exact Array.mem_toList_iff.mpr (Array.mem_of_getElem? found)
  · exact List.mem_map_of_mem (List.mem_of_getElem? present)

/-- The constraints of a query hold if those of the run hold at each step. -/
theorem Unrolled.satisfies_constraints_iff
    (unrolled : Unrolled design start assignment supply count engine) :
    Satisfies engine.solver.terms assignment engine.allConstraints ↔
      ∀ step < count, design.Constrained supply step := by
  constructor
  · intro satisfied step below lid condition name member
    obtain ⟨root, among, carries⟩ := unrolled.root_of_constraint below member
    exact carries.odd_iff.mp (satisfied root among)
  · intro constrained root member
    obtain ⟨step, below, lid, condition, name, isConstraint, carries⟩ :=
      unrolled.constraint_of_root member
    exact carries.odd_iff.mpr (constrained step below lid condition name isConstraint)

/-- The bad conditions of the last step. -/
theorem Unrolled.lists_lastBads
    (unrolled : Unrolled design start assignment supply (step + 1) engine) :
    Frame.Lists ⟨engine.lastBads⟩ engine.solver.terms assignment (design.run supply step)
      (design.conditions Operation.bad?) := by
  obtain ⟨frame, found, lists⟩ := unrolled.bads.lists step (Nat.lt_succ_self step)
  have last : engine.bads.back?.getD {} = frame := by
    rw [Array.back?_eq_getElem?, unrolled.bads.size, Nat.add_sub_cancel, found, Option.getD_some]
  rw [lastBads, last]
  exact lists

/-- The roots of a query hold if its condition and all constraints hold in the run. -/
theorem Unrolled.satisfies_iff
    (unrolled : Unrolled design start assignment supply (step + 1) engine) {place bad t : Nat}
    (entry : engine.lastBads[place]? = some (bad, t)) :
    ∃ condition, (design.conditions Operation.bad?)[place]? = some (bad, condition) ∧
      (Satisfies engine.solver.terms assignment (t :: engine.allConstraints) ↔
        design.run supply step condition = 1 ∧
        ∀ earlier ≤ step, design.Constrained supply earlier) := by
  obtain ⟨⟨lid, condition⟩, stated, same, carries⟩ := unrolled.lists_lastBads.condition_at entry
  simp only at same
  subst same
  refine ⟨condition, stated, ?_⟩
  unfold Satisfies
  rw [List.forall_mem_cons, carries.odd_iff]
  have constraints := unrolled.satisfies_constraints_iff
  simp only [Nat.lt_succ_iff] at constraints
  exact and_congr_right fun _ => constraints

/-- A state of the check after some steps: what every assignment denotes, and an idle solver. -/
structure Explored (design : Design) (count : Nat) (engine : Engine Enumerator BitSort Nat) :
    Prop where
  wellFormed : design.WellFormed
  supported : design.Supported
  unrolled : ∀ assignment supply, design.Scenario count 0 assignment supply →
    Unrolled design #[] assignment supply count engine
  idle : engine.solver.Idle
  valid : Valid engine.solver

theorem scenario_mono {fewer steps base : Nat} (le : fewer ≤ steps)
    (scenario : design.Scenario steps base assignment supply) :
    design.Scenario fewer base assignment supply := by
  obtain ⟨rest, whole⟩ := design.origins_isPrefix le
  refine ⟨scenario.wellFormed, scenario.supported, ?_, ?_⟩
  · intro index step lid found
    apply scenario.realises index step lid
    rw [← whole, List.getElem?_append_left (List.getElem?_eq_some_iff.mp found).1, found]
  · intro step lid member
    exact scenario.fits step lid (whole ▸ List.mem_append_left rest member)

namespace Explored

/-- The widths, names and places of terms do not depend on an assignment, so any one shows them. -/
theorem base (explored : Explored design count engine) :
    Unrolled design #[] (fun _ => 0) (fun _ _ => 0) count engine :=
  explored.unrolled _ _ (scenario_zero explored.wellFormed explored.supported count 0)

/-- An assignment in range stands for the supply that it gives. -/
theorem scenario (explored : Explored design count engine)
    (inRange : engine.solver.InRange assignment) :
    design.Scenario count 0 assignment (design.supplyOf count 0 assignment) := by
  have realises := Design.realises_supplyOf explored.wellFormed count 0 assignment
  refine ⟨explored.wellFormed, explored.supported, realises, ?_⟩
  intro step lid member
  obtain ⟨index, found⟩ := List.mem_iff_getElem?.mp member
  rw [← realises index step lid found]
  exact explored.base.fits inRange found

theorem fits (explored : Explored design count engine)
    (inRange : engine.solver.InRange assignment) :
    design.Fits (design.supplyOf count 0 assignment) := by
  intro step lid
  rw [Nat.one_shiftLeft]
  by_cases member : (step, lid) ∈ design.origins count
  · exact (explored.scenario inRange).fits step lid member
  · rw [Design.supplyOf, if_neg member]
    exact Nat.two_pow_pos _

/-- The assignment of a fitting supply. -/
theorem scenario_of_fits (explored : Explored design count engine) (fits : design.Fits supply) :
    engine.solver.InRange (design.assignmentOf count 0 supply) ∧
      design.Scenario count 0 (design.assignmentOf count 0 supply) supply := by
  refine ⟨explored.base.inRange fits, explored.wellFormed, explored.supported,
    Design.realises_assignmentOf design count 0 supply, ?_⟩
  intro step lid _
  have small := fits step lid
  rwa [Nat.one_shiftLeft] at small

/-- A bad condition of the last step can hold if its query is not refuted. -/
theorem canFail_iff (explored : Explored design (step + 1) engine) {place bad t : Nat}
    (entry : engine.lastBads[place]? = some (bad, t)) :
    design.CanFail step bad ↔ ¬ engine.solver.Refutes engine.allConstraints t := by
  constructor
  · rintro ⟨supply, condition, name, member, fits, constrained, holds⟩ refuted
    obtain ⟨inRange, scenario⟩ := explored.scenario_of_fits fits
    obtain ⟨other, stated, satisfies⟩ := (explored.unrolled _ _ scenario).satisfies_iff entry
    obtain ⟨symbol, isBad⟩ := Design.mem_bads.mp (List.mem_of_getElem? stated)
    have same := explored.wellFormed.unique isBad member rfl
    cases same
    exact refuted _ inRange (satisfies.mpr ⟨holds, constrained⟩)
  · intro possible
    simp only [Enumerator.Refutes, not_forall, not_not] at possible
    obtain ⟨assignment, inRange, satisfied⟩ := possible
    obtain ⟨condition, stated, satisfies⟩ :=
      (explored.unrolled _ _ (explored.scenario inRange)).satisfies_iff entry
    obtain ⟨name, isBad⟩ := Design.mem_bads.mp (List.mem_of_getElem? stated)
    obtain ⟨holds, constrained⟩ := satisfies.mp satisfied
    exact ⟨_, condition, name, isBad, explored.fits inRange, constrained, holds⟩

/-- Every bad condition that can hold is asked for. -/
theorem listed_of_canFail (explored : Explored design (step + 1) engine) {bad : Nat}
    (canFail : design.CanFail step bad) :
    ∃ place t : Nat, engine.lastBads[place]? = some (bad, t) := by
  obtain ⟨supply, condition, name, member, -⟩ := canFail
  have stated : (bad, condition) ∈ design.conditions Operation.bad? :=
    Design.mem_bads.mpr ⟨name, member⟩
  obtain ⟨place, found⟩ := List.mem_iff_getElem?.mp stated
  obtain ⟨⟨lid, t⟩, present, same, -⟩ := explored.base.lists_lastBads.entry_at found
  simp only at same
  subst same
  exact ⟨place, t, present⟩

/-- Bad conditions are asked for in the order of the design. -/
theorem sorted_lastBads (explored : Explored design (step + 1) engine) :
    engine.lastBads.Pairwise fun first second => first.1 < second.1 := by
  have keys : engine.lastBads.map Prod.fst = (design.conditions Operation.bad?).map Prod.fst :=
    explored.base.lists_lastBads.keys
  rw [← List.pairwise_map (f := Prod.fst) (R := (· < ·)), keys, List.pairwise_map]
  apply Design.sorted_filterMap_lid explored.wellFormed
  intro instruction entry found
  obtain ⟨condition, -, rfl⟩ := Option.map_eq_some_iff.mp found
  rfl

/-- The roots of the queries exist. -/
theorem roots_lt (explored : Explored design (step + 1) engine) :
    (∀ root ∈ engine.allConstraints, root < engine.solver.terms.size) ∧
      ∀ entry ∈ engine.lastBads, entry.2 < engine.solver.terms.size := by
  constructor
  · intro root member
    obtain ⟨_, _, _, _, _, _, carries⟩ := explored.base.constraint_of_root member
    exact carries.below
  · intro entry member
    obtain ⟨place, found⟩ := List.mem_iff_getElem?.mp member
    obtain ⟨_, _, _, carries⟩ := explored.base.lists_lastBads.condition_at found
    exact carries.below

/-- The model of a query does not matter for what follows. -/
theorem of_model (explored : Explored design count engine) (model : Option (Array Nat)) :
    Explored design count { engine with solver := { engine.solver with model := model } } where
  wellFormed := explored.wellFormed
  supported := explored.supported
  unrolled assignment supply scenario := by
    have unrolled := explored.unrolled assignment supply scenario
    exact ⟨unrolled.same, unrolled.covers, unrolled.made, unrolled.size, unrolled.states,
      unrolled.bads, unrolled.constraints⟩
  idle := explored.idle.of_model model
  valid := explored.valid.of_model model

theorem idle_of_grows {s later : Enumerator} (grown : Grows s later) (idle : s.Idle) :
    later.Idle := by
  rw [grown.rest]
  exact ⟨idle.assertions, idle.marks, idle.assumptions⟩

/-- A step that brings about the same from every assignment, from an idle solver. -/
theorem of_runs (wellFormed : design.WellFormed) (supported : design.Supported) {s : Enumerator}
    (idle : s.Idle) (valid : Valid s)
    (runs : ∀ assignment supply, design.Scenario count 0 assignment supply →
      Grows s engine.solver ∧ Unrolled design #[] assignment supply count engine) :
    Explored design count engine := by
  obtain ⟨grown, -⟩ := runs _ _ (scenario_zero wellFormed supported count 0)
  exact ⟨wellFormed, supported,
    fun assignment supply scenario => (runs assignment supply scenario).2,
    idle_of_grows grown idle, grown.valid valid⟩

/-- Another step. -/
theorem execute (explored : Explored design count engine) {number : Nat}
    {later : Engine Enumerator BitSort Nat} (ran : Engine.execute engine = .ok number later) :
    number = count + 1 ∧ Explored design (count + 1) later := by
  have continues (assignment : Nat → Nat) (supply : Supply)
      (scenario : design.Scenario (count + 1) 0 assignment supply) :
      number = count + 1 ∧ Grows engine.solver later.solver ∧
        Unrolled design #[] assignment supply (count + 1) later := by
    have unrolled := explored.unrolled assignment supply (scenario_mono (Nat.le_succ count) scenario)
    obtain ⟨next, executed, grown, done⟩ := unrolled.execute_ok scenario (Nat.lt_succ_self count)
    rw [executed] at ran
    cases ran
    exact ⟨rfl, grown, done⟩
  refine ⟨(continues _ _ (scenario_zero explored.wellFormed explored.supported _ 0)).1, ?_⟩
  exact of_runs explored.wellFormed explored.supported explored.idle explored.valid
    fun assignment supply scenario => (continues assignment supply scenario).2

/-- The first step. -/
theorem first (wellFormed : design.WellFormed) {limit number : Nat}
    (ran : Engine.execute (Engine.fresh limit design) = .ok number engine) :
    number = 1 ∧ Explored design 1 engine := by
  have supported := supported_of_execute wellFormed ran
  have starts (assignment : Nat → Nat) (supply : Supply)
      (scenario : design.Scenario 1 0 assignment supply) :
      number = 1 ∧ Grows { freeBitLimit := limit } engine.solver ∧
        Unrolled design #[] assignment supply 1 engine := by
    obtain ⟨next, executed, grown, done⟩ :=
      first_execute_ok { freeBitLimit := limit } scenario Nat.one_pos
    rw [Engine.fresh, executed] at ran
    cases ran
    exact ⟨rfl, grown, done⟩
  have valid : Valid { freeBitLimit := limit } := Reachable.valid .start
  refine ⟨(starts _ _ (scenario_zero wellFormed supported 1 0)).1, ?_⟩
  exact of_runs wellFormed supported ⟨rfl, rfl, rfl⟩ valid
    fun assignment supply scenario => (starts assignment supply scenario).2

end Explored

/-! ## The search for a violation -/

/-- A bad condition of the last step that can hold, the first in order, with the text of a model. -/
structure Violation (design : Design) (step bad : Nat) (model : String)
    (engine : Engine Enumerator BitSort Nat) : Prop where
  explored : Explored design (step + 1) engine
  found : ∃ before t after assignment, engine.lastBads = before ++ (bad, t) :: after ∧
    (∀ entry ∈ before, engine.solver.Refutes engine.allConstraints entry.2) ∧
    engine.solver.IsModel (t :: engine.allConstraints) assignment ∧
    model = modelText engine.solver.vars assignment

theorem Violation.canFail {bad : Nat} {model : String}
    (violation : Violation design step bad model engine) : design.CanFail step bad := by
  obtain ⟨before, t, after, assignment, split, -, isModel, -⟩ := violation.found
  have entry : engine.lastBads[before.length]? = some (bad, t) := by simp [split]
  apply (violation.explored.canFail_iff entry).mpr
  exact fun refuted => refuted _ isModel.inRange isModel.satisfied

/-- No bad condition before it in the design can hold at the step. -/
theorem Violation.first {bad : Nat} {model : String}
    (violation : Violation design step bad model engine) :
    ∃ before condition name after, design = before ++ ⟨bad, .bad condition name⟩ :: after ∧
      ∀ lid condition name, ⟨lid, .bad condition name⟩ ∈ before → ¬ design.CanFail step lid := by
  obtain ⟨supply, condition, name, member, -⟩ := violation.canFail
  obtain ⟨before, after, whole⟩ := List.append_of_mem member
  refine ⟨before, condition, name, after, whole, ?_⟩
  intro lid other symbol earlier canFail
  have smaller : lid < bad :=
    (whole ▸ violation.explored.wellFormed).at_place.increasing _ earlier
  obtain ⟨place, t, listed⟩ := violation.explored.listed_of_canFail canFail
  obtain ⟨front, root, back, -, split, refuted, -⟩ := violation.found
  have sorted := violation.explored.sorted_lastBads
  rw [split, List.pairwise_append, List.pairwise_cons] at sorted
  have among := List.mem_of_getElem? listed
  rw [split, List.mem_append, List.mem_cons] at among
  rcases among with inFront | same | inBack
  · exact (violation.explored.canFail_iff listed).mp canFail (refuted _ inFront)
  · cases same
    exact Nat.lt_irrefl _ smaller
  · exact Nat.lt_asymm smaller (sorted.2.1.1 _ inBack)

/-- After a step its bad conditions are all refuted, or the first that can hold is found. -/
theorem Explored.askLast (explored : Explored design (step + 1) engine) {result : Option Verdict}
    {later : Engine Enumerator BitSort Nat}
    (ran : Engine.askLast (step + 1) engine = .ok result later) :
    Explored design (step + 1) later ∧
      ((result = none ∧ ∀ bad, ¬ design.CanFail step bad) ∨
        ∃ bad model, result = some (.violated (step + 1) bad model) ∧
          Violation design step bad model later) := by
  unfold Engine.askLast at ran
  split at ran
  · rename_i verdict solver asked
    cases ran
    obtain ⟨constraintsLt, badsLt⟩ := explored.roots_lt
    obtain ⟨same, findings⟩ :=
      queryAll_eq_ok explored.idle explored.valid constraintsLt badsLt asked
    generalize solver.model = model at same findings
    subst same
    have moved := explored.of_model model
    refine ⟨moved, ?_⟩
    cases findings with
    | clear refuted =>
        refine Or.inl ⟨rfl, fun bad canFail => ?_⟩
        obtain ⟨place, t, listed⟩ := explored.listed_of_canFail canFail
        exact (explored.canFail_iff listed).mp canFail (refuted _ (List.mem_of_getElem? listed))
    | found split refuted isModel =>
        refine Or.inr ⟨_, _, rfl, moved, _, _, _, _, split, refuted, ?_, rfl⟩
        exact ⟨isModel.size, isModel.inRange, isModel.satisfied, isModel.unreached⟩
  · cases ran

/-- An engine that is about to unroll the step after some others. -/
def Ready (design : Design) (limit count : Nat) (engine : Engine Enumerator BitSort Nat) : Prop :=
  (count = 0 ∧ engine = Engine.fresh limit design) ∨ Explored design count engine

theorem Ready.execute {limit number : Nat} {later : Engine Enumerator BitSort Nat}
    (ready : Ready design limit count engine) (wellFormed : design.WellFormed)
    (ran : Engine.execute engine = .ok number later) :
    number = count + 1 ∧ Explored design (count + 1) later := by
  rcases ready with ⟨rfl, rfl⟩ | explored
  · exact Explored.first wellFormed ran
  · exact explored.execute ran

/-- What a search over some further steps comes to. -/
inductive Searched (design : Design) (count remaining : Nat) :
    Option Verdict → Engine Enumerator BitSort Nat → Prop where
  | clear {engine : Engine Enumerator BitSort Nat} :
      (∀ step, count ≤ step → step < count + remaining → ∀ bad, ¬ design.CanFail step bad) →
      Searched design count remaining none engine
  | violated {engine : Engine Enumerator BitSort Nat} {step bad : Nat} {model : String} :
      step < count + remaining →
      (∀ earlier, count ≤ earlier → earlier < step → ∀ other, ¬ design.CanFail earlier other) →
      Violation design step bad model engine →
      Searched design count remaining (some (.violated (step + 1) bad model)) engine

/-- A step without violation in front of a search. -/
theorem Searched.after {remaining : Nat} {result : Option Verdict}
    (clear : ∀ bad, ¬ design.CanFail count bad)
    (searched : Searched design (count + 1) remaining result engine) :
    Searched design count (remaining + 1) result engine := by
  cases searched with
  | clear others =>
      refine .clear fun step late early => ?_
      rcases Nat.eq_or_lt_of_le late with rfl | beyond
      · exact clear
      · exact others step beyond (by omega)
  | violated early others violation =>
      refine .violated (by omega) (fun earlier late before => ?_) violation
      rcases Nat.eq_or_lt_of_le late with rfl | beyond
      · exact clear
      · exact others earlier beyond before

theorem explore_eq_ok {limit remaining : Nat} {result : Option Verdict}
    {later : Engine Enumerator BitSort Nat} (wellFormed : design.WellFormed)
    (ready : Ready design limit count engine)
    (ran : explore remaining engine = .ok result later) :
    Searched design count remaining result later := by
  induction remaining generalizing count engine with
  | zero =>
      cases ran
      exact .clear fun step late early => absurd early (by omega)
  | succ remaining ih =>
      obtain ⟨number, middle, executed, ran⟩ := CheckM.bind_eq_ok.mp ran
      obtain ⟨rfl, explored⟩ := ready.execute wellFormed executed
      obtain ⟨answer, asked, answered, ran⟩ := CheckM.bind_eq_ok.mp ran
      obtain ⟨further, ⟨rfl, clear⟩ | ⟨bad, model, rfl, violation⟩⟩ := explored.askLast answered
      · exact (ih (Or.inr further) ran).after clear
      · cases ran
        exact .violated (by omega) (fun earlier late early => absurd early (by omega)) violation

/-- The verdict of a search from the start. -/
theorem bmc_eq_ok {limit depth : Nat} {verdict : Verdict} (wellFormed : design.WellFormed)
    (ran : bmc depth (Engine.fresh limit design) = .ok verdict engine) :
    (verdict = .safe depth ∧ ∀ step < depth, ∀ bad, ¬ design.CanFail step bad) ∨
      ∃ step < depth, ∃ bad model, verdict = .violated (step + 1) bad model ∧
        (∀ earlier < step, ∀ other, ¬ design.CanFail earlier other) ∧
        Violation design step bad model engine := by
  obtain ⟨result, last, explored, ran⟩ := CheckM.bind_eq_ok.mp ran
  have searched := explore_eq_ok wellFormed (Or.inl ⟨rfl, rfl⟩) explored
  cases searched with
  | clear others =>
      cases ran
      exact Or.inl ⟨rfl, fun step below => others step (Nat.zero_le step) (by omega)⟩
  | violated early others violation =>
      cases ran
      refine Or.inr ⟨_, by omega, _, _, rfl, fun earlier below => ?_, violation⟩
      exact others earlier (Nat.zero_le earlier) below

end Engine

/-- A check with the enumerating solver is a search from the start. -/
theorem bmc_of_check {settings : Settings} {design : Design} {verdict : Verdict}
    (exhaustive : settings.solver = .exhaustive) (answered : check settings design = .ok verdict) :
    ∃ engine, Engine.bmc settings.depth (Engine.fresh settings.freeBitLimit design) =
      .ok verdict engine := by
  unfold check at answered
  rw [exhaustive] at answered
  simp only at answered
  split at answered
  · rename_i found engine ran
    cases answered
    exact ⟨engine, ran⟩
  · cases answered

/--
The verdicts of a check are exact; the steps of runs are numbered from zero and those of verdicts from
one.  A design is called safe if no bad condition can hold within the depth in a run that keeps all
constraints up to that step.  Otherwise the verdict names the least step at which one can hold, and
the first bad condition of the design that can hold there.
-/
theorem check_exact {source : String} {design : Design} (accepted : Design.read source = .ok design)
    {settings : Settings} (exhaustive : settings.solver = .exhaustive) {verdict : Verdict}
    (answered : check settings design = .ok verdict) :
    (verdict = .safe settings.depth ↔
      ∀ step < settings.depth, ∀ bad, ¬ design.CanFail step bad) ∧
    (verdict ≠ .safe settings.depth →
      ∃ step bad model, verdict = .violated (step + 1) bad model ∧ step < settings.depth ∧
        design.CanFail step bad ∧
        (∀ earlier < step, ∀ other, ¬ design.CanFail earlier other) ∧
        ∃ before condition name after, design = before ++ ⟨bad, .bad condition name⟩ :: after ∧
          ∀ lid condition name, ⟨lid, .bad condition name⟩ ∈ before →
            ¬ design.CanFail step lid) := by
  obtain ⟨engine, ran⟩ := bmc_of_check exhaustive answered
  rcases Engine.bmc_eq_ok (Design.wellFormed_of_read accepted) ran with
    ⟨rfl, clear⟩ | ⟨step, below, bad, model, rfl, earlier, violation⟩
  · exact ⟨⟨fun _ => clear, fun _ => rfl⟩, fun other => absurd rfl other⟩
  · refine ⟨⟨fun safe => (nomatch safe), fun clear => ?_⟩, fun _ => ?_⟩
    · exact absurd violation.canFail (clear step below bad)
    · exact ⟨step, bad, model, rfl, below, violation.canFail, earlier, violation.first⟩

/-- In the sample the first bad condition is excluded by the constraint that comes later. -/
theorem check_exact_sample :
    Design.read Sample.source = .ok Sample.design ∧
      (∃ model, check { depth := 2, solver := .exhaustive } Sample.design =
        .ok (.violated 1 11 model)) ∧
      Sample.design.CanFail 0 11 ∧ ¬ Sample.design.CanFail 0 9 := by
  have answered : check { depth := 2, solver := .exhaustive } Sample.design =
      .ok (.violated 1 11 "0 01 s_1\n1 00 state6_1\n2 00 x_1\n3 00 state6_2\n") := by
    decide +kernel
  obtain ⟨-, violated⟩ := check_exact Sample.read_source rfl answered
  obtain ⟨step, bad, model, same, -, canFail, -, before, condition, name, after, whole, first⟩ :=
    violated (by simp)
  cases same
  refine ⟨Sample.read_source, ⟨_, answered⟩, canFail, first 9 8 (some "same") ?_⟩
  have member : ⟨9, .bad 8 (some "same")⟩ ∈ Sample.design := by decide
  have sorted := (Design.wellFormed_of_read Sample.read_source).sorted
  rw [whole, List.pairwise_append, List.pairwise_cons] at sorted
  rw [whole, List.mem_append, List.mem_cons] at member
  rcases member with earlier | same | later
  · exact earlier
  · cases same
  · exact absurd (sorted.2.1.1 _ later) (by simp)

end BoundedCheck
