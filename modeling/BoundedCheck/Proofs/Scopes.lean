import Mathlib
import BoundedCheck.Proofs.Requests

/-!
# Calls of a check

After each step a check asks for the bad conditions of that step, each in a scope of its own under the
constraints of all steps so far, up to the first query that is not answered by "no".  Every scope that
is opened is closed again, whatever the outcome of the check, so that a solver requires after it what
it required before.
-/

namespace BoundedCheck

/-! ## The calls of a query -/

section Calls

variable {Handle Term : Type}

/-- What a query requires, its answer, and the request for a model after a positive answer only. -/
def askingCalls (constraints : List Term) (condition : Term) (answer : Option Bool) :
    List (Call Handle Term) :=
  constraints.map Call.assume ++ Call.assert condition :: Call.checkSat answer ::
    if answer = some true then [Call.getModel] else []

/-- The calls of one query, in a scope of its own. -/
def queryCalls (constraints : List Term) (condition : Term) (answer : Option Bool) :
    List (Call Handle Term) :=
  Call.push :: (askingCalls constraints condition answer ++ [Call.pop])

/-- The calls of some queries that are all answered by "no". -/
def clearCalls (constraints : List Term) (bads : List (Nat × Term)) : List (Call Handle Term) :=
  bads.flatMap fun bad => queryCalls constraints bad.2 (some false)

/-- Some calls are those of queries up to one bad condition, all but the last answered by "no". -/
def EndedCalls (constraints : List Term) (bads : List (Nat × Term)) (bad : Nat)
    (answer : Option Bool) (calls : List (Call Handle Term)) : Prop :=
  ∃ before condition after, bads = before ++ (bad, condition) :: after ∧
    calls = clearCalls constraints before ++ queryCalls constraints condition answer

theorem clearCalls_cons (constraints : List Term) (bad : Nat × Term) (rest : List (Nat × Term)) :
    (clearCalls constraints (bad :: rest) : List (Call Handle Term)) =
      queryCalls constraints bad.2 (some false) ++ clearCalls constraints rest :=
  List.flatMap_cons

theorem EndedCalls.cons {constraints : List Term} {bads : List (Nat × Term)} {bad : Nat}
    {answer : Option Bool} {calls : List (Call Handle Term)}
    (ended : EndedCalls constraints bads bad answer calls) (first : Nat × Term) :
    EndedCalls constraints (first :: bads) bad answer
      (queryCalls constraints first.2 (some false) ++ calls) := by
  obtain ⟨before, condition, after, rfl, rfl⟩ := ended
  refine ⟨first :: before, condition, after, rfl, ?_⟩
  rw [clearCalls_cons, List.append_assoc]

/-- What an answer other than "no" makes of a check. -/
inductive Ends (step bad : Nat) : Option Bool → Except CheckError Verdict → Prop where
  | violated (model : String) : Ends step bad (some true) (.ok (.violated step bad model))
  | undecided (reason : String) : Ends step bad none (.ok (.undecided step reason))
  | refused {answer : Option Bool} (error : SolverError) : answer ≠ some false →
      Ends step bad answer (.error (.solver error))

/-- The number of open scopes after a call, if there is a scope to close. -/
def Call.scopes? (depth : Nat) : Call Handle Term → Option Nat
  | .push => some (depth + 1)
  | .pop => if depth = 0 then none else some (depth - 1)
  | _ => some depth

/-- The number of open scopes after some calls, if no scope was closed that was not open. -/
def nesting (calls : List (Call Handle Term)) (depth : Nat) : Option Nat :=
  calls.foldlM Call.scopes? depth

/-- Scopes are closed in the order in which they are opened, and none is left open. -/
def Balanced (calls : List (Call Handle Term)) : Prop :=
  ∀ depth, nesting calls depth = some depth

theorem Balanced.append {first second : List (Call Handle Term)} (left : Balanced first)
    (right : Balanced second) : Balanced (first ++ second) := by
  intro depth
  rw [nesting, List.foldlM_append, ← nesting, left depth]
  exact right depth

theorem Balanced.flatMap {α : Type} {list : List α} {calls : α → List (Call Handle Term)}
    (each : ∀ a ∈ list, Balanced (calls a)) : Balanced (list.flatMap calls) := by
  induction list with
  | nil => exact fun depth => rfl
  | cons first rest ih =>
      rw [List.flatMap_cons]
      exact (each first List.mem_cons_self).append
        (ih fun a member => each a (List.mem_cons_of_mem first member))

/-- Calls that open and close nothing. -/
theorem balanced_of_level {calls : List (Call Handle Term)}
    (level : ∀ call ∈ calls, ∀ depth, call.scopes? depth = some depth) : Balanced calls := by
  intro depth
  induction calls with
  | nil => rfl
  | cons call rest ih =>
      rw [nesting, List.foldlM_cons, level call List.mem_cons_self]
      exact ih fun other member => level other (List.mem_cons_of_mem call member)

theorem balanced_of_builds {calls : List (Call Handle Term)}
    (building : ∀ call ∈ calls, call.builds = true) : Balanced calls := by
  apply balanced_of_level
  intro call member depth
  have builds := building call member
  cases call <;> first | rfl | cases builds

theorem balanced_askingCalls (constraints : List Term) (condition : Term) (answer : Option Bool) :
    Balanced (askingCalls constraints condition answer : List (Call Handle Term)) := by
  apply balanced_of_level
  intro call member depth
  simp only [askingCalls, List.mem_append, List.mem_map, List.mem_cons] at member
  rcases member with ⟨t, -, rfl⟩ | rfl | rfl | model
  · rfl
  · rfl
  · rfl
  · split at model
    · rw [List.mem_singleton.mp model]
      rfl
    · cases model

theorem balanced_queryCalls (constraints : List Term) (condition : Term) (answer : Option Bool) :
    Balanced (queryCalls constraints condition answer : List (Call Handle Term)) := by
  intro depth
  have inside : nesting (askingCalls constraints condition answer : List (Call Handle Term))
      (depth + 1) = some (depth + 1) := balanced_askingCalls constraints condition answer (depth + 1)
  rw [nesting] at inside
  simp only [queryCalls, nesting, List.foldlM_cons, Call.scopes?, Option.bind_eq_bind,
    Option.bind_some]
  rw [List.foldlM_append, inside]
  rfl

end Calls

/-! ## Queries over a recorder -/

section Queries

variable {σ Handle Term : Type} {r middle later : Recorder σ Handle Term}
  {constraints : List Term} {condition : Term}

/-- A recorder has noted some calls. -/
structure Recorder.Notes (r later : Recorder σ Handle Term) (calls : List (Call Handle Term)) :
    Prop where
  script : later.script = r.script
  log : later.log.toList = r.log.toList ++ calls

theorem Recorder.Notes.trans {first second : List (Call Handle Term)}
    (left : r.Notes middle first) (right : middle.Notes later second) :
    r.Notes later (first ++ second) :=
  ⟨right.script.trans left.script, by rw [right.log, left.log, List.append_assoc]⟩

/-- What a query over a recorder comes to, with the calls that it notes. -/
inductive Asked (r : Recorder σ Handle Term) (constraints : List Term) (condition : Term) :
    EStateM.Result (Stop CheckError) (Recorder σ Handle Term) Answer → Prop where
  | unreachable {later : Recorder σ Handle Term} :
      r.Notes later (queryCalls constraints condition (some false)) →
      Asked r constraints condition (.ok .unreachable later)
  | reachable {model : String} {later : Recorder σ Handle Term} :
      r.Notes later (queryCalls constraints condition (some true)) →
      Asked r constraints condition (.ok (.reachable model) later)
  | undecided {reason : String} {later : Recorder σ Handle Term} :
      r.Notes later (queryCalls constraints condition none) →
      Asked r constraints condition (.ok (.undecided reason) later)
  | refused {answer : Option Bool} {error : SolverError} {later : Recorder σ Handle Term} :
      answer ≠ some false → r.Notes later (queryCalls constraints condition answer) →
      Asked r constraints condition (.error (.error (.solver error)) later)
  | faulted {fault : Fault} {later : Recorder σ Handle Term} :
      Asked r constraints condition (.error (.fault fault) later)

/-- What the queries of a step come to, with the calls that they note. -/
inductive AskedAll (r : Recorder σ Handle Term) (step : Nat) (constraints : List Term)
    (bads : List (Nat × Term)) :
    EStateM.Result (Stop CheckError) (Recorder σ Handle Term) (Option Verdict) → Prop where
  | clear {later : Recorder σ Handle Term} : r.Notes later (clearCalls constraints bads) →
      AskedAll r step constraints bads (.ok none later)
  | ended {bad : Nat} {answer : Option Bool} {calls : List (Call Handle Term)} {verdict : Verdict}
      {later : Recorder σ Handle Term} : EndedCalls constraints bads bad answer calls →
      r.Notes later calls → Ends step bad answer (.ok verdict) →
      AskedAll r step constraints bads (.ok (some verdict) later)
  | refused {bad : Nat} {answer : Option Bool} {calls : List (Call Handle Term)}
      {error : CheckError} {later : Recorder σ Handle Term} :
      EndedCalls constraints bads bad answer calls → r.Notes later calls →
      Ends step bad answer (.error error) →
      AskedAll r step constraints bads (.error (.error error) later)
  | faulted {fault : Fault} {later : Recorder σ Handle Term} :
      AskedAll r step constraints bads (.error (.fault fault) later)

theorem AskedAll.cons {step : Nat} {first : Nat × Term} {rest : List (Nat × Term)}
    {result : EStateM.Result (Stop CheckError) (Recorder σ Handle Term) (Option Verdict)}
    (noted : r.Notes middle (queryCalls constraints first.2 (some false)))
    (asked : AskedAll middle step constraints rest result) :
    AskedAll r step constraints (first :: rest) result := by
  cases asked with
  | clear more =>
      apply AskedAll.clear
      rw [clearCalls_cons]
      exact noted.trans more
  | ended ended more ends => exact .ended (ended.cons first) (noted.trans more) ends
  | refused ended more ends => exact .refused (ended.cons first) (noted.trans more) ends
  | faulted => exact .faulted

variable [Backend σ Handle Term]

theorem notes_foldl_assume (constraints : List Term) (r : Recorder σ Handle Term) :
    r.Notes (constraints.foldl (fun solver term => Backend.assume term solver) r)
      (constraints.map Call.assume) := by
  induction constraints generalizing r with
  | nil => exact ⟨rfl, by simp⟩
  | cons first rest ih =>
      have noted : r.Notes (Backend.assume first r) [Call.assume first] :=
        ⟨rfl, by simp [Backend.assume, Recorder.note]⟩
      exact noted.trans (ih (Backend.assume first r))

theorem notes_pose (constraints : List Term) (condition : Term) (r : Recorder σ Handle Term) :
    r.Notes (pose constraints condition r)
      (Call.push :: (constraints.map Call.assume ++ [Call.assert condition])) := by
  have opened : r.Notes (Backend.push r) [Call.push] :=
    ⟨rfl, by simp [Backend.push, Recorder.note]⟩
  obtain ⟨script, log⟩ := opened.trans (notes_foldl_assume constraints (Backend.push r))
  exact ⟨script, by simp [pose, Backend.assert, Recorder.note, log]⟩

/-- A query is posed, answered, and closed. -/
theorem notes_query {answer : Option Bool} (answered : (pose constraints condition r).Notes later
      (Call.checkSat answer :: if answer = some true then [Call.getModel] else [])) :
    r.Notes (Backend.pop later) (queryCalls constraints condition answer) := by
  obtain ⟨script, log⟩ := (notes_pose constraints condition r).trans answered
  exact ⟨script, by simp [Backend.pop, Recorder.note, log, queryCalls, askingCalls]⟩

theorem notes_getModel (quiet : r.script = {}) :
    r.Notes (endState ((Backend.getModel : SolverM (Recorder σ Handle Term) String) r))
      [Call.getModel] := by
  have forwarded : r.Forwarded .getModel (some Call.getModel) (fun _ => none)
      ((Backend.getModel : SolverM (Recorder σ Handle Term) String) r) :=
    Recorder.forwarded_forward r _ _ _ _
  generalize (Backend.getModel : SolverM (Recorder σ Handle Term) String) r = result at forwarded
  cases forwarded with
  | refused planned => exact absurd (by rw [quiet]) planned
  | ok script log => exact ⟨script, log⟩
  | error script log => exact ⟨script, log⟩

theorem asked_query (quiet : r.script = {}) (constraints : List Term) (condition : Term) :
    Asked r constraints condition (query constraints condition r) := by
  have posed := (notes_pose constraints condition r).script.trans quiet
  have forwarded : (pose constraints condition r).Forwarded .checkSat none Recorder.onAnswer
      (Backend.checkSat (pose constraints condition r)) :=
    Recorder.forwarded_forward _ _ _ _ _
  unfold query
  generalize Backend.checkSat (pose constraints condition r) = result at forwarded
  cases forwarded with
  | refused planned => exact absurd (by rw [posed]) planned
  | @ok answer checked script log =>
      cases answer with
      | false => exact .unreachable (notes_query ⟨script, log⟩)
      | true =>
          -- The model is asked for before the scope is closed, whatever comes of it.
          have noted : (pose constraints condition r).Notes
              (endState ((Backend.getModel : SolverM (Recorder σ Handle Term) String) checked))
              [Call.checkSat (some true), Call.getModel] :=
            Recorder.Notes.trans ⟨script, log⟩ (notes_getModel (script.trans posed))
          simp only
          cases modelled : (Backend.getModel : SolverM (Recorder σ Handle Term) String) checked with
          | ok model last =>
              rw [modelled] at noted
              exact .reachable (notes_query noted)
          | error stop last =>
              rw [modelled] at noted
              cases stop with
              | fault fault => exact .faulted
              | error error => exact .refused (by simp) (notes_query noted)
  | @error stop checked script log =>
      cases stop with
      | fault fault => exact .faulted
      | error error =>
          have noted : r.Notes (Backend.pop checked) (queryCalls constraints condition none) :=
            notes_query ⟨script, log⟩
          cases error with
          | unknown reason => exact .undecided noted
          | _ => exact .refused (by simp) noted

theorem askedAll_queryAll (quiet : r.script = {}) (step : Nat) (constraints : List Term)
    (bads : List (Nat × Term)) :
    AskedAll r step constraints bads (queryAll step constraints bads r) := by
  induction bads generalizing r with
  | nil => exact .clear ⟨rfl, by simp [clearCalls]⟩
  | cons first rest ih =>
      have asked := asked_query quiet constraints first.2
      have here (answer : Option Bool) : EndedCalls constraints (first :: rest) first.1 answer
          (queryCalls constraints first.2 answer : List (Call Handle Term)) :=
        ⟨[], first.2, rest, rfl, rfl⟩
      rw [queryAll]
      generalize ran : query constraints first.2 r = result at asked
      cases asked with
      | unreachable noted =>
          rw [CheckM.bind_of_ok ran]
          exact .cons noted (ih (noted.script.trans quiet))
      | reachable noted =>
          rw [CheckM.bind_of_ok ran]
          exact .ended (here _) noted (.violated _)
      | undecided noted =>
          rw [CheckM.bind_of_ok ran]
          exact .ended (here _) noted (.undecided _)
      | refused ending noted =>
          rw [CheckM.bind_of_error ran]
          exact .refused (here _) noted (.refused _ ending)
      | faulted =>
          rw [CheckM.bind_of_error ran]
          exact .faulted

end Queries

/-! ## The calls of a check -/

/-- What a run reports, unless it stops with a fault. -/
def report? {ε σ α : Type} : EStateM.Result (Stop ε) σ α → Option (Except ε α)
  | .ok a _ => some (.ok a)
  | .error (.error error) _ => some (.error error)
  | .error (.fault _) _ => none

namespace Engine

variable {σ Handle Term : Type}

/-- The bad conditions of a step, counted from zero. -/
def badsOf (engine : Engine σ Handle Term) (step : Nat) : List (Nat × Term) :=
  (engine.bads[step]?.getD {}).entries

/-- The constraints of a step, counted from zero, and of the steps before it. -/
def constraintsThrough (engine : Engine σ Handle Term) (step : Nat) : List Term :=
  (engine.constraints.toList.take (step + 1)).flatMap OrderedMap.values

section Tables

variable {engine later : Engine σ Handle Term} {step : Nat}

theorem Keeps.badsOf_eq (keeps : Keeps engine later) (last : engine.step = step + 1) :
    later.badsOf step = engine.lastBads := by
  have size : engine.bads.size = step + 1 := last
  have same : later.bads[step]? = engine.bads[step]? := by
    rw [← Array.getElem?_toList, ← Array.getElem?_toList]
    obtain ⟨more, longer⟩ := keeps.bads
    rw [← longer, List.getElem?_append_left (by simp [size])]
  rw [badsOf, lastBads, same, Array.back?_eq_getElem?, size, Nat.add_sub_cancel]

theorem Keeps.constraintsThrough_eq (keeps : Keeps engine later) (consistent : engine.Consistent)
    (last : engine.step = step + 1) : later.constraintsThrough step = engine.allConstraints := by
  have size : engine.constraints.toList.length = step + 1 := consistent.constraints.trans last
  obtain ⟨more, longer⟩ := keeps.constraints
  rw [constraintsThrough, allConstraints, ← longer, List.take_left' size]

/-- The tables that the queries of a step read are still there when the check ends. -/
theorem Keeps.read_eq {final : Engine σ Handle Term} {solver : σ}
    (keeps : Keeps { engine with solver := solver } final)
    (consistent : engine.Consistent) (last : engine.step = step + 1) :
    engine.allConstraints = final.constraintsThrough step ∧ engine.lastBads = final.badsOf step :=
  ⟨(keeps.constraintsThrough_eq ⟨rfl, consistent.constraints, consistent.states⟩ last).symm,
    (keeps.badsOf_eq last).symm⟩

end Tables

/--
The calls of a check from a step on, and its outcome.  A step is built; then its bad conditions are
asked for, up to the first that is not answered by "no".
-/
inductive Course (final : Engine σ Handle Term) (depth : Nat) :
    Nat → Nat → List (Call Handle Term) → Except CheckError Verdict → Prop where
  | safe {step : Nat} : final.step = step → Course final depth step 0 [] (.ok (.safe depth))
  | failed {step remaining : Nat} {building : List (Call Handle Term)} {error : CheckError} :
      final.step = step → (∀ call ∈ building, call.builds = true) →
      Course final depth step (remaining + 1) building (.error error)
  | ended {step remaining bad : Nat} {building calls : List (Call Handle Term)}
      {answer : Option Bool} {outcome : Except CheckError Verdict} :
      final.step = step + 1 → (∀ call ∈ building, call.builds = true) →
      EndedCalls (final.constraintsThrough step) (final.badsOf step) bad answer calls →
      Ends (step + 1) bad answer outcome →
      Course final depth step (remaining + 1) (building ++ calls) outcome
  | clear {step remaining : Nat} {building rest : List (Call Handle Term)}
      {outcome : Except CheckError Verdict} :
      (∀ call ∈ building, call.builds = true) →
      Course final depth (step + 1) remaining rest outcome →
      Course final depth step (remaining + 1)
        (building ++ (clearCalls (final.constraintsThrough step) (final.badsOf step) ++ rest)) outcome

theorem course_of_ended {engine : Engine σ Handle Term} {solver : σ} {depth step remaining bad : Nat}
    {building calls : List (Call Handle Term)} {answer : Option Bool}
    {outcome : Except CheckError Verdict} (consistent : engine.Consistent)
    (last : engine.step = step + 1) (builds : ∀ call ∈ building, call.builds = true)
    (ended : EndedCalls engine.allConstraints engine.lastBads bad answer calls)
    (ends : Ends engine.step bad answer outcome) :
    Course { engine with solver := solver } depth step (remaining + 1) (building ++ calls)
      outcome := by
  obtain ⟨constraints, bads⟩ := (Keeps.refl { engine with solver := solver }).read_eq consistent last
  rw [constraints, bads] at ended
  rw [last] at ends
  exact .ended last builds ended ends

theorem balanced_clearCalls (constraints : List Term) (bads : List (Nat × Term)) :
    Balanced (clearCalls constraints bads : List (Call Handle Term)) :=
  Balanced.flatMap fun bad _ => balanced_queryCalls constraints bad.2 (some false)

theorem Course.balanced {final : Engine σ Handle Term} {depth step remaining : Nat}
    {calls : List (Call Handle Term)} {outcome : Except CheckError Verdict}
    (course : Course final depth step remaining calls outcome) : Balanced calls := by
  induction course with
  | safe _ => exact fun depth => rfl
  | failed _ building => exact balanced_of_builds building
  | ended _ building ended _ =>
      obtain ⟨before, condition, after, -, rfl⟩ := ended
      exact (balanced_of_builds building).append
        ((balanced_clearCalls _ before).append (balanced_queryCalls _ condition _))
  | clear building _ ih =>
      exact (balanced_of_builds building).append ((balanced_clearCalls _ _).append ih)

variable [Backend σ Handle Term]

theorem report_bmc (depth : Nat) (engine : Engine σ Handle Term) :
    report? (bmc depth engine) = (report? (explore depth engine)).map
      fun outcome => outcome.map fun found => found.getD (.safe depth) := by
  unfold bmc
  cases ran : explore depth engine with
  | error stop last =>
      rw [CheckM.bind_of_error ran]
      cases stop <;> rfl
  | ok verdict last =>
      rw [CheckM.bind_of_ok ran]
      cases verdict <;> rfl

variable {engine later : Engine (Recorder σ Handle Term) Handle Term}

/-- What is asked of an engine is asked of its solver. -/
theorem askLast_cases (quiet : later.solver.script = {}) (step : Nat) :
    ∃ result, AskedAll later.solver step later.allConstraints later.lastBads result ∧
      (∀ verdict solver, result = .ok verdict solver →
        askLast step later = .ok verdict { later with solver := solver }) ∧
      (∀ stop solver, result = .error stop solver →
        askLast step later = .error stop { later with solver := solver }) := by
  refine ⟨_, askedAll_queryAll quiet step later.allConstraints later.lastBads, ?_, ?_⟩
  · intro verdict solver ran
    rw [askLast, ran]
  · intro stop solver ran
    rw [askLast, ran]

theorem course_explore (total depth : Nat) (quiet : engine.solver.script = {})
    (consistent : engine.Consistent) {outcome : Except CheckError (Option Verdict)}
    (reported : report? (explore depth engine) = some outcome) :
    ∃ calls, (endState (explore depth engine)).solver.log.toList =
        engine.solver.log.toList ++ calls ∧
      Course (endState (explore depth engine)) total engine.step depth calls
        (outcome.map fun found => found.getD (.safe total)) := by
  induction depth generalizing engine with
  | zero =>
      cases reported
      exact ⟨[], (List.append_nil _).symm, .safe rfl⟩
  | succ depth ih =>
      obtain ⟨names, script, building, built, builds, -⟩ :=
        related_execute Recorder.respected_built engine
      have next := consistent.execute
      rw [explore] at reported ⊢
      cases ran : execute engine with
      | error stop last =>
          rw [CheckM.bind_of_error ran] at reported ⊢
          rw [ran] at built
          cases stop with
          | fault fault => cases reported
          | error error =>
              cases reported
              exact ⟨building, built, .failed (congrArg Array.size (execute_failed ran).1) builds⟩
      | ok number later =>
          simp only [ran, endState] at built script next
          obtain ⟨rfl, counted⟩ := consistent.execute_ok ran
          rw [CheckM.bind_of_ok ran] at reported ⊢
          obtain ⟨result, asked, succeeds, fails⟩ :=
            askLast_cases (script.trans quiet) later.step
          cases asked with
          | @clear solver noted =>
              rw [CheckM.bind_of_ok (succeeds _ _ rfl)] at reported ⊢
              have steady : Consistent { later with solver := solver } :=
                (Moves.refl.solve solver).consistent next
              have silent : ({ later with solver := solver } : Engine _ _ _).solver.script = {} :=
                noted.script.trans (script.trans quiet)
              obtain ⟨calls, log, course⟩ := ih silent steady reported
              refine ⟨building ++ (clearCalls later.allConstraints later.lastBads ++ calls), ?_, ?_⟩
              · refine log.trans ?_
                rw [noted.log, built, List.append_assoc, List.append_assoc]
              · obtain ⟨constraints, bads⟩ := (moves_explore depth _).keeps.read_eq next counted
                rw [constraints, bads]
                refine .clear builds ?_
                rw [← counted]
                exact course
          | ended ended noted ends =>
              rw [CheckM.bind_of_ok (succeeds _ _ rfl)] at reported ⊢
              cases reported
              refine ⟨building ++ _, ?_, course_of_ended next counted builds ended ends⟩
              rw [← List.append_assoc, ← built]
              exact noted.log
          | refused ended noted ends =>
              rw [CheckM.bind_of_error (fails _ _ rfl)] at reported ⊢
              cases reported
              refine ⟨building ++ _, ?_, course_of_ended next counted builds ended ends⟩
              rw [← List.append_assoc, ← built]
              exact noted.log
          | faulted =>
              rw [CheckM.bind_of_error (fails _ _ rfl)] at reported
              cases reported

end Engine

/-! ## The enumerating solver around a check -/

namespace Enumerator

/-- A solver requires what it did before, in the same scopes. -/
structure Level (s later : Enumerator) : Prop where
  assertions : later.assertions = s.assertions
  marks : later.marks = s.marks

variable {s middle later : Enumerator} {constraints : List Nat} {condition : Nat}

theorem Level.refl (s : Enumerator) : Level s s :=
  ⟨rfl, rfl⟩

theorem Level.trans (first : Level s middle) (second : Level middle later) : Level s later :=
  ⟨second.assertions.trans first.assertions, second.marks.trans first.marks⟩

/-- A request that requires nothing, whatever it asks for. -/
theorem Level.passes {ε α : Type} {result : EStateM.Result ε Enumerator α} {names : List String}
    (level : Level s (endState result)) : Passes (fun _ => Level) names s result := by
  cases result with
  | ok a later => exact .ok level
  | error stop later => exact @Passes.error _ _ _ _ _ _ _ _ names level

/-- Building terms requires nothing. -/
theorem respected_level : Respected (fun _ : List String => Level) where
  refl := Level.refl
  trans := Level.trans
  makeSort width s := by
    apply Level.passes
    change Level s (endState (makeSort width s))
    unfold makeSort
    split <;> exact .refl s
  makeVariable name sort s := .ok ⟨rfl, rfl⟩
  makeConstant value sort s := .ok ⟨rfl, rfl⟩
  not a s := by
    apply Level.passes
    change Level s (endState (Enumerator.not a s))
    unfold Enumerator.not
    split <;> exact ⟨rfl, rfl⟩
  binary op a b s := by
    apply Level.passes
    change Level s (endState (binary op a b s))
    unfold binary
    split <;> exact ⟨rfl, rfl⟩
  ite c a b s := by
    apply Level.passes
    change Level s (endState (ite c a b s))
    unfold ite
    split <;> exact ⟨rfl, rfl⟩
  uext a extra s := by
    apply Level.passes
    change Level s (endState (uext a extra s))
    unfold uext
    split
    · exact .refl s
    · split <;> exact ⟨rfl, rfl⟩
  slice a high low s := by
    apply Level.passes
    change Level s (endState (slice a high low s))
    unfold slice
    split <;> exact ⟨rfl, rfl⟩

theorem level_checkSat (s : Enumerator) : Level s (endState (checkSat s)) := by
  unfold checkSat
  simp only
  split <;> exact ⟨rfl, rfl⟩

theorem level_getModel (s : Enumerator) : Level s (endState (getModel s)) := by
  unfold getModel
  split <;> exact .refl s

/-- Closing the scope of a query drops all that was required in it. -/
theorem level_pop (inside : Level (pose constraints condition s) later) :
    Level s (Backend.pop later) := by
  have assertions : later.assertions = s.assertions.push condition := by
    rw [inside.assertions, pose, foldl_assume]
    rfl
  have marks : later.marks = s.assertions.size :: s.marks := by
    rw [inside.marks, pose, foldl_assume]
    rfl
  constructor
  · simp [Backend.pop, Enumerator.pop, marks, assertions]
  · simp [Backend.pop, Enumerator.pop, marks]

theorem level_query (s : Enumerator) (constraints : List Nat) (condition : Nat)
    (reported : report? (query constraints condition s) ≠ none) :
    Level s (endState (query constraints condition s)) := by
  have checked : Level (pose constraints condition s)
    (endState (Backend.checkSat (pose constraints condition s))) := level_checkSat _
  unfold query at reported ⊢
  generalize Backend.checkSat (pose constraints condition s) = result at checked reported ⊢
  cases result with
  | ok answer asked =>
      cases answer with
      | false => exact level_pop checked
      | true =>
          have modelled : Level (pose constraints condition s) (endState (Backend.getModel asked)) :=
            checked.trans (level_getModel asked)
          simp only at reported ⊢
          generalize (Backend.getModel asked : EStateM.Result _ _ String) = result
            at modelled reported ⊢
          cases result with
          | ok model last => exact level_pop modelled
          | error stop last =>
              cases stop with
              | fault fault => exact absurd rfl reported
              | error error => exact level_pop modelled
  | error stop asked =>
      cases stop with
      | fault fault => exact absurd rfl reported
      | error error => cases error <;> exact level_pop checked

theorem level_queryAll (s : Enumerator) (step : Nat) (constraints : List Nat)
    (bads : List (Nat × Nat)) (reported : report? (queryAll step constraints bads s) ≠ none) :
    Level s (endState (queryAll step constraints bads s)) := by
  induction bads generalizing s with
  | nil => exact .refl s
  | cons first rest ih =>
      have asked := level_query s constraints first.2
      rw [queryAll] at reported ⊢
      cases ran : query constraints first.2 s with
      | error stop last =>
          rw [CheckM.bind_of_error ran] at reported ⊢
          rw [ran] at asked
          cases stop with
          | fault fault => exact absurd rfl reported
          | error error => exact asked (by simp [report?])
      | ok answer last =>
          rw [CheckM.bind_of_ok ran] at reported ⊢
          rw [ran] at asked
          have here := asked (by simp [report?])
          cases answer with
          | unreachable => exact here.trans (ih last reported)
          | reachable model => exact here
          | undecided reason => exact here

end Enumerator

namespace Engine

open Enumerator

theorem level_askLast (step : Nat) (engine : Engine Enumerator BitSort Nat)
    (reported : report? (askLast step engine) ≠ none) :
    Level engine.solver (endState (askLast step engine)).solver := by
  have asked := level_queryAll engine.solver step engine.allConstraints engine.lastBads
  unfold askLast at reported ⊢
  generalize queryAll step engine.allConstraints engine.lastBads engine.solver = result
    at asked reported ⊢
  cases result with
  | ok verdict solver => exact asked (by simp [report?])
  | error stop solver =>
      cases stop with
      | fault fault => exact absurd rfl reported
      | error error => exact asked (by simp [report?])

theorem level_explore (depth : Nat) (engine : Engine Enumerator BitSort Nat)
    (reported : report? (explore depth engine) ≠ none) :
    Level engine.solver (endState (explore depth engine)).solver := by
  induction depth generalizing engine with
  | zero => exact .refl _
  | succ depth ih =>
      obtain ⟨names, built⟩ := related_execute respected_level engine
      rw [explore] at reported ⊢
      cases ran : execute engine with
      | error stop last =>
          rw [CheckM.bind_of_error ran]
          rw [ran] at built
          exact built
      | ok number later =>
          have asked := level_askLast number later
          rw [CheckM.bind_of_ok ran] at reported ⊢
          rw [ran] at built
          cases answered : askLast number later with
          | error stop last =>
              rw [CheckM.bind_of_error answered] at reported ⊢
              rw [answered] at asked
              exact built.trans (asked reported)
          | ok found last =>
              rw [CheckM.bind_of_ok answered] at reported ⊢
              rw [answered] at asked
              have here := built.trans (asked (by simp [report?]))
              cases found with
              | some verdict => exact here
              | none => exact here.trans (ih last reported)

/--
The queries of a check are scoped and complete, over any solver and after any history.  Each step is
followed by one scope for each bad condition in order, under the constraints of all steps so far, up
to the first query that is not answered by "no".  All scopes are closed again, whatever the outcome,
so that the enumerating solver requires after a check what it did before.
-/
theorem bmc_queries_scoped :
    (∀ {σ Handle Term : Type} [Backend σ Handle Term] {design : Design} {solver : σ}
        {engine : Engine σ Handle Term}, Leads { design := design, solver := solver } engine →
      ∀ depth outcome, report? (bmc depth engine.recorded) = some outcome →
        Course (endState (bmc depth engine.recorded)) depth engine.step depth
            (endState (bmc depth engine.recorded)).solver.log.toList outcome ∧
          Balanced (endState (bmc depth engine.recorded)).solver.log.toList) ∧
    (∀ (engine : Engine Enumerator BitSort Nat) depth outcome,
      report? (bmc depth engine) = some outcome →
        (endState (bmc depth engine)).solver.assertions = engine.solver.assertions ∧
          (endState (bmc depth engine)).solver.marks = engine.solver.marks) := by
  constructor
  · intro σ Handle Term _ design solver engine reached depth outcome reported
    have consistent := reached.moves.consistent (consistent_start design solver)
    rw [report_bmc, Option.map_eq_some_iff] at reported
    obtain ⟨found, explored, rfl⟩ := reported
    have silent : engine.recorded.solver.script = {} := rfl
    have steady : engine.recorded.Consistent :=
      ⟨rfl, consistent.constraints, consistent.states⟩
    obtain ⟨calls, log, course⟩ := course_explore depth depth silent steady explored
    rw [endState_bmc, log]
    exact ⟨course, course.balanced⟩
  · intro engine depth outcome reported
    rw [report_bmc, Option.map_eq_some_iff] at reported
    obtain ⟨found, explored, -⟩ := reported
    obtain ⟨assertions, marks⟩ := level_explore depth engine (by simp [explored])
    rw [endState_bmc]
    exact ⟨assertions, marks⟩

end Engine

namespace Sample

/-- The sample over a solver that fails to give its first model. -/
def mute : Engine (Recorder Enumerator Enumerator.BitSort Nat) Enumerator.BitSort Nat where
  design := design
  solver := {
    inner := {}
    script := {
      failures := fun request =>
        if request = .getModel then some (1, .backend "mute") else none } }

end Sample

namespace Engine

/-- A second step that ends in a refused model: the scope of its last query is closed all the same. -/
theorem bmc_queries_scoped_mute :
    Leads Sample.mute (Action.execute.perform Sample.mute) ∧
      ∃ final, bmc 1 (Action.execute.perform Sample.mute).recorded =
          .error (.error (.solver (.backend "mute"))) final ∧
        Course final 1 1 1 final.solver.log.toList (.error (.solver (.backend "mute"))) ∧
        Balanced final.solver.log.toList ∧
        final.solver.log.toList.filter (· = .push) = [.push, .push] := by
  have reached : Leads Sample.mute (Action.execute.perform Sample.mute) := .act .execute .refl
  have once : (Action.execute.perform Sample.mute).step = 1 := by decide +kernel
  have refused : report? (bmc 1 (Action.execute.perform Sample.mute).recorded) =
      some (.error (.solver (.backend "mute"))) := by decide +kernel
  have opened : (endState (bmc 1 (Action.execute.perform
      Sample.mute).recorded)).solver.log.toList.filter (· = .push) = [.push, .push] := by
    decide +kernel
  obtain ⟨course, balanced⟩ := bmc_queries_scoped.1 reached 1 _ refused
  rw [once] at course
  cases ran : bmc 1 (Action.execute.perform Sample.mute).recorded with
  | ok verdict final => simp [report?, ran] at refused
  | error stop final =>
      rw [ran] at refused course balanced opened
      cases stop with
      | fault fault => cases refused
      | error error =>
          cases refused
          exact ⟨reached, final, rfl, course, balanced, opened⟩

end Engine

end BoundedCheck
