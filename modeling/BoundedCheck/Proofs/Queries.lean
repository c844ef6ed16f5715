import Mathlib
import BoundedCheck.Proofs.Decision
import BoundedCheck.Proofs.Frames
import BoundedCheck.Verdict

/-!
# Queries of a check

A solver that holds no requirements is asked for bad conditions one after the other, each in a scope
of its own.  A query leaves nothing behind but its model, so that every answer is about the condition
and the constraints alone.
-/

namespace BoundedCheck

open Enumerator

/-- Nothing is required of a solver, and no scope is open. -/
structure Enumerator.Idle (s : Enumerator) : Prop where
  assertions : s.assertions = #[]
  marks : s.marks = []
  assumptions : s.assumptions = #[]

/-- No assignment in range makes a condition and some constraints hold. -/
def Enumerator.Refutes (s : Enumerator) (constraints : List Nat) (condition : Nat) : Prop :=
  ∀ assignment, s.InRange assignment → ¬ Satisfies s.terms assignment (condition :: constraints)

variable {s later : Enumerator} {constraints : List Nat} {condition : Nat}

theorem Enumerator.Idle.of_model (idle : s.Idle) (model : Option (Array Nat)) :
    Idle { s with model := model } :=
  ⟨idle.assertions, idle.marks, idle.assumptions⟩

theorem Enumerator.Valid.of_model (valid : Valid s) (model : Option (Array Nat)) :
    Valid { s with model := model } :=
  valid.congr rfl rfl rfl valid.required

theorem foldl_assume (s : Enumerator) (constraints : List Nat) :
    constraints.foldl (fun solver t => Backend.assume t solver) s =
      { s with assumptions := s.assumptions ++ constraints.toArray } := by
  induction constraints generalizing s with
  | nil => simp
  | cons first rest ih =>
      rw [List.foldl_cons, ih]
      simp [Backend.assume, Enumerator.assume]

theorem pose_of_idle (idle : s.Idle) (constraints : List Nat) (condition : Nat) :
    pose constraints condition s =
      { s with assertions := #[condition], marks := [0], assumptions := constraints.toArray } := by
  simp only [pose, foldl_assume]
  simp [Backend.push, Backend.assert, Enumerator.push, Enumerator.assert, idle.assertions,
    idle.marks, idle.assumptions]

/-- What an idle solver answers to a query. -/
inductive Answered (s : Enumerator) (constraints : List Nat) (condition : Nat) :
    Answer → Option (Array Nat) → Prop where
  | unreachable : s.Refutes constraints condition →
      Answered s constraints condition .unreachable none
  | reachable {assignment : Array Nat} : s.IsModel (condition :: constraints) assignment →
      Answered s constraints condition (.reachable (modelText s.vars assignment)) (some assignment)

theorem solve_ne_unknown {roots : List Nat} {reason : String} :
    s.solve roots ≠ .error (.error (.unknown reason)) := by
  intro failed
  unfold Enumerator.solve at failed
  split at failed
  · cases failed
  · simp only at failed
    split at failed
    · cases failed
    · split at failed
      · cases failed
      · split at failed <;> cases failed

theorem checkSat_pose (idle : s.Idle) (constraints : List Nat) (condition : Nat) :
    Enumerator.checkSat (pose constraints condition s) =
      match s.solve (condition :: constraints) with
      | .ok found => .ok found.isSome
        { s with assertions := #[condition], marks := [0], assumptions := #[], model := found }
      | .error stop => .error stop
        { s with assertions := #[condition], marks := [0], assumptions := #[], model := none } := by
  have solved : Enumerator.solve { s with
      assertions := #[condition], marks := [0], assumptions := constraints.toArray }
      (condition :: constraints) = s.solve (condition :: constraints) := rfl
  rw [pose_of_idle idle]
  simp only [checkSat, Enumerator.roots, List.singleton_append, solved]
  cases s.solve (condition :: constraints) with
  | ok found => cases found <;> rfl
  | error stop => rfl

theorem pop_of_idle (idle : s.Idle) (condition : Nat) (model : Option (Array Nat)) :
    Backend.pop { s with
      assertions := #[condition], marks := [0], assumptions := #[], model := model } =
    { s with model := model } := by
  simp [Backend.pop, Enumerator.pop, idle.assertions, idle.marks, idle.assumptions]

/-- The answer that goes with what a search found. -/
def Answer.ofFound (vars : Array Variable) : Option (Array Nat) → Answer
  | none => .unreachable
  | some assignment => .reachable (modelText vars assignment)

theorem query_of_ok (idle : s.Idle) {found : Option (Array Nat)}
    (solved : s.solve (condition :: constraints) = .ok found) :
    query constraints condition s = .ok (.ofFound s.vars found) { s with model := found } := by
  unfold query
  rw [show (Backend.checkSat : SolverM Enumerator Bool) = Enumerator.checkSat from rfl,
    checkSat_pose idle, solved]
  cases found with
  | none => simp only [Option.isSome_none, pop_of_idle idle, Answer.ofFound]
  | some assignment =>
      simp only [Option.isSome_some, Backend.getModel, Enumerator.getModel, pop_of_idle idle,
        Answer.ofFound]

theorem query_of_error (idle : s.Idle) {stop : Stop SolverError}
    (solved : s.solve (condition :: constraints) = .error stop) :
    ∃ later, query constraints condition s = .error (stop.map .solver) later := by
  unfold query
  rw [show (Backend.checkSat : SolverM Enumerator Bool) = Enumerator.checkSat from rfl,
    checkSat_pose idle, solved]
  cases stop with
  | fault cause => exact ⟨_, rfl⟩
  | error cause =>
      cases cause with
      | unknown reason => exact absurd solved solve_ne_unknown
      | _ => exact ⟨_, rfl⟩

theorem query_eq_ok (idle : s.Idle) (valid : Valid s)
    (inside : ∀ root ∈ condition :: constraints, root < s.terms.size) {answer : Answer}
    (ran : query constraints condition s = .ok answer later) :
    later = { s with model := later.model } ∧
      Answered s constraints condition answer later.model := by
  cases solved : s.solve (condition :: constraints) with
  | ok found =>
      have answers := solve_answers valid inside solved
      rw [query_of_ok idle solved] at ran
      cases ran
      cases found with
      | none => exact ⟨rfl, .unreachable answers⟩
      | some assignment => exact ⟨rfl, .reachable answers⟩
  | error stop =>
      obtain ⟨last, failed⟩ := query_of_error idle solved
      rw [failed] at ran
      cases ran

/-- What an idle solver finds among conditions: none that can hold, or the first that can. -/
inductive Findings (s : Enumerator) (step : Nat) (constraints : List Nat)
    (conditions : List (Nat × Nat)) : Option Verdict → Option (Array Nat) → Prop where
  | clear {model : Option (Array Nat)} :
      (∀ entry ∈ conditions, s.Refutes constraints entry.2) →
      Findings s step constraints conditions none model
  | found {before after : List (Nat × Nat)} {bad t : Nat} {assignment : Array Nat} :
      conditions = before ++ (bad, t) :: after →
      (∀ entry ∈ before, s.Refutes constraints entry.2) →
      s.IsModel (t :: constraints) assignment →
      Findings s step constraints conditions
        (some (.violated step bad (modelText s.vars assignment))) (some assignment)

/-- The model of an earlier query does not matter. -/
theorem Findings.of_model {model : Option (Array Nat)} {step : Nat} {conditions : List (Nat × Nat)}
    {result : Option Verdict} {found : Option (Array Nat)}
    (findings : Findings { s with model := model } step constraints conditions result found) :
    Findings s step constraints conditions result found := by
  cases findings with
  | clear refuted => exact .clear refuted
  | found split refuted isModel =>
      exact .found split refuted
        ⟨isModel.size, isModel.inRange, isModel.satisfied, isModel.unreached⟩

/-- A refuted condition in front changes nothing. -/
theorem Findings.cons {step bad t : Nat} {conditions : List (Nat × Nat)} {result : Option Verdict}
    {model : Option (Array Nat)} (refuted : s.Refutes constraints t)
    (findings : Findings s step constraints conditions result model) :
    Findings s step constraints ((bad, t) :: conditions) result model := by
  have extend {before : List (Nat × Nat)} (others : ∀ entry ∈ before, s.Refutes constraints entry.2) :
      ∀ entry ∈ (bad, t) :: before, s.Refutes constraints entry.2 := by
    intro entry member
    rcases List.mem_cons.mp member with rfl | inside
    · exact refuted
    · exact others entry inside
  cases findings with
  | clear others => exact .clear (extend others)
  | found split others isModel => exact .found (by rw [split]; rfl) (extend others) isModel

theorem queryAll_eq_ok (idle : s.Idle) (valid : Valid s) {step : Nat}
    {conditions : List (Nat × Nat)} (insideAll : ∀ root ∈ constraints, root < s.terms.size)
    (inside : ∀ entry ∈ conditions, entry.2 < s.terms.size) {result : Option Verdict}
    (ran : queryAll step constraints conditions s = .ok result later) :
    later = { s with model := later.model } ∧
      Findings s step constraints conditions result later.model := by
  induction conditions generalizing s with
  | nil =>
      cases ran
      exact ⟨rfl, .clear (by simp)⟩
  | cons entry rest ih =>
      obtain ⟨bad, t⟩ := entry
      obtain ⟨answer, middle, asked, ran⟩ := CheckM.bind_eq_ok.mp ran
      have roots : ∀ root ∈ t :: constraints, root < s.terms.size := by
        intro root member
        rcases List.mem_cons.mp member with rfl | other
        · exact inside (bad, root) List.mem_cons_self
        · exact insideAll root other
      obtain ⟨same, answered⟩ := query_eq_ok idle valid roots asked
      generalize middle.model = model at same answered
      subst same
      cases answered with
      | unreachable refuted =>
          obtain ⟨unchanged, findings⟩ := ih (idle.of_model none) (valid.of_model none) insideAll
            (fun other member => inside other (List.mem_cons_of_mem _ member)) ran
          exact ⟨unchanged, findings.of_model.cons refuted⟩
      | reachable isModel =>
          cases ran
          exact ⟨rfl, .found (List.nil_append _).symm (by simp) isModel⟩

end BoundedCheck
