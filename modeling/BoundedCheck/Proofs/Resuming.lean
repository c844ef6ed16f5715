import Mathlib
import BoundedCheck.Proofs.Histories

/-!
# Checks in several parts

A check of some steps and then of some more, on the same engine, comes to what one check of all these
steps comes to, over any solver.  Only the depth of a safe verdict differs, which counts the steps of
the last check.
-/

namespace BoundedCheck

namespace Engine

variable {σ Handle Term : Type} [Backend σ Handle Term] {engine middle later : Engine σ Handle Term}
  {first second depth : Nat}

/-! ## Searches -/

/-- What becomes of a search when further steps follow it. -/
def continued (further : Nat) :
    EStateM.Result (Stop CheckError) (Engine σ Handle Term) (Option Verdict) →
      EStateM.Result (Stop CheckError) (Engine σ Handle Term) (Option Verdict)
  | .ok none engine => explore further engine
  | .ok (some verdict) engine => .ok (some verdict) engine
  | .error stop engine => .error stop engine

theorem explore_add (first second : Nat) (engine : Engine σ Handle Term) :
    explore (first + second) engine = continued second (explore first engine) := by
  induction first generalizing engine with
  | zero =>
      rw [Nat.zero_add]
      rfl
  | succ first ih =>
      rw [Nat.succ_add, explore, explore]
      cases ran : execute engine with
      | error stop last =>
          rw [CheckM.bind_of_error ran, CheckM.bind_of_error ran]
          rfl
      | ok number unrolled =>
          rw [CheckM.bind_of_ok ran, CheckM.bind_of_ok ran]
          cases answered : askLast number unrolled with
          | error stop last =>
              rw [CheckM.bind_of_error answered, CheckM.bind_of_error answered]
              rfl
          | ok found last =>
              rw [CheckM.bind_of_ok answered, CheckM.bind_of_ok answered]
              cases found with
              | some verdict => rfl
              | none => exact ih last

/-! ## Verdicts -/

/-- A query that ends a check does not call the design safe. -/
theorem isSafe_of_queryAll {step : Nat} {constraints : List Term} {bads : List (Nat × Term)}
    {verdict : Verdict} {s t : σ}
    (ran : queryAll step constraints bads s = .ok (some verdict) t) : verdict.isSafe = false := by
  induction bads generalizing s with
  | nil => cases ran
  | cons bad rest ih =>
      obtain ⟨answer, asked, -, ran⟩ := CheckM.bind_eq_ok.mp ran
      cases answer with
      | unreachable => exact ih ran
      | reachable model =>
          cases ran
          rfl
      | undecided reason =>
          cases ran
          rfl

theorem isSafe_of_explore {verdict : Verdict}
    (ran : explore depth engine = .ok (some verdict) later) : verdict.isSafe = false := by
  induction depth generalizing engine with
  | zero => cases ran
  | succ depth ih =>
      obtain ⟨number, unrolled, -, ran⟩ := CheckM.bind_eq_ok.mp ran
      obtain ⟨found, asked, answered, ran⟩ := CheckM.bind_eq_ok.mp ran
      cases found with
      | none => exact ih ran
      | some own =>
          cases ran
          unfold askLast at answered
          split at answered
          · rename_i ended
            cases answered
            exact isSafe_of_queryAll ended
          · cases answered

/-- A check ends as its search does, or is safe. -/
theorem bmc_cases (depth : Nat) (engine : Engine σ Handle Term) :
    (∃ stop later, explore depth engine = .error stop later ∧
        bmc depth engine = .error stop later) ∨
      (∃ verdict later, explore depth engine = .ok (some verdict) later ∧
        verdict.isSafe = false ∧ bmc depth engine = .ok verdict later) ∨
      ∃ later, explore depth engine = .ok none later ∧
        bmc depth engine = .ok (.safe depth) later := by
  cases ran : explore depth engine with
  | error stop later => exact Or.inl ⟨stop, later, rfl, CheckM.bind_of_error ran⟩
  | ok found later =>
      cases found with
      | some verdict =>
          exact Or.inr (Or.inl ⟨verdict, later, rfl, isSafe_of_explore ran, CheckM.bind_of_ok ran⟩)
      | none => exact Or.inr (Or.inr ⟨later, rfl, CheckM.bind_of_ok ran⟩)

theorem explore_of_bmc_safe (ran : bmc first engine = .ok (.safe depth) middle) :
    depth = first ∧ explore first engine = .ok none middle := by
  rcases bmc_cases first engine with
    ⟨stop, last, -, ended⟩ | ⟨verdict, last, -, found, ended⟩ | ⟨last, explored, ended⟩
  · rw [ended] at ran
    cases ran
  · rw [ended] at ran
    cases ran
    cases found
  · rw [ended] at ran
    cases ran
    exact ⟨rfl, explored⟩

/-- A check that was stopped is not changed by further steps. -/
theorem bmc_add_of_error {stop : Stop CheckError} (ran : bmc first engine = .error stop later)
    (second : Nat) : bmc (first + second) engine = .error stop later := by
  refine CheckM.bind_of_error ?_
  rcases bmc_cases first engine with
    ⟨cause, last, explored, ended⟩ | ⟨verdict, last, -, -, ended⟩ | ⟨last, -, ended⟩
  · rw [ended] at ran
    cases ran
    rw [explore_add, explored]
    rfl
  · rw [ended] at ran
    cases ran
  · rw [ended] at ran
    cases ran

/-- A check that found something is not changed by further steps. -/
theorem bmc_add_of_found {verdict : Verdict} (ran : bmc first engine = .ok verdict later)
    (found : verdict.isSafe = false) (second : Nat) :
    bmc (first + second) engine = .ok verdict later := by
  rcases bmc_cases first engine with
    ⟨cause, last, -, ended⟩ | ⟨own, last, explored, -, ended⟩ | ⟨last, -, ended⟩
  · rw [ended] at ran
    cases ran
  · rw [ended] at ran
    cases ran
    have whole : explore (first + second) engine = .ok (some verdict) later := by
      rw [explore_add, explored]
      rfl
    exact CheckM.bind_of_ok whole
  · rw [ended] at ran
    cases ran
    cases found

/--
A check can be made in two parts, over any solver and from any engine.  What ends the first part ends
the whole check.  After a first part that is safe, the second part on the same engine comes to the
same violation, error and engine as the whole check, and it is safe if the whole check is.
-/
theorem bmc_composes (engine : Engine σ Handle Term) (first second : Nat) :
    (∀ stop later, bmc first engine = .error stop later →
      bmc (first + second) engine = .error stop later) ∧
    (∀ verdict later, bmc first engine = .ok verdict later → verdict.isSafe = false →
      bmc (first + second) engine = .ok verdict later) ∧
    ∀ depth middle, bmc first engine = .ok (.safe depth) middle → depth = first ∧
      (∀ stop later, bmc second middle = .error stop later ↔
        bmc (first + second) engine = .error stop later) ∧
      (∀ verdict later, verdict.isSafe = false → (bmc second middle = .ok verdict later ↔
        bmc (first + second) engine = .ok verdict later)) ∧
      ∀ later, bmc second middle = .ok (.safe second) later ↔
        bmc (first + second) engine = .ok (.safe (first + second)) later := by
  refine ⟨fun stop later ran => bmc_add_of_error ran second,
    fun verdict later ran found => bmc_add_of_found ran found second, ?_⟩
  intro depth middle ran
  obtain ⟨rfl, clear⟩ := explore_of_bmc_safe ran
  have same : explore (depth + second) engine = explore second middle := by
    rw [explore_add, clear]
    rfl
  refine ⟨rfl, ?_⟩
  -- Both checks conclude from one search; only the depth that they call safe differs.
  rcases bmc_cases second middle with
    ⟨stop, last, explored, ended⟩ | ⟨verdict, last, explored, found, ended⟩ | ⟨last, explored, ended⟩
  · have whole : bmc (depth + second) engine = .error stop last :=
      CheckM.bind_of_error (same.trans explored)
    simp [ended, whole]
  · have whole : bmc (depth + second) engine = .ok verdict last :=
      CheckM.bind_of_ok (same.trans explored)
    have different (depth : Nat) : verdict ≠ .safe depth := by
      rintro rfl
      cases found
    simp [ended, whole, different]
  · have whole : bmc (depth + second) engine = .ok (.safe (depth + second)) last :=
      CheckM.bind_of_ok (same.trans explored)
    rw [ended, whole]
    refine ⟨by simp, ?_, by simp⟩
    rintro verdict later found
    constructor
    · rintro ⟨⟩
      cases found
    · rintro ⟨⟩
      cases found

end Engine

namespace Sample

/-- A state of one bit that takes a value of two bits, and is greater than one only then. -/
def widening : Design :=
  [⟨1, .sort (.bitVec 1)⟩, ⟨2, .state 1 none⟩, ⟨3, .one 1⟩, ⟨4, .sort (.bitVec 2)⟩, ⟨5, .const 4 2⟩,
    ⟨6, .next 1 2 5⟩, ⟨7, .binary .ugt 1 2 3⟩, ⟨8, .bad 7 none⟩]

end Sample

namespace Engine

/-- A check of one step is safe, and the next step on the same engine is a violation. -/
theorem bmc_composes_widening :
    ∃ middle later, bmc 1 (Engine.fresh 20 Sample.widening) = .ok (.safe 1) middle ∧
      bmc 1 middle = .ok (.violated 2 8 "0 0 state2_1\n") later ∧
      bmc (1 + 1) (Engine.fresh 20 Sample.widening) =
        .ok (.violated 2 8 "0 0 state2_1\n") later := by
  have safe : outcome (bmc 1 (Engine.fresh 20 Sample.widening)) = .ok (.safe 1) := by
    decide +kernel
  have violated : outcome (bmc 1 (endState (bmc 1 (Engine.fresh 20 Sample.widening)))) =
      .ok (.violated 2 8 "0 0 state2_1\n") := by
    decide +kernel
  obtain ⟨-, -, resumed⟩ := bmc_composes (Engine.fresh 20 Sample.widening) 1 1
  cases ran : bmc 1 (Engine.fresh 20 Sample.widening) with
  | error stop middle =>
      rw [ran] at safe
      cases safe
  | ok verdict middle =>
      rw [ran] at safe violated
      cases safe
      cases again : bmc 1 middle with
      | error stop later =>
          rw [endState, again] at violated
          cases violated
      | ok other later =>
          rw [endState, again] at violated
          cases violated
          obtain ⟨-, -, found, -⟩ := resumed 1 middle ran
          exact ⟨middle, later, rfl, again, (found _ later rfl).mp again⟩

end Engine

end BoundedCheck
