import Mathlib
import BoundedCheck.Proofs.Widths
import BoundedCheck.Unroll.Tables

/-!
# Runs as solutions

In a well-formed design the values of a step solve the equations of its instructions: a computed
instruction has the value of its operation on the values of the same step, and every other one keeps
what it had at the start of the step.
-/

namespace BoundedCheck.Design

variable {design : Design} {supply : Supply}

/-- The values at the start of a step. -/
def entry (design : Design) (supply : Supply) : Nat → Valuation
  | 0 => supply 0
  | step + 1 => fun lid =>
    match design.lastNext? lid with
    | some value => design.run supply step value
    | none => supply (step + 1) lid

theorem run_eq_settle (design : Design) (supply : Supply) (step : Nat) :
    design.run supply step = design.settle design (design.entry supply step) := by
  cases step <;> rfl

theorem settle_append (design before rest : Design) (values : Valuation) :
    design.settle (before ++ rest) values = design.settle rest (design.settle before values) := by
  induction before generalizing values with
  | nil => rfl
  | cons instruction before ih =>
      simp only [List.cons_append, settle]
      split <;> exact ih _

theorem settle_of_not_mem {list : Design} {lid : Nat} (values : Valuation)
    (absent : ∀ instruction ∈ list, instruction.lid ≠ lid) :
    design.settle list values lid = values lid := by
  induction list generalizing values with
  | nil => rfl
  | cons instruction rest ih =>
      have others : ∀ other ∈ rest, other.lid ≠ lid :=
        fun other member => absent other (List.mem_cons_of_mem _ member)
      have here : lid ≠ instruction.lid := (absent instruction List.mem_cons_self).symm
      rw [settle]
      cases design.compute? values instruction.operation with
      | none => exact ih _ others
      | some value =>
          simp only
          rw [ih _ others, Valuation.set, if_neg here]

/-- Only the operands of an operation matter for its value. -/
theorem compute?_congr {first second : Valuation} {operation : Operation}
    (agree : ∀ lid ∈ operation.operands, first lid = second lid) :
    design.compute? first operation = design.compute? second operation := by
  cases operation with
  | not s operand | uext s operand extra name | slice s operand lowBit width =>
      have same : first operand = second operand := agree operand (by simp [Operation.operands])
      simp only [compute?, same]
  | binary op s left right =>
      have sameLeft : first left = second left := agree left (by simp [Operation.operands])
      have sameRight : first right = second right := agree right (by simp [Operation.operands])
      simp only [compute?, sameLeft, sameRight]
  | ite s condition onTrue onFalse =>
      have sameCondition : first condition = second condition :=
        agree condition (by simp [Operation.operands])
      have sameTrue : first onTrue = second onTrue := agree onTrue (by simp [Operation.operands])
      have sameFalse : first onFalse = second onFalse :=
        agree onFalse (by simp [Operation.operands])
      simp only [compute?, sameCondition, sameTrue, sameFalse]
  | _ => rfl

section Place

variable {before after : Design} {instruction : Instruction} (wellFormed : design.WellFormed)
  (whole : design = before ++ instruction :: after)

include wellFormed whole

/-- What an instruction refers to is settled before it. -/
theorem run_operand {step lid : Nat} (operand : lid ∈ instruction.operation.operands) :
    design.run supply step lid = design.settle before (design.entry supply step) lid := by
  have formed : instruction.WellFormed before := (whole ▸ wellFormed).at_place
  obtain ⟨operation, member, -⟩ := formed.resolved.operands lid operand
  have sorted := wellFormed.sorted
  rw [whole, List.pairwise_append] at sorted
  have unfolded : design.run supply step =
      design.settle (before ++ instruction :: after) (design.entry supply step) := by
    rw [run_eq_settle, ← whole]
  rw [unfolded, settle_append]
  apply settle_of_not_mem
  intro later inside
  exact Nat.ne_of_gt (sorted.2.2 ⟨lid, operation⟩ member later inside)

/-- The value of an instruction is settled with it. -/
theorem run_lid {step : Nat} :
    design.run supply step instruction.lid =
      design.settle (before ++ [instruction]) (design.entry supply step) instruction.lid := by
  have sorted := wellFormed.sorted
  rw [whole, List.append_cons, List.pairwise_append] at sorted
  have unfolded : design.run supply step =
      design.settle (before ++ [instruction] ++ after) (design.entry supply step) := by
    rw [run_eq_settle, ← List.append_cons, ← whole]
  rw [unfolded, settle_append]
  apply settle_of_not_mem
  intro later inside
  exact Nat.ne_of_gt (sorted.2.2 instruction (by simp) later inside)

theorem settle_lid_before {step : Nat} :
    design.settle before (design.entry supply step) instruction.lid =
      design.entry supply step instruction.lid := by
  apply settle_of_not_mem
  intro earlier member
  have formed : instruction.WellFormed before := (whole ▸ wellFormed).at_place
  exact Nat.ne_of_lt (formed.increasing earlier member)

end Place

section Solution

variable (wellFormed : design.WellFormed) {instruction : Instruction} {step : Nat}

include wellFormed

/-- A computed instruction has the value of its operation on the values of the step. -/
theorem run_of_compute? (member : instruction ∈ design) {value : Nat}
    (computed : design.compute? (design.run supply step) instruction.operation = some value) :
    design.run supply step instruction.lid = value := by
  obtain ⟨before, after, whole⟩ := List.append_of_mem member
  rw [compute?_congr fun lid operand => run_operand wellFormed whole operand] at computed
  rw [run_lid wellFormed whole, settle_append]
  simp [settle, computed, Valuation.set]

/-- Every other instruction keeps what it has at the start of the step. -/
theorem run_of_not_computed (member : instruction ∈ design)
    (kept : ∀ values, design.compute? values instruction.operation = none) :
    design.run supply step instruction.lid = design.entry supply step instruction.lid := by
  obtain ⟨before, after, whole⟩ := List.append_of_mem member
  rw [run_lid wellFormed whole, settle_append, ← settle_lid_before wellFormed whole]
  simp [settle, kept]

end Solution

/-! ## Successors -/

theorem lastNext?_snoc (design : Design) (instruction : Instruction) (state : Nat) :
    lastNext? (design ++ [instruction]) state =
      match instruction.operation with
      | .next _ target value =>
        if target = state then some value else design.lastNext? state
      | _ => design.lastNext? state := by
  unfold lastNext?
  rw [List.reverse_append, List.reverse_singleton, List.singleton_append, List.findSome?_cons]
  cases instruction.operation with
  | next s target value => by_cases same : target = state <;> simp [same]
  | _ => rfl

/-- What a state takes over comes from one of its `next` instructions. -/
theorem exists_of_lastNext? {state value : Nat} (found : design.lastNext? state = some value) :
    ∃ lid sort, ⟨lid, .next sort state value⟩ ∈ design := by
  obtain ⟨instruction, member, here⟩ := List.exists_of_findSome?_eq_some found
  obtain ⟨lid, operation⟩ := instruction
  cases operation with
  | next s target next =>
      simp only [Option.ite_none_right_eq_some, Option.some.injEq] at here
      obtain ⟨rfl, rfl⟩ := here
      exact ⟨lid, s, List.mem_reverse.mp member⟩
  | _ => cases here

theorem mem_updated {state : Nat} :
    state ∈ design.updated ↔ ∃ lid sort value, ⟨lid, .next sort state value⟩ ∈ design := by
  unfold updated
  rw [List.mem_filterMap]
  constructor
  · rintro ⟨⟨lid, operation⟩, member, here⟩
    cases operation with
    | next s target value =>
        cases here
        exact ⟨lid, s, value, member⟩
    | _ => cases here
  · rintro ⟨lid, sort, value, member⟩
    exact ⟨_, member, rfl⟩

theorem lastNext?_eq_none_iff {state : Nat} :
    design.lastNext? state = none ↔ state ∉ design.updated := by
  rw [mem_updated]
  constructor
  · rintro absent ⟨lid, sort, value, member⟩
    have missing := List.findSome?_eq_none_iff.mp absent _ (List.mem_reverse.mpr member)
    simp at missing
  · intro absent
    cases found : design.lastNext? state with
    | none => rfl
    | some value =>
        obtain ⟨lid, sort, member⟩ := exists_of_lastNext? found
        exact absurd ⟨lid, sort, value, member⟩ absent

theorem mem_states {state sort : Nat} :
    (state, sort) ∈ design.states ↔ ∃ name, ⟨state, .state sort name⟩ ∈ design := by
  unfold states
  rw [List.mem_filterMap]
  constructor
  · rintro ⟨⟨lid, operation⟩, member, here⟩
    cases operation with
    | state s name =>
        cases here
        exact ⟨name, member⟩
    | _ => cases here
  · rintro ⟨name, member⟩
    exact ⟨_, member, rfl⟩

theorem mem_freeStates {state sort : Nat} :
    (state, sort) ∈ design.freeStates ↔
      (∃ name, ⟨state, .state sort name⟩ ∈ design) ∧ design.lastNext? state = none := by
  unfold freeStates
  rw [List.mem_filter, mem_states, lastNext?_eq_none_iff]
  simp

end BoundedCheck.Design
