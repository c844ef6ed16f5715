import Mathlib
import BoundedCheck.Proofs.Requirements
import BoundedCheck.Proofs.Scopes

/-!
# What lasts in a solver

A term lasts as long as its solver: whatever is done later, it keeps its node, its width and its
value.  An assertion lasts as long as its scope.  Of a scope only the number of assertions before it
is remembered, and this is enough to come back to exactly these assertions when it is closed.
-/

namespace BoundedCheck.Enumerator

/-- The state after some actions. -/
def performAll (s : Enumerator) (actions : List Action) : Enumerator :=
  actions.foldl Action.perform s

theorem performAll_append (s : Enumerator) (first second : List Action) :
    performAll s (first ++ second) = performAll (performAll s first) second :=
  List.foldl_append

variable {limit : Nat} {s base : Enumerator}

/-! ## Terms -/

theorem extends_performAll (s : Enumerator) (actions : List Action) :
    Extends s.terms (performAll s actions).terms := by
  induction actions generalizing s with
  | nil => exact .refl s.terms
  | cons action rest ih => exact (extends_perform s action).trans (ih (action.perform s))

/--
The terms of a solver are founded and last.  After any history a term is built from terms with smaller
numbers, a variable exists, has the width of its term and belongs to no other term, a constant fits
its width, and no term is without bits.  Whatever is done afterwards, with or without success, each
term stays what it is, and so does its value under every assignment.
-/
theorem terms_founded_and_lasting (reachable : Reachable limit s) :
    (∀ t, ∀ child ∈ children s.terms t, child < t) ∧
      (∀ t index, varIndex? s.terms t = some index →
        ∃ var, s.vars[index]? = some var ∧ var.width = widthOf s.terms t) ∧
      (∀ t u index, varIndex? s.terms t = some index → varIndex? s.terms u = some index → t = u) ∧
      (∀ t value width : Nat, s.terms[t]? = some ⟨.constant value, width⟩ → value < 2 ^ width) ∧
      (∀ t < s.terms.size, 0 < widthOf s.terms t) ∧
      ∀ (actions : List Action) (t : Nat), t < s.terms.size →
        (performAll s actions).terms[t]? = s.terms[t]? ∧
          ∀ assignment, denote (performAll s actions).terms assignment t =
            denote s.terms assignment t := by
  have valid := reachable.valid
  refine ⟨valid.founded, fun t index => valid.declared, valid.owned, ?_, fun t => valid.width_pos, ?_⟩
  · intro t value width found
    exact (valid.terms t _ found).2.2
  · intro actions t below
    have grown := extends_performAll s actions
    exact ⟨grown.2 t below, fun assignment => grown.denote assignment below⟩

/-- A comparison keeps its value while its scope is closed and its operands are used again. -/
theorem terms_founded_and_lasting_scattered :
    Reachable 4 Sample.scattered ∧
      denote (performAll Sample.scattered
          [.checkSat, .pop, .pop, .makeSort 0, .uext 2 3, .slice 0 1 0]).terms
        (fun index => index) 2 = .ok 1 := by
  obtain ⟨-, -, -, -, -, lasting⟩ := terms_founded_and_lasting Sample.reachable_scattered
  refine ⟨Sample.reachable_scattered, ?_⟩
  rw [(lasting _ 2 (by decide)).2]
  decide +kernel

/-! ## Scopes -/

/-- An action that opens and closes nothing requires no less than before, in the same scopes. -/
theorem scopes_perform {action : Action} (opens : action ≠ .push) (closes : action ≠ .pop) :
    (action.perform s).marks = s.marks ∧
      s.assertions.toList <+: (action.perform s).assertions.toList := by
  cases action with
  | push => exact absurd rfl opens
  | pop => exact absurd rfl closes
  | assert t => exact ⟨rfl, by simp [Action.perform, Enumerator.assert]⟩
  | makeVariable | makeConstant | assume => exact ⟨rfl, List.prefix_refl _⟩
  | _ =>
      simp only [Action.perform, Enumerator.makeSort, Enumerator.checkSat, Enumerator.getModel,
        Enumerator.not, Enumerator.binary, Enumerator.ite, Enumerator.uext, Enumerator.slice]
      repeat' split
      all_goals exact ⟨rfl, List.prefix_refl _⟩

theorem pop_of_marks {size : Nat} {outer : List Nat} (marks : s.marks = size :: outer) :
    s.pop = { s with assertions := s.assertions.take size, marks := outer } := by
  simp only [Enumerator.pop, marks]

/-- Each scope starts no earlier than the scope around it, and no later than the last assertion. -/
def Stacked (s : Enumerator) : Prop :=
  (s.assertions.size :: s.marks).Pairwise (· ≥ ·)

theorem Stacked.perform (stacked : Stacked s) (action : Action) : Stacked (action.perform s) := by
  obtain ⟨inside, sorted⟩ := List.pairwise_cons.mp stacked
  by_cases opens : action = .push
  · subst opens
    refine List.pairwise_cons.mpr ⟨?_, stacked⟩
    intro mark member
    rcases List.mem_cons.mp member with rfl | outer
    · exact Nat.le_refl _
    · exact inside mark outer
  by_cases closes : action = .pop
  · subst closes
    cases marks : s.marks with
    | nil => simpa only [Action.perform, Enumerator.pop, marks] using stacked
    | cons size outer =>
        rw [marks] at inside sorted
        rw [Action.perform, pop_of_marks marks, Stacked, ← Array.shrink_eq_take, Array.size_shrink,
          Nat.min_eq_left (inside size List.mem_cons_self)]
        exact sorted
  · obtain ⟨marks, longer⟩ := scopes_perform (s := s) opens closes
    rw [Stacked, marks]
    refine List.pairwise_cons.mpr ⟨fun mark member => ?_, sorted⟩
    exact Nat.le_trans (inside mark member) longer.length_le

theorem Reachable.stacked (reachable : Reachable limit s) : Stacked s := by
  induction reachable with
  | start => exact List.pairwise_singleton _ _
  | act action _ _ ih => exact ih.perform action

/-! ## Actions that close what they open -/

/-- Some actions close a number of scopes beyond those that they open, and none before it is open. -/
def Closes (depth : Nat) (actions : List Action) : Prop :=
  actions.count .pop = actions.count .push + depth ∧
    ∀ begun, begun <+: actions → begun.count .pop ≤ begun.count .push + depth

instance (depth : Nat) (actions : List Action) : Decidable (Closes depth actions) :=
  decidable_of_iff (actions.count .pop = actions.count .push + depth ∧
    ∀ begun ∈ actions.inits, begun.count .pop ≤ begun.count .push + depth) (by simp [Closes])

/-- Some actions open as many scopes as they close, and close none before they opened it. -/
abbrev Matched (actions : List Action) : Prop :=
  Closes 0 actions

namespace Closes

variable {depth : Nat} {action : Action} {rest : List Action}

theorem of_push (closes : Closes depth (.push :: rest)) : Closes (depth + 1) rest := by
  obtain ⟨total, started⟩ := closes
  rw [List.count_cons_self, List.count_cons_of_ne (by decide)] at total
  refine ⟨by omega, fun begun shorter => ?_⟩
  have bounded := started (.push :: begun) ((List.prefix_cons_inj _).mpr shorter)
  rw [List.count_cons_self, List.count_cons_of_ne (by decide)] at bounded
  omega

/-- What closes a scope first does so within an open one. -/
theorem of_pop (closes : Closes depth (.pop :: rest)) :
    ∃ outer, depth = outer + 1 ∧ Closes outer rest := by
  obtain ⟨total, started⟩ := closes
  have first : 1 ≤ depth := by simpa using started [.pop] (by simp)
  rw [List.count_cons_self, List.count_cons_of_ne (by decide)] at total
  refine ⟨depth - 1, by omega, by omega, fun begun shorter => ?_⟩
  have bounded := started (.pop :: begun) ((List.prefix_cons_inj _).mpr shorter)
  rw [List.count_cons_self, List.count_cons_of_ne (by decide)] at bounded
  omega

theorem of_other (closes : Closes depth (action :: rest)) (noPush : action ≠ .push)
    (noPop : action ≠ .pop) : Closes depth rest := by
  obtain ⟨total, started⟩ := closes
  refine ⟨?_, fun begun shorter => ?_⟩
  · simpa [List.count_cons, noPush, noPop] using total
  · have bounded := started (action :: begun) ((List.prefix_cons_inj _).mpr shorter)
    simpa [List.count_cons, noPush, noPop] using bounded

end Closes

/-- A state within a scope that was opened in another state, with a number of scopes in it. -/
structure Inside (base : Enumerator) (depth : Nat) (s : Enumerator) : Prop where
  marks : ∃ inner, s.marks = inner ++ base.assertions.size :: base.marks ∧ inner.length = depth ∧
    ∀ mark ∈ inner, base.assertions.size ≤ mark
  assertions : base.assertions.toList <+: s.assertions.toList

namespace Inside

variable {depth : Nat}

theorem opened (base : Enumerator) : Inside base 0 base.push where
  marks := ⟨[], rfl, rfl, by simp⟩
  assertions := List.prefix_refl _

theorem push (inside : Inside base depth s) : Inside base (depth + 1) s.push where
  marks := by
    obtain ⟨inner, marks, nested, late⟩ := inside.marks
    refine ⟨s.assertions.size :: inner, congrArg (_ :: ·) marks, congrArg (· + 1) nested, ?_⟩
    intro mark member
    rcases List.mem_cons.mp member with rfl | earlier
    · exact inside.assertions.length_le
    · exact late mark earlier
  assertions := inside.assertions

/-- Closing an inner scope keeps what was asserted before the outer one. -/
theorem pop (inside : Inside base (depth + 1) s) : Inside base depth s.pop := by
  obtain ⟨inner, marks, nested, late⟩ := inside.marks
  obtain ⟨size, inner, rfl⟩ := List.exists_cons_of_length_eq_add_one nested
  rw [pop_of_marks marks]
  refine ⟨⟨inner, rfl, Nat.succ.inj nested, fun mark member => ?_⟩, ?_⟩
  · exact late mark (List.mem_cons_of_mem size member)
  · rw [← Array.shrink_eq_take, Array.toList_shrink]
    exact List.prefix_take_iff.mpr ⟨inside.assertions, late size List.mem_cons_self⟩

theorem performAll (inside : Inside base depth s) {actions : List Action}
    (closes : Closes depth actions) : Inside base 0 (s.performAll actions) := by
  induction actions generalizing s depth with
  | nil =>
      have none : depth = 0 := by simpa using closes.1.symm
      exact none ▸ inside
  | cons action rest ih =>
      by_cases opens : action = .push
      · subst opens
        exact ih inside.push closes.of_push
      by_cases shuts : action = .pop
      · subst shuts
        obtain ⟨outer, rfl, remaining⟩ := closes.of_pop
        exact ih inside.pop remaining
      · obtain ⟨marks, longer⟩ := scopes_perform (s := s) opens shuts
        refine ih ⟨?_, inside.assertions.trans longer⟩ (closes.of_other opens shuts)
        rw [marks]
        exact inside.marks

/-- Closing the scope itself restores the state in which it was opened. -/
theorem closed (inside : Inside base 0 s) : Level base s.pop := by
  obtain ⟨inner, marks, nested, -⟩ := inside.marks
  rw [List.length_eq_zero_iff.mp nested, List.nil_append] at marks
  rw [pop_of_marks marks]
  refine ⟨?_, rfl⟩
  rw [← Array.toList_inj, ← Array.shrink_eq_take, Array.toList_shrink]
  exact (List.prefix_iff_eq_take.mp inside.assertions).symm

end Inside

/--
Scopes nest.  After any history, a scope that is opened and closed again leaves the assertions and the
open scopes as they were, whatever happens in it, as long as each scope opened in it is closed in it.
Closing a scope when none is open does nothing.  The scopes that are open start in order, each after
as many assertions as there are at most.
-/
theorem scopes_nest (reachable : Reachable limit s) :
    (∀ actions, Matched actions →
        Level s (performAll s (.push :: actions ++ [.pop]))) ∧
      (s.marks = [] → s.pop = s) ∧
      s.marks.reverse.Pairwise (· ≤ ·) ∧ ∀ mark ∈ s.marks, mark ≤ s.assertions.size := by
  obtain ⟨bounded, sorted⟩ := List.pairwise_cons.mp reachable.stacked
  refine ⟨fun actions matched => ?_, fun none => ?_, List.pairwise_reverse.mpr sorted, bounded⟩
  · rw [List.cons_append, ← List.singleton_append, performAll_append, performAll_append]
    exact ((Inside.opened s).performAll matched).closed
  · simp only [Enumerator.pop, none]

/-- A scope with an assertion, and an inner scope with a query of too many bits. -/
theorem scopes_nest_scattered :
    let actions : List Action :=
      [.assert 1, .makeVariable "z" Sample.pair, .push, .assume 3, .checkSat, .pop, .checkSat]
    Reachable 4 Sample.scattered ∧ Matched actions ∧
      (performAll Sample.scattered (.push :: actions ++ [.pop])).assertions = #[0, 2, 0] ∧
      (performAll Sample.scattered (.push :: actions ++ [.pop])).marks = [1] := by
  intro actions
  have matched : Matched actions := by decide
  obtain ⟨assertions, marks⟩ := (scopes_nest Sample.reachable_scattered).1 actions matched
  exact ⟨Sample.reachable_scattered, matched, assertions.trans (by decide), marks.trans (by decide)⟩

end BoundedCheck.Enumerator
