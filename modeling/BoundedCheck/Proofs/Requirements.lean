import Mathlib
import BoundedCheck.Proofs.Histories
import BoundedCheck.Proofs.LastModel

/-!
# Sets of requirements

A query asks whether some terms can hold together.  Its answer depends on which terms these are, and
neither on their order, nor on how often each is required, nor on whether it was asserted, in any
scope, or assumed.
-/

namespace BoundedCheck.Enumerator

/-! ## Roots as a set -/

section Roots

variable {terms : Array Term} {roots others : List Nat}

/-- A cone is listed in the order of its terms, whatever the order of the roots. -/
theorem cone_congr (founded : WellFounded terms) (inside : ∀ root ∈ roots, root < terms.size)
    (same : ∀ root, root ∈ others ↔ root ∈ roots) : cone terms others = cone terms roots := by
  have insideOthers : ∀ root ∈ others, root < terms.size :=
    fun root member => inside root ((same root).mp member)
  refine List.Pairwise.eq_of_mem_iff (sorted_cone terms others) (sorted_cone terms roots)
    fun t => ?_
  simp only [mem_cone founded inside, mem_cone founded insideOthers, same]

theorem holds_congr (same : ∀ root, root ∈ others ↔ root ∈ roots) (values : Array Nat) :
    holds others values = holds roots values := by
  rw [Bool.eq_iff_iff, holds, holds, List.all_eq_true, List.all_eq_true]
  exact forall_congr' fun root => imp_congr_left (same root)

theorem search_congr (same : ∀ root, root ∈ others ↔ root ∈ roots) (order : List Nat)
    (free : List FreeVariable) (remaining counter : Nat) (assignment values : Array Nat) :
    search terms others order free remaining counter assignment values =
      search terms roots order free remaining counter assignment values := by
  induction remaining generalizing counter assignment values with
  | zero => rfl
  | succ remaining ih => simp only [search, holds_congr same, ih]

end Roots

/-! ## Queries -/

variable {s t : Enumerator}

/-- Two solvers with the same terms, flag, variables and limit require the same set of terms. -/
structure SameQuery (s t : Enumerator) : Prop where
  terms : t.terms = s.terms
  overflow : t.overflow = s.overflow
  vars : t.vars = s.vars
  limit : t.limit = s.limit
  roots : ∀ root, root ∈ t.roots ↔ root ∈ s.roots

namespace SameQuery

theorem freeVariables_eq (same : SameQuery s t) (order : List Nat) :
    t.freeVariables order = s.freeVariables order := by
  simp only [freeVariables, same.terms, same.vars]

theorem solve_eq (same : SameQuery s t) (valid : Valid s) : t.solve t.roots = s.solve s.roots := by
  have cones : cone s.terms t.roots = cone s.terms s.roots :=
    cone_congr valid.founded valid.required same.roots
  unfold solve
  simp only [same.terms, same.overflow, same.vars, same.limit, same.freeVariables_eq, cones,
    search_congr same.roots]

theorem found?_eq (same : SameQuery s t) (valid : Valid s) : t.found? = s.found? := by
  rw [found?, found?, same.solve_eq valid]

end SameQuery

theorem outcome_checkSat (s : Enumerator) :
    outcome (checkSat s) = (s.solve s.roots).map Option.isSome := by
  unfold checkSat
  cases s.solve s.roots with
  | error stop => rfl
  | ok found => cases found <;> rfl

/-- The assumptions are used up by a query that is answered, and by one that is refused. -/
theorem assumptions_checkSat (s : Enumerator) :
    (Action.checkSat.perform s).assumptions = #[] := by
  simp only [Action.perform, checkSat]
  cases s.solve s.roots with
  | error stop => rfl
  | ok found => cases found <;> rfl

/--
Queries that require the same set of terms have the same answer or are refused for the same reason,
and leave the same model.  No assumption is left after either of them.
-/
theorem checkSat_of_sameQuery {limit : Nat} (reachable : Reachable limit s)
    (same : SameQuery s t) :
    outcome (checkSat t) = outcome (checkSat s) ∧
      (Action.checkSat.perform t).model = (Action.checkSat.perform s).model ∧
      (Action.checkSat.perform s).assumptions = #[] ∧
      (Action.checkSat.perform t).assumptions = #[] := by
  have valid := reachable.valid
  refine ⟨?_, ?_, assumptions_checkSat s, assumptions_checkSat t⟩
  · rw [outcome_checkSat, outcome_checkSat, same.solve_eq valid]
  · rw [model_checkSat, model_checkSat, same.found?_eq valid]

namespace Sample

/-- Two variables, and whether the first is less than the second. -/
def declared : Enumerator :=
  let x := Action.perform { freeBitLimit := 4 } (.makeVariable "x" pair)
  let y := Action.perform x (.makeVariable "y" pair)
  Action.perform y (.binary .ult 0 1)

/-- The first variable is asserted in two scopes, the comparison is asserted and assumed. -/
def scattered : Enumerator :=
  let outer := Action.perform (Action.perform declared (.assert 0)) .push
  let inner := Action.perform (Action.perform outer (.assert 2)) (.assert 0)
  Action.perform inner (.assume 2)

/-- The comparison and the first variable are assumed. -/
def gathered : Enumerator :=
  Action.perform (Action.perform declared (.assume 2)) (.assume 0)

theorem reachable_scattered : Reachable 4 scattered := by
  have x := Reachable.act (.makeVariable "x" pair)
    (.start : Reachable 4 { freeBitLimit := 4 }) (by simp [Action.operands])
  have y := x.act (.makeVariable "y" pair) (by simp [Action.operands])
  have declared := y.act (.binary .ult 0 1) (by decide)
  have outer := (declared.act (.assert 0) (by decide)).act .push (by simp [Action.operands])
  have inner := (outer.act (.assert 2) (by decide)).act (.assert 0) (by decide)
  exact inner.act (.assume 2) (by decide)

theorem sameQuery_scattered : SameQuery scattered gathered where
  terms := rfl
  overflow := rfl
  vars := rfl
  limit := rfl
  roots root := by
    have scatteredRoots : scattered.roots = [0, 2, 0, 2] := by decide +kernel
    have gatheredRoots : gathered.roots = [2, 0] := by decide +kernel
    rw [scatteredRoots, gatheredRoots]
    simp only [List.mem_cons, List.not_mem_nil, or_false]
    omega

end Sample

/-- An odd number of two bits is less than another one, however this is required. -/
theorem checkSat_of_sameQuery_scattered :
    Reachable 4 Sample.scattered ∧ SameQuery Sample.scattered Sample.gathered ∧
      outcome (checkSat Sample.scattered) = .ok true ∧
      outcome (checkSat Sample.gathered) = .ok true ∧
      (Action.checkSat.perform Sample.gathered).model = some #[1, 2] := by
  have answered : outcome (checkSat Sample.scattered) = .ok true := by decide +kernel
  have found : (Action.checkSat.perform Sample.scattered).model = some #[1, 2] := by decide +kernel
  obtain ⟨answers, models, -, -⟩ :=
    checkSat_of_sameQuery Sample.reachable_scattered Sample.sameQuery_scattered
  exact ⟨Sample.reachable_scattered, Sample.sameQuery_scattered, answered, answers.trans answered,
    models.trans found⟩

end BoundedCheck.Enumerator
