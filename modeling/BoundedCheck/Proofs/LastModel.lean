import Mathlib
import BoundedCheck.Proofs.Decision

/-!
# The model of the last query

A solver keeps the assignment that its last query found, whatever is asserted, closed or added
after it.  Terms that came later have values in that assignment too, and it is the first one that
satisfies the query when the variables are read as the digits of a number.
-/

namespace BoundedCheck.Enumerator

/-! ## The last query of a history -/

/--
The states that a solver with a given limit can come to, each with the state in which the last query
before it was made.
-/
inductive LastQuery (freeBitLimit : Nat) : Option Enumerator → Enumerator → Prop where
  | start : LastQuery freeBitLimit none { freeBitLimit := freeBitLimit }
  | query {last : Option Enumerator} {s : Enumerator} : LastQuery freeBitLimit last s →
      LastQuery freeBitLimit (some s) (Action.checkSat.perform s)
  | other {last : Option Enumerator} {s : Enumerator} (action : Action) :
      LastQuery freeBitLimit last s → action ≠ .checkSat →
      (∀ t ∈ action.operands, t < s.terms.size) →
      LastQuery freeBitLimit last (action.perform s)

variable {limit : Nat} {s query : Enumerator} {last : Option Enumerator}

theorem Reachable.lastQuery (reachable : Reachable limit s) : ∃ last, LastQuery limit last s := by
  induction reachable with
  | start => exact ⟨none, .start⟩
  | @act s action _ existing ih =>
      obtain ⟨last, history⟩ := ih
      by_cases asks : action = .checkSat
      · exact ⟨some s, asks ▸ .query history⟩
      · exact ⟨last, .other action history asks existing⟩

/-- Only a query changes the model. -/
theorem model_perform {action : Action} (quiet : action ≠ .checkSat) :
    (action.perform s).model = s.model := by
  cases action with
  | checkSat => exact absurd rfl quiet
  | makeVariable | makeConstant | assume | assert | push => rfl
  | _ =>
      simp only [Action.perform, Enumerator.makeSort, Enumerator.pop, Enumerator.getModel,
        Enumerator.not, Enumerator.binary, Enumerator.ite, Enumerator.uext, Enumerator.slice]
      repeat' split
      all_goals rfl

/-- Actions only add variables. -/
theorem vars_perform (action : Action) {index : Nat} {var : Variable}
    (found : s.vars[index]? = some var) : (action.perform s).vars[index]? = some var := by
  cases action with
  | makeVariable name sort =>
      have inside := (Array.getElem?_eq_some_iff.mp found).1
      simp only [Action.perform, Action.stateOf, Enumerator.makeVariable, Enumerator.add]
      rw [Array.getElem?_push, if_neg (Nat.ne_of_lt inside), found]
  | _ =>
      simp only [Action.perform, Enumerator.makeSort, Enumerator.pop, Enumerator.checkSat,
        Enumerator.getModel, Enumerator.not, Enumerator.binary, Enumerator.ite, Enumerator.uext,
        Enumerator.slice]
      repeat' split
      all_goals exact found

/-- What a query finds, if it finds anything. -/
def found? (s : Enumerator) : Option (Array Nat) :=
  (s.solve s.roots).toOption.join

theorem model_checkSat (s : Enumerator) : (Action.checkSat.perform s).model = s.found? := by
  simp only [Action.perform, checkSat, found?]
  cases s.solve s.roots with
  | error stop => rfl
  | ok found => cases found <;> rfl

theorem checkSat_eq_true_iff (s : Enumerator) :
    (∃ after, checkSat s = .ok true after) ↔ ∃ assignment, s.found? = some assignment := by
  unfold checkSat found?
  cases s.solve s.roots with
  | error stop => simp [Except.toOption]
  | ok found => cases found <;> simp [Except.toOption]

/-- A state that came after a query, with no other query since. -/
structure Since (limit : Nat) (query s : Enumerator) : Prop where
  reachable : Reachable limit query
  model : s.model = query.found?
  terms : Extends query.terms s.terms
  vars : ∀ (index : Nat) (var : Variable), query.vars[index]? = some var →
    s.vars[index]? = some var

theorem LastQuery.reachable (history : LastQuery limit last s) : Reachable limit s := by
  induction history with
  | start => exact .start
  | query _ ih => exact .act .checkSat ih (by simp [Action.operands])
  | other action _ _ existing ih => exact .act action ih existing

theorem LastQuery.model_eq_none (history : LastQuery limit none s) : s.model = none := by
  generalize never : (none : Option Enumerator) = last at history
  induction history with
  | start => rfl
  | query => cases never
  | other action _ quiet _ ih => rw [model_perform quiet, ih never]

theorem LastQuery.since (history : LastQuery limit (some query) s) : Since limit query s := by
  generalize asked : some query = last at history
  induction history with
  | start => cases asked
  | @query _ s before _ =>
      cases asked
      exact ⟨before.reachable, model_checkSat query, extends_perform _ _,
        fun _ _ found => vars_perform .checkSat found⟩
  | other action _ quiet _ ih =>
      have since := ih asked
      exact ⟨since.reachable, by rw [model_perform quiet, since.model],
        since.terms.trans (extends_perform _ action),
        fun index var found => vars_perform action (since.vars index var found)⟩

/-! ## Variables in the order of their making -/

/-- The term of a variable that an action makes comes after all others. -/
theorem varIndex?_perform {action : Action} {t index : Nat}
    (named : varIndex? (action.perform s).terms t = some index) :
    varIndex? s.terms t = some index ∨ (t = s.terms.size ∧ index = s.vars.size) := by
  have plain {terms : Array Term} {node : Node} {width : Nat} (noVariable : ∀ i, node ≠ .var i)
      (named : varIndex? (terms.push ⟨node, width⟩) t = some index) :
      varIndex? terms t = some index := by
    rcases varIndex?_push_cases named with old | ⟨-, isVar⟩
    · exact old
    · exact absurd isVar (noVariable index)
  cases action with
  | makeVariable name sort =>
      rcases varIndex?_push_cases named with old | ⟨last, isVar⟩
      · exact Or.inl old
      · cases isVar
        exact Or.inr ⟨last, rfl⟩
  | makeConstant value sort => exact Or.inl (plain (by simp) named)
  | assume | assert | push => exact Or.inl named
  | _ =>
      left
      revert named
      simp only [Action.perform, Enumerator.makeSort, Enumerator.pop, Enumerator.checkSat,
        Enumerator.getModel, Enumerator.not, Enumerator.binary, Enumerator.ite, Enumerator.uext,
        Enumerator.slice]
      repeat' split
      all_goals first
        | exact id
        | exact plain (by simp)
        | exact fun named => plain (by simp) (plain (by simp) named)

/-- Terms of later variables come later. -/
theorem Reachable.allocated (reachable : Reachable limit s) {t u i j : Nat}
    (first : varIndex? s.terms t = some i) (second : varIndex? s.terms u = some j)
    (before : t < u) : i < j := by
  induction reachable with
  | start => simp [varIndex?] at first
  | @act s action reachable existing ih =>
      have inside {place index : Nat} (named : varIndex? s.terms place = some index) :
          place < s.terms.size := by
        obtain ⟨width, found⟩ := varIndex?_eq_some_iff.mp named
        exact (Array.getElem?_eq_some_iff.mp found).1
      rcases varIndex?_perform second with old | ⟨lastU, rfl⟩
      · rcases varIndex?_perform first with older | ⟨lastT, -⟩
        · exact ih older old
        · have := inside old
          omega
      · rcases varIndex?_perform first with older | ⟨lastT, -⟩
        · exact reachable.valid.index_lt older
        · omega

open Classical in
/-- The variables that stand in some roots, in the order in which they were made. -/
noncomputable def reached (s : Enumerator) (roots : List Nat) : List FreeVariable :=
  ((List.range s.vars.size).filter fun index => s.Occurs roots index).map
    fun index => ⟨index, s.varWidth index⟩

/-- The digits of the counter are the variables in the order of their making. -/
theorem freeVariables_eq_reached (reachable : Reachable limit s) {roots : List Nat}
    (inside : ∀ root ∈ roots, root < s.terms.size) :
    s.freeVariables (cone s.terms roots) = s.reached roots := by
  have widths : s.freeVariables (cone s.terms roots) =
      ((cone s.terms roots).filterMap (varIndex? s.terms)).map
        fun index => ⟨index, s.varWidth index⟩ := by
    rw [List.map_filterMap]
    rfl
  have sorted : ((cone s.terms roots).filterMap (varIndex? s.terms)).Pairwise (· < ·) :=
    (sorted_cone s.terms roots).filterMap _
      fun t u before i first j second => reachable.allocated first second before
  have numbered : (List.range s.vars.size).Pairwise (· < ·) := List.pairwise_lt_range
  rw [widths, reached]
  congr 1
  -- Both lists of numbers increase, so it is enough that they have the same members.
  refine sorted.eq_of_mem_iff (numbered.filter _) fun index => ?_
  rw [← map_index_freeVariables]
  simp only [List.mem_map, mem_free_iff_occurs reachable.valid inside, List.mem_filter,
    List.mem_range, decide_eq_true_eq]
  constructor
  · rintro ⟨var, ⟨occurs, -⟩, rfl⟩
    obtain ⟨root, -, place, -, named⟩ := id occurs
    exact ⟨reachable.valid.index_lt named, occurs⟩
  · rintro ⟨-, occurs⟩
    exact ⟨⟨index, s.varWidth index⟩, ⟨occurs, rfl⟩, rfl⟩

/-! ## The first assignment -/

section Solved

variable {roots : List Nat} {assignment : Array Nat}

/-- A query that finds an assignment is over narrow terms, and its search found it. -/
theorem search_of_solve (valid : Valid s) {found : Option (Array Nat)}
    (solved : s.solve roots = .ok found) :
    (∀ t, widthOf s.terms t ≤ Word.maxWidth) ∧
      search s.terms roots (cone s.terms roots) (s.freeVariables (cone s.terms roots))
        (1 <<< freeBits (s.freeVariables (cone s.terms roots))) 0
        (Array.replicate s.vars.size 0) (Array.replicate s.terms.size 0) = .ok found := by
  unfold solve at solved
  split at solved
  · cases solved
  · rename_i flag
    simp only at solved
    split at solved
    · cases solved
    · split at solved
      · cases solved
      · split at solved
        · rename_i run
          cases solved
          exact ⟨oversize?_eq_none_iff.mp (valid.flagged.symm.trans flag), run⟩
        · cases solved

/-- No assignment that satisfies the query comes before the one that is found. -/
theorem encode_le_of_solve (valid : Valid s) (inside : ∀ root ∈ roots, root < s.terms.size)
    (solved : s.solve roots = .ok (some assignment)) {other : Nat → Nat}
    (inRange : s.InRange other) (satisfied : Satisfies s.terms other roots) :
    encode (assignment.getD · 0) (s.freeVariables (cone s.terms roots)) ≤
      encode other (s.freeVariables (cone s.terms roots)) := by
  obtain ⟨narrow, run⟩ := search_of_solve valid solved
  have blank : (Array.replicate s.terms.size 0).size = s.terms.size := Array.size_replicate
  rcases search_finds (valid.faultless narrow) inside (s.freeVariables (cone s.terms roots))
      (Array.replicate s.vars.size 0) (1 <<< freeBits (s.freeVariables (cone s.terms roots))) 0
      blank (fun _ => rfl) with ⟨hit, first, answer⟩ | ⟨-, answer⟩
  · rw [run] at answer
    cases answer
    have below : hit < 2 ^ freeBits (s.freeVariables (cone s.terms roots)) := by
      simpa [Nat.one_shiftLeft] using first.upper
    rw [encode_assign (independent_blank valid roots) below]
    -- The counter of the other assignment satisfies the roots too, so it is not an earlier one.
    by_contra earlier
    exact first.first _ (Nat.zero_le _) (Nat.not_le.mp earlier)
      (satisfies_encode valid inside inRange satisfied)
  · rw [run] at answer
    cases answer

end Solved

/-! ## Values in the model -/

/-- A term and all that it is built from are at most as wide as a word. -/
def Narrow (terms : Array Term) (t : Nat) : Prop :=
  ∀ part, Reaches terms t part → widthOf terms part ≤ Word.maxWidth

theorem Valid.evaluable (valid : Valid s) {t : Nat} (below : t < s.terms.size)
    (narrow : Narrow s.terms t) : Evaluable s.terms (cone s.terms [t]) := by
  intro part member term found assignment values
  have inside : ∀ root ∈ [t], root < s.terms.size := by simpa using below
  obtain ⟨root, isRoot, reached⟩ := (mem_cone valid.founded inside).mp member
  rw [List.mem_singleton.mp isRoot] at reached
  refine Term.value_ok ?_ ?_ assignment values
  · obtain ⟨node, width⟩ := term
    rintro a high low rfl
    exact (valid.terms part _ found).2.2
  · intro child edge
    rw [← children_of_getElem? found] at edge
    exact narrow child (reached.trans (.step edge (.refl child)))

/-- The value of a narrow term in the model is its value under the assignment of the model. -/
theorem modelValue_of_narrow (valid : Valid s) {t : Nat} (below : t < s.terms.size)
    (narrow : Narrow s.terms t) {assignment : Array Nat} (kept : s.model = some assignment) :
    ∃ value, s.modelValue t = .ok (some value) ∧
      denote s.terms (assignment.getD · 0) t = .ok value := by
  have inside : ∀ root ∈ [t], root < s.terms.size := by simpa using below
  obtain ⟨final, run, size, settled⟩ := evaluate_evaluable valid.founded inside
    (valid.evaluable below narrow) assignment (Array.size_replicate (v := 0))
  have own : t ∈ cone s.terms [t] := (mem_cone valid.founded inside).mpr ⟨t, by simp, .refl t⟩
  have present : final[t]? = some (final.getD t 0) := by
    rw [Array.getD_eq_getD_getElem?, Array.getElem?_eq_getElem (by omega)]
    rfl
  refine ⟨final.getD t 0, ?_, settled t own⟩
  simp only [modelValue, kept, run, present]

theorem size_evaluate {terms : Array Term} {assignment values final : Array Nat}
    {order : List Nat} (run : evaluate terms assignment order values = .ok final) :
    final.size = values.size := by
  induction order generalizing values with
  | nil =>
      cases run
      rfl
  | cons t rest ih =>
      unfold evaluate at run
      split at run
      · cases run
      · split at run
        · cases run
        · rw [ih run, Array.size_setIfInBounds]

/-- A term has no value for want of a model only. -/
theorem modelValue_eq_none_iff {t : Nat} (below : t < s.terms.size) :
    s.modelValue t = .ok none ↔ s.model = none := by
  unfold modelValue
  cases s.model with
  | none => simp
  | some assignment =>
      simp only [reduceCtorEq, iff_false]
      split
      · rename_i final run
        have size : final.size = s.terms.size := by
          rw [size_evaluate run, Array.size_replicate]
        rw [Array.getElem?_eq_getElem (by omega)]
        simp
      · simp

theorem getModel_eq_ok_iff :
    (∃ text after, getModel s = .ok text after) ↔ ∃ assignment, s.model = some assignment := by
  unfold getModel
  cases s.model <;> simp

/-- The last query of a history was made and found an assignment. -/
def Found (last : Option Enumerator) : Prop :=
  ∃ query, last = some query ∧ ∃ after, checkSat query = .ok true after

theorem LastQuery.found_iff (history : LastQuery limit last s) :
    Found last ↔ ∃ assignment, s.model = some assignment := by
  cases last with
  | none =>
      rw [history.model_eq_none]
      simp [Found]
  | some query =>
      rw [history.since.model, ← checkSat_eq_true_iff]
      simp [Found]

/-- An assignment is what a state remembers of its last query. -/
structure Remembers (query s : Enumerator) (assignment : Nat → Nat) : Prop where
  inRange : s.InRange assignment
  /-- What the query did not reach is zero. -/
  unreached : ∀ index, ¬ query.Occurs query.roots index → assignment index = 0
  /-- What was made after the query is zero. -/
  later : ∀ index, query.vars.size ≤ index → assignment index = 0
  satisfied : Satisfies s.terms assignment query.roots
  /-- No satisfying assignment is a smaller number, where variables made earlier weigh less. -/
  first : ∀ other, query.InRange other → Satisfies query.terms other query.roots →
    encode assignment (query.reached query.roots) ≤ encode other (query.reached query.roots)
  values : ∀ t < s.terms.size, Narrow s.terms t →
    ∃ value, s.modelValue t = .ok (some value) ∧ denote s.terms assignment t = .ok value

theorem found?_eq_some_iff {assignment : Array Nat} :
    s.found? = some assignment ↔ s.solve s.roots = .ok (some assignment) := by
  unfold found?
  cases s.solve s.roots with
  | error stop => simp [Except.toOption]
  | ok found => simp [Except.toOption]

theorem Since.remembers (since : Since limit query s) (valid : Valid s) {assignment : Array Nat}
    (found : query.found? = some assignment) : Remembers query s (assignment.getD · 0) := by
  have solved := found?_eq_some_iff.mp found
  have required := since.reachable.valid.required
  have isModel : query.IsModel query.roots assignment :=
    solve_answers since.reachable.valid required solved
  have later (index : Nat) (beyond : query.vars.size ≤ index) : assignment.getD index 0 = 0 := by
    rw [Array.getD_eq_getD_getElem?,
      Array.getElem?_eq_none (by rw [isModel.size]; exact beyond)]
    rfl
  refine ⟨?_, isModel.unreached, later, ?_, ?_, ?_⟩
  · intro index var declared
    by_cases old : index < query.vars.size
    · have before : query.vars[index]? = some query.vars[index] := Array.getElem?_eq_getElem old
      have same := since.vars index _ before
      rw [declared] at same
      cases same
      exact isModel.inRange index _ before
    · simp only [later index (Nat.not_lt.mp old)]
      exact Nat.two_pow_pos _
  · intro root member
    obtain ⟨value, denoted, odd⟩ := isModel.satisfied root member
    exact ⟨value, by rw [since.terms.denote _ (required root member), denoted], odd⟩
  · intro other inRange satisfied
    rw [← freeVariables_eq_reached since.reachable required]
    exact encode_le_of_solve since.reachable.valid required solved inRange satisfied
  · intro t below narrow
    exact modelValue_of_narrow valid below narrow (by rw [since.model, found])

/--
A model and values in it can be had exactly if some query was made and the last one found an
assignment.  They show one assignment: the first that satisfies that query, with zero for every
variable that the query did not reach.
-/
theorem model_of_last_query (reachable : Reachable limit s) :
    (∃ last, LastQuery limit last s) ∧ ∀ last, LastQuery limit last s →
      ((∃ text after, getModel s = .ok text after) ↔ Found last) ∧
      (∀ t < s.terms.size, s.modelValue t = .ok none ↔ ¬ Found last) ∧
      (∀ t < s.terms.size, Narrow s.terms t →
        ((∃ value, s.modelValue t = .ok (some value)) ↔ Found last)) ∧
      ∀ query after, last = some query → checkSat query = .ok true after →
        ∃ assignment, Remembers query s assignment := by
  refine ⟨reachable.lastQuery, fun last history => ⟨?_, ?_, ?_, ?_⟩⟩
  · rw [getModel_eq_ok_iff, history.found_iff]
  · intro t below
    rw [modelValue_eq_none_iff below, history.found_iff, Option.eq_none_iff_forall_ne_some,
      not_exists]
  · intro t below narrow
    rw [history.found_iff]
    constructor
    · rintro ⟨value, known⟩
      by_contra missing
      have none := (modelValue_eq_none_iff below).mpr
        (Option.eq_none_iff_forall_ne_some.mpr (not_exists.mp missing))
      rw [known] at none
      cases none
    · rintro ⟨assignment, kept⟩
      obtain ⟨value, known, -⟩ := modelValue_of_narrow reachable.valid below narrow kept
      exact ⟨value, known⟩
  · rintro query after rfl answered
    obtain ⟨assignment, found⟩ := (checkSat_eq_true_iff query).mp ⟨after, answered⟩
    exact ⟨_, history.since.remembers reachable.valid found⟩

namespace Sample

/-- Two variables, and an assertion that reaches the second. -/
def asked : Enumerator :=
  let x := Action.perform { freeBitLimit := 3 } (.makeVariable "x" ⟨2, by decide, by decide⟩)
  let y := Action.perform x (.makeVariable "y" ⟨2, by decide, by decide⟩)
  Action.perform (Action.perform y .push) (.assert 1)

/-- A variable and its complement, made after the query and after the end of its scope. -/
def answered : Enumerator :=
  let closed := Action.perform (Action.perform asked .checkSat) .pop
  let z := Action.perform closed (.makeVariable "z" ⟨2, by decide, by decide⟩)
  Action.perform z (.not 2)

theorem lastQuery_asked : LastQuery 3 none asked := by
  have fresh : LastQuery 3 none { freeBitLimit := 3 } := .start
  have x := LastQuery.other (.makeVariable "x" ⟨2, by decide, by decide⟩) fresh (by simp)
    (by simp [Action.operands])
  have y := LastQuery.other (.makeVariable "y" ⟨2, by decide, by decide⟩) x (by simp)
    (by simp [Action.operands])
  have opened := LastQuery.other .push y (by simp) (by simp [Action.operands])
  have asserted := LastQuery.other (.assert 1) opened (by simp) (by decide)
  exact asserted

theorem lastQuery_answered : LastQuery 3 (some asked) answered := by
  have closed := LastQuery.other .pop (.query lastQuery_asked) (by simp) (by simp [Action.operands])
  have z := LastQuery.other (.makeVariable "z" ⟨2, by decide, by decide⟩) closed (by simp)
    (by simp [Action.operands])
  have complement := LastQuery.other (.not 2) z (by simp) (by decide +kernel)
  exact complement

end Sample

/-- The complement of a variable that is newer than the query has a value in the model. -/
theorem model_of_last_query_answered :
    Reachable 3 Sample.answered ∧ LastQuery 3 (some Sample.asked) Sample.answered ∧
      (∃ text after, getModel Sample.answered = .ok text after) ∧
      ∃ assignment, Remembers Sample.asked Sample.answered assignment ∧
        Sample.answered.modelValue 3 = .ok (some 3) := by
  have reachable := Sample.lastQuery_answered.reachable
  have answered : ∃ after, checkSat Sample.asked = .ok true after := by
    rw [checkSat_eq_true_iff]
    exact Option.isSome_iff_exists.mp (by decide +kernel)
  obtain ⟨after, asked⟩ := answered
  obtain ⟨texts, -, -, remembered⟩ :=
    (model_of_last_query reachable).2 _ Sample.lastQuery_answered
  obtain ⟨assignment, remembers⟩ := remembered _ _ rfl asked
  exact ⟨reachable, Sample.lastQuery_answered, texts.mpr ⟨_, rfl, after, asked⟩, assignment,
    remembers, by decide +kernel⟩

end BoundedCheck.Enumerator
