import Mathlib
import BoundedCheck.Proofs.Arena
import BoundedCheck.Proofs.Counting

/-!
# Queries

A query is answered by an assignment that satisfies its roots, or by the fact that none does.  It
is refused in two cases only: a term wider than a word was ever made, or the variables that the
roots reach have too many bits together.
-/

namespace BoundedCheck.Enumerator

/-- Every variable has a word of its width. -/
def InRange (s : Enumerator) (assignment : Nat → Nat) : Prop :=
  ∀ (index : Nat) (var : Variable), s.vars[index]? = some var → assignment index < 2 ^ var.width

/-- A variable stands in one of the roots. -/
def Occurs (s : Enumerator) (roots : List Nat) (index : Nat) : Prop :=
  ∃ root ∈ roots, OccursIn s.terms index root

/-- The width of the variable with a number. -/
def varWidth (s : Enumerator) (index : Nat) : Nat :=
  match s.vars[index]? with
  | some var => var.width
  | none => 0

open Classical in
/-- The bits of the different variables that stand in some roots. -/
noncomputable def queryBits (s : Enumerator) (roots : List Nat) : Nat :=
  ∑ index ∈ Finset.range s.vars.size with s.Occurs roots index, s.varWidth index

/-- The bits of all variables. -/
def variableBits (s : Enumerator) : Nat :=
  ∑ index ∈ Finset.range s.vars.size, s.varWidth index

/-! ## Free variables of a query -/

section Free

variable {s : Enumerator} {roots : List Nat}

theorem mem_freeVariables {order : List Nat} {var : FreeVariable} :
    var ∈ s.freeVariables order ↔
      (∃ t ∈ order, varIndex? s.terms t = some var.index) ∧ var.width = s.varWidth var.index := by
  obtain ⟨index, width⟩ := var
  simp only [freeVariables, List.mem_filterMap, Option.map_eq_some_iff, FreeVariable.mk.injEq]
  constructor
  · rintro ⟨t, member, own, named, rfl, rfl⟩
    exact ⟨⟨t, member, named⟩, rfl⟩
  · rintro ⟨⟨t, member, named⟩, rfl⟩
    exact ⟨t, member, index, named, rfl, rfl⟩

theorem map_index_freeVariables (s : Enumerator) (order : List Nat) :
    (s.freeVariables order).map FreeVariable.index = order.filterMap (varIndex? s.terms) := by
  simp only [freeVariables, List.map_filterMap, Option.map_map]
  congr 1
  funext t
  exact Option.map_id'

theorem mem_free_iff_occurs (valid : Valid s) (inside : ∀ root ∈ roots, root < s.terms.size)
    {var : FreeVariable} :
    var ∈ s.freeVariables (cone s.terms roots) ↔
      s.Occurs roots var.index ∧ var.width = s.varWidth var.index := by
  rw [mem_freeVariables]
  apply and_congr_left
  intro _
  constructor
  · rintro ⟨t, member, named⟩
    obtain ⟨root, rooted, reached⟩ := (mem_cone valid.founded inside).mp member
    exact ⟨root, rooted, t, reached, named⟩
  · rintro ⟨root, rooted, t, reached, named⟩
    exact ⟨t, (mem_cone valid.founded inside).mpr ⟨root, rooted, reached⟩, named⟩

theorem Valid.varWidth_le (valid : Valid s) (index : Nat) : s.varWidth index ≤ Word.maxWidth := by
  unfold varWidth
  split
  · rename_i var found
    exact (valid.words var (Array.mem_of_getElem? found)).2
  · exact Nat.zero_le _

theorem Valid.index_lt (valid : Valid s) {t index : Nat}
    (named : varIndex? s.terms t = some index) : index < s.vars.size := by
  obtain ⟨var, found, -⟩ := valid.declared named
  exact (Array.getElem?_eq_some_iff.mp found).1

/-- Terms of an order without repetition stand for different variables. -/
theorem nodup_index_freeVariables (valid : Valid s) (order : List Nat)
    (sorted : order.Pairwise (· < ·)) :
    ((s.freeVariables order).map FreeVariable.index).Nodup := by
  rw [map_index_freeVariables]
  refine List.Nodup.filterMap ?_ (sorted.imp fun smaller => Nat.ne_of_lt smaller)
  intro t u index first second
  exact valid.owned t u index first second

theorem independent_freeVariables (valid : Valid s) (roots : List Nat) :
    Independent (s.freeVariables (cone s.terms roots)) s.vars.size where
  distinct := nodup_index_freeVariables valid _ (sorted_cone s.terms roots)
  inside := by
    intro var member
    obtain ⟨⟨t, -, named⟩, -⟩ := mem_freeVariables.mp member
    exact valid.index_lt named
  narrow := by
    intro var member
    rw [(mem_freeVariables.mp member).2]
    exact valid.varWidth_le _

/-- The assignment that a search starts from has a place for every free variable. -/
theorem independent_blank (valid : Valid s) (roots : List Nat) :
    Independent (s.freeVariables (cone s.terms roots)) (Array.replicate s.vars.size 0).size := by
  rw [Array.size_replicate]
  exact independent_freeVariables valid roots

theorem freeBits_eq_sum {free : List FreeVariable} {widthAt : Nat → Nat}
    (widths : ∀ var ∈ free, var.width = widthAt var.index)
    (distinct : (free.map FreeVariable.index).Nodup) :
    freeBits free = ∑ index ∈ (free.map FreeVariable.index).toFinset, widthAt index := by
  induction free with
  | nil => rfl
  | cons var rest ih =>
      obtain ⟨absent, distinctRest⟩ := List.nodup_cons.mp distinct
      have others := ih (fun other member => widths other (List.mem_cons_of_mem _ member)) distinctRest
      rw [List.map_cons, List.toFinset_cons, Finset.sum_insert (by simpa using absent), ← others,
        ← widths var List.mem_cons_self]
      rfl

/-- The search runs over as many bits as the variables of the roots have. -/
theorem freeBits_eq_queryBits (valid : Valid s) (inside : ∀ root ∈ roots, root < s.terms.size) :
    freeBits (s.freeVariables (cone s.terms roots)) = s.queryBits roots := by
  rw [freeBits_eq_sum (fun var member => (mem_freeVariables.mp member).2)
    (independent_freeVariables valid roots).distinct]
  unfold queryBits
  congr 1
  ext index
  simp only [List.mem_toFinset, List.mem_map, Finset.mem_filter, Finset.mem_range]
  constructor
  · rintro ⟨var, member, rfl⟩
    exact ⟨(independent_freeVariables valid roots).inside var member,
      ((mem_free_iff_occurs valid inside).mp member).1⟩
  · rintro ⟨-, occurs⟩
    exact ⟨⟨index, s.varWidth index⟩, (mem_free_iff_occurs valid inside).mpr ⟨occurs, rfl⟩, rfl⟩

theorem queryBits_le_variableBits (s : Enumerator) (roots : List Nat) :
    s.queryBits roots ≤ s.variableBits := by
  classical
  unfold queryBits variableBits
  exact Finset.sum_le_sum_of_subset (Finset.filter_subset _ _)

end Free

/-! ## Answers -/

/-- An assignment that a query gives as its answer. -/
structure IsModel (s : Enumerator) (roots : List Nat) (assignment : Array Nat) : Prop where
  size : assignment.size = s.vars.size
  inRange : s.InRange (assignment.getD · 0)
  satisfied : Satisfies s.terms (assignment.getD · 0) roots
  unreached : ∀ index, ¬ s.Occurs roots index → assignment.getD index 0 = 0

/-- What the answer to a query says. -/
def Answers (s : Enumerator) (roots : List Nat) : Option (Array Nat) → Prop
  | some assignment => s.IsModel roots assignment
  | none => ∀ assignment, s.InRange assignment → ¬ Satisfies s.terms assignment roots

section Search

variable {s : Enumerator} {roots : List Nat}

theorem getD_replicate_zero (size index : Nat) : (Array.replicate size 0).getD index 0 = 0 := by
  rw [Array.getD_eq_getD_getElem?, Array.getElem?_replicate]
  split <;> rfl

/-- The assignment of every counter is in range, and zero where the roots do not reach. -/
theorem isModel_assign (valid : Valid s) (inside : ∀ root ∈ roots, root < s.terms.size)
    {counter : Nat} {assignment : Array Nat}
    (made : assign (s.freeVariables (cone s.terms roots)) counter
      (Array.replicate s.vars.size 0) = assignment)
    (satisfied : Satisfies s.terms (assignment.getD · 0) roots) : s.IsModel roots assignment := by
  have unreached (index : Nat) (absent : ¬ s.Occurs roots index) :
      assignment.getD index 0 = 0 := by
    rw [← made, Array.getD_eq_getD_getElem?, assign_of_not_mem, ← Array.getD_eq_getD_getElem?,
      getD_replicate_zero]
    rintro var member rfl
    exact absent ((mem_free_iff_occurs valid inside).mp member).1
  refine ⟨by rw [← made, size_assign, Array.size_replicate], ?_, satisfied, unreached⟩
  intro index var found
  by_cases occurs : s.Occurs roots index
  · have width : s.varWidth index = var.width := by simp [varWidth, found]
    have member : ⟨index, s.varWidth index⟩ ∈ s.freeVariables (cone s.terms roots) :=
      (mem_free_iff_occurs valid inside).mpr ⟨occurs, rfl⟩
    have small := assign_lt counter (independent_blank valid roots) member
    rwa [made, width] at small
  · simp only [unreached index occurs]
    exact Nat.two_pow_pos _

/-- The values of the free variables in an assignment in range are digits of a counter. -/
theorem InRange.small (valid : Valid s) {assignment : Nat → Nat} (inRange : s.InRange assignment) :
    ∀ var ∈ s.freeVariables (cone s.terms roots), assignment var.index < 2 ^ var.width := by
  intro var member
  obtain ⟨⟨t, -, named⟩, width⟩ := mem_freeVariables.mp member
  obtain ⟨found, declared, -⟩ := valid.declared named
  rw [width]
  simpa [varWidth, declared] using inRange var.index found declared

/-- An assignment in range has the same values as that of the counter with its digits. -/
theorem satisfies_encode (valid : Valid s) (inside : ∀ root ∈ roots, root < s.terms.size)
    {assignment : Nat → Nat} (inRange : s.InRange assignment)
    (satisfied : Satisfies s.terms assignment roots) :
    Satisfies s.terms ((assign (s.freeVariables (cone s.terms roots))
      (encode assignment (s.freeVariables (cone s.terms roots)))
        (Array.replicate s.vars.size 0)).getD · 0) roots := by
  intro root member
  obtain ⟨value, denoted, odd⟩ := satisfied root member
  refine ⟨value, ?_, odd⟩
  rw [← denoted]
  apply denote_congr
  intro index occurs
  have free : ⟨index, s.varWidth index⟩ ∈ s.freeVariables (cone s.terms roots) :=
    (mem_free_iff_occurs valid inside).mpr ⟨⟨root, member, occurs⟩, rfl⟩
  exact assign_encode (independent_blank valid roots) (inRange.small valid) free

/-- An assignment in range has the same values as one of the assignments that are tried. -/
theorem exists_counter (valid : Valid s) (inside : ∀ root ∈ roots, root < s.terms.size)
    {assignment : Nat → Nat} (inRange : s.InRange assignment)
    (satisfied : Satisfies s.terms assignment roots) :
    ∃ counter, counter < 1 <<< freeBits (s.freeVariables (cone s.terms roots)) ∧
      Satisfies s.terms ((assign (s.freeVariables (cone s.terms roots)) counter
        (Array.replicate s.vars.size 0)).getD · 0) roots := by
  refine ⟨_, ?_, satisfies_encode valid inside inRange satisfied⟩
  rw [Nat.one_shiftLeft]
  exact encode_lt (inRange.small valid)

/-- Once the search is allowed it always answers. -/
theorem search_answers (valid : Valid s) (narrow : ∀ t, widthOf s.terms t ≤ Word.maxWidth)
    (inside : ∀ root ∈ roots, root < s.terms.size) :
    ∃ found, s.Answers roots found ∧
      search s.terms roots (cone s.terms roots) (s.freeVariables (cone s.terms roots))
        (1 <<< freeBits (s.freeVariables (cone s.terms roots))) 0
        (Array.replicate s.vars.size 0) (Array.replicate s.terms.size 0) = .ok found := by
  have blank : (Array.replicate s.terms.size 0).size = s.terms.size := Array.size_replicate
  rcases search_finds (valid.faultless narrow) inside (s.freeVariables (cone s.terms roots))
      (Array.replicate s.vars.size 0) (1 <<< freeBits (s.freeVariables (cone s.terms roots))) 0
      blank (fun _ => rfl) with ⟨hit, first, answer⟩ | ⟨missed, answer⟩
  · exact ⟨some _, isModel_assign valid inside rfl first.satisfied, answer⟩
  · refine ⟨none, ?_, answer⟩
    intro assignment inRange satisfied
    obtain ⟨counter, below, hit⟩ := exists_counter valid inside inRange satisfied
    exact missed counter (Nat.zero_le _) (by omega) hit

end Search

/-! ## Refusals -/

/-- The first term that is wider than a word has a width. -/
def FirstOversize (terms : Array Term) (width : Nat) : Prop :=
  ∃ t, widthOf terms t = width ∧ Word.maxWidth < width ∧
    ∀ earlier < t, widthOf terms earlier ≤ Word.maxWidth

theorem oversize?_eq_some_iff {terms : Array Term} {width : Nat} :
    oversize? terms = some width ↔ FirstOversize terms width := by
  unfold oversize? FirstOversize
  rw [Option.map_eq_some_iff]
  constructor
  · rintro ⟨term, found, rfl⟩
    obtain ⟨wide, t, below, rfl, before⟩ := Array.find?_eq_some_iff_getElem.mp found
    refine ⟨t, widthOf_of_getElem? (Array.getElem?_eq_getElem below), by simpa using wide, ?_⟩
    intro earlier smaller
    have inside : earlier < terms.size := Nat.lt_trans smaller below
    rw [widthOf_of_getElem? (Array.getElem?_eq_getElem inside)]
    simpa using before earlier smaller
  · rintro ⟨t, rfl, wide, before⟩
    have below : t < terms.size := by
      by_contra beyond
      have absent : terms[t]? = none := Array.getElem?_eq_none (Nat.not_lt.mp beyond)
      simp [widthOf, absent] at wide
    have found := widthOf_of_getElem? (Array.getElem?_eq_getElem below)
    refine ⟨terms[t], ?_, found.symm⟩
    apply Array.find?_eq_some_iff_getElem.mpr
    refine ⟨by simpa [found] using wide, t, below, rfl, ?_⟩
    intro earlier smaller
    have inside : earlier < terms.size := Nat.lt_trans smaller below
    have small := before earlier smaller
    rw [widthOf_of_getElem? (Array.getElem?_eq_getElem inside)] at small
    simpa using small

theorem oversize?_eq_none_iff {terms : Array Term} :
    oversize? terms = none ↔ ∀ t, widthOf terms t ≤ Word.maxWidth := by
  unfold oversize?
  rw [Option.map_eq_none_iff, Array.find?_eq_none]
  constructor
  · intro small t
    cases found : terms[t]? with
    | none => simp [widthOf, found]
    | some term =>
        rw [widthOf_of_getElem? found]
        simpa using small term (Array.mem_of_getElem? found)
  · intro small term member
    obtain ⟨t, below, rfl⟩ := Array.mem_iff_getElem.mp member
    have := small t
    rw [widthOf_of_getElem? (Array.getElem?_eq_getElem below)] at this
    simpa using this

theorem narrow_iff_no_oversize {terms : Array Term} :
    (∀ t, widthOf terms t ≤ Word.maxWidth) ↔ ∀ width, ¬ FirstOversize terms width := by
  rw [← oversize?_eq_none_iff, Option.eq_none_iff_forall_ne_some]
  apply forall_congr'
  intro width
  rw [← oversize?_eq_some_iff]

section Solve

variable {s : Enumerator} {roots : List Nat}

theorem solve_of_oversize (valid : Valid s) {width : Nat} (wide : FirstOversize s.terms width) :
    s.solve roots = .error (.error (.unsupportedWidth width)) := by
  unfold solve
  rw [valid.flagged, oversize?_eq_some_iff.mpr wide]

/-- A query over narrow terms is refused for the number of its bits, or answered. -/
theorem solve_of_narrow (valid : Valid s) (inside : ∀ root ∈ roots, root < s.terms.size)
    (narrow : ∀ t, widthOf s.terms t ≤ Word.maxWidth) :
    ∃ found, s.Answers roots found ∧
      s.solve roots =
        if narrowBound ≤ s.queryBits roots then .error (.fault .overflow)
        else if s.limit < s.queryBits roots then
          .error (.error (.searchSpaceTooLarge (s.queryBits roots) s.limit))
        else .ok found := by
  obtain ⟨found, answers, run⟩ := search_answers valid narrow inside
  rw [freeBits_eq_queryBits valid inside] at run
  refine ⟨found, answers, ?_⟩
  unfold solve
  rw [valid.flagged, oversize?_eq_none_iff.mpr narrow]
  simp only [run, freeBits_eq_queryBits valid inside]

/-- An answer of a query is right. -/
theorem solve_answers (valid : Valid s) (inside : ∀ root ∈ roots, root < s.terms.size)
    {found : Option (Array Nat)} (solved : s.solve roots = .ok found) : s.Answers roots found := by
  cases wide : oversize? s.terms with
  | some width =>
      rw [solve_of_oversize valid (oversize?_eq_some_iff.mp wide)] at solved
      cases solved
  | none =>
      obtain ⟨answer, answers, equation⟩ :=
        solve_of_narrow valid inside (oversize?_eq_none_iff.mp wide)
      rw [equation] at solved
      split at solved
      · cases solved
      · split at solved
        · cases solved
        · cases solved
          exact answers

end Solve

/-! ## The decision procedure -/

/-- The state after a query that found nothing. -/
def cleared (s : Enumerator) : Enumerator :=
  { s with model := none, assumptions := #[] }

/-- What a query can come to. -/
inductive Outcome (s : Enumerator) : EStateM.Result (Stop SolverError) Enumerator Bool → Prop where
  | unsupported {width : Nat} : FirstOversize s.terms width →
      Outcome s (.error (.error (.unsupportedWidth width)) s.cleared)
  | tooLarge : (∀ width, ¬ FirstOversize s.terms width) → s.limit < s.queryBits s.roots →
      Outcome s
        (.error (.error (.searchSpaceTooLarge (s.queryBits s.roots) s.limit)) s.cleared)
  | satisfiable {assignment : Array Nat} : (∀ width, ¬ FirstOversize s.terms width) →
      s.queryBits s.roots ≤ s.limit → s.IsModel s.roots assignment →
      Outcome s (.ok true { s.cleared with model := some assignment })
  | unsatisfiable : (∀ width, ¬ FirstOversize s.terms width) → s.queryBits s.roots ≤ s.limit →
      (∀ assignment, s.InRange assignment → ¬ Satisfies s.terms assignment s.roots) →
      Outcome s (.ok false s.cleared)

theorem checkSat_outcome {s : Enumerator} (valid : Valid s)
    (bounded : s.queryBits s.roots < narrowBound) : Outcome s (checkSat s) := by
  unfold checkSat
  cases wide : oversize? s.terms with
  | some width =>
      have first := oversize?_eq_some_iff.mp wide
      rw [solve_of_oversize valid first]
      exact .unsupported first
  | none =>
      have narrow := oversize?_eq_none_iff.mp wide
      have none := narrow_iff_no_oversize.mp narrow
      obtain ⟨found, answers, solved⟩ := solve_of_narrow valid valid.required narrow
      rw [solved, if_neg (Nat.not_le.mpr bounded)]
      by_cases many : s.limit < s.queryBits s.roots
      · rw [if_pos many]
        exact .tooLarge none many
      · rw [if_neg many]
        cases found with
        | some assignment => exact .satisfiable none (Nat.not_lt.mp many) answers
        | none => exact .unsatisfiable none (Nat.not_lt.mp many) answers

/--
A query decides exactly whether an assignment in range satisfies all that is asserted and assumed.
It is refused exactly if a term wider than a word was ever made, or if the variables of the query
have more bits than the limit.
-/
theorem checkSat_exact {limit : Nat} {s : Enumerator} (reachable : Reachable limit s)
    (bounded : s.variableBits < narrowBound) :
    (∀ earlier, Leads earlier s → Extends earlier.terms s.terms) ∧
    (∀ width, (∃ after, checkSat s = .error (.error (.unsupportedWidth width)) after) ↔
      FirstOversize s.terms width) ∧
    (∀ bits most, (∃ after, checkSat s = .error (.error (.searchSpaceTooLarge bits most)) after) ↔
      (∀ width, ¬ FirstOversize s.terms width) ∧
      bits = s.queryBits s.roots ∧ most = min limit 63 ∧ most < bits) ∧
    ((∃ after, checkSat s = .ok true after) ↔
      (∀ width, ¬ FirstOversize s.terms width) ∧ s.queryBits s.roots ≤ min limit 63 ∧
      ∃ assignment, s.InRange assignment ∧ Satisfies s.terms assignment s.roots) ∧
    ((∃ after, checkSat s = .ok false after) ↔
      (∀ width, ¬ FirstOversize s.terms width) ∧ s.queryBits s.roots ≤ min limit 63 ∧
      ¬ ∃ assignment, s.InRange assignment ∧ Satisfies s.terms assignment s.roots) := by
  have few : s.queryBits s.roots < narrowBound :=
    Nat.lt_of_le_of_lt (queryBits_le_variableBits s s.roots) bounded
  have most : s.limit = min limit 63 := by
    rw [Enumerator.limit, reachable.freeBitLimit_eq]
  refine ⟨fun earlier leads => leads.terms, ?_⟩
  rw [← most]
  have enough (fits : s.queryBits s.roots ≤ s.limit) (bits most : Nat) :
      ¬ (bits = s.queryBits s.roots ∧ most = s.limit ∧ most < bits) := by
    rintro ⟨rfl, rfl, many⟩
    omega
  have outcome := checkSat_outcome reachable.valid few
  generalize checkSat s = result at outcome
  cases outcome with
  | @unsupported found first =>
      have unique (width : Nat) : FirstOversize s.terms width ↔ found = width := by
        rw [← oversize?_eq_some_iff, oversize?_eq_some_iff.mpr first, Option.some.injEq]
      simp [unique]
  | tooLarge none many =>
      refine ⟨by simp [none], ?_, by simp [many], by simp [many]⟩
      intro bits most
      simp only [EStateM.Result.error.injEq, Stop.error.injEq, SolverError.searchSpaceTooLarge.injEq,
        exists_and_left, exists_eq', and_true]
      constructor
      · rintro ⟨rfl, rfl⟩
        exact ⟨none, rfl, rfl, many⟩
      · rintro ⟨-, rfl, rfl, -⟩
        exact ⟨rfl, rfl⟩
  | @satisfiable assignment none fits found =>
      have sat : ∃ assignment, s.InRange assignment ∧ Satisfies s.terms assignment s.roots :=
        ⟨_, found.inRange, found.satisfied⟩
      simp [none, fits, enough fits, sat]
  | unsatisfiable none fits refuted =>
      have unsat : ¬ ∃ assignment, s.InRange assignment ∧ Satisfies s.terms assignment s.roots :=
        fun ⟨assignment, inRange, satisfied⟩ => refuted assignment inRange satisfied
      simp [none, fits, enough fits, unsat]

namespace Sample

theorem two_le_maxWidth : 2 ≤ Word.maxWidth := by
  decide

/-- Words of two bits. -/
def pair : BitSort :=
  ⟨2, Nat.two_pos, two_le_maxWidth⟩

/--
Two of three variables are compared.  The third one was asserted in a scope that is closed; in another
scope both are odd, one by an assertion and one by an assumption, and the first one is less.
-/
def compared : Enumerator :=
  let x := Action.perform { freeBitLimit := 4 } (.makeVariable "x" pair)
  let y := Action.perform x (.makeVariable "y" pair)
  let z := Action.perform y (.makeVariable "z" pair)
  let less := Action.perform (Action.perform z (.binary .ult 0 1)) (.binary .ult 1 0)
  let closed := Action.perform (Action.perform (Action.perform less .push) (.assert 2)) .pop
  let inner := Action.perform (Action.perform (Action.perform closed (.assert 3)) .push) (.assert 0)
  Action.perform inner (.assume 1)

theorem reachable_compared : Reachable 4 compared := by
  have x := Reachable.act (.makeVariable "x" pair)
    (.start : Reachable 4 { freeBitLimit := 4 }) (by simp [Action.operands])
  have y := x.act (.makeVariable "y" pair) (by simp [Action.operands])
  have z := y.act (.makeVariable "z" pair) (by simp [Action.operands])
  have less := (z.act (.binary .ult 0 1) (by decide)).act (.binary .ult 1 0) (by decide)
  have closed := ((less.act .push (by simp [Action.operands])).act (.assert 2) (by decide)).act .pop
    (by simp [Action.operands])
  have inner := ((closed.act (.assert 3) (by decide)).act .push (by simp [Action.operands])).act
    (.assert 0) (by decide)
  exact inner.act (.assume 1) (by decide)

/-- The comparison the other way is assumed too. -/
def contradicted : Enumerator :=
  Action.perform compared (.assume 4)

theorem reachable_contradicted : Reachable 4 contradicted :=
  reachable_compared.act (.assume 4) (by decide)

/-- The third variable is assumed to be odd too. -/
def widened : Enumerator :=
  Action.perform compared (.assume 2)

theorem reachable_widened : Reachable 4 widened :=
  reachable_compared.act (.assume 2) (by decide)

theorem queryBits_widened : widened.queryBits widened.roots = 6 := by
  have valid := reachable_widened.valid
  rw [← freeBits_eq_queryBits valid valid.required]
  decide +kernel

end Sample

/--
There is an odd number of two bits that is less than another one, and none that is also greater.  The
third variable counts only when it is required.
-/
theorem checkSat_exact_compared :
    Sample.compared.variableBits = 6 ∧
      (Sample.compared.queryBits Sample.compared.roots ≤ 4 ∧
        ∃ assignment, Sample.compared.InRange assignment ∧
          Satisfies Sample.compared.terms assignment Sample.compared.roots) ∧
      (Sample.contradicted.queryBits Sample.contradicted.roots ≤ 4 ∧
        ¬ ∃ assignment, Sample.contradicted.InRange assignment ∧
          Satisfies Sample.contradicted.terms assignment Sample.contradicted.roots) ∧
      ∃ after, checkSat Sample.widened = .error (.error (.searchSpaceTooLarge 6 4)) after := by
  have answered {s : Enumerator} {answer : Bool} (found : EStateM.run' checkSat s = some answer) :
      ∃ after, checkSat s = .ok answer after := by
    unfold EStateM.run' EStateM.run at found
    split at found
    · rename_i given after ran
      cases found
      exact ⟨after, ran⟩
    · cases found
  have satisfied : ∃ after, checkSat Sample.compared = .ok true after :=
    answered (by decide +kernel)
  have refuted : ∃ after, checkSat Sample.contradicted = .ok false after :=
    answered (by decide +kernel)
  have narrow := narrow_iff_no_oversize.mp
    (oversize?_eq_none_iff.mp (show oversize? Sample.widened.terms = none by decide +kernel))
  refine ⟨by decide, ?_, ?_, ?_⟩
  · exact ((checkSat_exact Sample.reachable_compared (by decide)).2.2.2.1.mp satisfied).2
  · exact ((checkSat_exact Sample.reachable_contradicted (by decide)).2.2.2.2.mp refuted).2
  · exact ((checkSat_exact Sample.reachable_widened (by decide)).2.2.1 6 4).mpr
      ⟨narrow, Sample.queryBits_widened.symm, rfl, by decide⟩

end BoundedCheck.Enumerator
