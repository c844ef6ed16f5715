import Mathlib
import BoundedCheck.Proofs.Decision
import BoundedCheck.Proofs.Machine

/-!
# Queries of a machine

A query computed by a machine that refuses every place beyond an array and every sum beyond a range.
On a valid solver whose variables have less than 2^32 bits together it refuses nothing: it comes to
the answers of the enumerating solver.
-/

namespace BoundedCheck.Machine

open Enumerator (Term Node FreeVariable Valid WellFounded)
open Word (maxWidth)

/-! ## The search, step by step -/

/-- Marks the given terms. -/
def mark (marks : Array Bool) : List Nat → Except Fault (Array Bool)
  | [] => .ok marks
  | t :: rest => do
    mark (← store marks t true) rest

/-- Passes marks on to children, for the terms below a number from the last to the first. -/
def sweep (terms : Array Term) : Nat → Array Bool → Except Fault (Array Bool)
  | 0, marks => .ok marks
  | t + 1, marks => do
    if ← fetch marks t then
      let term ← fetch terms t
      sweep terms t (← mark marks term.node.children)
    else sweep terms t marks

/-- The terms that the roots are built from, in increasing order. -/
def cone (terms : Array Term) (roots : List Nat) : Except Fault (List Nat) := do
  let rooted ← mark (Array.replicate terms.size false) roots
  let marks ← sweep terms terms.size rooted
  return (List.range terms.size).filter fun t => marks.getD t false

/-- The variables among some terms, with their widths. -/
def freeVariables (s : Enumerator) : List Nat → Except Fault (List FreeVariable)
  | [] => .ok []
  | t :: rest => do
    let term ← fetch s.terms t
    match term.node with
    | .var index =>
      let var ← fetch s.vars index
      return ⟨index, var.width⟩ :: (← freeVariables s rest)
    | _ => freeVariables s rest

/-- The number of bits of some variables, added to what was counted before. -/
def freeBits : List FreeVariable → Nat → Except Fault Nat
  | [], bits => .ok bits
  | var :: rest, bits => do
    freeBits rest (← narrow (bits + var.width))

/-- Sets the variables to the digits of a number. -/
def assign : List FreeVariable → Nat → Array Nat → Except Fault (Array Nat)
  | [], _, assignment => .ok assignment
  | var :: rest, counter, assignment => do
    let digits := counter &&& (← mask var.width)
    let left := if var.width < maxWidth then counter >>> var.width else 0
    assign rest left (← store assignment var.index digits)

/-- The value of a term, given the values of its children. -/
def value (terms : Array Term) (assignment values : Array Nat) (term : Term) : Except Fault Nat :=
  match term.node with
  | .var index => .ok (assignment.getD index 0)
  | .constant value => .ok value
  | .not a => do
    complement (← fetch values a) term.width
  | .binary op a b => do
    let x ← fetch values a
    let y ← fetch values b
    let left ← fetch terms a
    let right ← fetch terms b
    binary op x y left.width right.width
  | .ite condition onTrue onFalse => do
    if (← fetch values condition) % 2 = 1 then fetch values onTrue else fetch values onFalse
  | .slice a high low => do
    slice (← fetch values a) high low

/-- Computes the values of the given terms one after the other. -/
def evaluate (terms : Array Term) (assignment : Array Nat) :
    List Nat → Array Nat → Except Fault (Array Nat)
  | [], values => .ok values
  | t :: rest, values => do
    let term ← fetch terms t
    let computed ← value terms assignment values term
    evaluate terms assignment rest (← store values t computed)

/-- All roots have their lowest bit set. -/
def holds : List Nat → Array Nat → Except Fault Bool
  | [], _ => .ok true
  | root :: rest, values => do
    if (← fetch values root) % 2 = 1 then holds rest values else return false

/-- The first assignment under which all roots hold, among a number of counters. -/
def search (terms : Array Term) (roots order : List Nat) (free : List FreeVariable) :
    Nat → Nat → Array Nat → Array Nat → Except Fault (Option (Array Nat))
  | 0, _, _, _ => .ok none
  | remaining + 1, counter, assignment, values => do
    let assignment ← assign free counter assignment
    let values ← evaluate terms assignment order values
    if ← holds roots values then return some assignment
    else search terms roots order free remaining (counter + 1) assignment values

/-- Decides whether some terms can hold together, and finds the first assignment. -/
def solve (s : Enumerator) (roots : List Nat) :
    Except (Stop SolverError) (Option (Array Nat)) :=
  match s.overflow with
  | some width => .error (.error (.unsupportedWidth width))
  | none => do
    let order ← (cone s.terms roots).mapError .fault
    let free ← (freeVariables s order).mapError .fault
    let bits ← (freeBits free 0).mapError .fault
    if s.limit < bits then throw (.error (.searchSpaceTooLarge bits s.limit))
    let count ← (shiftLeft 1 bits).mapError .fault
    (search s.terms roots order free count 0 (Array.replicate s.vars.size 0)
      (Array.replicate s.terms.size 0)).mapError .fault

/-- Decides the assertions and assumptions; the assumptions are used up whatever the answer is. -/
def checkSat : SolverM Enumerator Bool := fun s =>
  let answer := solve s s.roots
  let s := { s with model := none, assumptions := #[] }
  match answer with
  | .ok (some assignment) => .ok true { s with model := some assignment }
  | .ok none => .ok false s
  | .error stop => .error stop s

/-! ## Places -/

theorem fetch_eq_ok {α : Type} {entries : Array α} {place : Nat} (inside : place < entries.size) :
    fetch entries place = .ok entries[place] := by
  rw [fetch, Array.getElem?_eq_getElem inside]

theorem fetch_eq_error {α : Type} {entries : Array α} {place : Nat}
    (beyond : ¬ place < entries.size) : fetch entries place = .error .index := by
  rw [fetch, Array.getElem?_eq_none (Nat.not_lt.mp beyond)]

theorem fetch_getD {α : Type} {entries : Array α} {place : Nat} (inside : place < entries.size)
    (default : α) : fetch entries place = .ok (entries.getD place default) := by
  rw [fetch_eq_ok inside, Array.getD_eq_getD_getElem?, Array.getElem?_eq_getElem inside]
  rfl

theorem store_eq_ok {α : Type} {entries : Array α} {place : Nat} (inside : place < entries.size)
    (entry : α) : store entries place entry = .ok (entries.setIfInBounds place entry) :=
  if_pos inside

/-! ## Cones -/

variable {terms : Array Term} {roots order : List Nat}

theorem mark_eq_ok {marks : Array Bool} {ts : List Nat} (inside : ∀ t ∈ ts, t < marks.size) :
    mark marks ts = .ok (Enumerator.mark marks ts) := by
  induction ts generalizing marks with
  | nil => rfl
  | cons t rest ih =>
      rw [mark, store_eq_ok (inside t List.mem_cons_self)]
      refine ih fun u member => ?_
      rw [Array.size_setIfInBounds]
      exact inside u (List.mem_cons_of_mem _ member)

theorem sweep_eq_ok (founded : WellFounded terms) {count : Nat} (below : count ≤ terms.size)
    {marks : Array Bool} (size : marks.size = terms.size) :
    sweep terms count marks = .ok (Enumerator.sweep terms count marks) := by
  induction count generalizing marks with
  | zero => rfl
  | succ t ih =>
      have inside : t < terms.size := below
      have present := Array.getElem?_eq_getElem inside
      have children : ∀ child ∈ terms[t].node.children, child < marks.size := by
        intro child edge
        rw [← Enumerator.children_of_getElem? present] at edge
        rw [size]
        exact Nat.lt_trans (founded t child edge) inside
      rw [sweep, Enumerator.sweep, fetch_getD (size ▸ inside) false]
      simp only [bind, Except.bind, fetch_eq_ok inside, mark_eq_ok children,
        Enumerator.children_of_getElem? present]
      split
      · exact ih (Nat.le_of_lt inside) (by rw [Enumerator.size_mark, size])
      · exact ih (Nat.le_of_lt inside) size

theorem cone_eq_ok (founded : WellFounded terms) (inside : ∀ root ∈ roots, root < terms.size) :
    cone terms roots = .ok (Enumerator.cone terms roots) := by
  have rooted : mark (Array.replicate terms.size false) roots =
      .ok (Enumerator.mark (Array.replicate terms.size false) roots) :=
    mark_eq_ok (by simpa using inside)
  unfold cone
  rw [rooted]
  simp only [bind, Except.bind]
  rw [sweep_eq_ok founded (Nat.le_refl _) (by simp [Enumerator.size_mark])]
  rfl

/-! ## Free variables -/

theorem freeVariables_eq_ok {s : Enumerator} (valid : Valid s)
    (inside : ∀ t ∈ order, t < s.terms.size) :
    freeVariables s order = .ok (s.freeVariables order) := by
  induction order with
  | nil => rfl
  | cons t rest ih =>
      have below := inside t List.mem_cons_self
      have present := Array.getElem?_eq_getElem below
      have others := ih fun u member => inside u (List.mem_cons_of_mem _ member)
      rw [freeVariables, fetch_eq_ok below, Enumerator.freeVariables, List.filterMap_cons]
      simp only [bind, Except.bind, others]
      generalize s.terms[t] = term at present
      obtain ⟨node, width⟩ := term
      cases node with
      | var index =>
          obtain ⟨var, found, -⟩ := valid.declared (Enumerator.varIndex?_of_getElem? present)
          simp only [Enumerator.varIndex?_of_getElem? present, fetch, found, Option.map_some]
          rfl
      | _ =>
          simp only [Enumerator.varIndex?, present, Option.map_none]
          rfl

theorem freeBits_eq_ok {free : List FreeVariable} {bits : Nat}
    (few : bits + Enumerator.freeBits free < narrowBound) :
    freeBits free bits = .ok (bits + Enumerator.freeBits free) := by
  induction free generalizing bits with
  | nil => rfl
  | cons var rest ih =>
      have total : Enumerator.freeBits (var :: rest) = var.width + Enumerator.freeBits rest := rfl
      rw [total, ← Nat.add_assoc] at few ⊢
      rw [freeBits, narrow_eq_ok (by omega)]
      exact ih few

/-- All numbers of an array fit a register. -/
def Stored (values : Array Nat) : Prop :=
  ∀ place, values.getD place 0 < wideBound

theorem stored_replicate (count : Nat) : Stored (Array.replicate count 0) := by
  intro place
  rw [Enumerator.getD_replicate_zero]
  decide

theorem Stored.set {values : Array Nat} (stored : Stored values) (place : Nat) {number : Nat}
    (small : number < wideBound) : Stored (values.setIfInBounds place number) := by
  intro other
  by_cases inside : place < values.size
  · rw [Enumerator.getD_setIfInBounds inside]
    split
    · exact small
    · exact stored other
  · rw [Array.setIfInBounds_eq_of_size_le (Nat.not_lt.mp inside)]
    exact stored other

theorem assign_eq_ok {free : List FreeVariable} {counter : Nat} (small : counter < wideBound)
    {assignment : Array Nat} (inside : ∀ var ∈ free, var.index < assignment.size) :
    assign free counter assignment = .ok (Enumerator.assign free counter assignment) := by
  induction free generalizing counter assignment with
  | nil => rfl
  | cons var rest ih =>
      have left : (if var.width < maxWidth then counter >>> var.width else 0) =
          counter >>> var.width := shiftRight_or_zero small var.width
      have smaller : counter >>> var.width < wideBound := by
        rw [Nat.shiftRight_eq_div_pow]
        exact Nat.lt_of_le_of_lt (Nat.div_le_self _ _) small
      rw [assign, Enumerator.assign, mask_eq_ok, left]
      simp only [bind, Except.bind, and_mask, store_eq_ok (inside var List.mem_cons_self)]
      refine ih smaller fun other member => ?_
      rw [Array.size_setIfInBounds]
      exact inside other (List.mem_cons_of_mem _ member)

theorem Stored.assign {assignment : Array Nat} (stored : Stored assignment)
    (free : List FreeVariable) (counter : Nat) :
    Stored (Enumerator.assign free counter assignment) := by
  induction free generalizing counter assignment with
  | nil => exact stored
  | cons var rest ih => exact ih (stored.set var.index (mod_lt _ _)) _

/-! ## Values -/

/-- Terms that refer to earlier ones, with constants that fit a register. -/
structure Storable (terms : Array Term) : Prop where
  founded : WellFounded terms
  constants : ∀ t value width : Nat, terms[t]? = some ⟨.constant value, width⟩ → value < wideBound

variable {assignment values : Array Nat}

theorem value_eq {term : Term} (inside : ∀ child ∈ term.node.children, child < terms.size)
    (size : values.size = terms.size) (stored : Stored values) :
    value terms assignment values term = term.evaluate terms assignment values := by
  obtain ⟨node, width⟩ := term
  have fetched (child : Nat) (edge : child ∈ node.children) :
      fetch values child = .ok (values.getD child 0) :=
    fetch_getD (size ▸ inside child edge) 0
  have sized (child : Nat) (edge : child ∈ node.children) : ∃ term,
      fetch terms child = .ok term ∧ term.width = Enumerator.widthOf terms child :=
    ⟨_, fetch_eq_ok (inside child edge),
      (Enumerator.widthOf_of_getElem? (Array.getElem?_eq_getElem (inside child edge))).symm⟩
  cases node with
  | var index => rfl
  | constant value => rfl
  | not a =>
      simp only [value, Term.evaluate, fetched a (List.mem_singleton_self a), bind, Except.bind]
      exact complement_eq_ok (stored a) width
  | binary op a b =>
      have edgeA : a ∈ (Node.binary op a b).children := List.mem_cons_self
      have edgeB : b ∈ (Node.binary op a b).children := List.mem_cons_of_mem _ List.mem_cons_self
      obtain ⟨left, foundA, widthA⟩ := sized a edgeA
      obtain ⟨right, foundB, widthB⟩ := sized b edgeB
      simp only [value, Term.evaluate, fetched a edgeA, fetched b edgeB, foundA, foundB, widthA,
        widthB, bind, Except.bind]
      exact binary_eq op (stored a) (stored b) _ _
  | ite condition onTrue onFalse =>
      have edges : (Node.ite condition onTrue onFalse).children = [condition, onTrue, onFalse] :=
        rfl
      simp only [value, Term.evaluate, fetched condition (by simp [edges]),
        fetched onTrue (by simp [edges]), fetched onFalse (by simp [edges]),
        bind, Except.bind]
      split <;> rfl
  | slice a high low =>
      simp only [value, Term.evaluate, fetched a (List.mem_singleton_self a), bind, Except.bind]
      exact slice_eq (stored a) high low

theorem lt_of_evaluate {term : Term} {number : Nat}
    (constant : ∀ value, term.node = .constant value → value < wideBound)
    (assigned : Stored assignment) (stored : Stored values)
    (computed : term.evaluate terms assignment values = .ok number) : number < wideBound := by
  obtain ⟨node, width⟩ := term
  cases node with
  | var index =>
      cases computed
      exact assigned index
  | constant value =>
      cases computed
      exact constant _ rfl
  | not a =>
      cases computed
      exact Nat.lt_of_lt_of_le (complement_lt _ _) (Word.bound_le width)
  | binary op a b => exact lt_of_binary (stored a) (stored b) computed
  | ite condition onTrue onFalse =>
      cases computed
      split
      · exact stored onTrue
      · exact stored onFalse
  | slice a high low => exact lt_of_slice computed

/-- The values of terms, computed by the machine, and what becomes of the array. -/
theorem evaluate_eq (storable : Storable terms) (inside : ∀ t ∈ order, t < terms.size)
    (assigned : Stored assignment) (size : values.size = terms.size) (stored : Stored values) :
    evaluate terms assignment order values = Enumerator.evaluate terms assignment order values ∧
      ∀ final, Enumerator.evaluate terms assignment order values = .ok final →
        final.size = terms.size ∧ Stored final := by
  induction order generalizing values with
  | nil =>
      refine ⟨rfl, ?_⟩
      rintro final ⟨⟩
      exact ⟨size, stored⟩
  | cons t rest ih =>
      have below := inside t List.mem_cons_self
      have present := Array.getElem?_eq_getElem below
      have children : ∀ child ∈ terms[t].node.children, child < terms.size := by
        intro child edge
        rw [← Enumerator.children_of_getElem? present] at edge
        exact Nat.lt_trans (storable.founded t child edge) below
      have constant (value : Nat) (same : terms[t].node = .constant value) : value < wideBound := by
        refine storable.constants t value terms[t].width ?_
        rw [present, ← same]
      rw [evaluate, Enumerator.evaluate, fetch_eq_ok below, present]
      simp only [bind, Except.bind, value_eq children size stored]
      cases computed : terms[t].evaluate terms assignment values with
      | error fault =>
          refine ⟨rfl, ?_⟩
          rintro final ⟨⟩
      | ok number =>
          simp only [store_eq_ok (size ▸ below)]
          exact ih (fun u member => inside u (List.mem_cons_of_mem _ member))
            (by rw [Array.size_setIfInBounds, size])
            (stored.set t (lt_of_evaluate constant assigned stored computed))

theorem holds_eq_ok (inside : ∀ root ∈ roots, root < values.size) :
    holds roots values = .ok (Enumerator.holds roots values) := by
  induction roots with
  | nil => rfl
  | cons root rest ih =>
      have others := ih fun other member => inside other (List.mem_cons_of_mem _ member)
      rw [holds, fetch_getD (inside root List.mem_cons_self) 0]
      simp only [bind, Except.bind, others, Enumerator.holds, List.all_cons]
      by_cases odd : values.getD root 0 % 2 = 1
      · rw [if_pos odd, odd]
        rfl
      · rw [if_neg odd, beq_eq_false_iff_ne.mpr odd]
        rfl

/-! ## Queries -/

theorem search_eq (storable : Storable terms) (rooted : ∀ root ∈ roots, root < terms.size)
    (inside : ∀ t ∈ order, t < terms.size) {free : List FreeVariable}
    (declared : ∀ var ∈ free, var.index < assignment.size) {remaining counter : Nat}
    (few : counter + remaining ≤ wideBound) (assigned : Stored assignment)
    (size : values.size = terms.size) (stored : Stored values) :
    search terms roots order free remaining counter assignment values =
      Enumerator.search terms roots order free remaining counter assignment values := by
  induction remaining generalizing counter assignment values with
  | zero => rfl
  | succ remaining ih =>
      have set := assigned.assign free counter
      obtain ⟨same, kept⟩ := evaluate_eq storable inside set size stored
      rw [search, Enumerator.search, assign_eq_ok (by omega) declared]
      simp only [bind, Except.bind, same]
      cases computed : Enumerator.evaluate terms (Enumerator.assign free counter assignment) order
          values with
      | error fault => rfl
      | ok final =>
          obtain ⟨sized, storedFinal⟩ := kept final computed
          simp only [holds_eq_ok (sized ▸ rooted)]
          split
          · rfl
          · refine ih ?_ (by omega) set sized storedFinal
            rw [Enumerator.size_assign]
            exact declared

theorem storable_of_valid {s : Enumerator} (valid : Valid s)
    (narrow : ∀ t, Enumerator.widthOf s.terms t ≤ maxWidth) : Storable s.terms where
  founded := valid.founded
  constants := by
    intro t value width found
    have small : value < 2 ^ width := (valid.terms t _ found).2.2
    have fits := narrow t
    rw [Enumerator.widthOf_of_getElem? found] at fits
    exact Nat.lt_of_lt_of_le small (Nat.pow_le_pow_right (by decide) fits)

/-- A query of the machine is refused nothing and comes to the same answer. -/
theorem solve_eq {s : Enumerator} (valid : Valid s) (inside : ∀ root ∈ roots, root < s.terms.size)
    (few : s.queryBits roots < narrowBound) : solve s roots = s.solve roots := by
  unfold solve Enumerator.solve
  cases flag : s.overflow with
  | some width => rfl
  | none =>
      have narrow := Enumerator.oversize?_eq_none_iff.mp (valid.flagged.symm.trans flag)
      have storable := storable_of_valid valid narrow
      have ordered := (Enumerator.ordered_cone valid.founded inside).inside
      have declared := (Enumerator.independent_blank valid roots).inside
      rw [← Enumerator.freeBits_eq_queryBits valid inside] at few
      simp only [cone_eq_ok valid.founded inside, freeVariables_eq_ok valid ordered, bind,
        Except.bind, Except.mapError]
      generalize s.freeVariables (Enumerator.cone s.terms roots) = free at few declared
      rw [freeBits_eq_ok (by omega), Nat.zero_add, if_neg (Nat.not_le.mpr few)]
      simp only
      split
      · rfl
      · rename_i enough
        have most : s.limit < maxWidth := Nat.lt_of_le_of_lt (Nat.min_le_right _ _) (by decide)
        have near : Enumerator.freeBits free < maxWidth := by omega
        have small : 1 <<< Enumerator.freeBits free < wideBound := by
          rw [Nat.one_shiftLeft]
          exact Nat.pow_lt_pow_right (by decide) near
        have searched := search_eq storable inside ordered declared
          (by omega : 0 + 1 <<< Enumerator.freeBits free ≤ wideBound)
          (stored_replicate s.vars.size) Array.size_replicate (stored_replicate s.terms.size)
        simp only [shiftLeft_eq_ok near, Nat.mod_eq_of_lt small, searched]
        cases Enumerator.search s.terms roots _ free _ _ _ _ with
        | ok found => rfl
        | error fault => rfl

theorem checkSat_eq {s : Enumerator} (valid : Valid s) (few : s.queryBits s.roots < narrowBound) :
    checkSat s = Enumerator.checkSat s := by
  unfold checkSat Enumerator.checkSat
  rewrite [solve_eq valid valid.required few]
  rfl

/-- The machine decides every query that can be asked, and refuses the same queries. -/
theorem checkSat_decides {limit : Nat} {s : Enumerator} (reachable : Enumerator.Reachable limit s)
    (bounded : s.variableBits < narrowBound) : Enumerator.Outcome s (checkSat s) := by
  have few : s.queryBits s.roots < narrowBound :=
    Nat.lt_of_le_of_lt (Enumerator.queryBits_le_variableBits s s.roots) bounded
  rw [checkSat_eq reachable.valid few]
  exact Enumerator.checkSat_outcome reachable.valid few

end BoundedCheck.Machine
