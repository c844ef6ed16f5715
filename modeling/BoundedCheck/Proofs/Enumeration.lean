import Mathlib
import BoundedCheck.Proofs.MachineSearch

/-!
# Enumeration of assignments

A machine takes an assignment from a counter: for one variable after the other it masks the lowest
bits of the counter and shifts them out.  The counters that have as many bits as the variables
together correspond one to one to the combinations of words that the variables can have.  So
counting comes to every combination, and to none of them twice.
-/

namespace BoundedCheck.Enumerator

variable {free : List FreeVariable} {count : Nat} {assignment other : Array Nat}

/-- The free variables have words of their widths, and all other variables are zero. -/
structure Combination (free : List FreeVariable) (count : Nat) (assignment : Array Nat) : Prop where
  size : assignment.size = count
  inRange : ∀ var ∈ free, assignment.getD var.index 0 < 2 ^ var.width
  elsewhere : ∀ index, (∀ var ∈ free, var.index ≠ index) → assignment.getD index 0 = 0

theorem combination_replicate (free : List FreeVariable) (count : Nat) :
    Combination free count (Array.replicate count 0) where
  size := Array.size_replicate
  inRange := by
    intro var _
    rw [getD_replicate_zero]
    exact Nat.two_pow_pos _
  elsewhere := fun index _ => getD_replicate_zero count index

theorem getElem?_eq_of_getD_eq (size : assignment.size = other.size) {index : Nat}
    (same : assignment.getD index 0 = other.getD index 0) : assignment[index]? = other[index]? := by
  by_cases inside : index < assignment.size
  · have insideOther : index < other.size := size ▸ inside
    simpa [inside, insideOther] using same
  · rw [Array.getElem?_eq_none (Nat.not_lt.mp inside),
      Array.getElem?_eq_none (size ▸ Nat.not_lt.mp inside)]

namespace Combination

/-- A combination is known from the words of the free variables. -/
theorem eq_of_agree (first : Combination free count assignment)
    (second : Combination free count other)
    (agree : ∀ var ∈ free, assignment.getD var.index 0 = other.getD var.index 0) :
    assignment = other := by
  have size := first.size.trans second.size.symm
  apply Array.ext_getElem?
  intro index
  apply getElem?_eq_of_getD_eq size
  by_cases named : ∃ var ∈ free, var.index = index
  · obtain ⟨var, member, rfl⟩ := named
    exact agree var member
  · have absent : ∀ var ∈ free, var.index ≠ index :=
      fun var member same => named ⟨var, member, same⟩
    rw [first.elsewhere index absent, second.elsewhere index absent]

/-- The digits of any counter make a combination out of another one. -/
theorem assign (independent : Independent free count)
    (combination : Combination free count assignment) (counter : Nat) :
    Combination free count (Enumerator.assign free counter assignment) where
  size := (size_assign free counter assignment).trans combination.size
  inRange := fun _ member => assign_lt counter (combination.size.symm ▸ independent) member
  elsewhere := by
    intro index absent
    rw [Array.getD_eq_getD_getElem?, assign_of_not_mem absent, ← Array.getD_eq_getD_getElem?]
    exact combination.elsewhere index absent

/-- Which combination stood there before makes no difference. -/
theorem assign_eq (first : Combination free count assignment)
    (second : Combination free count other) (counter : Nat) :
    Enumerator.assign free counter assignment = Enumerator.assign free counter other := by
  have size := first.size.trans second.size.symm
  apply assign_congr counter size
  intro index absent
  apply getElem?_eq_of_getD_eq size
  rw [first.elsewhere index absent, second.elsewhere index absent]

/-- The counter whose digits are the words of a combination leads to the combination. -/
theorem assign_encode (independent : Independent free count)
    (combination : Combination free count assignment) :
    Enumerator.assign free (encode (assignment.getD · 0) free) (Array.replicate count 0) =
      assignment := by
  have blank := combination_replicate free count
  apply (blank.assign independent _).eq_of_agree combination
  intro var member
  exact Enumerator.assign_encode (blank.size.symm ▸ independent) combination.inRange member

end Combination

/-- Counters and combinations correspond: digits lead one way, and `encode` leads back. -/
theorem bijOn_assign (independent : Independent free count) :
    Set.BijOn (fun counter => assign free counter (Array.replicate count 0))
      (Set.Iio (2 ^ freeBits free)) {assignment | Combination free count assignment} := by
  have blank := combination_replicate free count
  have inverse : Set.InvOn (fun assignment : Array Nat => encode (assignment.getD · 0) free)
      (fun counter => assign free counter (Array.replicate count 0))
      (Set.Iio (2 ^ freeBits free)) {assignment | Combination free count assignment} := by
    constructor
    · intro counter below
      exact encode_assign (blank.size.symm ▸ independent) below
    · intro assignment combination
      exact combination.assign_encode independent
  apply inverse.bijOn
  · intro counter _
    exact blank.assign independent counter
  · intro assignment combination
    exact encode_lt combination.inRange

/--
Counting visits every combination of words once.  Different variables of at most 63 bits together
are counted through by a machine with registers of 64 bits.  There are as many counters as their
bits can tell apart; each leads to words in range, with zero for all other variables, and every
combination comes from one counter and no other.  It does not matter which one an earlier counter
has left behind.
-/
theorem combinations_enumerated (independent : Independent free count) (few : freeBits free ≤ 63) :
    (Machine.freeBits free 0).bind (Machine.shiftLeft 1) = .ok (2 ^ freeBits free) ∧
      Set.BijOn (fun counter => assign free counter (Array.replicate count 0))
        (Set.Iio (2 ^ freeBits free)) {assignment | Combination free count assignment} ∧
      Combination free count (Array.replicate count 0) ∧
      ∀ counter < 2 ^ freeBits free, ∀ left, Combination free count left →
        Machine.assign free counter left = .ok (assign free counter (Array.replicate count 0)) := by
  have near : freeBits free < Word.maxWidth := Nat.lt_succ_of_le few
  have fits : 2 ^ freeBits free < wideBound := Nat.pow_lt_pow_right (by decide) near
  have blank := combination_replicate free count
  refine ⟨?_, bijOn_assign independent, blank, ?_⟩
  · have narrow : 0 + freeBits free < narrowBound := by
      simp only [narrowBound]
      omega
    rw [Machine.freeBits_eq_ok narrow, Nat.zero_add, Except.bind, Machine.shiftLeft_eq_ok near,
      Nat.one_shiftLeft, Nat.mod_eq_of_lt fits]
  · intro counter below left combination
    have inside : ∀ var ∈ free, var.index < left.size := combination.size.symm ▸ independent.inside
    rw [Machine.assign_eq_ok (Nat.lt_trans below fits) inside, combination.assign_eq blank]

/-- Two of four variables, with 63 bits together. -/
def spreadVariables : List FreeVariable :=
  [⟨2, 1⟩, ⟨0, 62⟩]

/-- The digits of a counter replace those of an earlier one. -/
theorem combinations_enumerated_spread :
    Independent spreadVariables 4 ∧ freeBits spreadVariables ≤ 63 ∧
      Combination spreadVariables 4 #[9, 0, 1, 0] ∧
      Machine.assign spreadVariables 6 #[9, 0, 1, 0] = .ok #[3, 0, 0, 0] := by
  have independent : Independent spreadVariables 4 := ⟨by decide, by decide, by decide⟩
  have few : freeBits spreadVariables ≤ 63 := by decide
  obtain ⟨-, bijective, -, decoded⟩ := combinations_enumerated independent few
  have earlier : Combination spreadVariables 4 #[9, 0, 1, 0] :=
    bijective.mapsTo (show 19 < 2 ^ freeBits spreadVariables by decide)
  exact ⟨independent, few, earlier, decoded 6 (by decide) _ earlier⟩

end BoundedCheck.Enumerator
