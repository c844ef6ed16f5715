import Mathlib
import BoundedCheck.Proofs.Arena

/-!
# Terms made by the solver

Each request for a term succeeds on terms of fitting widths, adds terms behind the others and leaves
the rest of the solver alone.  The new term has the value that the operation on bit vectors gives.
-/

namespace BoundedCheck.Enumerator

/-- A solver with more terms and variables, and otherwise as it was. -/
structure Grows (s later : Enumerator) : Prop where
  terms : Extends s.terms later.terms
  rest : later = { s with
    terms := later.terms, overflow := later.overflow, vars := later.vars }
  valid : Valid s → Valid later
  narrow : (∀ t, widthOf s.terms t ≤ Word.maxWidth) → ∀ t, widthOf later.terms t ≤ Word.maxWidth

namespace Grows

variable {s middle later : Enumerator}

theorem refl (s : Enumerator) : Grows s s :=
  ⟨.refl _, rfl, id, id⟩

theorem trans (first : Grows s middle) (second : Grows middle later) : Grows s later where
  terms := first.terms.trans second.terms
  rest := by
    rw [second.rest, first.rest]
  valid := fun valid => second.valid (first.valid valid)
  narrow := fun narrow => second.narrow (first.narrow narrow)

end Grows

theorem widthOf_push_le {terms : Array Term} {term : Term} (narrow : term.width ≤ Word.maxWidth)
    (others : ∀ t, widthOf terms t ≤ Word.maxWidth) (t : Nat) :
    widthOf (terms.push term) t ≤ Word.maxWidth := by
  cases present : (terms.push term)[t]? with
  | none => simp [widthOf, present]
  | some found =>
      rw [widthOf_of_getElem? present]
      rcases getElem?_push_cases present with old | ⟨-, same⟩
      · rw [← widthOf_of_getElem? old]
        exact others t
      · rw [same]
        exact narrow

/-- One more term, under which the solver stays valid. -/
theorem grows_add {s : Enumerator} {node : Node} {width : Nat} (narrow : width ≤ Word.maxWidth)
    (valid : Valid s → Valid (s.add node width).2) : Grows s (s.add node width).2 where
  terms := .push _ _
  rest := rfl
  valid := valid
  narrow := widthOf_push_le narrow

/-- A term of a width that has a value under an assignment. -/
structure Carries (terms : Array Term) (assignment : Nat → Nat) (t width value : Nat) : Prop where
  below : t < terms.size
  sized : widthOf terms t = width
  denoted : denote terms assignment t = .ok value
  small : value < 2 ^ width

theorem Carries.later {terms more : Array Term} {assignment : Nat → Nat} {t width value : Nat}
    (carries : Carries terms assignment t width value) (grown : Extends terms more) :
    Carries more assignment t width value where
  below := Nat.lt_of_lt_of_le carries.below grown.1
  sized := by rw [grown.widthOf carries.below, carries.sized]
  denoted := by rw [grown.denote assignment carries.below, carries.denoted]
  small := carries.small

/-- A request gives a term with a width and a value, and makes no variable. -/
def Yields {ε : Type} (request : EStateM ε Enumerator Nat) (s : Enumerator)
    (assignment : Nat → Nat) (width value : Nat) : Prop :=
  ∃ t later, request s = .ok t later ∧ Grows s later ∧ later.vars = s.vars ∧
    Carries later.terms assignment t width value

variable {s : Enumerator} {assignment : Nat → Nat}

/-- The value of a term that was just added. -/
theorem carries_add {node : Node} {width value : Nat}
    (settled : ∀ child ∈ node.children, ∃ w x, Carries s.terms assignment child w x)
    (computed : Term.value s.terms assignment (valueOf s.terms assignment) ⟨node, width⟩ =
      .ok value)
    (small : value < 2 ^ width) :
    Carries (s.add node width).2.terms assignment s.terms.size width value := by
  have grown : Extends s.terms (s.terms.push ⟨node, width⟩) := .push _ _
  have found : (s.terms.push ⟨node, width⟩)[s.terms.size]? = some ⟨node, width⟩ := by simp
  have inside {child : Nat} (edge : child ∈ node.children) : child < s.terms.size := by
    obtain ⟨w, x, carries⟩ := settled child edge
    exact carries.below
  have same (values : Nat → Nat) :
      Term.value (s.terms.push ⟨node, width⟩) assignment values ⟨node, width⟩ =
        Term.value s.terms assignment values ⟨node, width⟩ := by
    cases node with
    | binary op a b =>
        have insideA : a < s.terms.size := inside (by simp [Node.children])
        have insideB : b < s.terms.size := inside (by simp [Node.children])
        simp only [Term.value, grown.widthOf insideA, grown.widthOf insideB]
    | _ => rfl
  refine ⟨by simp [Enumerator.add], widthOf_of_getElem? found, ?_, small⟩
  rw [← computed, ← same]
  apply denote_eq_value found
  intro child edge
  obtain ⟨w, x, carries⟩ := settled child edge
  refine ⟨carries.below, ?_⟩
  rw [grown.denote assignment carries.below, carries.denoted, valueOf_of_denote carries.denoted]

theorem yields_constant {value : Nat} {sort : BitSort} :
    Yields (Enumerator.makeConstant value sort) s assignment sort.width
      (BitVec.ofNat sort.width value).toNat := by
  have small : value % Word.bound sort.width < 2 ^ sort.width := by
    rw [Word.bound_eq_pow sort.le]
    exact Nat.mod_lt _ (Nat.two_pow_pos _)
  refine ⟨_, _, rfl, grows_add sort.le fun valid => valid_constant valid sort.pos small, rfl, ?_⟩
  rw [BitVec.toNat_ofNat, ← Word.bound_eq_pow sort.le]
  exact carries_add (by simp [Node.children]) rfl small

theorem yields_not {a width x : Nat} (fits : width ≤ Word.maxWidth)
    (operand : Carries s.terms assignment a width x) :
    Yields (Enumerator.not a) s assignment width (~~~ BitVec.ofNat width x).toNat := by
  have request : Enumerator.not a s = .ok s.terms.size (s.add (.not a) width).2 := by
    simp only [Enumerator.not, width_eq_ok operand.below, operand.sized]
    rfl
  have grown : Grows s (s.add (.not a) width).2 := by
    apply grows_add fits
    rw [← operand.sized]
    exact fun valid => valid_not valid operand.below
  refine ⟨_, _, request, grown, rfl, carries_add ?_ ?_ (BitVec.isLt _)⟩
  · simpa [Node.children] using ⟨_, _, operand⟩
  · simp only [Term.value, valueOf_of_denote operand.denoted]
    rw [Word.complement_eq fits operand.small]

theorem yields_binary {op : BinaryOp} {a b widthA widthB x y : Nat}
    (widths : Word.Operands op widthA widthB)
    (fits : Word.resultWidth op widthA widthB ≤ Word.maxWidth)
    (left : Carries s.terms assignment a widthA x) (right : Carries s.terms assignment b widthB y) :
    Yields (Enumerator.binary op a b) s assignment (Word.resultWidth op widthA widthB)
      (op.meaning widthA widthB x y) := by
  have request : Enumerator.binary op a b s =
      .ok s.terms.size (s.add (.binary op a b) (Word.resultWidth op widthA widthB)).2 := by
    simp only [Enumerator.binary, width_eq_ok left.below, width_eq_ok right.below, left.sized,
      right.sized]
    rfl
  have grown : Grows s (s.add (.binary op a b) (Word.resultWidth op widthA widthB)).2 := by
    apply grows_add fits
    rw [← left.sized, ← right.sized]
    exact fun valid => valid_binary valid op left.below right.below
  refine ⟨_, _, request, grown, rfl, carries_add ?_ ?_ (Word.meaning_lt widths x y)⟩
  · simp only [Node.children, List.mem_cons, List.not_mem_nil, or_false]
    rintro child (rfl | rfl)
    · exact ⟨_, _, left⟩
    · exact ⟨_, _, right⟩
  · simp only [Term.value, valueOf_of_denote left.denoted, valueOf_of_denote right.denoted,
      left.sized, right.sized]
    exact Word.binary_eq_ok widths left.small right.small

theorem yields_ite {condition onTrue onFalse width c x y : Nat} (fits : width ≤ Word.maxWidth)
    (test : Carries s.terms assignment condition 1 c)
    (first : Carries s.terms assignment onTrue width x)
    (second : Carries s.terms assignment onFalse width y) :
    Yields (Enumerator.ite condition onTrue onFalse) s assignment width
      (if c = 1 then x else y) := by
  have request : Enumerator.ite condition onTrue onFalse s =
      .ok s.terms.size (s.add (.ite condition onTrue onFalse) width).2 := by
    simp only [Enumerator.ite, width_eq_ok first.below, first.sized]
    rfl
  have grown : Grows s (s.add (.ite condition onTrue onFalse) width).2 := by
    apply grows_add fits
    rw [← first.sized]
    exact fun valid => valid_ite valid test.below first.below second.below
  refine ⟨_, _, request, grown, rfl, carries_add ?_ ?_ ?_⟩
  · simp only [Node.children, List.mem_cons, List.not_mem_nil, or_false]
    rintro child (rfl | rfl | rfl)
    · exact ⟨_, _, test⟩
    · exact ⟨_, _, first⟩
    · exact ⟨_, _, second⟩
  · have single : c % 2 = c := Nat.mod_eq_of_lt (by simpa using test.small)
    simp only [Term.value, valueOf_of_denote test.denoted, valueOf_of_denote first.denoted,
      valueOf_of_denote second.denoted, single]
  · split
    · exact first.small
    · exact second.small

theorem yields_slice {a wide low count x : Nat} (positive : 0 < count)
    (inside : low + count ≤ wide) (fits : wide ≤ Word.maxWidth)
    (operand : Carries s.terms assignment a wide x) :
    Yields (Enumerator.slice a (low + (count - 1)) low) s assignment count
      ((BitVec.ofNat wide x).extractLsb' low count).toNat := by
  have narrow : count ≤ Word.maxWidth := by omega
  have size : Word.sliceWidth (low + (count - 1)) low = .ok count := by
    have bits : low + (count - 1) - low + 1 = count := by omega
    rw [Word.sliceWidth, bits]
    exact narrow_eq_ok (Nat.lt_of_le_of_lt narrow (by decide))
  have request : Enumerator.slice a (low + (count - 1)) low s =
      .ok s.terms.size (s.add (.slice a (low + (count - 1)) low) count).2 := by
    simp only [Enumerator.slice, size]
    rfl
  have grown : Grows s (s.add (.slice a (low + (count - 1)) low) count).2 :=
    grows_add narrow fun valid => valid_slice valid operand.below size
  refine ⟨_, _, request, grown, rfl, carries_add ?_ ?_ (BitVec.isLt _)⟩
  · simpa [Node.children] using ⟨_, _, operand⟩
  · simp only [Term.value, valueOf_of_denote operand.denoted]
    exact Word.slice_eq positive inside fits operand.small

/-- An extension by no bits is the operand itself. -/
theorem yields_uext {a extra width x : Nat} (fits : width + extra ≤ Word.maxWidth)
    (operand : Carries s.terms assignment a width x) :
    Yields (Enumerator.uext a extra) s assignment (width + extra) x := by
  by_cases none : extra = 0
  · subst none
    refine ⟨a, s, by simp [Enumerator.uext], .refl s, rfl, operand⟩
  · have zeros : Carries (s.add (.constant 0) extra).2.terms assignment s.terms.size extra 0 :=
      carries_add (by simp [Node.children]) rfl (Nat.two_pow_pos _)
    have widths : Word.Operands .concat extra width :=
      ⟨by omega, fun other => absurd rfl other, fun _ => by omega⟩
    have total : Word.resultWidth .concat extra width = width + extra := by
      rw [Word.resultWidth_concat (widths.joint rfl), Nat.add_comm]
    have value : BinaryOp.meaning .concat extra width 0 x = x := by
      simp [BinaryOp.meaning, Nat.mod_eq_of_lt operand.small]
    have first : Grows s (s.add (.constant 0) extra).2 :=
      grows_add (by omega) fun valid =>
        valid_constant valid (Nat.pos_of_ne_zero none) (Nat.two_pow_pos _)
    have moved := operand.later first.terms
    -- After the zero bits are made, the rest is a concatenation.
    have request : Enumerator.uext a extra s =
        Enumerator.binary .concat s.terms.size a (s.add (.constant 0) extra).2 := by
      have same : min (width + extra) (narrowBound - 1) = width + extra :=
        Nat.min_eq_left (Nat.le_trans fits (by decide))
      simp only [Enumerator.uext, if_neg none, width_eq_ok operand.below, operand.sized, same,
        Enumerator.binary, width_eq_ok zeros.below, zeros.sized, width_eq_ok moved.below,
        moved.sized, total]
      rfl
    obtain ⟨t, later, run, second, vars, carries⟩ :=
      yields_binary widths (by rw [total]; exact fits) zeros moved
    rw [total, value] at carries
    exact ⟨t, later, request.trans run, first.trans second, vars, carries⟩

/-- A new variable has the value that is assigned to it. -/
theorem makeVariable_carries (name : String) (sort : BitSort)
    (small : assignment s.vars.size < 2 ^ sort.width) :
    ∃ t later, Enumerator.makeVariable name sort s = .ok t later ∧ Grows s later ∧
      later.vars = s.vars.push ⟨name, sort.width⟩ ∧
      varIndex? later.terms t = some s.vars.size ∧
      Carries later.terms assignment t sort.width (assignment s.vars.size) := by
  have found : (s.terms.push ⟨.var s.vars.size, sort.width⟩)[s.terms.size]? =
      some ⟨.var s.vars.size, sort.width⟩ := by simp
  refine ⟨s.terms.size, (Enumerator.add (.var s.vars.size) sort.width
    { s with vars := s.vars.push ⟨name, sort.width⟩ }).2, rfl, ?_, rfl,
    varIndex?_of_getElem? found, ?_⟩
  · exact ⟨.push _ _, rfl, fun valid => valid.makeVariable name sort, widthOf_push_le sort.le⟩
  · refine ⟨(Array.getElem?_eq_some_iff.mp found).1, widthOf_of_getElem? found, ?_, small⟩
    have leaf : ∀ child ∈ (Node.var s.vars.size).children, child < s.terms.size ∧
        denote (s.terms.push ⟨.var s.vars.size, sort.width⟩) assignment child = .ok (id child) := by
      simp [Node.children]
    exact denote_eq_value found leaf

end BoundedCheck.Enumerator
