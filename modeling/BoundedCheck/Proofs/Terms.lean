import Mathlib
import BoundedCheck.Enumerator.Cone
import BoundedCheck.Enumerator.Evaluation

/-!
# Denotations of terms

The value of a term is that of its node on the values of its children.  It is kept when terms are
added behind it, and it depends on no variable but those that the term reaches.
-/

namespace BoundedCheck.Enumerator

/-- The value of a term, given that of each child. -/
def Term.value (terms : Array Term) (assignment values : Nat → Nat) (term : Term) :
    Except Fault Nat :=
  match term.node with
  | .var index => .ok (assignment index)
  | .constant value => .ok value
  | .not a => .ok (Word.complement (values a) term.width)
  | .binary op a b => Word.binary op (values a) (values b) (widthOf terms a) (widthOf terms b)
  | .ite condition onTrue onFalse =>
    .ok (if values condition % 2 = 1 then values onTrue else values onFalse)
  | .slice a high low => Word.slice (values a) high low

theorem Term.evaluate_eq_value (terms : Array Term) (assignment values : Array Nat) (term : Term) :
    term.evaluate terms assignment values =
      term.value terms (assignment.getD · 0) (values.getD · 0) := by
  unfold Term.evaluate Term.value
  cases term.node <;> rfl

theorem children_of_getElem? {terms : Array Term} {t : Nat} {term : Term}
    (found : terms[t]? = some term) : children terms t = term.node.children := by
  simp [children, found]

theorem widthOf_of_getElem? {terms : Array Term} {t : Nat} {term : Term}
    (found : terms[t]? = some term) : widthOf terms t = term.width := by
  simp [widthOf, found]

theorem varIndex?_of_getElem? {terms : Array Term} {t index width : Nat}
    (found : terms[t]? = some ⟨.var index, width⟩) : varIndex? terms t = some index := by
  simp [varIndex?, found]

theorem varIndex?_eq_some_iff {terms : Array Term} {t index : Nat} :
    varIndex? terms t = some index ↔ ∃ width, terms[t]? = some ⟨.var index, width⟩ := by
  constructor
  · intro named
    unfold varIndex? at named
    split at named
    · rename_i own width found
      cases named
      exact ⟨width, found⟩
    · cases named
  · rintro ⟨width, found⟩
    exact varIndex?_of_getElem? found

/-- A term has the value of its node on the values of its children. -/
theorem denote_eq_value {terms : Array Term} {assignment values : Nat → Nat} {t : Nat} {term : Term}
    (found : terms[t]? = some term)
    (settled : ∀ child ∈ term.node.children,
      child < t ∧ denote terms assignment child = .ok (values child)) :
    denote terms assignment t = term.value terms assignment values := by
  obtain ⟨node, width⟩ := term
  rw [denote, found]
  cases node with
  | var index => rfl
  | constant value => rfl
  | not a =>
      obtain ⟨below, value⟩ := settled a (by simp [Node.children])
      simp [below, value, Term.value, Except.map]
  | slice a high low =>
      obtain ⟨below, value⟩ := settled a (by simp [Node.children])
      simp [below, value, Term.value, Except.bind]
  | binary op a b =>
      obtain ⟨belowA, valueA⟩ := settled a (by simp [Node.children])
      obtain ⟨belowB, valueB⟩ := settled b (by simp [Node.children])
      simp [belowA, valueA, belowB, valueB, Term.value]
  | ite condition onTrue onFalse =>
      obtain ⟨belowC, valueC⟩ := settled condition (by simp [Node.children])
      obtain ⟨belowT, valueT⟩ := settled onTrue (by simp [Node.children])
      obtain ⟨belowF, valueF⟩ := settled onFalse (by simp [Node.children])
      simp [belowC, valueC, belowT, valueT, belowF, valueF, Term.value]

/-- The value of a term, or zero for a term without one. -/
def valueOf (terms : Array Term) (assignment : Nat → Nat) (t : Nat) : Nat :=
  (denote terms assignment t).toOption.getD 0

theorem valueOf_of_denote {terms : Array Term} {assignment : Nat → Nat} {t value : Nat}
    (denoted : denote terms assignment t = .ok value) : valueOf terms assignment t = value := by
  rw [valueOf, denoted]
  rfl

/-! ## Added terms -/

/-- Another array starts with the given terms. -/
def Extends (terms later : Array Term) : Prop :=
  terms.size ≤ later.size ∧ ∀ t, t < terms.size → later[t]? = terms[t]?

namespace Extends

theorem refl (terms : Array Term) : Extends terms terms :=
  ⟨Nat.le_refl _, fun _ _ => rfl⟩

theorem trans {first second third : Array Term} (left : Extends first second)
    (right : Extends second third) : Extends first third := by
  refine ⟨Nat.le_trans left.1 right.1, fun t below => ?_⟩
  rw [right.2 t (Nat.lt_of_lt_of_le below left.1), left.2 t below]

theorem push (terms : Array Term) (term : Term) : Extends terms (terms.push term) := by
  refine ⟨by simp, fun t below => ?_⟩
  rw [Array.getElem?_push, if_neg (Nat.ne_of_lt below)]

variable {terms later : Array Term}

theorem getElem? (grown : Extends terms later) {t : Nat} {term : Term}
    (found : terms[t]? = some term) : later[t]? = some term := by
  rw [grown.2 t (Array.getElem?_eq_some_iff.mp found).1, found]

theorem widthOf (grown : Extends terms later) {t : Nat} (below : t < terms.size) :
    widthOf later t = Enumerator.widthOf terms t := by
  unfold Enumerator.widthOf
  rw [grown.2 t below]

/-- Terms keep their values when others are added. -/
theorem denote (grown : Extends terms later) (assignment : Nat → Nat) {t : Nat}
    (below : t < terms.size) :
    denote later assignment t = Enumerator.denote terms assignment t := by
  induction t using Nat.strong_induction_on with
  | _ t ih =>
    have child {c : Nat} (smaller : c < t) :
        Enumerator.denote later assignment c = Enumerator.denote terms assignment c :=
      ih c smaller (Nat.lt_trans smaller below)
    have size {c : Nat} (smaller : c < t) :
        Enumerator.widthOf later c = Enumerator.widthOf terms c :=
      grown.widthOf (Nat.lt_trans smaller below)
    rw [Enumerator.denote, Enumerator.denote, grown.2 t below]
    cases terms[t]? with
    | none => rfl
    | some term =>
      obtain ⟨node, width⟩ := term
      cases node with
      | var index => rfl
      | constant value => rfl
      | not a =>
          by_cases smaller : a < t
          · simp only [if_pos smaller, child smaller]
          · simp only [if_neg smaller]
      | slice a high low =>
          by_cases smaller : a < t
          · simp only [if_pos smaller, child smaller]
          · simp only [if_neg smaller]
      | binary op a b =>
          by_cases smaller : a < t ∧ b < t
          · simp only [if_pos smaller, child smaller.1, child smaller.2, size smaller.1,
              size smaller.2]
          · simp only [if_neg smaller]
      | ite condition onTrue onFalse =>
          by_cases smaller : condition < t ∧ onTrue < t ∧ onFalse < t
          · simp only [if_pos smaller, child smaller.1, child smaller.2.1, child smaller.2.2]
          · simp only [if_neg smaller]

end Extends

/-! ## Variables of a term -/

/-- A variable stands somewhere in a term. -/
def OccursIn (terms : Array Term) (index t : Nat) : Prop :=
  ∃ place, Reaches terms t place ∧ varIndex? terms place = some index

theorem OccursIn.of_child {terms : Array Term} {index t c : Nat} (edge : c ∈ children terms t)
    (occurs : OccursIn terms index c) : OccursIn terms index t := by
  obtain ⟨place, reached, named⟩ := occurs
  exact ⟨place, .step edge reached, named⟩

/-- Assignments that agree on the variables of a term give it the same value. -/
theorem denote_congr {terms : Array Term} {first second : Nat → Nat} {t : Nat}
    (agree : ∀ index, OccursIn terms index t → first index = second index) :
    denote terms first t = denote terms second t := by
  induction t using Nat.strong_induction_on with
  | _ t ih =>
    rw [denote, denote]
    cases found : terms[t]? with
    | none => rfl
    | some term =>
      obtain ⟨node, width⟩ := term
      have child {c : Nat} (smaller : c < t) (edge : c ∈ node.children) :
          denote terms first c = denote terms second c := by
        rw [← children_of_getElem? found] at edge
        exact ih c smaller fun index occurs => agree index (occurs.of_child edge)
      cases node with
      | var index =>
          have own : OccursIn terms index t := ⟨t, .refl t, varIndex?_of_getElem? found⟩
          simp only [agree index own]
      | constant value => rfl
      | not a =>
          by_cases smaller : a < t
          · simp only [if_pos smaller, child smaller (by simp [Node.children])]
          · simp only [if_neg smaller]
      | slice a high low =>
          by_cases smaller : a < t
          · simp only [if_pos smaller, child smaller (by simp [Node.children])]
          · simp only [if_neg smaller]
      | binary op a b =>
          by_cases smaller : a < t ∧ b < t
          · simp only [if_pos smaller, child smaller.1 (by simp [Node.children]),
              child smaller.2 (by simp [Node.children])]
          · simp only [if_neg smaller]
      | ite condition onTrue onFalse =>
          by_cases smaller : condition < t ∧ onTrue < t ∧ onFalse < t
          · simp only [if_pos smaller, child smaller.1 (by simp [Node.children]),
              child smaller.2.1 (by simp [Node.children]),
              child smaller.2.2 (by simp [Node.children])]
          · simp only [if_neg smaller]

/-! ## Terms without faults -/

/-- Terms in which every node can be computed from its children. -/
structure Faultless (terms : Array Term) : Prop where
  founded : WellFounded terms
  slices : ∀ t a high low width : Nat, terms[t]? = some ⟨.slice a high low, width⟩ →
    Word.sliceWidth high low = .ok width
  narrow : ∀ t, widthOf terms t ≤ Word.maxWidth

/-- A node can be computed from narrow children. -/
theorem Term.value_ok {terms : Array Term} {term : Term}
    (slices : ∀ a high low : Nat, term.node = .slice a high low →
      Word.sliceWidth high low = .ok term.width)
    (narrow : ∀ child ∈ term.node.children, widthOf terms child ≤ Word.maxWidth)
    (assignment values : Nat → Nat) :
    ∃ value, term.value terms assignment values = .ok value := by
  obtain ⟨node, width⟩ := term
  cases node with
  | var index => exact ⟨_, rfl⟩
  | constant value => exact ⟨_, rfl⟩
  | not a => exact ⟨_, rfl⟩
  | ite condition onTrue onFalse => exact ⟨_, rfl⟩
  | binary op a b =>
      simp only [Term.value, Word.binary,
        Word.fault?_eq_none (narrow a (by simp [Node.children]))]
      exact ⟨_, rfl⟩
  | slice a high low =>
      simp only [Term.value, Word.slice, slices a high low rfl]
      exact ⟨_, rfl⟩

theorem Faultless.value_ok {terms : Array Term} (faultless : Faultless terms) {t : Nat}
    {term : Term} (found : terms[t]? = some term) (assignment values : Nat → Nat) :
    ∃ value, term.value terms assignment values = .ok value := by
  refine Term.value_ok ?_ (fun child _ => faultless.narrow child) assignment values
  obtain ⟨node, width⟩ := term
  rintro a high low rfl
  exact faultless.slices t a high low width found

end BoundedCheck.Enumerator
