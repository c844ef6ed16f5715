import Mathlib
import BoundedCheck.Enumerator.History
import BoundedCheck.Proofs.Terms
import BoundedCheck.Proofs.Words

/-!
# States of the solver

Every use of the solver keeps its terms in order: a term refers to earlier ones, a variable belongs
to one term only and has its width, and what a query requires exists.  The width that the solver
keeps is that of the first term wider than a word.
-/

namespace BoundedCheck.Enumerator

/-- A term can stand at a place after the terms that it refers to. -/
def Term.Fits (vars : Array Variable) (place : Nat) (term : Term) : Prop :=
  0 < term.width ∧ (∀ child ∈ term.node.children, child < place) ∧
  match term.node with
  | .var index => ∃ var, vars[index]? = some var ∧ var.width = term.width
  | .constant value => value < 2 ^ term.width
  | .slice _ high low => Word.sliceWidth high low = .ok term.width
  | _ => True

/-- The width of the first term that is wider than a word. -/
def oversize? (terms : Array Term) : Option Nat :=
  (terms.find? fun term => Word.maxWidth < term.width).map Term.width

/-- What holds of a solver between any two uses. -/
structure Valid (s : Enumerator) : Prop where
  terms : ∀ (t : Nat) (term : Term), s.terms[t]? = some term → term.Fits s.vars t
  owned : ∀ t u index, varIndex? s.terms t = some index → varIndex? s.terms u = some index → t = u
  words : ∀ var ∈ s.vars, 0 < var.width ∧ var.width ≤ Word.maxWidth
  required : ∀ root ∈ s.roots, root < s.terms.size
  flagged : s.overflow = oversize? s.terms

namespace Valid

variable {s : Enumerator}

theorem founded (valid : Valid s) : WellFounded s.terms := by
  intro t child edge
  unfold children at edge
  split at edge
  · rename_i term found
    exact (valid.terms t term found).2.1 child edge
  · exact absurd edge List.not_mem_nil

theorem faultless (valid : Valid s) (narrow : ∀ t, widthOf s.terms t ≤ Word.maxWidth) :
    Faultless s.terms where
  founded := valid.founded
  slices := fun t _ _ _ _ found => (valid.terms t _ found).2.2
  narrow := narrow

theorem width_pos (valid : Valid s) {t : Nat} (below : t < s.terms.size) :
    0 < widthOf s.terms t := by
  have found : s.terms[t]? = some s.terms[t] := Array.getElem?_eq_getElem below
  rw [widthOf_of_getElem? found]
  exact (valid.terms t _ found).1

/-- The variable of a term exists and has the width of the term. -/
theorem declared (valid : Valid s) {t index : Nat} (named : varIndex? s.terms t = some index) :
    ∃ var, s.vars[index]? = some var ∧ var.width = widthOf s.terms t := by
  obtain ⟨width, found⟩ := varIndex?_eq_some_iff.mp named
  rw [widthOf_of_getElem? found]
  exact (valid.terms t _ found).2.2

/-- Only terms, their flag, variables and requirements matter. -/
theorem congr (valid : Valid s) {later : Enumerator} (terms : later.terms = s.terms)
    (flag : later.overflow = s.overflow) (vars : later.vars = s.vars)
    (required : ∀ root ∈ later.roots, root < s.terms.size) : Valid later where
  terms := by
    rw [terms, vars]
    exact valid.terms
  owned := by
    rw [terms]
    exact valid.owned
  words := by
    rw [vars]
    exact valid.words
  required := by
    rw [terms]
    exact required
  flagged := by
    rw [flag, terms]
    exact valid.flagged

end Valid

/-! ## New terms -/

theorem getElem?_push_cases {terms : Array Term} {term found : Term} {t : Nat}
    (present : (terms.push term)[t]? = some found) :
    terms[t]? = some found ∨ (t = terms.size ∧ found = term) := by
  rw [Array.getElem?_push] at present
  split at present
  · rename_i last
    cases present
    exact Or.inr ⟨last, rfl⟩
  · exact Or.inl present

theorem varIndex?_push_cases {terms : Array Term} {term : Term} {t index : Nat}
    (named : varIndex? (terms.push term) t = some index) :
    varIndex? terms t = some index ∨ (t = terms.size ∧ term.node = .var index) := by
  obtain ⟨width, present⟩ := varIndex?_eq_some_iff.mp named
  rcases getElem?_push_cases present with old | ⟨last, same⟩
  · exact Or.inl (varIndex?_of_getElem? old)
  · exact Or.inr ⟨last, by rw [← same]⟩

/-- A new term can only be the first wide one if there is none. -/
theorem oversize?_push (terms : Array Term) (term : Term) :
    oversize? (terms.push term) =
      (oversize? terms).or (if Word.maxWidth < term.width then some term.width else none) := by
  unfold oversize?
  rw [Array.find?_push]
  cases terms.find? fun term => Word.maxWidth < term.width with
  | some found => rfl
  | none =>
      simp only [Option.none_or, Option.map_none, decide_eq_true_eq]
      split
      · rfl
      · rfl

theorem Term.Fits.of_vars {vars later : Array Variable} {place : Nat} {term : Term}
    (fits : term.Fits vars place)
    (kept : ∀ (index : Nat) (var : Variable), vars[index]? = some var → later[index]? = some var) :
    term.Fits later place := by
  refine ⟨fits.1, fits.2.1, ?_⟩
  obtain ⟨-, -, shape⟩ := fits
  obtain ⟨node, width⟩ := term
  cases node with
  | var index =>
      obtain ⟨var, found, same⟩ := shape
      exact ⟨var, kept index var found, same⟩
  | constant value => exact shape
  | slice a high low => exact shape
  | not a => trivial
  | binary op a b => trivial
  | ite condition onTrue onFalse => trivial

variable {s : Enumerator}

/-- A solver stays valid with one more term that is not a variable. -/
theorem Valid.add (valid : Valid s) {node : Node} {width : Nat}
    (fits : Term.Fits s.vars s.terms.size ⟨node, width⟩) (plain : ∀ index, node ≠ .var index) :
    Valid (s.add node width).2 where
  terms := by
    intro t term present
    rcases getElem?_push_cases present with old | ⟨last, same⟩
    · exact valid.terms t term old
    · rw [last, same]
      exact fits
  owned := by
    intro t u index first second
    rcases varIndex?_push_cases first with first | ⟨-, isVar⟩
    · rcases varIndex?_push_cases second with second | ⟨-, isVar⟩
      · exact valid.owned t u index first second
      · exact absurd isVar (plain index)
    · exact absurd isVar (plain index)
  words := valid.words
  required := by
    intro root member
    have below := valid.required root member
    simp only [Enumerator.add, Array.size_push]
    omega
  flagged := by
    simp only [Enumerator.add, oversize?_push, valid.flagged]

/-- A new variable has a term of its own. -/
theorem Valid.makeVariable (valid : Valid s) (name : String) (sort : BitSort) :
    Valid (Enumerator.add (.var s.vars.size) sort.width
      { s with vars := s.vars.push ⟨name, sort.width⟩ }).2 where
  terms := by
    intro t term present
    rcases getElem?_push_cases present with old | ⟨last, same⟩
    · apply (valid.terms t term old).of_vars
      intro index var found
      have inside := (Array.getElem?_eq_some_iff.mp found).1
      have kept : (s.vars.push ⟨name, sort.width⟩)[index]? = some var := by
        rw [Array.getElem?_push, if_neg (Nat.ne_of_lt inside), found]
      exact kept
    · rw [last, same]
      exact ⟨sort.pos, by simp [Node.children], ⟨name, sort.width⟩, Array.getElem?_push_size, rfl⟩
  owned := by
    -- The variables of the old terms are numbered below the new one.
    have older {t index : Nat} (named : varIndex? s.terms t = some index) :
        index ≠ s.vars.size := by
      obtain ⟨var, found, -⟩ := valid.declared named
      exact Nat.ne_of_lt (Array.getElem?_eq_some_iff.mp found).1
    intro t u index first second
    rcases varIndex?_push_cases first with first | ⟨lastT, sameT⟩
    · rcases varIndex?_push_cases second with second | ⟨-, same⟩
      · exact valid.owned t u index first second
      · cases same
        exact absurd rfl (older first)
    · cases sameT
      rcases varIndex?_push_cases second with second | ⟨lastU, -⟩
      · exact absurd rfl (older second)
      · rw [lastT, lastU]
  words := by
    intro var member
    rcases Array.mem_push.mp member with old | new
    · exact valid.words var old
    · rw [new]
      exact ⟨sort.pos, sort.le⟩
  required := by
    intro root member
    have below := valid.required root member
    simp only [Enumerator.add, Array.size_push]
    omega
  flagged := by
    simp only [Enumerator.add, oversize?_push, valid.flagged]

/-! ## Operators -/

theorem width_eq_ok {t : Nat} (below : t < s.terms.size) : s.width t = .ok (widthOf s.terms t) := by
  have found : s.terms[t]? = some s.terms[t] := Array.getElem?_eq_getElem below
  simp [Enumerator.width, found, widthOf_of_getElem? found]

theorem resultWidth_pos (op : BinaryOp) {left right : Nat} (positive : 0 < left) :
    0 < Word.resultWidth op left right := by
  unfold Word.resultWidth narrowBound
  split
  · exact Nat.one_pos
  · split <;> omega

theorem sliceWidth_pos {high low width : Nat} (fits : Word.sliceWidth high low = .ok width) :
    0 < width := by
  unfold Word.sliceWidth narrow at fits
  split at fits
  · cases fits
    exact Nat.succ_pos _
  · cases fits

theorem valid_not (valid : Valid s) {a : Nat} (below : a < s.terms.size) :
    Valid (s.add (.not a) (widthOf s.terms a)).2 :=
  valid.add ⟨valid.width_pos below, by simpa [Node.children] using below, trivial⟩ (by simp)

theorem valid_binary (valid : Valid s) (op : BinaryOp) {a b : Nat} (belowA : a < s.terms.size)
    (belowB : b < s.terms.size) :
    Valid (s.add (.binary op a b)
      (Word.resultWidth op (widthOf s.terms a) (widthOf s.terms b))).2 :=
  valid.add ⟨resultWidth_pos op (valid.width_pos belowA),
    by simp [Node.children, belowA, belowB], trivial⟩ (by simp)

theorem valid_ite (valid : Valid s) {condition onTrue onFalse : Nat}
    (belowC : condition < s.terms.size) (belowT : onTrue < s.terms.size)
    (belowF : onFalse < s.terms.size) :
    Valid (s.add (.ite condition onTrue onFalse) (widthOf s.terms onTrue)).2 :=
  valid.add ⟨valid.width_pos belowT, by simp [Node.children, belowC, belowT, belowF], trivial⟩
    (by simp)

theorem valid_slice (valid : Valid s) {a high low width : Nat} (below : a < s.terms.size)
    (fits : Word.sliceWidth high low = .ok width) : Valid (s.add (.slice a high low) width).2 :=
  valid.add ⟨sliceWidth_pos fits, by simpa [Node.children] using below, fits⟩ (by simp)

theorem valid_constant (valid : Valid s) {value width : Nat} (positive : 0 < width)
    (small : value < 2 ^ width) : Valid (s.add (.constant value) width).2 :=
  valid.add ⟨positive, by simp [Node.children], small⟩ (by simp)

/-- The two terms of an extension: the zero bits, and their concatenation with the operand. -/
theorem valid_uext (valid : Valid s) {a extra : Nat} (positive : extra ≠ 0)
    (below : a < s.terms.size) :
    Valid ((s.add (.constant 0) extra).2.add (.binary .concat s.terms.size a)
      (min (widthOf s.terms a + extra) (narrowBound - 1))).2 := by
  have zeros : Valid (s.add (.constant 0) extra).2 :=
    valid_constant valid (Nat.pos_of_ne_zero positive) (Nat.two_pow_pos _)
  apply zeros.add _ (by simp)
  refine ⟨?_, ?_, trivial⟩
  · simp only [narrowBound]
    omega
  · simp only [Node.children, Enumerator.add, Array.size_push]
    intro child member
    simp only [List.mem_cons, List.not_mem_nil, or_false] at member
    omega

/-! ## Reachable states -/

theorem mem_roots_assume {t root : Nat} : root ∈ (s.assume t).roots ↔ root ∈ s.roots ∨ root = t := by
  simp [roots, Enumerator.assume, or_assoc]

theorem mem_roots_assert {t root : Nat} : root ∈ (s.assert t).roots ↔ root ∈ s.roots ∨ root = t := by
  simp only [roots, Enumerator.assert, Array.toList_push, List.mem_append, List.mem_singleton]
  tauto

/-- An action keeps the solver valid. -/
theorem Valid.perform (valid : Valid s) {action : Action}
    (existing : ∀ t ∈ action.operands, t < s.terms.size) : Valid (action.perform s) := by
  cases action with
  | makeSort width =>
      simp only [Action.perform, Enumerator.makeSort]
      split <;> exact valid
  | makeVariable name sort => exact valid.makeVariable name sort
  | makeConstant value sort =>
      apply valid_constant valid sort.pos
      rw [Word.bound_eq_pow sort.le]
      exact Nat.mod_lt _ (Nat.two_pow_pos _)
  | assume t =>
      refine valid.congr rfl rfl rfl ?_
      intro root member
      rcases mem_roots_assume.mp member with old | new
      · exact valid.required root old
      · rw [new]
        exact existing t (by simp [Action.operands])
  | assert t =>
      refine valid.congr rfl rfl rfl ?_
      intro root member
      rcases mem_roots_assert.mp member with old | new
      · exact valid.required root old
      · rw [new]
        exact existing t (by simp [Action.operands])
  | push => exact valid.congr rfl rfl rfl valid.required
  | pop =>
      simp only [Action.perform, Enumerator.pop]
      split
      · exact valid
      · refine valid.congr rfl rfl rfl ?_
        intro root member
        rcases List.mem_append.mp member with kept | assumed
        · rw [← Array.shrink_eq_take, Array.toList_shrink] at kept
          exact valid.required root (List.mem_append_left _ (List.mem_of_mem_take kept))
        · exact valid.required root (List.mem_append_right _ assumed)
  | checkSat =>
      have fewer : ∀ root ∈ s.assertions.toList ++ (#[] : Array Nat).toList, root < s.terms.size := by
        intro root member
        exact valid.required root (List.mem_append_left _ (by simpa using member))
      simp only [Action.perform, Enumerator.checkSat]
      split <;> exact valid.congr rfl rfl rfl fewer
  | getModel =>
      simp only [Action.perform, Enumerator.getModel]
      split <;> exact valid
  | not a =>
      have below : a < s.terms.size := existing a (by simp [Action.operands])
      simp only [Action.perform, Enumerator.not, width_eq_ok below]
      exact valid_not valid below
  | binary op a b =>
      have belowA : a < s.terms.size := existing a (by simp [Action.operands])
      have belowB : b < s.terms.size := existing b (by simp [Action.operands])
      simp only [Action.perform, Enumerator.binary, width_eq_ok belowA, width_eq_ok belowB]
      exact valid_binary valid op belowA belowB
  | ite condition onTrue onFalse =>
      have belowC : condition < s.terms.size := existing condition (by simp [Action.operands])
      have belowT : onTrue < s.terms.size := existing onTrue (by simp [Action.operands])
      have belowF : onFalse < s.terms.size := existing onFalse (by simp [Action.operands])
      simp only [Action.perform, Enumerator.ite, width_eq_ok belowT]
      exact valid_ite valid belowC belowT belowF
  | uext a extra =>
      have below : a < s.terms.size := existing a (by simp [Action.operands])
      simp only [Action.perform, Enumerator.uext]
      split
      · exact valid
      · rename_i positive
        simp only [width_eq_ok below]
        exact valid_uext valid positive below
  | slice a high low =>
      have below : a < s.terms.size := existing a (by simp [Action.operands])
      simp only [Action.perform, Enumerator.slice]
      split
      · exact valid
      · rename_i width fits
        exact valid_slice valid below fits

/-- No action changes the limit that the solver was made with. -/
theorem freeBitLimit_perform (s : Enumerator) (action : Action) :
    (action.perform s).freeBitLimit = s.freeBitLimit := by
  cases action <;>
    simp only [Action.perform, Enumerator.makeSort, Enumerator.pop, Enumerator.checkSat,
      Enumerator.getModel, Enumerator.not, Enumerator.binary, Enumerator.ite, Enumerator.uext,
      Enumerator.slice] <;>
    repeat' split
  all_goals rfl

theorem Reachable.valid {limit : Nat} (reachable : Reachable limit s) : Valid s := by
  induction reachable with
  | start =>
      refine ⟨?_, ?_, ?_, ?_, rfl⟩
      · intro t term found
        simp at found
      · intro t u index named
        simp [varIndex?] at named
      · intro var member
        simp at member
      · intro root member
        simp [roots] at member
  | act action _ existing ih => exact ih.perform existing

/-- In all histories the flag holds the width of the first term that is wider than a word. -/
theorem Reachable.overflow_eq {limit : Nat} (reachable : Reachable limit s) :
    s.overflow = oversize? s.terms :=
  reachable.valid.flagged

theorem Reachable.freeBitLimit_eq {limit : Nat} (reachable : Reachable limit s) :
    s.freeBitLimit = limit := by
  induction reachable with
  | start => rfl
  | act action _ _ ih => rw [freeBitLimit_perform, ih]

/-! ## The order of events -/

/-- A state can be followed by another. -/
inductive Leads : Enumerator → Enumerator → Prop where
  | refl (s : Enumerator) : Leads s s
  | act {s later : Enumerator} (action : Action) : Leads s later →
      (∀ t ∈ action.operands, t < later.terms.size) → Leads s (action.perform later)

/-- Actions only add terms. -/
theorem extends_perform (s : Enumerator) (action : Action) :
    Extends s.terms (action.perform s).terms := by
  cases action <;>
    simp only [Action.perform, Enumerator.makeSort, Enumerator.pop, Enumerator.checkSat,
      Enumerator.getModel, Enumerator.not, Enumerator.binary, Enumerator.ite, Enumerator.uext,
      Enumerator.slice] <;>
    repeat' split
  all_goals first
    | exact .refl _
    | exact .push _ _
    | exact (Extends.push _ _).trans (.push _ _)

/-- What was a term once is the same term ever after. -/
theorem Leads.terms {s later : Enumerator} (leads : Leads s later) :
    Extends s.terms later.terms := by
  induction leads with
  | refl => exact .refl _
  | act action _ _ ih => exact ih.trans (extends_perform _ action)

end BoundedCheck.Enumerator
