import Mathlib
import BoundedCheck.Enumerator.Search
import BoundedCheck.Proofs.Cones
import BoundedCheck.Proofs.Words

/-!
# Counting through assignments

The digits of a counter run through all assignments of the free variables, and the search stops at
the first counter whose assignment satisfies the roots.  The arrays that one counter leaves behind
do not show in the answer for the next.
-/

namespace BoundedCheck.Enumerator

/-! ## Digits -/

theorem size_assign (free : List FreeVariable) (counter : Nat) (assignment : Array Nat) :
    (assign free counter assignment).size = assignment.size := by
  induction free generalizing counter assignment with
  | nil => rfl
  | cons var rest ih => rw [assign, ih, Array.size_setIfInBounds]

theorem assign_of_not_mem {free : List FreeVariable} {index : Nat}
    (absent : ∀ var ∈ free, var.index ≠ index) (counter : Nat) (assignment : Array Nat) :
    (assign free counter assignment)[index]? = assignment[index]? := by
  induction free generalizing counter assignment with
  | nil => rfl
  | cons var rest ih =>
      rw [assign, ih (fun other member => absent other (List.mem_cons_of_mem _ member)),
        Array.getElem?_setIfInBounds_ne (absent var List.mem_cons_self)]

/-- What the free variables had before does not matter. -/
theorem assign_congr {free : List FreeVariable} (counter : Nat) {first second : Array Nat}
    (size : first.size = second.size)
    (agree : ∀ index, (∀ var ∈ free, var.index ≠ index) → first[index]? = second[index]?) :
    assign free counter first = assign free counter second := by
  induction free generalizing counter first second with
  | nil =>
      apply Array.ext_getElem?
      intro index
      exact agree index (by simp)
  | cons var rest ih =>
      rw [assign, assign]
      apply ih _ (by simp [size])
      intro index absent
      rw [Array.getElem?_setIfInBounds, Array.getElem?_setIfInBounds, size]
      by_cases same : var.index = index
      · simp [same]
      · rw [if_neg same, if_neg same]
        apply agree
        intro other member
        rcases List.mem_cons.mp member with here | later
        · rw [here]
          exact same
        · exact absent other later

theorem assign_assign (free : List FreeVariable) (counter earlier : Nat) (assignment : Array Nat) :
    assign free counter (assign free earlier assignment) = assign free counter assignment :=
  assign_congr counter (size_assign free earlier assignment)
    (fun _ absent => assign_of_not_mem absent earlier assignment)

/-- The variables of a list are different ones, of word widths, and have places in an array. -/
structure Independent (free : List FreeVariable) (size : Nat) : Prop where
  distinct : (free.map FreeVariable.index).Nodup
  inside : ∀ var ∈ free, var.index < size
  narrow : ∀ var ∈ free, var.width ≤ Word.maxWidth

theorem Independent.tail {var : FreeVariable} {rest : List FreeVariable} {size : Nat}
    (independent : Independent (var :: rest) size) : Independent rest size where
  distinct := (List.nodup_cons.mp independent.distinct).2
  inside := fun other member => independent.inside other (List.mem_cons_of_mem _ member)
  narrow := fun other member => independent.narrow other (List.mem_cons_of_mem _ member)

theorem Independent.head_not_mem {var : FreeVariable} {rest : List FreeVariable} {size : Nat}
    (independent : Independent (var :: rest) size) : ∀ other ∈ rest, other.index ≠ var.index := by
  intro other member same
  apply (List.nodup_cons.mp independent.distinct).1
  exact List.mem_map.mpr ⟨other, member, same⟩

/-- The first variable gets the lowest digit. -/
theorem assign_head {var : FreeVariable} {rest : List FreeVariable} (counter : Nat)
    {assignment : Array Nat} (independent : Independent (var :: rest) assignment.size) :
    (assign (var :: rest) counter assignment).getD var.index 0 = counter % 2 ^ var.width := by
  rw [assign, Array.getD_eq_getD_getElem?, assign_of_not_mem independent.head_not_mem,
    ← Array.getD_eq_getD_getElem?,
    getD_setIfInBounds (independent.inside var List.mem_cons_self), if_pos rfl,
    Word.bound_eq_pow (independent.narrow var List.mem_cons_self)]

theorem Independent.after_set {var : FreeVariable} {rest : List FreeVariable}
    {assignment : Array Nat} (independent : Independent (var :: rest) assignment.size)
    (index value : Nat) : Independent rest (assignment.setIfInBounds index value).size := by
  rw [Array.size_setIfInBounds]
  exact independent.tail

/-- Every free variable gets a word of its width. -/
theorem assign_lt {free : List FreeVariable} (counter : Nat) {assignment : Array Nat}
    (independent : Independent free assignment.size) {var : FreeVariable} (member : var ∈ free) :
    (assign free counter assignment).getD var.index 0 < 2 ^ var.width := by
  induction free generalizing counter assignment with
  | nil => exact absurd member List.not_mem_nil
  | cons first rest ih =>
      rcases List.mem_cons.mp member with here | later
      · subst here
        rw [assign_head counter independent]
        exact Nat.mod_lt _ (Nat.two_pow_pos _)
      · exact ih _ (independent.after_set _ _) later

/-- The number whose digits are the values of the free variables. -/
def encode (target : Nat → Nat) : List FreeVariable → Nat
  | [] => 0
  | var :: rest => target var.index + encode target rest * 2 ^ var.width

/-- A counter of as many bits as the free variables have together. -/
theorem encode_lt {free : List FreeVariable} {target : Nat → Nat}
    (small : ∀ var ∈ free, target var.index < 2 ^ var.width) :
    encode target free < 2 ^ freeBits free := by
  induction free with
  | nil => simp [encode, freeBits]
  | cons var rest ih =>
      have digit : target var.index + 1 ≤ 2 ^ var.width := small var List.mem_cons_self
      have others : encode target rest + 1 ≤ 2 ^ freeBits rest :=
        ih fun other member => small other (List.mem_cons_of_mem _ member)
      have total : freeBits (var :: rest) = var.width + freeBits rest := rfl
      rw [encode, total, Nat.pow_add]
      calc target var.index + encode target rest * 2 ^ var.width
          < 2 ^ var.width + encode target rest * 2 ^ var.width := by omega
        _ = (encode target rest + 1) * 2 ^ var.width := by ring
        _ ≤ 2 ^ freeBits rest * 2 ^ var.width := Nat.mul_le_mul_right _ others
        _ = 2 ^ var.width * 2 ^ freeBits rest := Nat.mul_comm _ _

/-- The digits of an encoded assignment are the values that were encoded. -/
theorem assign_encode {free : List FreeVariable} {target : Nat → Nat} {assignment : Array Nat}
    (independent : Independent free assignment.size)
    (small : ∀ var ∈ free, target var.index < 2 ^ var.width) {var : FreeVariable}
    (member : var ∈ free) :
    (assign free (encode target free) assignment).getD var.index 0 = target var.index := by
  induction free generalizing assignment with
  | nil => exact absurd member List.not_mem_nil
  | cons first rest ih =>
      have digit : target first.index < 2 ^ first.width := small first List.mem_cons_self
      rcases List.mem_cons.mp member with here | later
      · subst here
        rw [assign_head _ independent, encode, Nat.add_mul_mod_self_right, Nat.mod_eq_of_lt digit]
      · have others : encode target (first :: rest) >>> first.width = encode target rest := by
          rw [Nat.shiftRight_eq_div_pow, encode, Nat.add_mul_div_right _ _ (Nat.two_pow_pos _),
            Nat.div_eq_of_lt digit, Nat.zero_add]
        rw [assign, others]
        exact ih (independent.after_set _ _)
          (fun other inRest => small other (List.mem_cons_of_mem _ inRest)) later

/-- The digits of a counter are read as the counter again. -/
theorem encode_assign {free : List FreeVariable} {counter : Nat} {assignment : Array Nat}
    (independent : Independent free assignment.size) (below : counter < 2 ^ freeBits free) :
    encode ((assign free counter assignment).getD · 0) free = counter := by
  induction free generalizing counter assignment with
  | nil =>
      have zero : counter = 0 := by simpa [freeBits] using below
      rw [zero, encode]
  | cons var rest ih =>
      have total : freeBits (var :: rest) = var.width + freeBits rest := rfl
      have fewer : counter >>> var.width < 2 ^ freeBits rest := by
        rw [Nat.shiftRight_eq_div_pow]
        apply Nat.div_lt_of_lt_mul
        rwa [← Nat.pow_add, ← total]
      have others : encode ((assign (var :: rest) counter assignment).getD · 0) rest =
          counter / 2 ^ var.width := by
        rw [← Nat.shiftRight_eq_div_pow]
        exact ih (independent.after_set _ _) fewer
      rw [encode, assign_head counter independent, others, Nat.mul_comm, Nat.mod_add_div]

/-! ## The search -/

/-- All roots have a value with the lowest bit set. -/
def Satisfies (terms : Array Term) (assignment : Nat → Nat) (roots : List Nat) : Prop :=
  ∀ root ∈ roots, ∃ value, denote terms assignment root = .ok value ∧ value % 2 = 1

variable {terms : Array Term} {roots : List Nat}

theorem holds_iff_satisfies (founded : WellFounded terms)
    (inside : ∀ root ∈ roots, root < terms.size) {assignment values : Array Nat}
    (settled : Settled terms assignment values (cone terms roots)) :
    holds roots values = true ↔ Satisfies terms (assignment.getD · 0) roots := by
  have value (root : Nat) (member : root ∈ roots) :
      denote terms (assignment.getD · 0) root = .ok (values.getD root 0) :=
    settled root ((mem_cone founded inside).mpr ⟨root, member, .refl root⟩)
  simp only [holds, List.all_eq_true, beq_iff_eq, Satisfies]
  constructor
  · intro odd root member
    exact ⟨_, value root member, odd root member⟩
  · intro satisfied root member
    obtain ⟨found, denoted, odd⟩ := satisfied root member
    rw [value root member] at denoted
    cases denoted
    exact odd

/-- A counter in a range whose assignment is the first to satisfy the roots. -/
structure FirstHit (terms : Array Term) (roots : List Nat) (free : List FreeVariable)
    (start : Array Nat) (counter remaining hit : Nat) : Prop where
  lower : counter ≤ hit
  upper : hit < counter + remaining
  satisfied : Satisfies terms ((assign free hit start).getD · 0) roots
  first : ∀ earlier, counter ≤ earlier → earlier < hit →
    ¬ Satisfies terms ((assign free earlier start).getD · 0) roots

/-- The search never fails; it finds the first counter that satisfies the roots, or there is none. -/
theorem search_finds (faultless : Faultless terms) (inside : ∀ root ∈ roots, root < terms.size)
    (free : List FreeVariable) (start : Array Nat) (remaining counter : Nat)
    {assignment values : Array Nat} (size : values.size = terms.size)
    (same : ∀ counter, assign free counter assignment = assign free counter start) :
    (∃ hit, FirstHit terms roots free start counter remaining hit ∧
      search terms roots (cone terms roots) free remaining counter assignment values =
        .ok (some (assign free hit start))) ∨
    ((∀ tried, counter ≤ tried → tried < counter + remaining →
        ¬ Satisfies terms ((assign free tried start).getD · 0) roots) ∧
      search terms roots (cone terms roots) free remaining counter assignment values =
        .ok none) := by
  induction remaining generalizing counter assignment values with
  | zero => exact Or.inr ⟨fun tried above below => absurd below (by omega), rfl⟩
  | succ remaining ih =>
      obtain ⟨final, run, finalSize, settled⟩ :=
        evaluate_cone faultless inside (assign free counter assignment) size
      have decided := holds_iff_satisfies faultless.founded inside settled
      rw [search]
      simp only [run]
      split
      · rename_i satisfied
        rw [same counter] at decided ⊢
        refine Or.inl ⟨counter, ?_, rfl⟩
        exact ⟨Nat.le_refl _, by omega, decided.mp satisfied,
          fun earlier above below => absurd below (by omega)⟩
      · rename_i refuted
        have missed : ¬ Satisfies terms ((assign free counter start).getD · 0) roots := by
          rw [← same counter]
          exact fun satisfied => refuted (decided.mpr satisfied)
        have later (other : Nat) : assign free other (assign free counter assignment) =
            assign free other start := by
          rw [assign_assign, same]
        rcases ih (counter + 1) finalSize later with ⟨hit, found, answer⟩ | ⟨none, answer⟩
        · refine Or.inl ⟨hit, ?_, answer⟩
          refine ⟨Nat.le_of_succ_le found.lower, by have := found.upper; omega, found.satisfied, ?_⟩
          intro earlier above below
          rcases Nat.eq_or_lt_of_le above with here | beyond
          · rw [← here]
            exact missed
          · exact found.first earlier beyond below
        · refine Or.inr ⟨?_, answer⟩
          intro tried above below
          rcases Nat.eq_or_lt_of_le above with here | beyond
          · rw [← here]
            exact missed
          · exact none tried beyond (by omega)

end BoundedCheck.Enumerator
