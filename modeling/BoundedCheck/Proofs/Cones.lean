import Mathlib
import BoundedCheck.Proofs.Terms

/-!
# Cones and their values

The cone of some roots holds exactly the terms that the roots reach, in increasing order.  Hence
computing the values of a cone one after the other finds the values of all its terms, whatever the
array of values held before.
-/

namespace BoundedCheck.Enumerator

/-! ## Marks -/

/-- A term is marked. -/
def Marked (marks : Array Bool) (t : Nat) : Prop :=
  marks.getD t false = true

theorem Marked.lt_size {marks : Array Bool} {t : Nat} (marked : Marked marks t) :
    t < marks.size := by
  by_contra beyond
  simp [Marked, Array.getD, beyond] at marked

theorem size_mark (marks : Array Bool) (ts : List Nat) : (mark marks ts).size = marks.size := by
  unfold mark
  induction ts generalizing marks with
  | nil => rfl
  | cons t rest ih => rw [List.foldl_cons, ih, Array.size_setIfInBounds]

theorem marked_set {marks : Array Bool} {t u : Nat} :
    Marked (marks.setIfInBounds t true) u ↔ Marked marks u ∨ (u = t ∧ u < marks.size) := by
  unfold Marked
  simp only [Array.getD_eq_getD_getElem?, Array.getElem?_setIfInBounds]
  by_cases same : t = u
  · subst same
    by_cases inside : t < marks.size
    · simp [inside]
    · simp [inside]
  · have other : ¬ u = t := fun equal => same equal.symm
    simp [same, other]

theorem marked_mark {marks : Array Bool} {ts : List Nat} {u : Nat} :
    Marked (mark marks ts) u ↔ Marked marks u ∨ (u ∈ ts ∧ u < marks.size) := by
  unfold mark
  induction ts generalizing marks with
  | nil => simp
  | cons t rest ih =>
      rw [List.foldl_cons, ih, marked_set, Array.size_setIfInBounds, List.mem_cons]
      tauto

theorem not_marked_replicate {size t : Nat} : ¬ Marked (Array.replicate size false) t := by
  unfold Marked
  rw [Array.getD_eq_getD_getElem?, Array.getElem?_replicate]
  split <;> simp

/-! ## Sweeping -/

variable {terms : Array Term}

theorem size_sweep (terms : Array Term) (count : Nat) (marks : Array Bool) :
    (sweep terms count marks).size = marks.size := by
  induction count generalizing marks with
  | zero => rfl
  | succ t ih =>
      unfold sweep
      split
      · rw [ih, size_mark]
      · exact ih marks

theorem marked_sweep_of_marked {count : Nat} {marks : Array Bool} {u : Nat}
    (marked : Marked marks u) : Marked (sweep terms count marks) u := by
  induction count generalizing marks with
  | zero => exact marked
  | succ t ih =>
      unfold sweep
      split
      · exact ih (marked_mark.mpr (Or.inl marked))
      · exact ih marked

/-- A sweep marks nothing but what marked terms reach. -/
theorem reached_of_marked_sweep {count : Nat} {marks : Array Bool} {u : Nat}
    (marked : Marked (sweep terms count marks) u) :
    ∃ start, Marked marks start ∧ Reaches terms start u := by
  induction count generalizing marks with
  | zero => exact ⟨u, marked, .refl u⟩
  | succ t ih =>
      unfold sweep at marked
      split at marked
      · rename_i here
        obtain ⟨start, started, reached⟩ := ih marked
        rcases marked_mark.mp started with old | ⟨edge, -⟩
        · exact ⟨start, old, reached⟩
        · exact ⟨t, here, .step edge reached⟩
      · exact ih marked

/-- The terms from a number on have passed their marks to their children. -/
def Passed (terms : Array Term) (count : Nat) (marks : Array Bool) : Prop :=
  ∀ t, count ≤ t → Marked marks t → ∀ child ∈ children terms t, child < marks.size →
    Marked marks child

theorem passed_sweep (founded : WellFounded terms) {count : Nat} {marks : Array Bool}
    (passed : Passed terms count marks) : Passed terms 0 (sweep terms count marks) := by
  induction count generalizing marks with
  | zero => exact passed
  | succ t ih =>
      unfold sweep
      split
      · apply ih
        intro u above marked child edge inside
        rw [size_mark] at inside
        rcases marked_mark.mp marked with old | ⟨fromHere, -⟩
        · rcases Nat.eq_or_lt_of_le above with same | later
          · subst same
            exact marked_mark.mpr (Or.inr ⟨edge, inside⟩)
          · exact marked_mark.mpr (Or.inl (passed u later old child edge inside))
        · -- A child of `t` lies below `t`, so it is none of the terms swept so far.
          exact absurd (founded t u fromHere) (Nat.not_lt.mpr above)
      · rename_i unmarked
        apply ih
        intro u above marked child edge inside
        rcases Nat.eq_or_lt_of_le above with same | later
        · subst same
          exact absurd marked unmarked
        · exact passed u later marked child edge inside

theorem marked_of_reaches (founded : WellFounded terms) {marks : Array Bool}
    (passed : Passed terms 0 marks) {start target : Nat} (reached : Reaches terms start target)
    (marked : Marked marks start) : Marked marks target := by
  induction reached with
  | refl => exact marked
  | step edge _ ih =>
      have smaller := founded _ _ edge
      exact ih (passed _ (Nat.zero_le _) marked _ edge (Nat.lt_trans smaller marked.lt_size))

/-! ## Cones -/

theorem Reaches.trans {first second third : Nat} (left : Reaches terms first second)
    (right : Reaches terms second third) : Reaches terms first third := by
  induction left with
  | refl => exact right
  | step edge _ ih => exact .step edge (ih right)

/-- The cone of some roots holds the terms that they reach, and no others. -/
theorem mem_cone (founded : WellFounded terms) {roots : List Nat}
    (inside : ∀ root ∈ roots, root < terms.size) {t : Nat} :
    t ∈ cone terms roots ↔ ∃ root ∈ roots, Reaches terms root t := by
  have size : (mark (Array.replicate terms.size false) roots).size = terms.size := by
    rw [size_mark, Array.size_replicate]
  have rooted (u : Nat) :
      Marked (mark (Array.replicate terms.size false) roots) u ↔ u ∈ roots := by
    rw [marked_mark, Array.size_replicate]
    constructor
    · rintro (blank | ⟨root, -⟩)
      · exact absurd blank not_marked_replicate
      · exact root
    · exact fun root => Or.inr ⟨root, inside u root⟩
  have passed : Passed terms terms.size (mark (Array.replicate terms.size false) roots) := by
    intro u above marked
    exact absurd (size ▸ marked.lt_size) (Nat.not_lt.mpr above)
  simp only [cone, List.mem_filter, List.mem_range]
  constructor
  · rintro ⟨-, marked⟩
    obtain ⟨root, started, reached⟩ := reached_of_marked_sweep marked
    exact ⟨root, (rooted root).mp started, reached⟩
  · rintro ⟨root, member, reached⟩
    have marked := marked_of_reaches founded (passed_sweep founded passed) reached
      (marked_sweep_of_marked ((rooted root).mpr member))
    refine ⟨?_, marked⟩
    simpa only [size_sweep, size] using marked.lt_size

theorem sorted_cone (terms : Array Term) (roots : List Nat) :
    (cone terms roots).Pairwise (· < ·) :=
  List.Pairwise.filter _ List.pairwise_lt_range

/-! ## Values of a cone -/

/-- Some terms stand in increasing order, together with all that they are built from. -/
structure Ordered (terms : Array Term) (order : List Nat) : Prop where
  sorted : order.Pairwise (· < ·)
  closed : ∀ t ∈ order, ∀ child ∈ children terms t, child ∈ order
  inside : ∀ t ∈ order, t < terms.size

theorem ordered_cone (founded : WellFounded terms) {roots : List Nat}
    (inside : ∀ root ∈ roots, root < terms.size) : Ordered terms (cone terms roots) where
  sorted := sorted_cone terms roots
  closed := by
    intro t member child edge
    obtain ⟨root, rooted, reached⟩ := (mem_cone founded inside).mp member
    exact (mem_cone founded inside).mpr ⟨root, rooted, reached.trans (.step edge (.refl child))⟩
  inside := fun t member => List.mem_range.mp (List.mem_of_mem_filter member)

/-- The children of a term stand before it. -/
theorem Ordered.child_mem (founded : WellFounded terms) {before rest : List Nat} {t : Nat}
    (ordered : Ordered terms (before ++ t :: rest)) :
    ∀ child ∈ children terms t, child ∈ before := by
  intro child edge
  have smaller : child < t := founded t child edge
  rcases List.mem_append.mp (ordered.closed t (by simp) child edge) with earlier | later
  · exact earlier
  · -- Nothing from `t` on in the order is smaller than `t`.
    have above := (List.pairwise_append.mp ordered.sorted).2.1
    rcases List.mem_cons.mp later with same | later
    · omega
    · have := List.rel_of_pairwise_cons above later
      omega

theorem getD_setIfInBounds {values : Array Nat} {t u value : Nat} (inside : t < values.size) :
    (values.setIfInBounds t value).getD u 0 = if u = t then value else values.getD u 0 := by
  simp only [Array.getD_eq_getD_getElem?, Array.getElem?_setIfInBounds]
  by_cases same : t = u
  · subst same
    simp [inside]
  · have other : ¬ u = t := fun equal => same equal.symm
    simp [same, other]

/-- The terms of a list have their values in an array. -/
def Settled (terms : Array Term) (assignment values : Array Nat) (done : List Nat) : Prop :=
  ∀ t ∈ done, denote terms (assignment.getD · 0) t = .ok (values.getD t 0)

/-- The nodes of some terms can be computed, whatever the values of their children are. -/
def Evaluable (terms : Array Term) (order : List Nat) : Prop :=
  ∀ t ∈ order, ∀ term, terms[t]? = some term → ∀ assignment values : Nat → Nat,
    ∃ value, term.value terms assignment values = .ok value

/-- Values are settled from the front of the order to its end. -/
theorem evaluate_settles (founded : WellFounded terms) {assignment : Array Nat}
    {done rest : List Nat} (evaluable : Evaluable terms rest)
    (ordered : Ordered terms (done ++ rest)) {values : Array Nat}
    (size : values.size = terms.size) (settled : Settled terms assignment values done) :
    ∃ final, evaluate terms assignment rest values = .ok final ∧ final.size = terms.size ∧
      Settled terms assignment final (done ++ rest) := by
  induction rest generalizing done values with
  | nil => exact ⟨values, rfl, size, by simpa using settled⟩
  | cons t rest ih =>
      have below : t < terms.size := ordered.inside t (by simp)
      have found : terms[t]? = some terms[t] := Array.getElem?_eq_getElem below
      have before (child : Nat) (edge : child ∈ children terms t) : child < t ∧ child ∈ done :=
        ⟨founded t child edge, ordered.child_mem founded child edge⟩
      have node : denote terms (assignment.getD · 0) t =
          terms[t].value terms (assignment.getD · 0) (values.getD · 0) := by
        apply denote_eq_value found
        intro child edge
        rw [← children_of_getElem? found] at edge
        exact ⟨(before child edge).1, settled child (before child edge).2⟩
      obtain ⟨value, computed⟩ :=
        evaluable t List.mem_cons_self _ found (assignment.getD · 0) (values.getD · 0)
      have grown : Settled terms assignment (values.setIfInBounds t value) (done ++ [t]) := by
        intro u member
        rw [getD_setIfInBounds (by omega)]
        rcases List.mem_append.mp member with earlier | here
        · have smaller : u < t :=
            (List.pairwise_append.mp ordered.sorted).2.2 u earlier t (by simp)
          rw [if_neg (Nat.ne_of_lt smaller)]
          exact settled u earlier
        · rw [List.mem_singleton.mp here, if_pos rfl, node, computed]
      obtain ⟨final, run, finalSize, finalSettled⟩ := ih
        (fun u later => evaluable u (List.mem_cons_of_mem _ later)) (by simpa using ordered)
        (by rw [Array.size_setIfInBounds, size]) grown
      refine ⟨final, ?_, finalSize, by simpa using finalSettled⟩
      rw [evaluate, found]
      simp only [Term.evaluate_eq_value, computed]
      exact run

/-- Computing the values of a cone gives every term of it its value. -/
theorem evaluate_evaluable (founded : WellFounded terms) {roots : List Nat}
    (inside : ∀ root ∈ roots, root < terms.size) (evaluable : Evaluable terms (cone terms roots))
    (assignment : Array Nat) {values : Array Nat} (size : values.size = terms.size) :
    ∃ final, evaluate terms assignment (cone terms roots) values = .ok final ∧
      final.size = terms.size ∧ Settled terms assignment final (cone terms roots) := by
  have ordered : Ordered terms ([] ++ cone terms roots) := ordered_cone founded inside
  exact evaluate_settles founded evaluable ordered size
    (fun t member => absurd member List.not_mem_nil)

theorem evaluate_cone (faultless : Faultless terms) {roots : List Nat}
    (inside : ∀ root ∈ roots, root < terms.size) (assignment : Array Nat) {values : Array Nat}
    (size : values.size = terms.size) :
    ∃ final, evaluate terms assignment (cone terms roots) values = .ok final ∧
      final.size = terms.size ∧ Settled terms assignment final (cone terms roots) :=
  evaluate_evaluable faultless.founded inside (fun _ _ _ found => faultless.value_ok found)
    assignment size

end BoundedCheck.Enumerator
