import Mathlib
import BoundedCheck.Proofs.MachineSearch

/-!
# Traversals

A machine can also find a cone by going from the roots to their children, with a stack of terms that
are still to be visited.  The stack may grow and may hold a term many times.  But every round takes
one term from it, and every term puts its children there once, so that the number of rounds is known
beforehand.  What the traversal has seen at its end is the cone.
-/

namespace BoundedCheck.Machine

open Enumerator (Term WellFounded Reaches Marked children)

/-- The terms that a traversal has seen, and those that it has yet to visit, the next one first. -/
structure Traversal where
  seen : Array Bool
  pending : List Nat
  deriving DecidableEq, Repr

namespace Traversal

/-- The traversal of some roots before its first round, which visits the last root. -/
def start (terms : Array Term) (roots : List Nat) : Traversal :=
  ⟨Array.replicate terms.size false, roots.reverse⟩

/--
One round, as long as a term is pending.  A term that was seen before is only dropped; any other one
is seen now, and its children are pending.
-/
def next (terms : Array Term) : Traversal → Except Fault (Option Traversal)
  | ⟨_, []⟩ => .ok none
  | ⟨seen, t :: rest⟩ => do
    if ← fetch seen t then return some ⟨seen, rest⟩
    else
      let seen ← store seen t true
      let term ← fetch terms t
      return some ⟨seen, term.node.children.reverse ++ rest⟩

/-- The terms that were seen, in increasing order. -/
def order (traversal : Traversal) : List Nat :=
  (List.range traversal.seen.size).filter fun t => traversal.seen.getD t false

/-- How a traversal ends, and after how many rounds. -/
inductive Ends (terms : Array Term) : Traversal → Nat → Except Fault Traversal → Prop where
  | done {traversal : Traversal} : next terms traversal = .ok none →
      Ends terms traversal 0 (.ok traversal)
  | fault {traversal : Traversal} {fault : Fault} : next terms traversal = .error fault →
      Ends terms traversal 0 (.error fault)
  | round {traversal after : Traversal} {rounds : Nat} {result : Except Fault Traversal} :
      next terms traversal = .ok (some after) → Ends terms after rounds result →
      Ends terms traversal (rounds + 1) result

/-! ## Rounds -/

variable {terms : Array Term} {roots : List Nat} {traversal after : Traversal} {rounds : Nat}
  {result : Except Fault Traversal}

/-- What a round can come to. -/
inductive Round (terms : Array Term) : Traversal → Except Fault (Option Traversal) → Prop where
  | empty {seen : Array Bool} : Round terms ⟨seen, []⟩ (.ok none)
  | beyond {seen : Array Bool} {t : Nat} {rest : List Nat} :
      ¬ (t < seen.size ∧ t < terms.size) → Round terms ⟨seen, t :: rest⟩ (.error .index)
  | again {seen : Array Bool} {t : Nat} {rest : List Nat} :
      Marked seen t → Round terms ⟨seen, t :: rest⟩ (.ok (some ⟨seen, rest⟩))
  | visit {seen : Array Bool} {t : Nat} {rest : List Nat} :
      ¬ Marked seen t → t < seen.size → t < terms.size → Round terms ⟨seen, t :: rest⟩
        (.ok (some ⟨seen.setIfInBounds t true, (children terms t).reverse ++ rest⟩))

theorem round_next (terms : Array Term) (traversal : Traversal) :
    Round terms traversal (next terms traversal) := by
  obtain ⟨seen, pending⟩ := traversal
  cases pending with
  | nil => exact .empty
  | cons t rest =>
      rw [next]
      by_cases inside : t < seen.size
      · rw [fetch_getD inside false]
        by_cases marked : seen.getD t false = true
        · simp only [bind, Except.bind, marked, if_true]
          exact .again marked
        · simp only [bind, Except.bind, marked, store_eq_ok inside]
          by_cases below : t < terms.size
          · have visited : Round terms ⟨seen, t :: rest⟩ _ := .visit marked inside below
            rw [Enumerator.children_of_getElem? (Array.getElem?_eq_getElem below)] at visited
            rw [fetch_eq_ok below]
            exact visited
          · rw [fetch_eq_error below]
            exact .beyond fun both => below both.2
      · rw [fetch_eq_error inside]
        exact .beyond fun both => inside both.1

theorem round_of_eq {outcome : Except Fault (Option Traversal)}
    (ran : next terms traversal = outcome) : Round terms traversal outcome :=
  ran ▸ round_next terms traversal

/-! ## The number of rounds -/

/-- The number of pending terms, and of children of the terms that were not seen yet. -/
def budget (terms : Array Term) (traversal : Traversal) : Nat :=
  traversal.pending.length +
    ∑ t ∈ Finset.range terms.size with traversal.seen.getD t false = false,
      (children terms t).length

/-- A term that is seen is no longer among the others. -/
theorem unseen_set {seen : Array Bool} {t : Nat} (inside : t < seen.size) (size : Nat) :
    {u ∈ Finset.range size | (seen.setIfInBounds t true).getD u false = false} =
      {u ∈ Finset.range size | seen.getD u false = false}.erase t := by
  ext u
  simp only [Finset.mem_filter, Finset.mem_erase, Bool.eq_false_iff]
  change u ∈ Finset.range size ∧ ¬ Marked _ u ↔ u ≠ t ∧ u ∈ Finset.range size ∧ ¬ Marked seen u
  rw [Enumerator.marked_set]
  by_cases same : u = t
  · subst same
    simp [inside]
  · simp [same]

theorem budget_next (ran : next terms traversal = .ok (some after)) :
    budget terms traversal = budget terms after + 1 := by
  cases round_of_eq ran with
  | again =>
      simp only [budget, List.length_cons]
      omega
  | @visit seen t rest unmarked inside below =>
      have waiting : t ∈ {u ∈ Finset.range terms.size | seen.getD u false = false} :=
        Finset.mem_filter.mpr ⟨Finset.mem_range.mpr below, Bool.eq_false_iff.mpr unmarked⟩
      have paid := Finset.add_sum_erase _ (fun u => (children terms u).length) waiting
      simp only [budget, unseen_set inside, List.length_cons, List.length_append,
        List.length_reverse]
      omega

/-- Every traversal ends, whatever its terms refer to. -/
theorem exists_ends (terms : Array Term) (traversal : Traversal) :
    ∃ rounds result, Ends terms traversal rounds result := by
  -- The budget pays for each round, and nothing is added to it.
  induction left : budget terms traversal using Nat.strong_induction_on generalizing traversal with
  | _ left ih =>
      cases ran : next terms traversal with
      | error fault => exact ⟨0, .error fault, .fault ran⟩
      | ok advanced =>
          cases advanced with
          | none => exact ⟨0, .ok traversal, .done ran⟩
          | some after =>
              have paid := budget_next ran
              obtain ⟨rounds, result, ended⟩ := ih (budget terms after) (by omega) after rfl
              exact ⟨rounds + 1, result, .round ran ended⟩

/-! ## What a traversal has met -/

/-- A term was seen or will be visited. -/
def Met (traversal : Traversal) (t : Nat) : Prop :=
  Marked traversal.seen t ∨ t ∈ traversal.pending

theorem met_again {seen : Array Bool} {t u : Nat} {rest : List Nat} (marked : Marked seen t) :
    Met ⟨seen, rest⟩ u ↔ Met ⟨seen, t :: rest⟩ u := by
  simp only [Met, List.mem_cons]
  constructor
  · rintro (before | later)
    · exact .inl before
    · exact .inr (.inr later)
  · rintro (before | rfl | later)
    · exact .inl before
    · exact .inl marked
    · exact .inr later

theorem met_visit {seen : Array Bool} {t u : Nat} {rest : List Nat} (inside : t < seen.size) :
    Met ⟨seen.setIfInBounds t true, (children terms t).reverse ++ rest⟩ u ↔
      Met ⟨seen, t :: rest⟩ u ∨ u ∈ children terms t := by
  simp only [Met, Enumerator.marked_set, List.mem_append, List.mem_reverse, List.mem_cons]
  constructor
  · rintro ((before | ⟨here, -⟩) | edge | later)
    · exact .inl (.inl before)
    · exact .inl (.inr (.inl here))
    · exact .inr edge
    · exact .inl (.inr (.inr later))
  · rintro ((before | rfl | later) | edge)
    · exact .inl (.inl before)
    · exact .inl (.inr ⟨rfl, inside⟩)
    · exact .inr (.inr later)
    · exact .inr (.inl edge)

/--
What holds between two rounds: only terms that the roots reach are met, all roots are met, and so
are the children of the terms that were seen.
-/
structure Sound (terms : Array Term) (roots : List Nat) (traversal : Traversal) : Prop where
  size : traversal.seen.size = terms.size
  inside : ∀ t ∈ traversal.pending, t < terms.size
  reached : ∀ t, traversal.Met t → ∃ root ∈ roots, Reaches terms root t
  rooted : ∀ root ∈ roots, traversal.Met root
  passed : ∀ t, Marked traversal.seen t → ∀ child ∈ children terms t, traversal.Met child

theorem sound_start (inside : ∀ root ∈ roots, root < terms.size) :
    Sound terms roots (start terms roots) where
  size := Array.size_replicate
  inside := fun t member => inside t (List.mem_reverse.mp member)
  reached := by
    rintro t (marked | member)
    · exact absurd marked Enumerator.not_marked_replicate
    · exact ⟨t, List.mem_reverse.mp member, .refl t⟩
  rooted := fun root member => .inr (List.mem_reverse.mpr member)
  passed := fun t marked => absurd marked Enumerator.not_marked_replicate

theorem Sound.kept (founded : WellFounded terms) (sound : Sound terms roots traversal)
    (ran : next terms traversal = .ok (some after)) : Sound terms roots after := by
  cases round_of_eq ran with
  | again marked =>
      refine ⟨sound.size, ?_, ?_, ?_, ?_⟩
      · exact fun u later => sound.inside u (List.mem_cons_of_mem _ later)
      · exact fun u met => sound.reached u ((met_again marked).mp met)
      · exact fun root member => (met_again marked).mpr (sound.rooted root member)
      · exact fun u old child edge => (met_again marked).mpr (sound.passed u old child edge)
  | @visit seen t rest unmarked inside below =>
      refine ⟨Array.size_setIfInBounds.trans sound.size, ?_, ?_, ?_, ?_⟩
      · intro u member
        rcases List.mem_append.mp member with edge | later
        · exact Nat.lt_trans (founded t u (List.mem_reverse.mp edge)) below
        · exact sound.inside u (List.mem_cons_of_mem _ later)
      · intro u met
        rcases (met_visit inside).mp met with before | edge
        · exact sound.reached u before
        · obtain ⟨root, member, reached⟩ := sound.reached t (.inr List.mem_cons_self)
          exact ⟨root, member, reached.trans (.step edge (.refl u))⟩
      · exact fun root member => (met_visit inside).mpr (.inl (sound.rooted root member))
      · intro u marked child edge
        rcases Enumerator.marked_set.mp marked with old | ⟨rfl, -⟩
        · exact (met_visit inside).mpr (.inl (sound.passed u old child edge))
        · exact (met_visit inside).mpr (.inr edge)

/-- A sound traversal ends without a fault, after as many rounds as its budget has lost. -/
theorem Sound.ends (founded : WellFounded terms) (sound : Sound terms roots traversal)
    (ended : Ends terms traversal rounds result) :
    ∃ final, result = .ok final ∧ Sound terms roots final ∧ final.pending = [] ∧
      rounds + budget terms final = budget terms traversal := by
  induction ended with
  | done ran =>
      cases round_of_eq ran
      exact ⟨_, rfl, sound, rfl, Nat.zero_add _⟩
  | fault ran =>
      cases round_of_eq ran with
      | beyond outside =>
          -- A pending term exists, and has a place among the seen ones.
          have below := sound.inside _ List.mem_cons_self
          exact absurd ⟨sound.size ▸ below, below⟩ outside
  | round ran _ ih =>
      obtain ⟨final, same, kept, empty, paid⟩ := ih (sound.kept founded ran)
      have spent := budget_next ran
      exact ⟨final, same, kept, empty, by omega⟩

/-- A traversal stops at a term that does not exist, whatever it visits before. -/
theorem Ends.of_beyond (ended : Ends terms traversal rounds result)
    (size : traversal.seen.size = terms.size) (beyond : ∃ t ∈ traversal.pending, terms.size ≤ t) :
    result = .error .index := by
  induction ended with
  | done ran =>
      cases round_of_eq ran
      obtain ⟨t, member, -⟩ := beyond
      exact absurd member List.not_mem_nil
  | fault ran =>
      cases round_of_eq ran
      rfl
  | round ran _ ih =>
      obtain ⟨t, member, outside⟩ := beyond
      cases round_of_eq ran with
      | again marked =>
          -- The term that is taken exists, so that `t` is still pending.
          refine ih size ⟨t, ?_, outside⟩
          refine (List.mem_cons.mp member).resolve_left ?_
          rintro rfl
          exact Nat.not_lt.mpr outside (Nat.lt_of_lt_of_eq marked.lt_size size)
      | visit _ _ below =>
          refine ih (Array.size_setIfInBounds.trans size) ⟨t, List.mem_append_right _ ?_, outside⟩
          refine (List.mem_cons.mp member).resolve_left ?_
          rintro rfl
          exact Nat.not_lt.mpr outside below

/-! ## The end of a traversal -/

theorem mem_order {t : Nat} : t ∈ traversal.order ↔ Marked traversal.seen t := by
  simp only [order, List.mem_filter, List.mem_range]
  exact ⟨fun both => both.2, fun marked => ⟨Enumerator.Marked.lt_size marked, marked⟩⟩

theorem sorted_order (traversal : Traversal) : traversal.order.Pairwise (· < ·) :=
  List.Pairwise.filter _ List.pairwise_lt_range

/-- Once nothing is pending, the roots reach exactly what was seen. -/
theorem Sound.mem_order_iff (founded : WellFounded terms) (sound : Sound terms roots traversal)
    (empty : traversal.pending = []) {t : Nat} :
    t ∈ traversal.order ↔ ∃ root ∈ roots, Reaches terms root t := by
  have met (u : Nat) : traversal.Met u ↔ Marked traversal.seen u := by
    simp [Met, empty]
  rw [mem_order, ← met]
  constructor
  · exact sound.reached t
  · rintro ⟨root, member, reached⟩
    have passed : Enumerator.Passed terms 0 traversal.seen :=
      fun u _ marked child edge _ => (met child).mp (sound.passed u marked child edge)
    have marked := (met root).mp (sound.rooted root member)
    exact (met t).mpr (Enumerator.marked_of_reaches founded passed reached marked)

theorem budget_start (terms : Array Term) (roots : List Nat) :
    budget terms (start terms roots) =
      roots.length + ∑ t ∈ Finset.range terms.size, (children terms t).length := by
  have blank (t : Nat) : (start terms roots).seen.getD t false = false :=
    Bool.eq_false_iff.mpr Enumerator.not_marked_replicate
  rw [budget, Finset.filter_true_of_mem fun t _ => blank t, start, List.length_reverse]

/-- What is left of the budget at the end belongs to the terms that were not seen. -/
theorem budget_end (size : traversal.seen.size = terms.size) (empty : traversal.pending = []) :
    (traversal.order.map fun t => (children terms t).length).sum + budget terms traversal =
      ∑ t ∈ Finset.range terms.size, (children terms t).length := by
  have ordered : traversal.order.toFinset =
      {t ∈ Finset.range terms.size | ¬ traversal.seen.getD t false = false} := by
    ext t
    simp [order, size]
  rw [← List.sum_toFinset _ ((sorted_order traversal).imp Nat.ne_of_lt), ordered, budget, empty,
    List.length_nil, Nat.zero_add, Nat.add_comm]
  exact Finset.sum_filter_add_sum_filter_not _ _ _

end Traversal

open Traversal in
/--
The traversal of some terms ends for all roots.  If the roots exist, it ends after one round for
every root and for every child of a term that they reach, and then it has seen exactly these terms.
It lists them in increasing order, as the enumerating solver does, so each one comes once and after
all its children.  A root that does not exist is a fault.
-/
theorem traversal_exact {terms : Array Term} (founded : WellFounded terms) (roots : List Nat) :
    ((∀ root ∈ roots, root < terms.size) → ∃ final,
      Ends terms (start terms roots)
        (roots.length + (final.order.map fun t => (children terms t).length).sum) (.ok final) ∧
      final.order = Enumerator.cone terms roots ∧
      final.order.Pairwise (· < ·) ∧
      (∀ t, t ∈ final.order ↔ ∃ root ∈ roots, Reaches terms root t) ∧
      ∀ before t after, final.order = before ++ t :: after →
        ∀ child ∈ children terms t, child ∈ before) ∧
    ((∃ root ∈ roots, terms.size ≤ root) →
      ∃ rounds, Ends terms (start terms roots) rounds (.error .index)) := by
  obtain ⟨rounds, result, ended⟩ := exists_ends terms (start terms roots)
  constructor
  · intro inside
    obtain ⟨final, rfl, sound, empty, paid⟩ := (sound_start inside).ends founded ended
    have members (t : Nat) := sound.mem_order_iff founded empty (t := t)
    have same : final.order = Enumerator.cone terms roots :=
      (sorted_order final).eq_of_mem_iff (Enumerator.sorted_cone terms roots) fun t =>
        (members t).trans (Enumerator.mem_cone founded inside).symm
    have count : rounds =
        roots.length + (final.order.map fun t => (children terms t).length).sum := by
      have opened := budget_start terms roots
      have closed := budget_end sound.size empty
      omega
    refine ⟨final, count ▸ ended, same, sorted_order final, members, ?_⟩
    intro before t after split
    have ordered := Enumerator.ordered_cone founded inside
    rw [← same, split] at ordered
    exact ordered.child_mem founded
  · rintro ⟨root, member, outside⟩
    have stopped := ended.of_beyond Array.size_replicate
      ⟨root, List.mem_reverse.mpr member, outside⟩
    exact ⟨rounds, stopped ▸ ended⟩

/-- Only existing terms have to be looked at. -/
theorem wellFounded_of_lt_size {terms : Array Term}
    (founded : ∀ t < terms.size, ∀ child ∈ children terms t, child < t) : WellFounded terms := by
  intro t child edge
  by_cases below : t < terms.size
  · exact founded t below child edge
  · rw [children, Array.getElem?_eq_none (Nat.not_lt.mp below)] at edge
    exact absurd edge List.not_mem_nil

/-- Terms that use the same parts, and a variable that none of them uses. -/
def sharedTerms : Array Term :=
  #[⟨.var 0, 1⟩, ⟨.var 1, 1⟩, ⟨.not 0, 1⟩, ⟨.binary .and 0 2, 1⟩, ⟨.ite 2 3 3, 1⟩]

/-- A term that is a root twice, next to one of its own parts; and a root that does not exist. -/
theorem traversal_exact_shared :
    WellFounded sharedTerms ∧
      (∃ final, Traversal.Ends sharedTerms (.start sharedTerms [4, 2, 4]) 9 (.ok final) ∧
        final.order = [0, 2, 3, 4]) ∧
      ∃ rounds, Traversal.Ends sharedTerms (.start sharedTerms [3, 5]) rounds (.error .index) := by
  have founded : WellFounded sharedTerms := wellFounded_of_lt_size (by decide)
  obtain ⟨final, ended, same, -⟩ := (traversal_exact founded [4, 2, 4]).1 (by decide)
  have order : final.order = [0, 2, 3, 4] := same.trans (by decide +kernel)
  rw [order] at ended
  exact ⟨founded, ⟨final, ended, order⟩,
    (traversal_exact founded [3, 5]).2 ⟨5, by decide, by decide⟩⟩

end BoundedCheck.Machine
