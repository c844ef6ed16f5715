import Mathlib
import BoundedCheck.Proofs.Embedding

/-!
# Queries of an embedded solver

The cone of some terms stands at their places in the larger solver, with the same free variables in
the same order.  So both searches count through the same assignments, find the same values, and stop
at the same one or for the same reason.
-/

namespace BoundedCheck

/-- Two computations give related results, or fail for the same reason. -/
inductive Alike {ε α β : Type} (R : α → β → Prop) : Except ε α → Except ε β → Prop where
  | ok {a : α} {b : β} : R a b → Alike R (.ok a) (.ok b)
  | error {cause : ε} : Alike R (.error cause) (.error cause)

namespace Enumerator

/-- A free variable at its new place. -/
def FreeVariable.shifted (gap : Nat) (var : FreeVariable) : FreeVariable :=
  ⟨shift gap var.index, var.width⟩

theorem freeBits_shifted (gap : Nat) (free : List FreeVariable) :
    freeBits (free.map (FreeVariable.shifted gap)) = freeBits free := by
  simp [freeBits, List.foldr_map, FreeVariable.shifted]

theorem assign_shifted {gap : Nat} (free : List FreeVariable) (counter : Nat)
    {assignment assignment' : Array Nat} (widened : Widened gap 0 assignment assignment') :
    Widened gap 0 (assign free counter assignment)
      (assign (free.map (FreeVariable.shifted gap)) counter assignment') := by
  induction free generalizing counter assignment assignment' with
  | nil => exact widened
  | cons var rest ih => exact ih _ (widened.setIfInBounds _ _)

namespace Embedded

variable {gap : Nat} {extra : Variable} {places : List Nat} {s s' : Enumerator}
  {roots order : List Nat}

/-! ## Cones -/

theorem sends (embedded : Embedded gap extra places s s') {t : Nat} (inside : t < s.terms.size) :
    Sends places t (place places t) :=
  sends_place (by rwa [embedded.size])

theorem getElem?_place (embedded : Embedded gap extra places s s') {t : Nat} {term : Term}
    (present : s.terms[t]? = some term) : ∃ node',
      s'.terms[place places t]? = some ⟨node', term.width⟩ ∧
      Renamed gap places term.node node' := by
  obtain ⟨t', node', sent, found, renamed⟩ := embedded.image t term present
  rw [sent.place_eq]
  exact ⟨node', found, renamed⟩

theorem children_place (embedded : Embedded gap extra places s s') {t : Nat}
    (inside : t < s.terms.size) :
    children s'.terms (place places t) = (children s.terms t).map (place places) := by
  have present := Array.getElem?_eq_getElem inside
  obtain ⟨node', found, renamed⟩ := embedded.getElem?_place present
  rw [children_of_getElem? found, children_of_getElem? present, renamed.children]

theorem place_lt_place (embedded : Embedded gap extra places s s') {t u : Nat} (smaller : t < u)
    (inside : u < s.terms.size) : place places t < place places u := by
  rw [← embedded.size] at inside
  have ordered := List.pairwise_iff_getElem.mp embedded.increasing t u
    (Nat.lt_trans smaller inside) inside smaller
  rwa [place, place, List.getD_eq_getElem _ _ (Nat.lt_trans smaller inside),
    List.getD_eq_getElem _ _ inside]

theorem place_inj (embedded : Embedded gap extra places s s') {t u : Nat}
    (insideT : t < s.terms.size) (insideU : u < s.terms.size) :
    place places t = place places u ↔ t = u := by
  constructor
  · intro same
    rcases Nat.lt_trichotomy t u with less | equal | greater
    · exact absurd same (Nat.ne_of_lt (embedded.place_lt_place less insideU))
    · exact equal
    · exact absurd same.symm (Nat.ne_of_lt (embedded.place_lt_place greater insideT))
  · rintro rfl
    rfl

theorem child_lt (embedded : Embedded gap extra places s s') {t child : Nat}
    (inside : t < s.terms.size) (edge : child ∈ children s.terms t) : child < s.terms.size :=
  Nat.lt_trans (embedded.founded t child edge) inside

theorem reaches_place (embedded : Embedded gap extra places s s') {t u : Nat}
    (inside : t < s.terms.size) (reached : Reaches s.terms t u) :
    Reaches s'.terms (place places t) (place places u) := by
  induction reached with
  | refl => exact .refl _
  | step edge _ ih =>
      refine .step ?_ (ih (embedded.child_lt inside edge))
      rw [embedded.children_place inside]
      exact List.mem_map_of_mem edge

/-- What is reached from the place of a term is the place of a term that is reached. -/
theorem reaches_of_place (embedded : Embedded gap extra places s s') {t t' u' : Nat}
    (inside : t < s.terms.size) (started : place places t = t') (reached : Reaches s'.terms t' u') :
    ∃ u, Reaches s.terms t u ∧ place places u = u' := by
  induction reached generalizing t with
  | refl => exact ⟨t, .refl t, started⟩
  | step edge _ ih =>
      rw [← started, embedded.children_place inside] at edge
      obtain ⟨child, own, placed⟩ := List.mem_map.mp edge
      obtain ⟨u, further, found⟩ := ih (embedded.child_lt inside own) placed
      exact ⟨u, .step own further, found⟩

theorem cone_place (embedded : Embedded gap extra places s s')
    (inside : ∀ root ∈ roots, root < s.terms.size) :
    cone s'.terms (roots.map (place places)) = (cone s.terms roots).map (place places) := by
  have ordered := ordered_cone embedded.founded inside
  have inside' : ∀ root ∈ roots.map (place places), root < s'.terms.size := by
    intro root member
    obtain ⟨t, rooted, rfl⟩ := List.mem_map.mp member
    exact embedded.place_lt (embedded.sends (inside t rooted))
  have sorted : ((cone s.terms roots).map (place places)).Pairwise (· < ·) := by
    rw [List.pairwise_map]
    refine ordered.sorted.imp_of_mem ?_
    intro t u _ later smaller
    exact embedded.place_lt_place smaller (ordered.inside u later)
  -- both lists increase, so it is enough that they have the same members
  refine List.Pairwise.eq_of_mem_iff (sorted_cone _ _) sorted fun u' => ?_
  rw [mem_cone embedded.founded' inside', List.mem_map]
  constructor
  · rintro ⟨root, member, reached⟩
    obtain ⟨t, rooted, started⟩ := List.mem_map.mp member
    obtain ⟨u, further, found⟩ := embedded.reaches_of_place (inside t rooted) started reached
    exact ⟨u, (mem_cone embedded.founded inside).mpr ⟨t, rooted, further⟩, found⟩
  · rintro ⟨u, member, rfl⟩
    obtain ⟨t, rooted, reached⟩ := (mem_cone embedded.founded inside).mp member
    exact ⟨_, List.mem_map_of_mem rooted, embedded.reaches_place (inside t rooted) reached⟩

theorem varIndex?_place (embedded : Embedded gap extra places s s') {t : Nat}
    (inside : t < s.terms.size) :
    varIndex? s'.terms (place places t) = (varIndex? s.terms t).map (shift gap) := by
  have present := Array.getElem?_eq_getElem inside
  obtain ⟨node', found, renamed⟩ := embedded.getElem?_place present
  generalize s.terms[t] = term at *
  obtain ⟨node, width⟩ := term
  unfold varIndex?
  rw [found, present]
  cases renamed <;> rfl

theorem freeVariables_place (embedded : Embedded gap extra places s s')
    (inside : ∀ t ∈ order, t < s.terms.size) :
    s'.freeVariables (order.map (place places)) =
      (s.freeVariables order).map (FreeVariable.shifted gap) := by
  unfold freeVariables
  rw [List.filterMap_map, List.map_filterMap]
  refine List.filterMap_congr fun t member => ?_
  rw [Function.comp_apply, embedded.varIndex?_place (inside t member), Option.map_map,
    Option.map_map]
  congr 1
  funext index
  simp only [Function.comp_apply, FreeVariable.shifted, embedded.vars.others]

/-! ## Values -/

/-- Arrays hold the same values for terms and for the terms at their places. -/
structure Values (places : List Nat) (s s' : Enumerator) (values values' : Array Nat) : Prop where
  size : values.size = s.terms.size
  size' : values'.size = s'.terms.size
  same : ∀ t < s.terms.size, values'.getD (place places t) 0 = values.getD t 0

theorem values_zero (places : List Nat) (s s' : Enumerator) :
    Values places s s' (Array.replicate s.terms.size 0) (Array.replicate s'.terms.size 0) where
  size := Array.size_replicate
  size' := Array.size_replicate
  same := by
    intro t _
    rw [getD_replicate_zero, getD_replicate_zero]

variable {values values' assignment assignment' : Array Nat}

theorem Values.set (embedded : Embedded gap extra places s s')
    (related : Values places s s' values values') {t : Nat} (inside : t < s.terms.size)
    (value : Nat) :
    Values places s s' (values.setIfInBounds t value)
      (values'.setIfInBounds (place places t) value) where
  size := by
    rw [Array.size_setIfInBounds, related.size]
  size' := by
    rw [Array.size_setIfInBounds, related.size']
  same := by
    intro u below
    have inside' : place places t < values'.size := by
      rw [related.size']
      exact embedded.place_lt (embedded.sends inside)
    rw [getD_setIfInBounds inside', getD_setIfInBounds (by rwa [related.size]),
      related.same u below]
    simp only [embedded.place_inj below inside]

/-- A term has the same value as the term at its place. -/
theorem evaluate_term (embedded : Embedded gap extra places s s')
    (widened : Widened gap 0 assignment assignment') (related : Values places s s' values values')
    {node node' : Node} (renamed : Renamed gap places node node') (width : Nat) :
    Term.evaluate s'.terms assignment' values' ⟨node', width⟩ =
      Term.evaluate s.terms assignment values ⟨node, width⟩ := by
  have value {t t' : Nat} (sent : Sends places t t') : values'.getD t' 0 = values.getD t 0 := by
    rw [← sent.place_eq]
    exact related.same t (embedded.sent_lt sent)
  cases renamed with
  | var index => simp only [Term.evaluate, widened.getD]
  | constant => rfl
  | not sent => simp only [Term.evaluate, value sent]
  | binary op left right =>
      simp only [Term.evaluate, value left, value right, embedded.widthOf_eq left,
        embedded.widthOf_eq right]
  | ite condition onTrue onFalse =>
      simp only [Term.evaluate, value condition, value onTrue, value onFalse]
  | slice high low sent => simp only [Term.evaluate, value sent]

theorem evaluate_place (embedded : Embedded gap extra places s s')
    (widened : Widened gap 0 assignment assignment') (related : Values places s s' values values')
    (inside : ∀ t ∈ order, t < s.terms.size) :
    Alike (Values places s s') (evaluate s.terms assignment order values)
      (evaluate s'.terms assignment' (order.map (place places)) values') := by
  induction order generalizing values values' with
  | nil => exact .ok related
  | cons t rest ih =>
      have below := inside t List.mem_cons_self
      have present := Array.getElem?_eq_getElem below
      obtain ⟨node', found, renamed⟩ := embedded.getElem?_place present
      rw [List.map_cons, evaluate, evaluate, present, found]
      simp only [embedded.evaluate_term widened related renamed]
      generalize Term.evaluate s.terms assignment values _ = computed
      cases computed with
      | error fault => exact .error
      | ok value =>
          exact ih (related.set embedded below value)
            fun u member => inside u (List.mem_cons_of_mem _ member)

theorem holds_place (related : Values places s s' values values')
    (inside : ∀ root ∈ roots, root < s.terms.size) :
    holds (roots.map (place places)) values' = holds roots values := by
  unfold holds
  rw [List.all_map, Bool.eq_iff_iff, List.all_eq_true, List.all_eq_true]
  refine forall₂_congr fun root member => ?_
  rw [Function.comp_apply, related.same root (inside root member)]

/-! ## Searches -/

theorem search_place (embedded : Embedded gap extra places s s') (free : List FreeVariable)
    (insideRoots : ∀ root ∈ roots, root < s.terms.size) (inside : ∀ t ∈ order, t < s.terms.size)
    (remaining counter : Nat) (widened : Widened gap 0 assignment assignment')
    (related : Values places s s' values values') :
    Alike (Option.Rel (Widened gap 0))
      (search s.terms roots order free remaining counter assignment values)
      (search s'.terms (roots.map (place places)) (order.map (place places))
        (free.map (FreeVariable.shifted gap)) remaining counter assignment' values') := by
  -- the arrays of one counter are used again for the next, so they are general here
  induction remaining generalizing counter assignment assignment' values values' with
  | zero => exact .ok .none
  | succ remaining ih =>
      have assigned := assign_shifted free counter widened
      have evaluated := embedded.evaluate_place assigned related inside
      simp only [search]
      generalize evaluate s.terms _ order values = left at evaluated
      generalize evaluate s'.terms _ _ values' = right at evaluated
      cases evaluated with
      | error => exact .error
      | ok next =>
          simp only [holds_place next insideRoots]
          split
          · exact .ok (.some assigned)
          · exact ih _ assigned next

/-- Queries over corresponding roots come to the same answer. -/
theorem solve_place (embedded : Embedded gap extra places s s')
    (inside : ∀ root ∈ roots, root < s.terms.size) :
    Alike (Option.Rel (Widened gap 0)) (s.solve roots) (s'.solve (roots.map (place places))) := by
  have insideCone := (ordered_cone embedded.founded inside).inside
  have limit : s'.limit = s.limit := by
    rw [Enumerator.limit, Enumerator.limit, embedded.limit]
  have searched := embedded.search_place (s.freeVariables (cone s.terms roots)) inside insideCone
    (1 <<< freeBits (s.freeVariables (cone s.terms roots))) 0
    (Widened.replicate embedded.vars.inside 0) (values_zero places s s')
  rw [← embedded.vars.size] at searched
  unfold Enumerator.solve
  rw [embedded.flag]
  cases s.overflow with
  | some width => exact .error
  | none =>
      simp only [embedded.cone_place inside, embedded.freeVariables_place insideCone,
        freeBits_shifted, limit]
      split
      · exact .error
      · split
        · exact .error
        · generalize search s.terms _ _ _ _ _ _ _ = left at searched
          generalize search s'.terms _ _ _ _ _ _ _ = right at searched
          cases searched with
          | ok found => exact .ok found
          | error => exact .error

end Embedded

end Enumerator

open Enumerator

/-! ## Models -/

namespace Model

/-- A line of a model: the number of a variable, its binary digits and its name. -/
def line (index : Nat) (row : Variable × Nat) : String :=
  s!"{index} {Text.Numeral.binaryDigits row.1.width row.2} {row.1.name}\n"

/-- The text of a model, from its variables and their values. -/
def text (rows : List (Variable × Nat)) : String :=
  String.join (rows.mapIdx line)

/-- One model has the rows of the other, and one more at a place, with the value zero. -/
def Interleaved (gap : Nat) (extra : Variable) (model model' : String) : Prop :=
  ∃ front back, (∀ row ∈ front ++ back, Unbroken row.1.name) ∧ front.length = gap ∧
    model = text (front ++ back) ∧ model' = text (front ++ (extra, 0) :: back)

/-- The variables of a solver with their values. -/
def valued (vars : Array Variable) (assignment : Array Nat) : Array (Variable × Nat) :=
  vars.mapIdx fun index var => (var, assignment.getD index 0)

theorem modelText_eq (vars : Array Variable) (assignment : Array Nat) :
    modelText vars assignment = text (valued vars assignment).toList := by
  rw [modelText, text, valued, Array.toList_mapIdx, List.mapIdx_mapIdx]
  rfl

variable {gap : Nat} {extra : Variable} {vars vars' : Array Variable}
  {assignment assignment' : Array Nat}

theorem widened_valued (widened : Widened gap extra vars vars')
    (assigned : Widened gap 0 assignment assignment') :
    Widened gap (extra, 0) (valued vars assignment) (valued vars' assignment') where
  inside := by
    rw [valued, Array.size_mapIdx]
    exact widened.inside
  size := by
    rw [valued, valued, Array.size_mapIdx, Array.size_mapIdx, widened.size]
  here := by
    rw [valued, Array.getElem?_mapIdx, widened.here, Array.getD_eq_getD_getElem?, assigned.here]
    rfl
  others := by
    intro index
    rw [valued, valued, Array.getElem?_mapIdx, Array.getElem?_mapIdx, widened.others,
      assigned.getD]

theorem interleaved_modelText (named : ∀ var ∈ vars, Unbroken var.name)
    (widened : Widened gap extra vars vars')
    (assigned : Widened gap 0 assignment assignment') :
    Interleaved gap extra (modelText vars assignment) (modelText vars' assignment') := by
  have rows := widened_valued widened assigned
  refine ⟨(valued vars assignment).toList.take gap, (valued vars assignment).toList.drop gap, ?_,
    ?_, ?_, ?_⟩
  · intro row member
    rw [List.take_append_drop, Array.mem_toList_iff, valued] at member
    obtain ⟨index, below, rfl⟩ := Array.mem_mapIdx.mp member
    exact named _ (Array.getElem_mem below)
  · rw [List.length_take, Array.length_toList]
    exact Nat.min_eq_left rows.inside
  · rw [modelText_eq, List.take_append_drop]
  · rw [modelText_eq, rows.toList_eq]

end Model

/-! ## Queries -/

/-- Answers that differ in the models only, by one row. -/
inductive Answer.Matches (gap : Nat) (extra : Variable) : Answer → Answer → Prop where
  | unreachable : Answer.Matches gap extra .unreachable .unreachable
  | reachable {model model' : String} : Model.Interleaved gap extra model model' →
      Answer.Matches gap extra (.reachable model) (.reachable model')

/-- Verdicts that differ in the models only, by one row. -/
inductive Verdict.Matches (gap : Nat) (extra : Variable) : Verdict → Verdict → Prop where
  | safe (depth : Nat) : Verdict.Matches gap extra (.safe depth) (.safe depth)
  | violated {model model' : String} (step bad : Nat) : Model.Interleaved gap extra model model' →
      Verdict.Matches gap extra (.violated step bad model) (.violated step bad model')

section Queries

variable {gap : Nat} {extra : Variable} {places constraints constraints' : List Nat}

theorem map_place_of_forall₂ {ts ts' : List Nat} (sent : List.Forall₂ (Sends places) ts ts') :
    ts.map (place places) = ts' := by
  induction sent with
  | nil => rfl
  | cons first _ ih => rw [List.map_cons, ih, first.place_eq]

theorem lt_of_forall₂ {ts ts' : List Nat} (sent : List.Forall₂ (Sends places) ts ts') {t : Nat}
    (member : t ∈ ts) : t < places.length := by
  induction sent with
  | nil => cases member
  | cons first _ ih =>
      rcases List.mem_cons.mp member with rfl | other
      · exact (List.getElem?_eq_some_iff.mp first).1
      · exact ih other

theorem mirrors_query (under : List.Forall₂ (Sends places) constraints constraints')
    {condition condition' : Nat} (sent : Sends places condition condition') :
    Mirrors gap extra places (fun _ => Answer.Matches gap extra) (query constraints condition)
      (query constraints' condition') := by
  intro s s' embedded
  have roots := List.Forall₂.cons sent under
  have solved := embedded.solve_place fun root member => by
    rw [← embedded.size]
    exact lt_of_forall₂ roots member
  rw [map_place_of_forall₂ roots] at solved
  generalize answer : s.solve (condition :: constraints) = left at solved
  generalize answer' : s'.solve (condition' :: constraints') = right at solved
  cases solved with
  | error =>
      obtain ⟨later, failed⟩ := query_of_error embedded.idle answer
      obtain ⟨later', failed'⟩ := query_of_error embedded.idle' answer'
      rw [failed, failed']
      exact .error
  | ok found =>
      rw [query_of_ok embedded.idle answer, query_of_ok embedded.idle' answer']
      refine .ok ⟨.refl _, places, List.prefix_rfl, embedded.of_model _ _, ?_⟩
      cases found with
      | none => exact .unreachable
      | some widened =>
          exact .reachable (Model.interleaved_modelText embedded.named embedded.vars widened)

theorem mirrors_queryAll (step : Nat)
    (under : List.Forall₂ (Sends places) constraints constraints')
    {conditions conditions' : List (Nat × Nat)}
    (sent : List.Forall₂ (fun entry entry' => entry.1 = entry'.1 ∧ Sends places entry.2 entry'.2)
      conditions conditions') :
    Mirrors gap extra places (fun _ => Option.Rel (Verdict.Matches gap extra))
      (queryAll step constraints conditions) (queryAll step constraints' conditions') := by
  induction conditions generalizing places conditions' with
  | nil =>
      cases sent
      exact mirrors_pure .none
  | cons entry rest ih =>
      cases sent with
      | @cons _ entry' _ rest' first others =>
          obtain ⟨bad, condition⟩ := entry
          obtain ⟨bad', condition'⟩ := entry'
          obtain ⟨same, first⟩ := first
          obtain rfl : bad = bad' := same
          refine (mirrors_query under first).bind ?_
          intro more answer answer' longer matched
          cases matched with
          | unreachable =>
              exact ih (under.imp fun _ _ => Sends.mono longer)
                (others.imp fun _ _ both => ⟨both.1, both.2.mono longer⟩)
          | reachable interleaved => exact mirrors_pure (.some (.violated step bad interleaved))

end Queries

end BoundedCheck
