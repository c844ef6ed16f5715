import Mathlib
import BoundedCheck.Proofs.Preparing
import BoundedCheck.Proofs.Queries

/-!
# Solvers with further terms

One solver can hold all terms of another in the same order, with terms of its own in between and one
variable of its own.  Requests to both keep this relation, and queries over terms that correspond to
each other have the same answers: the further terms are in no cone, and the further variable is zero
in every model.
-/

namespace BoundedCheck

/-! ## Runs side by side -/

/-- Two runs give related results, or stop for the same reason. -/
inductive Agree {ε σ τ α β : Type} (R : α → β → σ → τ → Prop) :
    EStateM.Result ε σ α → EStateM.Result ε τ β → Prop where
  | ok {a : α} {b : β} {s : σ} {t : τ} : R a b s t → Agree R (.ok a s) (.ok b t)
  | error {stop : ε} {s : σ} {t : τ} : Agree R (.error stop s) (.error stop t)

namespace Agree

variable {ε δ σ τ α β γ κ : Type} {R : α → β → σ → τ → Prop} {Q : γ → κ → σ → τ → Prop}
  {s : σ} {t : τ}

theorem mono {P : α → β → σ → τ → Prop} {left : EStateM.Result ε σ α} {right : EStateM.Result ε τ β}
    (agree : Agree R left right) (weaker : ∀ a b s t, R a b s t → P a b s t) :
    Agree P left right := by
  cases agree with
  | ok related => exact .ok (weaker _ _ _ _ related)
  | error => exact .error

theorem bind {first : EStateM ε σ α} {first' : EStateM ε τ β} {next : α → EStateM ε σ γ}
    {next' : β → EStateM ε τ κ} (agree : Agree R (first s) (first' t))
    (rest : ∀ a b s t, R a b s t → Agree Q (next a s) (next' b t)) :
    Agree Q ((first >>= next) s) ((first' >>= next') t) := by
  simp only [Bind.bind, EStateM.bind]
  generalize first s = left at agree
  generalize first' t = right at agree
  cases agree with
  | ok related => exact rest _ _ _ _ related
  | error => exact .error

theorem adaptExcept {first : EStateM ε σ α} {first' : EStateM ε τ β} (convert : ε → δ)
    (agree : Agree R (first s) (first' t)) :
    Agree R (first.adaptExcept convert s) (first'.adaptExcept convert t) := by
  simp only [EStateM.adaptExcept]
  generalize first s = left at agree
  generalize first' t = right at agree
  cases agree with
  | ok related => exact .ok related
  | error => exact .error

end Agree

namespace Enumerator

/-! ## One element more -/

/-- The place of an element after another was put in. -/
def shift (gap index : Nat) : Nat :=
  if index < gap then index else index + 1

theorem shift_ne (gap index : Nat) : shift gap index ≠ gap := by
  unfold shift
  split <;> omega

theorem shift_inj {gap left right : Nat} : shift gap left = shift gap right ↔ left = right := by
  unfold shift
  split <;> split <;> omega

theorem shift_of_le {gap index : Nat} (beyond : gap ≤ index) : shift gap index = index + 1 :=
  if_neg (Nat.not_lt.mpr beyond)

/-- The elements of one array, with one more put in at a place. -/
structure Widened {α : Type} (gap : Nat) (extra : α) (small large : Array α) : Prop where
  inside : gap ≤ small.size
  size : large.size = small.size + 1
  here : large[gap]? = some extra
  others : ∀ index, large[shift gap index]? = small[index]?

namespace Widened

variable {α : Type} {gap : Nat} {extra : α} {small large : Array α}

theorem push_end (small : Array α) (extra : α) :
    Widened small.size extra small (small.push extra) where
  inside := Nat.le_refl _
  size := Array.size_push extra
  here := Array.getElem?_push_size
  others := by
    intro index
    rw [Array.getElem?_push, if_neg (shift_ne _ _)]
    unfold shift
    split
    · rfl
    · rw [Array.getElem?_eq_none (by omega), Array.getElem?_eq_none (by omega)]

theorem push (widened : Widened gap extra small large) (value : α) :
    Widened gap extra (small.push value) (large.push value) where
  inside := by
    rw [Array.size_push]
    exact Nat.le_succ_of_le widened.inside
  size := by
    rw [Array.size_push, Array.size_push, widened.size]
  here := by
    have inside := widened.inside
    rw [Array.getElem?_push, widened.size, if_neg (by omega), widened.here]
  others := by
    intro index
    have last : large.size = shift gap small.size := by
      rw [shift_of_le widened.inside, widened.size]
    rw [Array.getElem?_push, Array.getElem?_push, last, widened.others]
    simp only [shift_inj]

theorem lt_size (widened : Widened gap extra small large) (index : Nat) :
    shift gap index < large.size ↔ index < small.size := by
  have inside := widened.inside
  rw [widened.size]
  unfold shift
  split <;> omega

theorem setIfInBounds (widened : Widened gap extra small large) (index : Nat) (value : α) :
    Widened gap extra (small.setIfInBounds index value)
      (large.setIfInBounds (shift gap index) value) where
  inside := by
    rw [Array.size_setIfInBounds]
    exact widened.inside
  size := by
    rw [Array.size_setIfInBounds, Array.size_setIfInBounds, widened.size]
  here := by
    rw [Array.getElem?_setIfInBounds, if_neg (shift_ne gap index), widened.here]
  others := by
    intro other
    simp only [Array.getElem?_setIfInBounds, shift_inj, widened.lt_size, widened.others]

theorem replicate {count : Nat} (inside : gap ≤ count) (value : α) :
    Widened gap value (Array.replicate count value) (Array.replicate (count + 1) value) where
  inside := by
    rw [Array.size_replicate]
    exact inside
  size := by
    rw [Array.size_replicate, Array.size_replicate]
  here := by
    rw [Array.getElem?_replicate, if_pos (by omega)]
  others := by
    intro index
    rw [Array.getElem?_replicate, Array.getElem?_replicate]
    unfold shift
    split
    · rw [if_pos (by omega), if_pos (by omega)]
    · simp

theorem getD (widened : Widened gap extra small large) (index : Nat) (default : α) :
    large.getD (shift gap index) default = small.getD index default := by
  rw [Array.getD_eq_getD_getElem?, Array.getD_eq_getD_getElem?, widened.others]

/-- The element stands between those before its place and those after it. -/
theorem toList_eq (widened : Widened gap extra small large) :
    large.toList = small.toList.take gap ++ extra :: small.toList.drop gap := by
  have inside := widened.inside
  have length : (small.toList.take gap).length = gap := by
    simp [inside]
  apply List.ext_getElem?
  intro index
  rw [Array.getElem?_toList]
  rcases Nat.lt_trichotomy index gap with before | rfl | after
  · have same := widened.others index
    rw [shift, if_pos before] at same
    rw [same, List.getElem?_append_left (by omega), List.getElem?_take_of_lt before,
      Array.getElem?_toList]
  · rw [widened.here, List.getElem?_append_right (by omega), length]
    simp
  · obtain ⟨earlier, rfl⟩ : ∃ earlier, index = earlier + 1 := ⟨index - 1, by omega⟩
    have same := widened.others earlier
    rw [shift_of_le (by omega)] at same
    rw [same, List.getElem?_append_right (by omega), length,
      show earlier + 1 - gap = (earlier - gap) + 1 by omega, List.getElem?_cons_succ,
      List.getElem?_drop, show gap + (earlier - gap) = earlier by omega, Array.getElem?_toList]

end Widened

/-! ## Terms in their places -/

/-- A term of one solver stands at a place in the other. -/
def Sends (places : List Nat) (t t' : Nat) : Prop :=
  places[t]? = some t'

theorem Sends.mono {places more : List Nat} (longer : places <+: more) {t t' : Nat}
    (sent : Sends places t t') : Sends more t t' := by
  obtain ⟨rest, rfl⟩ := longer
  unfold Sends at *
  rw [List.getElem?_append_left (List.getElem?_eq_some_iff.mp sent).1, sent]

/-- The place of a term. -/
def place (places : List Nat) (t : Nat) : Nat :=
  places.getD t 0

theorem Sends.place_eq {places : List Nat} {t t' : Nat} (sent : Sends places t t') :
    place places t = t' := by
  unfold Sends at sent
  rw [place, List.getD_eq_getElem?_getD, sent, Option.getD_some]

theorem sends_place {places : List Nat} {t : Nat} (inside : t < places.length) :
    Sends places t (place places t) := by
  rw [Sends, place, List.getD_eq_getElem?_getD, List.getElem?_eq_getElem inside, Option.getD_some]

/-- A node with its terms at their places and its variable at its new place. -/
inductive Renamed (gap : Nat) (places : List Nat) : Node → Node → Prop where
  | var (index : Nat) : Renamed gap places (.var index) (.var (shift gap index))
  | constant (value : Nat) : Renamed gap places (.constant value) (.constant value)
  | not {a a' : Nat} : Sends places a a' → Renamed gap places (.not a) (.not a')
  | binary {a a' b b' : Nat} (op : BinaryOp) : Sends places a a' → Sends places b b' →
      Renamed gap places (.binary op a b) (.binary op a' b')
  | ite {c c' a a' b b' : Nat} : Sends places c c' → Sends places a a' → Sends places b b' →
      Renamed gap places (.ite c a b) (.ite c' a' b')
  | slice {a a' : Nat} (high low : Nat) : Sends places a a' →
      Renamed gap places (.slice a high low) (.slice a' high low)

theorem Renamed.mono {gap : Nat} {places more : List Nat} (longer : places <+: more)
    {node node' : Node} (renamed : Renamed gap places node node') :
    Renamed gap more node node' := by
  cases renamed with
  | var index => exact .var index
  | constant value => exact .constant value
  | not sent => exact .not (sent.mono longer)
  | binary op left right => exact .binary op (left.mono longer) (right.mono longer)
  | ite condition onTrue onFalse =>
      exact .ite (condition.mono longer) (onTrue.mono longer) (onFalse.mono longer)
  | slice high low sent => exact .slice high low (sent.mono longer)

theorem Renamed.inside {gap : Nat} {places : List Nat} {node node' : Node}
    (renamed : Renamed gap places node node') {child : Nat} (member : child ∈ node.children) :
    child < places.length := by
  have bounded {t t' : Nat} (sent : Sends places t t') : t < places.length :=
    (List.getElem?_eq_some_iff.mp sent).1
  cases renamed with
  | var | constant => cases member
  | not sent | slice _ _ sent =>
      rw [List.mem_singleton.mp member]
      exact bounded sent
  | binary _ left right =>
      rcases List.mem_pair.mp member with rfl | rfl
      · exact bounded left
      · exact bounded right
  | ite condition onTrue onFalse =>
      rcases List.mem_cons.mp member with rfl | other
      · exact bounded condition
      · rcases List.mem_pair.mp other with rfl | rfl
        · exact bounded onTrue
        · exact bounded onFalse

theorem Renamed.children {gap : Nat} {places : List Nat} {node node' : Node}
    (renamed : Renamed gap places node node') :
    node'.children = node.children.map (place places) := by
  cases renamed with
  | var | constant => rfl
  | not sent | slice _ _ sent => simp [Node.children, sent.place_eq]
  | binary _ left right => simp [Node.children, left.place_eq, right.place_eq]
  | ite condition onTrue onFalse =>
      simp [Node.children, condition.place_eq, onTrue.place_eq, onFalse.place_eq]

/-- All terms of one idle solver stand in order in another one, which has one variable more. -/
structure Embedded (gap : Nat) (extra : Variable) (places : List Nat) (s s' : Enumerator) :
    Prop where
  size : places.length = s.terms.size
  increasing : places.Pairwise (· < ·)
  below : ∀ t' ∈ places, t' < s'.terms.size
  image : ∀ t term, s.terms[t]? = some term → ∃ t' node', Sends places t t' ∧
    s'.terms[t']? = some ⟨node', term.width⟩ ∧ Renamed gap places term.node node'
  flag : s'.overflow = s.overflow
  founded : WellFounded s.terms
  founded' : WellFounded s'.terms
  vars : Widened gap extra s.vars s'.vars
  named : ∀ var ∈ s.vars, Unbroken var.name
  limit : s'.freeBitLimit = s.freeBitLimit
  idle : s.Idle
  idle' : s'.Idle

theorem widthOf_push_size (terms : Array Term) (term : Term) :
    widthOf (terms.push term) terms.size = term.width :=
  widthOf_of_getElem? Array.getElem?_push_size

theorem WellFounded.push {terms : Array Term} (founded : WellFounded terms) {term : Term}
    (inside : ∀ child ∈ term.node.children, child < terms.size) :
    WellFounded (terms.push term) := by
  intro t child edge
  cases present : (terms.push term)[t]? with
  | none => simp [children, present] at edge
  | some found =>
      rw [children_of_getElem? present] at edge
      rcases getElem?_push_cases present with old | ⟨rfl, rfl⟩
      · exact founded t child (by rwa [children_of_getElem? old])
      · exact inside child edge

namespace Embedded

variable {gap : Nat} {extra : Variable} {places : List Nat} {s s' : Enumerator}

theorem sent_lt (embedded : Embedded gap extra places s s') {t t' : Nat}
    (sent : Sends places t t') : t < s.terms.size := by
  rw [← embedded.size]
  exact (List.getElem?_eq_some_iff.mp sent).1

theorem place_lt (embedded : Embedded gap extra places s s') {t t' : Nat}
    (sent : Sends places t t') : t' < s'.terms.size :=
  embedded.below t' (List.mem_of_getElem? sent)

/-- A term and the term at its place have the same width. -/
theorem widthOf_eq (embedded : Embedded gap extra places s s') {t t' : Nat}
    (sent : Sends places t t') : widthOf s'.terms t' = widthOf s.terms t := by
  have present := Array.getElem?_eq_getElem (embedded.sent_lt sent)
  obtain ⟨place, node', placed, found, -⟩ := embedded.image t _ present
  obtain rfl : t' = place := Option.some.inj (sent.symm.trans placed)
  rw [widthOf_of_getElem? found, widthOf_of_getElem? present]

theorem sends_last (embedded : Embedded gap extra places s s') (place : Nat) :
    Sends (places ++ [place]) s.terms.size place := by
  rw [← embedded.size]
  exact List.getElem?_concat_length

/-- The same node on both sides. -/
theorem add (embedded : Embedded gap extra places s s') {node node' : Node} (width : Nat)
    (renamed : Renamed gap places node node') :
    Embedded gap extra (places ++ [s'.terms.size]) (s.add node width).2 (s'.add node' width).2 where
  size := by
    simp [Enumerator.add, embedded.size]
  increasing := by
    rw [List.pairwise_append]
    refine ⟨embedded.increasing, List.pairwise_singleton _ _, ?_⟩
    intro place member last isLast
    rw [List.mem_singleton.mp isLast]
    exact embedded.below place member
  below := by
    intro place member
    rw [Enumerator.add, Array.size_push]
    rcases List.mem_append.mp member with old | new
    · exact Nat.lt_succ_of_lt (embedded.below place old)
    · rw [List.mem_singleton.mp new]
      exact Nat.lt_succ_self _
  image := by
    have longer : places <+: places ++ [s'.terms.size] := List.prefix_append _ _
    intro t term present
    rcases getElem?_push_cases present with old | ⟨rfl, rfl⟩
    · obtain ⟨place, own, sent, found, same⟩ := embedded.image t term old
      exact ⟨place, own, sent.mono longer, (Extends.push _ _).getElem? found, same.mono longer⟩
    · exact ⟨s'.terms.size, node', embedded.sends_last _, Array.getElem?_push_size,
        renamed.mono longer⟩
  flag := by
    simp only [Enumerator.add, embedded.flag]
  founded := by
    refine embedded.founded.push fun child member => ?_
    rw [← embedded.size]
    exact renamed.inside member
  founded' := by
    refine embedded.founded'.push fun child member => ?_
    rw [renamed.children] at member
    obtain ⟨t, inside, rfl⟩ := List.mem_map.mp member
    exact embedded.place_lt (sends_place (renamed.inside inside))
  vars := embedded.vars
  named := embedded.named
  limit := embedded.limit
  idle := ⟨embedded.idle.assertions, embedded.idle.marks, embedded.idle.assumptions⟩
  idle' := ⟨embedded.idle'.assertions, embedded.idle'.marks, embedded.idle'.assumptions⟩

/-- A node on the larger side only. -/
theorem add_beside (embedded : Embedded gap extra places s s') {node' : Node} {width : Nat}
    (fits : width ≤ Word.maxWidth) (inside : ∀ child ∈ node'.children, child < s'.terms.size) :
    Embedded gap extra places s (s'.add node' width).2 where
  size := embedded.size
  increasing := embedded.increasing
  below := by
    intro place member
    rw [Enumerator.add, Array.size_push]
    exact Nat.lt_succ_of_lt (embedded.below place member)
  image := by
    intro t term present
    obtain ⟨place, own, sent, found, same⟩ := embedded.image t term present
    exact ⟨place, own, sent, (Extends.push _ _).getElem? found, same⟩
  flag := by
    simp only [Enumerator.add, if_neg (Nat.not_lt.mpr fits), Option.or_none, embedded.flag]
  founded := embedded.founded
  founded' := embedded.founded'.push inside
  vars := embedded.vars
  named := embedded.named
  limit := embedded.limit
  idle := embedded.idle
  idle' := ⟨embedded.idle'.assertions, embedded.idle'.marks, embedded.idle'.assumptions⟩

/-- The same variable on both sides. -/
theorem declare (embedded : Embedded gap extra places s s') {var : Variable}
    (named : Unbroken var.name) :
    Embedded gap extra places { s with vars := s.vars.push var }
      { s' with vars := s'.vars.push var } :=
  { embedded with
    vars := embedded.vars.push var
    named := by
      intro other member
      rcases Array.mem_push.mp member with old | rfl
      · exact embedded.named other old
      · exact named
    idle := ⟨embedded.idle.assertions, embedded.idle.marks, embedded.idle.assumptions⟩
    idle' := ⟨embedded.idle'.assertions, embedded.idle'.marks, embedded.idle'.assumptions⟩ }

/-- Models of earlier queries do not matter. -/
theorem of_model (embedded : Embedded gap extra places s s') (model model' : Option (Array Nat)) :
    Embedded gap extra places { s with model := model } { s' with model := model' } :=
  { embedded with
    idle := embedded.idle.of_model model
    idle' := embedded.idle'.of_model model' }

theorem sends_range {size t : Nat} (inside : t < size) : Sends (List.range size) t t := by
  rw [Sends, List.getElem?_range inside]

/-- Before terms were made on either side, every term is at its own place. -/
theorem renamed_self (valid : Valid s) {t : Nat} {term : Term} (present : s.terms[t]? = some term) :
    Renamed s.vars.size (List.range s.terms.size) term.node term.node := by
  have below : t < s.terms.size := (Array.getElem?_eq_some_iff.mp present).1
  have sent {child : Nat} (edge : child ∈ term.node.children) :
      Sends (List.range s.terms.size) child child := by
    rw [← children_of_getElem? present] at edge
    exact sends_range (Nat.lt_trans (valid.founded t child edge) below)
  obtain ⟨node, width⟩ := term
  cases node with
  | var index =>
      have declared := valid.index_lt (varIndex?_of_getElem? present)
      have renamed : Renamed s.vars.size (List.range s.terms.size) (.var index)
          (.var (shift s.vars.size index)) := .var index
      rwa [shift, if_pos declared] at renamed
  | constant value => exact .constant value
  | not a => exact .not (sent (by simp [Node.children]))
  | binary op a b =>
      exact .binary op (sent (by simp [Node.children])) (sent (by simp [Node.children]))
  | ite c a b =>
      exact .ite (sent (by simp [Node.children])) (sent (by simp [Node.children]))
        (sent (by simp [Node.children]))
  | slice a high low => exact .slice high low (sent (by simp [Node.children]))

/-- An idle solver is embedded in the same solver with one more variable. -/
theorem of_variable (valid : Valid s) (idle : s.Idle)
    (named : ∀ var ∈ s.vars, Unbroken var.name) {var : Variable}
    (fits : var.width ≤ Word.maxWidth) :
    Embedded s.vars.size var (List.range s.terms.size) s
      (Enumerator.add (.var s.vars.size) var.width { s with vars := s.vars.push var }).2 where
  size := List.length_range
  increasing := List.pairwise_lt_range
  below := by
    intro place member
    rw [Enumerator.add, Array.size_push]
    exact Nat.lt_succ_of_lt (List.mem_range.mp member)
  image := by
    intro t term present
    have below : t < s.terms.size := (Array.getElem?_eq_some_iff.mp present).1
    exact ⟨t, term.node, sends_range below, (Extends.push _ _).getElem? present,
      renamed_self valid present⟩
  flag := by
    simp only [Enumerator.add, if_neg (Nat.not_lt.mpr fits), Option.or_none]
  founded := valid.founded
  founded' := valid.founded.push fun _ member => nomatch member
  vars := .push_end s.vars var
  named := named
  limit := rfl
  idle := idle
  idle' := ⟨idle.assertions, idle.marks, idle.assumptions⟩

end Embedded

/-! ## Requests -/

/-- Two requests give corresponding results, and keep one solver embedded in the other. -/
def Mirrors {ε α β : Type} (gap : Nat) (extra : Variable) (places : List Nat)
    (R : List Nat → α → β → Prop) (request : EStateM ε Enumerator α)
    (request' : EStateM ε Enumerator β) : Prop :=
  ∀ ⦃s s'⦄, Embedded gap extra places s s' →
    Agree (fun a b later later' => Extends s'.terms later'.terms ∧ ∃ more, places <+: more ∧
        Embedded gap extra more later later' ∧ R more a b)
      (request s) (request' s')

section Requests

variable {ε δ α β γ κ : Type} {gap : Nat} {extra : Variable} {places : List Nat} {s s' : Enumerator}
  {R : List Nat → α → β → Prop} {Q : List Nat → γ → κ → Prop}

theorem mirrors_pure {a : α} {b : β} (related : R places a b) :
    Mirrors gap extra places R (pure a : EStateM ε Enumerator α) (pure b) := fun _ _ embedded =>
  .ok ⟨.refl _, places, List.prefix_rfl, embedded, related⟩

theorem mirrors_throw (stop : ε) :
    Mirrors gap extra places R (throw stop : EStateM ε Enumerator α) (throw stop) := fun _ _ _ =>
  .error

theorem Mirrors.bind {first : EStateM ε Enumerator α} {first' : EStateM ε Enumerator β}
    {next : α → EStateM ε Enumerator γ} {next' : β → EStateM ε Enumerator κ}
    (firsts : Mirrors gap extra places R first first')
    (rest : ∀ more a b, places <+: more → R more a b →
      Mirrors gap extra more Q (next a) (next' b)) :
    Mirrors gap extra places Q (first >>= next) (first' >>= next') := by
  intro s s' embedded
  refine (firsts embedded).bind ?_
  rintro a b later later' ⟨extended, more, longer, grown, related⟩
  refine (rest more a b longer related grown).mono ?_
  rintro c d last last' ⟨further, most, longest, final, result⟩
  exact ⟨extended.trans further, most, longer.trans longest, final, result⟩

theorem Mirrors.adaptExcept {request : EStateM ε Enumerator α} {request' : EStateM ε Enumerator β}
    (mirrors : Mirrors gap extra places R request request') (convert : ε → δ) :
    Mirrors gap extra places R (request.adaptExcept convert) (request'.adaptExcept convert) :=
  fun _ _ embedded => (mirrors embedded).adaptExcept convert

theorem mirrors_makeVariable {name : String} (named : Unbroken name) (sort : BitSort) :
    Mirrors gap extra places Sends (makeVariable name sort) (makeVariable name sort) := by
  intro s s' embedded
  -- new variables come after the further one, so their numbers differ by one
  have renamed : Renamed gap places (.var s.vars.size) (.var s'.vars.size) := by
    rw [embedded.vars.size, ← shift_of_le embedded.vars.inside]
    exact .var _
  exact .ok ⟨.push _ _, _, List.prefix_append _ _,
    (embedded.declare named).add sort.width renamed, embedded.sends_last _⟩

theorem mirrors_makeConstant (value : Nat) (sort : BitSort) :
    Mirrors gap extra places Sends (makeConstant value sort) (makeConstant value sort) := by
  intro s s' embedded
  exact .ok ⟨.push _ _, _, List.prefix_append _ _, embedded.add sort.width (.constant _),
    embedded.sends_last _⟩

theorem Embedded.width_eq (embedded : Embedded gap extra places s s') {a a' : Nat}
    (sent : Sends places a a') :
    s.width a = .ok (widthOf s.terms a) ∧ s'.width a' = .ok (widthOf s.terms a) := by
  rw [width_eq_ok (embedded.sent_lt sent), width_eq_ok (embedded.place_lt sent),
    embedded.widthOf_eq sent]
  exact ⟨rfl, rfl⟩

variable {a a' b b' c c' : Nat}

theorem mirrors_not (sent : Sends places a a') :
    Mirrors gap extra places Sends (Enumerator.not a) (Enumerator.not a') := by
  intro s s' embedded
  obtain ⟨width, width'⟩ := embedded.width_eq sent
  simp only [Enumerator.not, width, width']
  exact .ok ⟨.push _ _, _, List.prefix_append _ _, embedded.add _ (.not sent),
    embedded.sends_last _⟩

theorem mirrors_binary (op : BinaryOp) (left : Sends places a a') (right : Sends places b b') :
    Mirrors gap extra places Sends (Enumerator.binary op a b) (Enumerator.binary op a' b') := by
  intro s s' embedded
  obtain ⟨widthA, widthA'⟩ := embedded.width_eq left
  obtain ⟨widthB, widthB'⟩ := embedded.width_eq right
  simp only [Enumerator.binary, widthA, widthA', widthB, widthB']
  exact .ok ⟨.push _ _, _, List.prefix_append _ _, embedded.add _ (.binary op left right),
    embedded.sends_last _⟩

theorem mirrors_ite (condition : Sends places c c') (onTrue : Sends places a a')
    (onFalse : Sends places b b') :
    Mirrors gap extra places Sends (Enumerator.ite c a b) (Enumerator.ite c' a' b') := by
  intro s s' embedded
  obtain ⟨width, width'⟩ := embedded.width_eq onTrue
  simp only [Enumerator.ite, width, width']
  exact .ok ⟨.push _ _, _, List.prefix_append _ _, embedded.add _ (.ite condition onTrue onFalse),
    embedded.sends_last _⟩

theorem mirrors_slice (high low : Nat) (sent : Sends places a a') :
    Mirrors gap extra places Sends (Enumerator.slice a high low)
      (Enumerator.slice a' high low) := by
  intro s s' embedded
  simp only [Enumerator.slice]
  cases Word.sliceWidth high low with
  | error fault => exact .error
  | ok width =>
      exact .ok ⟨.push _ _, _, List.prefix_append _ _, embedded.add width (.slice high low sent),
        embedded.sends_last _⟩

theorem mirrors_uext (bits : Nat) (sent : Sends places a a') :
    Mirrors gap extra places Sends (Enumerator.uext a bits) (Enumerator.uext a' bits) := by
  intro s s' embedded
  obtain ⟨width, width'⟩ := embedded.width_eq sent
  simp only [Enumerator.uext, width, width']
  split
  · exact .ok ⟨.refl _, places, List.prefix_rfl, embedded, sent⟩
  · have zeros := embedded.add bits (.constant 0)
    have longer : places <+: places ++ [s'.terms.size] := List.prefix_append _ _
    exact .ok ⟨(Extends.push _ _).trans (.push _ _), _, longer.trans (List.prefix_append _ _),
      zeros.add _ (.binary .concat (embedded.sends_last _) (sent.mono longer)),
      zeros.sends_last _⟩

end Requests

end Enumerator

end BoundedCheck
