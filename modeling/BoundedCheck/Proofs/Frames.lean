import Mathlib
import BoundedCheck.Proofs.Operators
import BoundedCheck.Proofs.Origins
import BoundedCheck.Unroll.Engine

/-!
# Frames and values

A frame tracks a valuation when its terms denote the values of their line ids.  The variables that
the unrolling makes are those of the origins of a run, in order, so that under an assignment which
realises a supply a new variable has the value that the supply gives it.
-/

namespace BoundedCheck

namespace CheckM

variable {σ α β : Type} {s middle later : σ} {a : α} {b : β}

theorem bind_of_ok {first : CheckM σ α} {next : α → CheckM σ β} (ran : first s = .ok a middle) :
    (first >>= next) s = next a middle := by
  simp [bind, EStateM.bind, ran]

theorem bind_eq_ok {first : CheckM σ α} {next : α → CheckM σ β} :
    (first >>= next) s = .ok b later ↔
      ∃ a middle, first s = .ok a middle ∧ next a middle = .ok b later := by
  simp only [bind, EStateM.bind]
  cases first s <;> simp

theorem ofSolver_of_ok {request : SolverM σ α} (ran : request s = .ok a later) :
    ofSolver request s = .ok a later := by
  simp [ofSolver, EStateM.adaptExcept, ran]

theorem ofOperator_of_ok {request : EStateM Fault σ α} (ran : request s = .ok a later) :
    ofOperator request s = .ok a later := by
  simp [ofOperator, EStateM.adaptExcept, ran]

/-- Whether a step does not fail. -/
def succeeds (step : CheckM σ α) (s : σ) : Bool :=
  match step s with
  | .ok _ _ => true
  | .error _ _ => false

theorem exists_of_succeeds {step : CheckM σ α} (fine : succeeds step s = true) :
    ∃ a later, step s = .ok a later := by
  unfold succeeds at fine
  split at fine
  · rename_i a later ran
    exact ⟨a, later, ran⟩
  · cases fine

end CheckM

open Enumerator

/-! ## Terms by line id -/

namespace Frame

variable {design : Design} {terms more : Array Enumerator.Term} {assignment : Nat → Nat}
  {frame : Frame Nat} {values : Valuation} {known : Nat → Prop}

/-- The known line ids have terms with the widths of the design and the given values. -/
def Tracks (frame : Frame Nat) (design : Design) (terms : Array Enumerator.Term)
    (assignment : Nat → Nat) (values : Valuation) (known : Nat → Prop) : Prop :=
  ∀ lid, known lid →
    ∃ t, frame.get? lid = some t ∧ Carries terms assignment t (design.valueWidth lid) (values lid)

namespace Tracks

theorem later (tracks : frame.Tracks design terms assignment values known)
    (grown : Extends terms more) : frame.Tracks design more assignment values known := by
  intro lid isKnown
  obtain ⟨t, found, carries⟩ := tracks lid isKnown
  exact ⟨t, found, carries.later grown⟩

theorem mono (tracks : frame.Tracks design terms assignment values known) {fewer : Nat → Prop}
    (inside : ∀ lid, fewer lid → known lid) :
    frame.Tracks design terms assignment values fewer :=
  fun lid member => tracks lid (inside lid member)

theorem insert (tracks : frame.Tracks design terms assignment values known) {lid t : Nat}
    (carries : Carries terms assignment t (design.valueWidth lid) (values lid)) :
    Tracks (OrderedMap.insert frame lid t) design terms assignment values
      fun other => known other ∨ other = lid := by
  intro other isKnown
  rw [OrderedMap.get?_insert]
  by_cases same : other = lid
  · subst same
    exact ⟨t, by simp, carries⟩
  · simpa [same] using tracks other (isKnown.resolve_right same)

theorem resolve (tracks : frame.Tracks design terms assignment values known) (lid : Nat)
    {operand : Nat} (isKnown : known operand) :
    ∃ t, frame.resolve lid operand = .ok t ∧
      Carries terms assignment t (design.valueWidth operand) (values operand) := by
  obtain ⟨t, found, carries⟩ := tracks operand isKnown
  exact ⟨t, by simp [Frame.resolve, found], carries⟩

end Tracks

/-- The entries of a frame are the given line ids in order, with the values of their conditions. -/
def Lists (frame : Frame Nat) (terms : Array Enumerator.Term) (assignment : Nat → Nat)
    (values : Valuation) (conditions : List (Nat × Nat)) : Prop :=
  List.Forall₂
    (fun entry condition =>
      entry.1 = condition.1 ∧ Carries terms assignment entry.2 1 (values condition.2))
    frame.entries conditions

namespace Lists

variable {conditions : List (Nat × Nat)}

theorem later (lists : frame.Lists terms assignment values conditions)
    (grown : Extends terms more) : frame.Lists more assignment values conditions :=
  List.Forall₂.imp (fun _ _ related => ⟨related.1, related.2.later grown⟩) lists

theorem keys (lists : frame.Lists terms assignment values conditions) :
    OrderedMap.keys frame = conditions.map Prod.fst := by
  unfold Lists at lists
  unfold OrderedMap.keys
  generalize frame.entries = entries at lists
  induction lists with
  | nil => rfl
  | cons related _ ih => rw [List.map_cons, List.map_cons, related.1, ih]

/-- Entries and conditions correspond place by place. -/
theorem related_at (lists : frame.Lists terms assignment values conditions) (place : Nat) :
    Option.Rel
      (fun entry condition =>
        entry.1 = condition.1 ∧ Carries terms assignment entry.2 1 (values condition.2))
      frame.entries[place]? conditions[place]? := by
  unfold Lists at lists
  generalize frame.entries = entries at lists
  induction lists generalizing place with
  | nil => exact .none
  | cons related _ ih =>
      cases place with
      | zero => exact .some related
      | succ place => exact ih place

/-- The condition of an entry, by its place. -/
theorem condition_at (lists : frame.Lists terms assignment values conditions) {place : Nat}
    {entry : Nat × Nat} (found : frame.entries[place]? = some entry) :
    ∃ condition, conditions[place]? = some condition ∧ entry.1 = condition.1 ∧
      Carries terms assignment entry.2 1 (values condition.2) := by
  have related := lists.related_at place
  rw [found] at related
  generalize conditions[place]? = here at related
  cases related with
  | some both => exact ⟨_, rfl, both⟩

/-- The entry of a condition, by its place. -/
theorem entry_at (lists : frame.Lists terms assignment values conditions) {place : Nat}
    {condition : Nat × Nat} (found : conditions[place]? = some condition) :
    ∃ entry, frame.entries[place]? = some entry ∧ entry.1 = condition.1 ∧
      Carries terms assignment entry.2 1 (values condition.2) := by
  have related := lists.related_at place
  rw [found] at related
  generalize frame.entries[place]? = here at related
  cases related with
  | some both => exact ⟨_, rfl, both⟩

theorem denoted (lists : frame.Lists terms assignment values conditions) :
    (OrderedMap.values frame).map (denote terms assignment) =
      conditions.map fun condition => .ok (values condition.2) := by
  unfold Lists at lists
  unfold OrderedMap.values
  generalize frame.entries = entries at lists
  induction lists with
  | nil => rfl
  | cons related _ ih => simp only [List.map_cons, related.2.denoted, ih]

/-- A line id that is not listed yet comes last. -/
theorem insert (lists : frame.Lists terms assignment values conditions) {lid condition t : Nat}
    (new : lid ∉ conditions.map Prod.fst)
    (carries : Carries terms assignment t 1 (values condition)) :
    Lists (OrderedMap.insert frame lid t) terms assignment values
      (conditions ++ [(lid, condition)]) := by
  have absent : OrderedMap.contains frame lid = false := by
    rw [← lists.keys] at new
    rw [OrderedMap.contains, OrderedMap.get?, Option.isSome_eq_false_iff, Option.isNone_iff_eq_none,
      List.lookup_eq_none_iff]
    intro entry member
    rw [bne_iff_ne]
    rintro rfl
    exact new (List.mem_map_of_mem member)
  unfold Lists OrderedMap.insert
  rw [absent]
  exact List.rel_append lists (.cons ⟨rfl, carries⟩ .nil)

end Lists

end Frame

/-! ## Variables of origins -/

/-- An assignment of the variables from a number on that gives the origins words that fit. -/
structure Design.Setting (design : Design) (steps base : Nat) (assignment : Nat → Nat)
    (supply : Supply) : Prop where
  wellFormed : design.WellFormed
  words : design.Words
  realises : design.Realises steps base assignment supply
  fits : ∀ step lid, (step, lid) ∈ design.origins steps →
    supply step lid < 2 ^ design.valueWidth lid

/-- A setting of a design that can be unrolled. -/
structure Design.Scenario (design : Design) (steps base : Nat) (assignment : Nat → Nat)
    (supply : Supply) : Prop where
  wellFormed : design.WellFormed
  supported : design.Supported
  realises : design.Realises steps base assignment supply
  fits : ∀ step lid, (step, lid) ∈ design.origins steps →
    supply step lid < 2 ^ design.valueWidth lid

theorem Design.Scenario.setting {design : Design} {steps base : Nat} {assignment : Nat → Nat}
    {supply : Supply} (scenario : design.Scenario steps base assignment supply) :
    design.Setting steps base assignment supply :=
  ⟨scenario.wellFormed, scenario.supported.sorts, scenario.realises, scenario.fits⟩

/-- The variable of an origin; steps in names count from one. -/
def Design.variableOf (design : Design) (tables : Tables BitSort) (origin : Nat × Nat) : Variable :=
  ⟨tables.stepName origin.2 (origin.1 + 1), design.valueWidth origin.2⟩

/-- After the variables at the start come those of the given origins. -/
def Design.Made (design : Design) (tables : Tables BitSort) (start : Array Variable)
    (made : List (Nat × Nat)) (vars : Array Variable) : Prop :=
  vars.toList = start.toList ++ made.map (design.variableOf tables)

/-- The terms that a frame has for the origins of its step are their variables. -/
def Frame.Owns (frame : Frame Nat) (terms : Array Enumerator.Term) (base : Nat)
    (made : List (Nat × Nat)) (step : Nat) : Prop :=
  ∀ index lid : Nat, made[index]? = some (step, lid) →
    ∃ t, frame.get? lid = some t ∧ varIndex? terms t = some (base + index)

namespace Frame.Owns

variable {frame : Frame Nat} {terms more : Array Enumerator.Term} {base step lid t : Nat}
  {made : List (Nat × Nat)}

theorem later (owns : frame.Owns terms base made step) (grown : Extends terms more) :
    frame.Owns more base made step := by
  intro index lid found
  obtain ⟨t, present, named⟩ := owns index lid found
  obtain ⟨width, here⟩ := varIndex?_eq_some_iff.mp named
  exact ⟨t, present, varIndex?_eq_some_iff.mpr ⟨width, grown.getElem? here⟩⟩

theorem insert (owns : frame.Owns terms base made step) (other : (step, lid) ∉ made) :
    Owns (OrderedMap.insert frame lid t) terms base made step := by
  intro index lid' found
  have differ : lid' ≠ lid := by
    rintro rfl
    exact other (List.mem_of_getElem? found)
  rw [OrderedMap.get?_insert]
  simpa [differ] using owns index lid' found

theorem append (owns : frame.Owns terms base made step) {new : List (Nat × Nat)}
    (others : ∀ origin ∈ new, origin.1 ≠ step) : frame.Owns terms base (made ++ new) step := by
  intro index lid found
  rw [List.getElem?_append] at found
  split at found
  · exact owns index lid found
  · exact absurd rfl (others _ (List.mem_of_getElem? found))

/-- A new variable becomes the term of its origin. -/
theorem push (owns : frame.Owns terms base made step) (new : (step, lid) ∉ made)
    (named : varIndex? terms t = some (base + made.length)) :
    Owns (OrderedMap.insert frame lid t) terms base (made ++ [(step, lid)]) step := by
  intro index lid' found
  rw [List.getElem?_append] at found
  split at found
  · exact owns.insert new index lid' found
  · rename_i beyond
    have last : index = made.length := by
      have := (List.getElem?_eq_some_iff.mp found).1
      simp only [List.length_singleton] at this
      omega
    subst last
    simp only [Nat.sub_self, List.getElem?_cons_zero, Option.some.injEq, Prod.mk.injEq, true_and]
      at found
    exact ⟨t, by simp [OrderedMap.get?_insert, found], named⟩

end Frame.Owns

namespace Design

variable {design : Design} {steps : Nat} {assignment : Nat → Nat} {supply : Supply}
  {tables : Tables BitSort} {start vars : Array Variable} {made : List (Nat × Nat)}

theorem Made.size (holds : design.Made tables start made vars) :
    vars.size = start.size + made.length := by
  have lengths := congrArg List.length holds
  simpa using lengths

theorem Made.push (holds : design.Made tables start made vars) (origin : Nat × Nat) :
    design.Made tables start (made ++ [origin]) (vars.push (design.variableOf tables origin)) := by
  unfold Made at *
  simp [holds]

/-- A variable that is made for the origin that comes next has the value of that origin. -/
theorem Setting.makeVariable (setting : design.Setting steps start.size assignment supply)
    {s : Enumerator} (holds : design.Made tables start made s.vars) {step lid : Nat}
    (due : made ++ [(step, lid)] <+: design.origins steps) {sort : BitSort}
    (sized : sort.width = design.valueWidth lid) :
    ∃ t later, Enumerator.makeVariable (tables.stepName lid (step + 1)) sort s = .ok t later ∧
      Grows s later ∧ design.Made tables start (made ++ [(step, lid)]) later.vars ∧
      varIndex? later.terms t = some (start.size + made.length) ∧
      Carries later.terms assignment t (design.valueWidth lid) (supply step lid) := by
  have place : (design.origins steps)[made.length]? = some (step, lid) := by
    obtain ⟨rest, whole⟩ := due
    rw [← whole]
    simp
  have value : assignment s.vars.size = supply step lid := by
    rw [holds.size]
    exact setting.realises _ step lid place
  have small : assignment s.vars.size < 2 ^ sort.width := by
    rw [value, sized]
    exact setting.fits step lid (List.mem_of_getElem? place)
  obtain ⟨t, later, ran, grown, vars, named, carries⟩ :=
    makeVariable_carries (tables.stepName lid (step + 1)) sort small
  refine ⟨t, later, ran, grown, ?_, ?_, ?_⟩
  · rw [vars, sized]
    exact holds.push (step, lid)
  · rw [named, holds.size]
  · rwa [value, sized] at carries

end Design

end BoundedCheck
