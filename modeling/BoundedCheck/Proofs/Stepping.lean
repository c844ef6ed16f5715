import Mathlib
import BoundedCheck.Proofs.Preparing

/-!
# One step

The instructions of a supported design are evaluated in a frame that tracks the values of a step of
a run.  Every instruction succeeds, and its term denotes the value that the run gives it; the frame
that follows tracks what the states hold at the start of the next step.
-/

namespace BoundedCheck

open Enumerator

/-! ## Computed values -/

/-- The widths of the operands and the result of a binary operator. -/
theorem Operation.WidthsAgree.binary {before : Design} {op : BinaryOp}
    {sort left right width widthA widthB : Nat}
    (agree : (Operation.binary op sort left right).WidthsAgree before)
    (first : before.HasWidth left widthA) (second : before.HasWidth right widthB)
    (result : before.DeclaresWidth sort width) (fits : width ≤ Word.maxWidth)
    (fitsA : widthA ≤ Word.maxWidth) :
    Word.Operands op widthA widthB ∧ Word.resultWidth op widthA widthB = width := by
  cases op with
  | concat =>
      have total := agree widthA widthB width first second result
      rw [total] at fits
      refine ⟨⟨fitsA, fun other => absurd rfl other, fun _ => fits⟩, ?_⟩
      rw [Word.resultWidth_concat fits, total]
  | implies | iff =>
      obtain ⟨oneA, oneB, one⟩ := agree
      have widthA_eq := oneA widthA first
      have widthB_eq := oneB widthB second
      have width_eq := one width result
      subst widthA_eq widthB_eq width_eq
      exact ⟨⟨fitsA, fun _ => rfl, fun joins => nomatch joins⟩, rfl⟩
  | eq | neq | ugt | sgt | ugte | sgte | ult | slt | ulte | slte =>
      obtain ⟨alike, one⟩ := agree
      refine ⟨⟨fitsA, fun _ => alike widthA widthB first second, fun joins => nomatch joins⟩, ?_⟩
      exact (one width result).symm
  | add | sub | mul | sdiv | udiv | smod | sll | srl | sra | and | or | xor =>
      obtain ⟨alike, same⟩ := agree
      refine ⟨⟨fitsA, fun _ => alike widthA widthB first second, fun joins => nomatch joins⟩, ?_⟩
      exact (same widthA width first result).symm

namespace StepFrames

variable {s : Enumerator} {assignment : Nat → Nat} {width value : Nat}

/-- A request gives the term of a value, and makes no variable. -/
def Produces (request : CheckM Enumerator (Option Nat)) (s : Enumerator) (assignment : Nat → Nat)
    (width value : Nat) : Prop :=
  ∃ t later, request s = .ok (some t) later ∧ Grows s later ∧ later.vars = s.vars ∧
    Carries later.terms assignment t width value

theorem produces_operator {request : EStateM Fault Enumerator Nat}
    (yields : Yields request s assignment width value) :
    Produces (do return some (← CheckM.ofOperator request)) s assignment width value := by
  obtain ⟨t, later, ran, grown, vars, carries⟩ := yields
  refine ⟨t, later, ?_, grown, vars, carries⟩
  rw [CheckM.bind_of_ok (CheckM.ofOperator_of_ok ran)]
  rfl

theorem produces_constant {tables : Tables BitSort} {lid sort number : Nat} {handle : BitSort}
    (sorted : tables.sortOf lid sort = .ok handle) :
    Produces (do return some (← constant tables lid sort number)) s assignment handle.width
      (BitVec.ofNat handle.width number).toNat := by
  have yields : Yields (Enumerator.makeConstant number handle) s assignment handle.width _ :=
    yields_constant
  obtain ⟨t, later, ran, grown, vars, carries⟩ := yields
  have made : constant tables lid sort number s = .ok t later := by
    rw [constant, sorted]
    exact CheckM.ofSolver_of_ok ran
  refine ⟨t, later, ?_, grown, vars, carries⟩
  rw [CheckM.bind_of_ok made]
  rfl

section Place

variable {design before after : Design} {supply : Supply} {steps start step : Nat}
  {tables : Tables BitSort} {frame : Frame Nat} {instruction : Instruction}

/-- The sort of an instruction, with the width of its value. -/
theorem result_sort (setting : design.Setting steps start assignment supply)
    (whole : design = before ++ instruction :: after) (covers : tables.Covers design design)
    {sort : Nat} (sorted : instruction.operation.sort? = some sort) :
    ∃ handle, tables.sortOf instruction.lid sort = .ok handle ∧
      handle.width = design.valueWidth instruction.lid ∧
      before.DeclaresWidth sort (design.valueWidth instruction.lid) := by
  have inside : before ⊆ design := by simp [whole]
  have formed := (whole ▸ setting.wellFormed).at_place
  have declared := formed.resolved.sorts sort (Operation.mem_sortReferences sorted)
  have width : design.valueWidth instruction.lid = design.sortWidth sort :=
    Design.valueWidth_eq setting.wellFormed (by simp [whole]) sorted
  obtain ⟨handle, found, sized⟩ := covers.sortOf instruction.lid (declared.mono inside)
  rw [width]
  exact ⟨handle, found, sized, declared.declaresWidth setting.wellFormed setting.words inside⟩

/-- The width of an operand. -/
theorem operand_width (setting : design.Setting steps start assignment supply)
    (whole : design = before ++ instruction :: after) (lid : Nat)
    (operand : lid ∈ instruction.operation.operands) :
    before.HasWidth lid (design.valueWidth lid) ∧ design.valueWidth lid ≤ Word.maxWidth := by
  have inside : before ⊆ design := by simp [whole]
  have formed := (whole ▸ setting.wellFormed).at_place
  have closed : before.WellFormed := (whole ▸ setting.wellFormed).of_append
  have declared := formed.resolved.operands lid operand
  exact ⟨declared.hasWidth setting.wellFormed setting.words inside closed,
    declared.le setting.wellFormed setting.words inside closed⟩

end Place

section Computed

variable {design before after : Design} {supply : Supply} {steps start step : Nat}
  {tables : Tables BitSort} {frame : Frame Nat} {instruction : Instruction}

/-- An instruction that computes a value gets the term of the value that the run gives it. -/
theorem value?_produces (setting : design.Setting steps start assignment supply)
    (covers : tables.Covers design design) (whole : design = before ++ instruction :: after)
    {known : Nat → Prop} (resolved : ∀ lid, before.DeclaresValue lid → known lid)
    (tracks : frame.Tracks design s.terms assignment (design.run supply step) known)
    (supported : instruction.operation.isSupported = true)
    (computed : (design.compute? (design.run supply step) instruction.operation).isSome = true)
    (number : Nat) :
    Produces (value? tables number frame instruction) s assignment
      (design.valueWidth instruction.lid) (design.run supply step instruction.lid) := by
  have formed := (whole ▸ setting.wellFormed).at_place
  have member : instruction ∈ design := by simp [whole]
  have operand (lid : Nat) (among : lid ∈ instruction.operation.operands) :
      ∃ t, frame.resolve instruction.lid lid = .ok t ∧
        Carries s.terms assignment t (design.valueWidth lid) (design.run supply step lid) :=
    tracks.resolve instruction.lid (resolved lid (formed.resolved.operands lid among))
  have width (lid : Nat) (among : lid ∈ instruction.operation.operands) :=
    operand_width setting whole lid among
  have result (sort : Nat) (sorted : instruction.operation.sort? = some sort) :=
    result_sort setting whole covers sorted
  obtain ⟨value, solution⟩ := Option.isSome_iff_exists.mp computed
  have ran := Design.run_of_compute? setting.wellFormed member solution
  rw [ran]
  obtain ⟨lid, operation⟩ := instruction
  cases operation with
  | const sort number =>
      obtain ⟨handle, sorted, sized, -⟩ := result sort rfl
      cases solution
      rw [← Design.valueWidth_eq setting.wellFormed member rfl, ← sized]
      exact produces_constant sorted
  | zero sort =>
      obtain ⟨handle, sorted, sized, -⟩ := result sort rfl
      cases solution
      have produces : Produces (value? tables number frame ⟨lid, .zero sort⟩) s assignment
          handle.width (BitVec.ofNat handle.width 0).toNat := produces_constant sorted
      rwa [sized, BitVec.toNat_ofNat, Nat.zero_mod] at produces
  | one sort =>
      obtain ⟨handle, sorted, sized, -⟩ := result sort rfl
      cases solution
      rw [← Design.valueWidth_eq setting.wellFormed member rfl, ← sized]
      exact produces_constant sorted
  | ones sort => cases supported
  | not sort a =>
      obtain ⟨handle, sorted, sized, declared⟩ := result sort rfl
      obtain ⟨t, found, carries⟩ := operand a (by simp [Operation.operands])
      obtain ⟨wide, fits⟩ := width a (by simp [Operation.operands])
      have same := formed.widths _ _ declared wide
      cases solution
      simp only [value?, sorted, found, CheckM.ofExcept, pure_bind]
      rw [← same]
      exact produces_operator (yields_not fits carries)
  | binary op sort left right =>
      obtain ⟨handle, sorted, sized, declared⟩ := result sort rfl
      obtain ⟨a, foundA, first⟩ := operand left (by simp [Operation.operands])
      obtain ⟨b, foundB, second⟩ := operand right (by simp [Operation.operands])
      obtain ⟨wideA, fitsA⟩ := width left (by simp [Operation.operands])
      obtain ⟨wideB, -⟩ := width right (by simp [Operation.operands])
      have fits := sized ▸ handle.le
      obtain ⟨widths, same⟩ := formed.widths.binary wideA wideB declared fits fitsA
      cases solution
      simp only [value?, sorted, foundA, foundB, CheckM.ofExcept, pure_bind]
      rw [← same] at fits ⊢
      exact produces_operator (yields_binary widths fits first second)
  | ite sort condition onTrue onFalse =>
      obtain ⟨handle, sorted, sized, declared⟩ := result sort rfl
      obtain ⟨c, foundC, test⟩ := operand condition (by simp [Operation.operands])
      obtain ⟨a, foundA, first⟩ := operand onTrue (by simp [Operation.operands])
      obtain ⟨b, foundB, second⟩ := operand onFalse (by simp [Operation.operands])
      obtain ⟨wideC, -⟩ := width condition (by simp [Operation.operands])
      obtain ⟨wideA, -⟩ := width onTrue (by simp [Operation.operands])
      obtain ⟨wideB, -⟩ := width onFalse (by simp [Operation.operands])
      obtain ⟨one, alike⟩ := formed.widths
      rw [one _ wideC] at test
      rw [(alike _ declared).1 _ wideA] at first
      rw [(alike _ declared).2 _ wideB] at second
      cases solution
      simp only [value?, sorted, foundC, foundA, foundB, CheckM.ofExcept, pure_bind]
      exact produces_operator (yields_ite (sized ▸ handle.le) test first second)
  | uext sort a extra name =>
      obtain ⟨handle, sorted, sized, declared⟩ := result sort rfl
      obtain ⟨t, found, carries⟩ := operand a (by simp [Operation.operands])
      obtain ⟨wide, -⟩ := width a (by simp [Operation.operands])
      have total := formed.widths _ _ declared wide
      have fits := sized ▸ handle.le
      cases solution
      simp only [value?, sorted, found, CheckM.ofExcept, pure_bind]
      rw [total] at fits ⊢
      exact produces_operator (yields_uext fits carries)
  | slice sort a lowBit count =>
      obtain ⟨handle, sorted, sized, declared⟩ := result sort rfl
      obtain ⟨t, found, carries⟩ := operand a (by simp [Operation.operands])
      obtain ⟨wide, fits⟩ := width a (by simp [Operation.operands])
      obtain ⟨inside, same⟩ := formed.widths
      obtain ⟨positive, -, upper⟩ := formed.literals
      have high : sliceUpper lowBit count = .ok (lowBit + (count - 1)) :=
        narrow_eq_ok (by omega)
      cases solution
      simp only [value?, sorted, found, high, CheckM.ofExcept, pure_bind]
      rw [same _ declared]
      exact produces_operator (yields_slice positive (inside _ wide) fits carries)
  | _ => cases solution

end Computed

end StepFrames

/-! ## What a step has met so far -/

namespace Operation

/-- The condition of a bad instruction. -/
def bad? : Operation → Option Nat
  | .bad condition _ => some condition
  | _ => none

/-- The condition of a constraint. -/
def constraint? : Operation → Option Nat
  | .constraint condition _ => some condition
  | _ => none

end Operation

namespace Design

/-- The conditions of one kind: line ids with what they name, in order. -/
def conditions (select : Operation → Option Nat) (design : Design) : List (Nat × Nat) :=
  design.filterMap fun instruction =>
    (select instruction.operation).map fun condition => (instruction.lid, condition)

variable {select : Operation → Option Nat}

theorem mem_conditions {design : Design} {lid condition : Nat} :
    (lid, condition) ∈ design.conditions select ↔
      ∃ operation, ⟨lid, operation⟩ ∈ design ∧ select operation = some condition := by
  unfold conditions
  rw [List.mem_filterMap]
  constructor
  · rintro ⟨⟨own, operation⟩, member, here⟩
    obtain ⟨value, found, same⟩ := Option.map_eq_some_iff.mp here
    cases same
    exact ⟨operation, member, found⟩
  · rintro ⟨operation, member, found⟩
    exact ⟨_, member, by simp [found]⟩

theorem mem_bads {design : Design} {lid condition : Nat} :
    (lid, condition) ∈ design.conditions Operation.bad? ↔
      ∃ name, ⟨lid, .bad condition name⟩ ∈ design := by
  rw [mem_conditions]
  constructor
  · rintro ⟨operation, member, found⟩
    cases operation with
    | bad own name =>
        cases found
        exact ⟨name, member⟩
    | _ => cases found
  · rintro ⟨name, member⟩
    exact ⟨_, member, rfl⟩

theorem mem_constraints {design : Design} {lid condition : Nat} :
    (lid, condition) ∈ design.conditions Operation.constraint? ↔
      ∃ name, ⟨lid, .constraint condition name⟩ ∈ design := by
  rw [mem_conditions]
  constructor
  · rintro ⟨operation, member, found⟩
    cases operation with
    | constraint own name =>
        cases found
        exact ⟨name, member⟩
    | _ => cases found
  · rintro ⟨name, member⟩
    exact ⟨_, member, rfl⟩

variable (before : Design) {instruction : Instruction}

theorem conditions_snoc_of_some {condition : Nat}
    (found : select instruction.operation = some condition) :
    conditions select (before ++ [instruction]) =
      before.conditions select ++ [(instruction.lid, condition)] := by
  simp [conditions, found]

theorem conditions_snoc_of_none (missing : select instruction.operation = none) :
    conditions select (before ++ [instruction]) = before.conditions select := by
  simp [conditions, missing]

theorem inputs_snoc (instruction : Instruction) : inputs (before ++ [instruction]) =
    match instruction.operation with
    | .input _ _ => before.inputs ++ [instruction.lid]
    | _ => before.inputs := by
  obtain ⟨lid, operation⟩ := instruction
  unfold inputs
  rw [List.filterMap_append]
  cases operation with
  | input sort name => rfl
  | _ => exact List.append_nil _

end Design

/-- The terms that a frame has for states are those of the values that their last `next` names. -/
def Frame.Follows (frame : Frame Nat) (design : Design) (terms : Array Enumerator.Term)
    (assignment : Nat → Nat) (values : Valuation) (before : Design) : Prop :=
  ∀ state value, before.lastNext? state = some value →
    ∃ t, frame.get? state = some t ∧
      Carries terms assignment t (design.valueWidth state) (values value)

namespace Frame.Follows

variable {frame : Frame Nat} {design before : Design} {terms more : Array Enumerator.Term}
  {assignment : Nat → Nat} {values : Valuation}

theorem later (follows : frame.Follows design terms assignment values before)
    (grown : Extends terms more) : frame.Follows design more assignment values before := by
  intro state value found
  obtain ⟨t, present, carries⟩ := follows state value found
  exact ⟨t, present, carries.later grown⟩

/-- An instruction that is not a `next` changes nothing. -/
theorem snoc (follows : frame.Follows design terms assignment values before)
    {instruction : Instruction}
    (same : ∀ state, Design.lastNext? (before ++ [instruction]) state = before.lastNext? state) :
    frame.Follows design terms assignment values (before ++ [instruction]) := by
  intro state value last
  rw [same] at last
  exact follows state value last

/-- A further `next` replaces an earlier one of its state. -/
theorem insert (follows : frame.Follows design terms assignment values before)
    {lid sort state value t : Nat}
    (carries : Carries terms assignment t (design.valueWidth state) (values value)) :
    Follows (OrderedMap.insert frame state t) design terms assignment values
      (before ++ [⟨lid, .next sort state value⟩]) := by
  intro other last found
  simp only [Design.lastNext?_snoc] at found
  rw [OrderedMap.get?_insert]
  by_cases same : state = other
  · subst same
    simp only [if_true, Option.some.injEq] at found
    subst found
    exact ⟨t, by simp, carries⟩
  · rw [if_neg same] at found
    have differ : ¬ other = state := fun equal => same equal.symm
    simpa [differ] using follows other last found

end Frame.Follows

namespace StepFrames

variable {design before after : Design} {tables : Tables BitSort} {start : Array Variable}
  {assignment : Nat → Nat} {supply : Supply} {steps step : Nat} {frames : StepFrames Nat}
  {s later : Enumerator} {instruction : Instruction}

/-- The frames of a step after some instructions. -/
structure Midway (design : Design) (tables : Tables BitSort) (start : Array Variable)
    (assignment : Nat → Nat) (supply : Supply) (step : Nat) (before : Design)
    (frames : StepFrames Nat) (s : Enumerator) : Prop where
  made : design.Made tables start
    (design.origins step ++ before.inputs.map fun lid => (step, lid)) s.vars
  current : frames.current.Tracks design s.terms assignment (design.run supply step)
    fun lid => design.DeclaresState lid ∨ before.DeclaresValue lid
  owns : frames.current.Owns s.terms start.size
    (design.origins step ++ before.inputs.map fun lid => (step, lid)) step
  next : frames.next.Follows design s.terms assignment (design.run supply step) before
  bads : frames.bads.Lists s.terms assignment (design.run supply step)
    (before.conditions Operation.bad?)
  constraints : frames.constraints.Lists s.terms assignment (design.run supply step)
    (before.conditions Operation.constraint?)

theorem declaresValue_snoc {lid : Nat} (declared : Design.DeclaresValue (before ++ [instruction]) lid) :
    before.DeclaresValue lid ∨ (lid = instruction.lid ∧ instruction.operation.isValue = true) := by
  obtain ⟨operation, member, isValue⟩ := declared
  rcases List.mem_append.mp member with earlier | last
  · exact Or.inl ⟨operation, earlier, isValue⟩
  · rw [← List.mem_singleton.mp last]
    exact Or.inr ⟨rfl, isValue⟩

/-- The operand of an instruction has a term. -/
theorem Midway.resolve (midway : Midway design tables start assignment supply step before frames s)
    (setting : design.Setting steps start.size assignment supply)
    (whole : design = before ++ instruction :: after) (operand : Nat)
    (among : operand ∈ instruction.operation.operands) :
    ∃ t, frames.current.resolve instruction.lid operand = .ok t ∧
      Carries s.terms assignment t (design.valueWidth operand) (design.run supply step operand) := by
  have formed := (whole ▸ setting.wellFormed).at_place
  exact midway.current.resolve instruction.lid (Or.inr (formed.resolved.operands operand among))

/-- The condition of an instruction has a term of one bit. -/
theorem Midway.condition
    (midway : Midway design tables start assignment supply step before frames s)
    (setting : design.Setting steps start.size assignment supply)
    (whole : design = before ++ instruction :: after) {condition : Nat}
    (among : condition ∈ instruction.operation.operands)
    (single : ∀ width, before.HasWidth condition width → width = 1) :
    ∃ t, frames.current.resolve instruction.lid condition = .ok t ∧
      Carries s.terms assignment t 1 (design.run supply step condition) := by
  obtain ⟨t, found, carries⟩ := midway.resolve setting whole condition among
  rw [single _ (operand_width setting whole condition among).1] at carries
  exact ⟨t, found, carries⟩

/-- A line id that comes later is not among earlier ones. -/
theorem new_condition (increasing : ∀ earlier ∈ before, earlier.lid < instruction.lid)
    (select : Operation → Option Nat) :
    instruction.lid ∉ (before.conditions select).map Prod.fst := by
  intro member
  obtain ⟨⟨lid, condition⟩, listed, same⟩ := List.mem_map.mp member
  obtain ⟨operation, earlier, -⟩ := Design.mem_conditions.mp listed
  exact Nat.lt_irrefl _ (same ▸ increasing _ earlier)

/-- The term of an instruction makes it known. -/
theorem known_insert {frame : Frame Nat} {terms : Array Enumerator.Term} {values : Valuation}
    {t : Nat}
    (tracks : frame.Tracks design terms assignment values
      fun lid => design.DeclaresState lid ∨ before.DeclaresValue lid)
    (carries : Carries terms assignment t (design.valueWidth instruction.lid)
      (values instruction.lid)) :
    Frame.Tracks (OrderedMap.insert frame instruction.lid t) design terms assignment values
      fun lid => design.DeclaresState lid ∨ Design.DeclaresValue (before ++ [instruction]) lid := by
  refine (tracks.insert carries).mono ?_
  rintro lid (isState | declared)
  · exact Or.inl (Or.inl isState)
  · rcases declaresValue_snoc declared with earlier | ⟨same, -⟩
    · exact Or.inl (Or.inr earlier)
    · exact Or.inr same

/-- An instruction that declares no state is not among the origins before it. -/
theorem new_origin (wellFormed : design.WellFormed)
    (whole : design = before ++ instruction :: after)
    (other : ¬ design.DeclaresState instruction.lid) :
    (step, instruction.lid) ∉ design.origins step ++ before.inputs.map fun lid => (step, lid) := by
  have formed := (whole ▸ wellFormed).at_place
  rw [List.mem_append, Design.mem_origins, Design.mem_map_inputs]
  rintro ((⟨below, -⟩ | ⟨-, isState, -⟩) | ⟨-, sort, name, earlier⟩)
  · exact Nat.lt_irrefl _ below
  · exact other isState
  · exact Nat.lt_irrefl _ (formed.increasing ⟨_, .input sort name⟩ earlier)

/-- An instruction without a value makes nothing known. -/
theorem Midway.known_snoc
    (midway : Midway design tables start assignment supply step before frames s)
    (other : instruction.operation.isValue = false) :
    frames.current.Tracks design s.terms assignment (design.run supply step)
      fun lid => design.DeclaresState lid ∨ Design.DeclaresValue (before ++ [instruction]) lid := by
  refine midway.current.mono ?_
  rintro lid (isState | declared)
  · exact Or.inl isState
  · rcases declaresValue_snoc declared with earlier | ⟨-, isValue⟩
    · exact Or.inr earlier
    · rw [other] at isValue
      cases isValue

theorem Midway.next_ok (midway : Midway design tables start assignment supply step before frames s)
    (setting : design.Setting steps start.size assignment supply)
    (covers : tables.Covers design design) {lid sort state value : Nat}
    (whole : design = before ++ ⟨lid, .next sort state value⟩ :: after) (number : Nat) :
    ∃ frames', evaluate tables number frames ⟨lid, .next sort state value⟩ s = .ok frames' s ∧
      Midway design tables start assignment supply step (before ++ [⟨lid, .next sort state value⟩])
        frames' s := by
  have formed := (whole ▸ setting.wellFormed).at_place
  have registered : tables.nexts.get? lid = some state :=
    covers.knows ⟨lid, .next sort state value⟩ (by simp [whole])
  obtain ⟨handle, -, -, declared⟩ := result_sort setting whole covers rfl
  obtain ⟨t, found, carries⟩ :=
    midway.resolve setting whole value (by simp [Operation.operands])
  have wideState := (operand_width setting whole state (by simp [Operation.operands])).1
  have wideValue := (operand_width setting whole value (by simp [Operation.operands])).1
  obtain ⟨stateWidth, valueWidth⟩ := formed.widths _ declared
  rw [valueWidth _ wideValue, ← stateWidth _ wideState] at carries
  refine ⟨{ frames with next := frames.next.insert state t }, ?_, ?_⟩
  · simp only [evaluate, registered, found]
    rfl
  · exact ⟨by rw [Design.inputs_snoc]; exact midway.made, midway.known_snoc rfl,
      by rw [Design.inputs_snoc]; exact midway.owns, midway.next.insert carries,
      by rw [Design.conditions_snoc_of_none _ rfl]; exact midway.bads,
      by rw [Design.conditions_snoc_of_none _ rfl]; exact midway.constraints⟩

theorem Midway.bad_ok (midway : Midway design tables start assignment supply step before frames s)
    (setting : design.Setting steps start.size assignment supply) {lid condition : Nat}
    {name : Option String} (whole : design = before ++ ⟨lid, .bad condition name⟩ :: after)
    (number : Nat) :
    ∃ frames', evaluate tables number frames ⟨lid, .bad condition name⟩ s = .ok frames' s ∧
      Midway design tables start assignment supply step (before ++ [⟨lid, .bad condition name⟩])
        frames' s := by
  have formed := (whole ▸ setting.wellFormed).at_place
  obtain ⟨t, found, carries⟩ :=
    midway.condition setting whole (by simp [Operation.operands]) formed.widths
  refine ⟨{ frames with bads := frames.bads.insert lid t }, ?_, ?_⟩
  · simp only [evaluate, found]
    rfl
  · refine ⟨by rw [Design.inputs_snoc]; exact midway.made, midway.known_snoc rfl,
      by rw [Design.inputs_snoc]; exact midway.owns,
      midway.next.snoc fun _ => Design.lastNext?_snoc .., ?_,
      by rw [Design.conditions_snoc_of_none _ rfl]; exact midway.constraints⟩
    rw [Design.conditions_snoc_of_some _ rfl]
    exact midway.bads.insert (new_condition formed.increasing _) carries

theorem Midway.constraint_ok
    (midway : Midway design tables start assignment supply step before frames s)
    (setting : design.Setting steps start.size assignment supply) {lid condition : Nat}
    {name : Option String} (whole : design = before ++ ⟨lid, .constraint condition name⟩ :: after)
    (number : Nat) :
    ∃ frames', evaluate tables number frames ⟨lid, .constraint condition name⟩ s = .ok frames' s ∧
      Midway design tables start assignment supply step
        (before ++ [⟨lid, .constraint condition name⟩]) frames' s := by
  have formed := (whole ▸ setting.wellFormed).at_place
  obtain ⟨t, found, carries⟩ :=
    midway.condition setting whole (by simp [Operation.operands]) formed.widths
  refine ⟨{ frames with constraints := frames.constraints.insert lid t }, ?_, ?_⟩
  · simp only [evaluate, found]
    rfl
  · refine ⟨by rw [Design.inputs_snoc]; exact midway.made, midway.known_snoc rfl,
      by rw [Design.inputs_snoc]; exact midway.owns,
      midway.next.snoc fun _ => Design.lastNext?_snoc ..,
      by rw [Design.conditions_snoc_of_none _ rfl]; exact midway.bads, ?_⟩
    rw [Design.conditions_snoc_of_some _ rfl]
    exact midway.constraints.insert (new_condition formed.increasing _) carries

theorem freshVariable_of_ok {lid sort number t : Nat} {handle : BitSort}
    (sorted : tables.sortOf lid sort = .ok handle)
    (ran : Enumerator.makeVariable (tables.stepName lid number) handle s = .ok t later) :
    freshVariable tables lid sort number s = .ok t later := by
  rw [freshVariable, sorted]
  exact CheckM.ofSolver_of_ok ran

/-- The variable that comes next is that of the input at hand. -/
theorem due_input (inTime : step < steps) {lid sort : Nat} {name : Option String}
    (whole : design = before ++ ⟨lid, .input sort name⟩ :: after) :
    design.origins step ++ before.inputs.map (fun lid => (step, lid)) ++ [(step, lid)] <+:
      design.origins steps := by
  have split : design.inputs = before.inputs ++ lid :: after.inputs := by
    simp [whole, Design.inputs]
  refine List.IsPrefix.trans ?_ (design.origins_isPrefix inTime)
  rw [Design.origins, split, List.map_append, List.map_cons]
  exact ⟨after.inputs.map (fun lid => (step, lid)) ++
    design.freeStates.map fun state => (step + 1, state.1), by simp⟩

/-- Whether an instruction is evaluated in the frame of the step itself. -/
def inFrame : Operation → Bool
  | .next _ _ _ | .constraint _ _ | .bad _ _ => false
  | _ => true

theorem evaluate_of_value? {number : Nat} {result : Option Nat}
    (inside : inFrame instruction.operation = true)
    (value : value? tables number frames.current instruction s = .ok result later) :
    evaluate tables number frames instruction s =
      .ok (match result with
        | some t => { frames with current := frames.current.insert instruction.lid t }
        | none => frames) later := by
  obtain ⟨lid, operation⟩ := instruction
  cases operation with
  | next | constraint | bad => cases inside
  | _ =>
      simp only [evaluate, CheckM.bind_of_ok value]
      cases result <;> rfl

theorem Midway.input_ok (midway : Midway design tables start assignment supply step before frames s)
    (setting : design.Setting steps start.size assignment supply) (inTime : step < steps)
    (covers : tables.Covers design design) {lid sort : Nat} {name : Option String}
    (whole : design = before ++ ⟨lid, .input sort name⟩ :: after) :
    ∃ frames' later,
      evaluate tables (step + 1) frames ⟨lid, .input sort name⟩ s = .ok frames' later ∧
      Grows s later ∧
      Midway design tables start assignment supply step (before ++ [⟨lid, .input sort name⟩])
        frames' later := by
  have isInput : ∃ sort name, ⟨lid, .input sort name⟩ ∈ design := ⟨sort, name, by simp [whole]⟩
  obtain ⟨handle, sorted, sized, -⟩ := result_sort setting whole covers rfl
  obtain ⟨t, later, ran, grown, made, named, carries⟩ :=
    setting.makeVariable midway.made (due_input inTime whole) sized
  have new : (step, lid) ∉ design.origins step ++ before.inputs.map fun lid => (step, lid) :=
    new_origin setting.wellFormed whole
      (Design.not_input_and_state setting.wellFormed isInput)
  have supplied : design.run supply step lid = supply step lid :=
    Design.run_of_external setting.wellFormed (Or.inl isInput)
  rw [← supplied] at carries
  refine ⟨{ frames with current := frames.current.insert lid t }, later, ?_, grown, ?_⟩
  · have value : value? tables (step + 1) frames.current ⟨lid, .input sort name⟩ s =
        .ok (some t) later := by
      simp only [value?, CheckM.bind_of_ok (freshVariable_of_ok sorted ran)]
      rfl
    exact evaluate_of_value? rfl value
  · refine ⟨?_, ?_, ?_, ?_, ?_, ?_⟩
    · rw [Design.inputs_snoc, List.map_append, ← List.append_assoc]
      exact made
    · exact known_insert (midway.current.later grown.terms) carries
    · rw [Design.inputs_snoc, List.map_append, ← List.append_assoc]
      exact (midway.owns.later grown.terms).push new named
    · exact (midway.next.later grown.terms).snoc fun _ => Design.lastNext?_snoc ..
    · rw [Design.conditions_snoc_of_none _ rfl]
      exact midway.bads.later grown.terms
    · rw [Design.conditions_snoc_of_none _ rfl]
      exact midway.constraints.later grown.terms

/-- Whether an instruction takes no variable and goes to no other frame. -/
def isPlain : Operation → Bool
  | .input _ _ | .next _ _ _ | .constraint _ _ | .bad _ _ => false
  | _ => true

theorem inFrame_of_isPlain {operation : Operation} (plain : isPlain operation = true) :
    inFrame operation = true := by
  cases operation <;> first | rfl | cases plain

theorem isPlain_of_compute? {values : Valuation} {operation : Operation}
    (computed : (design.compute? values operation).isSome = true) : isPlain operation = true := by
  cases operation <;> first | rfl | cases computed

/-- A plain instruction only makes its value known. -/
theorem Midway.pass (midway : Midway design tables start assignment supply step before frames s)
    (plain : isPlain instruction.operation = true)
    (current : frames.current.Tracks design s.terms assignment (design.run supply step)
      fun lid => design.DeclaresState lid ∨ Design.DeclaresValue (before ++ [instruction]) lid) :
    Midway design tables start assignment supply step (before ++ [instruction]) frames s := by
  obtain ⟨lid, operation⟩ := instruction
  cases operation with
  | input | next | constraint | bad => cases plain
  | _ =>
      refine ⟨?_, current, ?_, ?_, ?_, ?_⟩
      · rw [Design.inputs_snoc]
        exact midway.made
      · rw [Design.inputs_snoc]
        exact midway.owns
      · exact midway.next.snoc fun _ => Design.lastNext?_snoc ..
      · rw [Design.conditions_snoc_of_none _ rfl]
        exact midway.bads
      · rw [Design.conditions_snoc_of_none _ rfl]
        exact midway.constraints

/-- A computed value enters the frame. -/
theorem Midway.compute_ok
    (midway : Midway design tables start assignment supply step before frames s)
    (setting : design.Setting steps start.size assignment supply)
    (covers : tables.Covers design design) (whole : design = before ++ instruction :: after)
    (supported : instruction.operation.isSupported = true)
    (computed : (design.compute? (design.run supply step) instruction.operation).isSome = true) :
    ∃ frames' later, evaluate tables (step + 1) frames instruction s = .ok frames' later ∧
      Grows s later ∧
      Midway design tables start assignment supply step (before ++ [instruction]) frames' later := by
  have other : ¬ design.DeclaresState instruction.lid := by
    rintro ⟨sort, name, isState⟩
    have member : instruction ∈ design := by simp [whole]
    rw [setting.wellFormed.unique member isState rfl] at computed
    cases computed
  obtain ⟨t, later, value, grown, vars, carries⟩ :=
    value?_produces setting covers whole (fun _ => Or.inr) midway.current supported computed
      (step + 1)
  have current := midway.current.later grown.terms
  have moved : Midway design tables start assignment supply step before
      { frames with current := frames.current.insert instruction.lid t } later :=
    ⟨vars ▸ midway.made, (current.insert carries).mono fun _ => Or.inl,
      (midway.owns.later grown.terms).insert (new_origin setting.wellFormed whole other),
      midway.next.later grown.terms, midway.bads.later grown.terms,
      midway.constraints.later grown.terms⟩
  have plain := isPlain_of_compute? computed
  exact ⟨_, later, evaluate_of_value? (inFrame_of_isPlain plain) value, grown,
    moved.pass plain (known_insert current carries)⟩

/-- Each supported instruction of a design of words can be evaluated. -/
theorem evaluate_ok (midway : Midway design tables start assignment supply step before frames s)
    (setting : design.Setting steps start.size assignment supply) (inTime : step < steps)
    (covers : tables.Covers design design) (whole : design = before ++ instruction :: after)
    (supported : instruction.operation.isSupported = true) :
    ∃ frames' later, evaluate tables (step + 1) frames instruction s = .ok frames' later ∧
      Grows s later ∧
      Midway design tables start assignment supply step (before ++ [instruction]) frames' later := by
  have member : instruction ∈ design := by simp [whole]
  obtain ⟨lid, operation⟩ := instruction
  cases operation with
  | input sort name => exact midway.input_ok setting inTime covers whole
  | next sort state value =>
      obtain ⟨frames', ran, done⟩ := midway.next_ok setting covers whole (step + 1)
      exact ⟨frames', s, ran, .refl s, done⟩
  | bad condition name =>
      obtain ⟨frames', ran, done⟩ := midway.bad_ok setting whole (step + 1)
      exact ⟨frames', s, ran, .refl s, done⟩
  | constraint condition name =>
      obtain ⟨frames', ran, done⟩ := midway.constraint_ok setting whole (step + 1)
      exact ⟨frames', s, ran, .refl s, done⟩
  | init sort state value => cases supported
  | ones sort => cases supported
  | sort kind => exact ⟨frames, s, rfl, .refl s, midway.pass rfl (midway.known_snoc rfl)⟩
  | output value name => exact ⟨frames, s, rfl, .refl s, midway.pass rfl (midway.known_snoc rfl)⟩
  | state sort name =>
      refine ⟨frames, s, rfl, .refl s, midway.pass rfl (midway.current.mono ?_)⟩
      rintro other (isState | declared)
      · exact Or.inl isState
      · rcases declaresValue_snoc declared with earlier | ⟨rfl, -⟩
        · exact Or.inr earlier
        · exact Or.inl ⟨sort, name, member⟩
  | _ => exact midway.compute_ok setting covers whole supported rfl

theorem evaluateAll_ok {rest : Design}
    (midway : Midway design tables start assignment supply step before frames s)
    (setting : design.Setting steps start.size assignment supply) (inTime : step < steps)
    (covers : tables.Covers design design) (whole : design = before ++ (rest ++ after))
    (supported : ∀ instruction ∈ rest, instruction.operation.isSupported = true) :
    ∃ frames' later, evaluateAll tables (step + 1) rest frames s = .ok frames' later ∧
      Grows s later ∧
      Midway design tables start assignment supply step (before ++ rest) frames' later := by
  induction rest generalizing before frames s with
  | nil =>
      rw [List.append_nil]
      exact ⟨frames, s, rfl, .refl s, midway⟩
  | cons instruction rest ih =>
      obtain ⟨first, remaining⟩ := List.forall_mem_cons.mp supported
      obtain ⟨middle, solver, ran, grown, done⟩ :=
        evaluate_ok midway setting inTime covers whole first
      obtain ⟨frames', later, others, more, final⟩ := ih done (by simp [whole]) remaining
      rw [List.append_cons]
      refine ⟨frames', later, ?_, grown.trans more, final⟩
      rw [evaluateAll, CheckM.bind_of_ok ran, others]

/-! ## The frame that follows -/

/-- The origins up to the first free states of the frame that follows. -/
def renewed (design : Design) (step : Nat) (done : List (Nat × Nat)) : List (Nat × Nat) :=
  design.origins step ++ design.inputs.map (fun lid => (step, lid)) ++
    done.map fun state => (step + 1, state.1)

/-- The frame that follows, once some of the free states have their variables. -/
structure Renewing (design : Design) (tables : Tables BitSort) (start : Array Variable)
    (assignment : Nat → Nat) (supply : Supply) (step : Nat) (done : List (Nat × Nat))
    (next : Frame Nat) (s : Enumerator) : Prop where
  made : design.Made tables start (renewed design step done) s.vars
  tracks : next.Tracks design s.terms assignment (design.entry supply (step + 1)) fun lid =>
    (∃ value, design.lastNext? lid = some value) ∨ lid ∈ done.map Prod.fst
  owns : next.Owns s.terms start.size (renewed design step done) (step + 1)

theorem renewed_snoc (done : List (Nat × Nat)) (lid sort : Nat) :
    renewed design step (done ++ [(lid, sort)]) = renewed design step done ++ [(step + 1, lid)] := by
  simp [renewed]

theorem Renewing.free_ok {done rest : List (Nat × Nat)} {lid sort : Nat} {next : Frame Nat}
    (renewing : Renewing design tables start assignment supply step done next s)
    (setting : design.Setting steps start.size assignment supply) (inTime : step < steps)
    (covers : tables.Covers design design) (split : design.freeStates = done ++ (lid, sort) :: rest) :
    ∃ t later, freshVariable tables lid sort (step + 2) s = .ok t later ∧ Grows s later ∧
      Renewing design tables start assignment supply step (done ++ [(lid, sort)])
        (next.insert lid t) later := by
  have member : (lid, sort) ∈ design.freeStates := by simp [split]
  obtain ⟨⟨name, declared⟩, free⟩ := Design.mem_freeStates.mp member
  obtain ⟨before, inside, formed⟩ := setting.wellFormed.of_mem declared
  have sortDeclared := formed.resolved.sorts sort (Operation.mem_sortReferences rfl)
  obtain ⟨handle, sorted, sized⟩ := covers.sortOf lid (sortDeclared.mono inside)
  rw [← Design.valueWidth_eq setting.wellFormed declared rfl] at sized
  have due : renewed design step done ++ [(step + 1, lid)] <+: design.origins steps := by
    refine List.IsPrefix.trans ?_ (design.origins_isPrefix inTime)
    rw [← renewed_snoc done lid sort, Design.origins, split, renewed]
    exact ⟨rest.map fun state => (step + 1, state.1), by simp⟩
  have new : (step + 1, lid) ∉ renewed design step done := by
    have distinct := (Design.nodup_origins setting.wellFormed steps).sublist due.sublist
    rw [List.nodup_append'] at distinct
    exact fun old => distinct.2.2 old (by simp)
  obtain ⟨t, later, ran, grown, made, named, carries⟩ :=
    setting.makeVariable renewing.made due sized
  have supplied : design.entry supply (step + 1) lid = supply (step + 1) lid :=
    Design.entry_of_external setting.wellFormed (Or.inr ⟨⟨sort, name, declared⟩, Or.inr free⟩)
  rw [← supplied] at carries
  refine ⟨t, later, freshVariable_of_ok sorted ran, grown, ?_, ?_, ?_⟩
  · rwa [renewed_snoc]
  · refine ((renewing.tracks.later grown.terms).insert carries).mono ?_
    rintro other (updated | old)
    · exact Or.inl (Or.inl updated)
    · rw [List.map_append, List.mem_append] at old
      rcases old with old | last
      · exact Or.inl (Or.inr old)
      · exact Or.inr (List.mem_singleton.mp last)
  · rw [renewed_snoc]
    exact (renewing.owns.later grown.terms).push new named

theorem renewAll_ok (frames : StepFrames Nat) {done rest : List (Nat × Nat)}
    (renewing : Renewing design tables start assignment supply step done frames.next s)
    (setting : design.Setting steps start.size assignment supply) (inTime : step < steps)
    (covers : tables.Covers design design) (split : design.freeStates = done ++ rest) :
    ∃ next later, renewAll tables (step + 1) rest frames s =
        .ok { frames with next := next } later ∧ Grows s later ∧
      Renewing design tables start assignment supply step design.freeStates next later := by
  induction rest generalizing done frames s with
  | nil =>
      rw [List.append_nil] at split
      exact ⟨frames.next, s, rfl, .refl s, split ▸ renewing⟩
  | cons state rest ih =>
      obtain ⟨lid, sort⟩ := state
      obtain ⟨t, solver, ran, grown, done⟩ := renewing.free_ok setting inTime covers split
      obtain ⟨next, later, others, more, final⟩ :=
        ih { frames with next := frames.next.insert lid t } done (by rw [split, List.append_cons])
      refine ⟨next, later, ?_, grown.trans more, final⟩
      rw [renewAll, CheckM.bind_of_ok ran, others]

/-! ## The whole step -/

/-- The frames of a completed step. -/
structure Completed (design : Design) (tables : Tables BitSort) (start : Array Variable)
    (assignment : Nat → Nat) (supply : Supply) (step : Nat) (frames : StepFrames Nat)
    (s : Enumerator) : Prop where
  made : design.Made tables start (design.origins (step + 1)) s.vars
  current : frames.current.Tracks design s.terms assignment (design.run supply step)
    design.DeclaresValue
  owns : frames.current.Owns s.terms start.size (design.origins (step + 1)) step
  next : frames.next.Tracks design s.terms assignment (design.run supply (step + 1))
    design.DeclaresState
  ownsNext : frames.next.Owns s.terms start.size (design.origins (step + 1)) (step + 1)
  bads : frames.bads.Lists s.terms assignment (design.run supply step)
    (design.conditions Operation.bad?)
  constraints : frames.constraints.Lists s.terms assignment (design.run supply step)
    (design.conditions Operation.constraint?)

theorem Midway.initial {frame : Frame Nat}
    (made : design.Made tables start (design.origins step) s.vars)
    (tracks : frame.Tracks design s.terms assignment (design.run supply step) design.DeclaresState)
    (owns : frame.Owns s.terms start.size (design.origins step) step) :
    Midway design tables start assignment supply step [] { current := frame } s := by
  have nothing : design.origins step ++ (Design.inputs []).map (fun lid => (step, lid)) =
      design.origins step := List.append_nil _
  refine ⟨by rwa [nothing], tracks.mono ?_, by rwa [nothing], ?_, .nil, .nil⟩
  · rintro lid (isState | ⟨operation, member, -⟩)
    · exact isState
    · cases member
  · intro state value last
    cases last

/-- After all instructions the states with a `next` are in the frame that follows. -/
theorem Midway.renewing (midway : Midway design tables start assignment supply step design frames s) :
    Renewing design tables start assignment supply step [] frames.next s := by
  have nothing : renewed design step [] =
      design.origins step ++ design.inputs.map fun lid => (step, lid) := List.append_nil _
  refine ⟨nothing ▸ midway.made, ?_, ?_⟩
  · rintro lid (⟨value, last⟩ | none)
    · obtain ⟨t, found, carries⟩ := midway.next lid value last
      refine ⟨t, found, ?_⟩
      simpa only [Design.entry, last] using carries
    · cases none
  · intro index lid found
    have member := List.mem_of_getElem? found
    rw [nothing, List.mem_append, Design.mem_origins, Design.mem_map_inputs] at member
    omega

theorem run_ok {frame : Frame Nat}
    (scenario : design.Scenario steps start.size assignment supply) (inTime : step < steps)
    (covers : tables.Covers design design)
    (made : design.Made tables start (design.origins step) s.vars)
    (tracks : frame.Tracks design s.terms assignment (design.run supply step) design.DeclaresState)
    (owns : frame.Owns s.terms start.size (design.origins step) step) :
    ∃ frames later, run tables design (step + 1) frame s = .ok frames later ∧ Grows s later ∧
      Completed design tables start assignment supply step frames later := by
  obtain ⟨frames, middle, evaluated, grown, midway⟩ :=
    evaluateAll_ok (.initial made tracks owns) scenario.setting inTime covers
      (List.append_nil design).symm fun _ member => scenario.supported.isSupported member
  obtain ⟨next, later, renewedAll, more, renewing⟩ :=
    renewAll_ok frames midway.renewing scenario.setting inTime covers (List.nil_append _).symm
  refine ⟨{ frames with next := next }, later, ?_, grown.trans more, ?_⟩
  · rw [run, CheckM.bind_of_ok evaluated, renewedAll]
  · refine ⟨renewing.made, ?_, ?_, ?_, renewing.owns, midway.bads.later more.terms,
      midway.constraints.later more.terms⟩
    · exact (midway.current.later more.terms).mono fun _ => Or.inr
    · refine (midway.owns.later more.terms).append ?_
      intro origin member
      have := (Design.mem_map_freeStates.mp member).1
      omega
    · intro lid declared
      rw [Design.run_state scenario.wellFormed declared]
      apply renewing.tracks
      obtain ⟨sort, name, member⟩ := declared
      cases last : design.lastNext? lid with
      | some value => exact Or.inl ⟨value, rfl⟩
      | none =>
          have free := Design.mem_freeStates.mpr ⟨⟨name, member⟩, last⟩
          exact Or.inr (List.mem_map_of_mem free)

/-! ## Supported instructions -/

/-- A step that succeeds met no instruction without support. -/
theorem supported_of_evaluateAll {rest : Design} {number : Nat} {frames' : StepFrames Nat}
    (ran : evaluateAll tables number rest frames s = .ok frames' later) :
    (∀ lid sort state value, ⟨lid, .init sort state value⟩ ∉ rest) ∧
      ∀ lid sort, ⟨lid, .ones sort⟩ ∉ rest := by
  induction rest generalizing frames s with
  | nil => simp
  | cons instruction rest ih =>
      obtain ⟨middle, solver, first, others⟩ := CheckM.bind_eq_ok.mp ran
      obtain ⟨noInit, noOnes⟩ := ih others
      constructor
      · intro lid sort state value member
        rcases List.mem_cons.mp member with same | inside
        · rw [← same] at first
          cases first
        · exact noInit lid sort state value inside
      · intro lid sort member
        rcases List.mem_cons.mp member with same | inside
        · rw [← same] at first
          cases first
        · exact noOnes lid sort inside

end StepFrames

end BoundedCheck
