import Mathlib
import BoundedCheck.Proofs.Runs

/-!
# Values from outside

A run takes values from outside: all states of the first step, the inputs of every step, and the
states without `next` of every later step.  Each of them has a variable of its own; the variables are
made in a fixed order, so that an assignment of the variables is the same as a supply of a run.
-/

namespace BoundedCheck.Design

variable {design : Design}

/-- The inputs of a design, in order. -/
def inputs (design : Design) : List Nat :=
  design.filterMap fun instruction =>
    match instruction.operation with
    | .input _ _ => some instruction.lid
    | _ => none

/--
The values from outside that some steps need, each as a step and a line id, in the order in which
their variables are made.  The free states of the step that follows are among them.
-/
def origins (design : Design) : Nat → List (Nat × Nat)
  | 0 => design.states.map fun state => (0, state.1)
  | step + 1 =>
    design.origins step ++ design.inputs.map (fun lid => (step, lid)) ++
      design.freeStates.map fun state => (step + 1, state.1)

/-- The supply that an assignment gives, where the variables of the origins start at a number. -/
def supplyOf (design : Design) (steps base : Nat) (assignment : Nat → Nat) : Supply :=
  fun step lid =>
    if (step, lid) ∈ design.origins steps then
      assignment (base + (design.origins steps).idxOf (step, lid))
    else 0

/-- The assignment that a supply gives. -/
def assignmentOf (design : Design) (steps base : Nat) (supply : Supply) : Nat → Nat :=
  fun index =>
    match (design.origins steps)[index - base]? with
    | some (step, lid) => if base ≤ index then supply step lid else 0
    | none => 0

/-- An assignment and a supply give the origins the same values. -/
def Realises (design : Design) (steps base : Nat) (assignment : Nat → Nat) (supply : Supply) :
    Prop :=
  ∀ index step lid : Nat, (design.origins steps)[index]? = some (step, lid) →
    assignment (base + index) = supply step lid

theorem realises_assignmentOf (design : Design) (steps base : Nat) (supply : Supply) :
    design.Realises steps base (design.assignmentOf steps base supply) supply := by
  intro index step lid found
  simp [assignmentOf, found]

/-! ## Different origins -/

theorem mem_inputs {lid : Nat} :
    lid ∈ design.inputs ↔ ∃ sort name, ⟨lid, .input sort name⟩ ∈ design := by
  unfold inputs
  rw [List.mem_filterMap]
  constructor
  · rintro ⟨⟨own, operation⟩, member, here⟩
    cases operation with
    | input s name =>
        cases here
        exact ⟨s, name, member⟩
    | _ => cases here
  · rintro ⟨sort, name, member⟩
    exact ⟨_, member, rfl⟩

/-- A value comes from outside in a step. -/
def External (design : Design) (step lid : Nat) : Prop :=
  (∃ sort name, ⟨lid, .input sort name⟩ ∈ design) ∨
    (design.DeclaresState lid ∧ (step = 0 ∨ design.lastNext? lid = none))

theorem mem_map_states {step lid : Nat} :
    (step, lid) ∈ design.states.map (fun state => (0, state.1)) ↔
      step = 0 ∧ design.DeclaresState lid := by
  rw [List.mem_map]
  constructor
  · rintro ⟨⟨state, sort⟩, member, same⟩
    cases same
    obtain ⟨name, declared⟩ := mem_states.mp member
    exact ⟨rfl, sort, name, declared⟩
  · rintro ⟨rfl, sort, name, declared⟩
    exact ⟨(lid, sort), mem_states.mpr ⟨name, declared⟩, rfl⟩

theorem mem_map_freeStates {step lid next : Nat} :
    (step, lid) ∈ design.freeStates.map (fun state => (next, state.1)) ↔
      step = next ∧ design.DeclaresState lid ∧ design.lastNext? lid = none := by
  rw [List.mem_map]
  constructor
  · rintro ⟨⟨state, sort⟩, member, same⟩
    cases same
    obtain ⟨⟨name, declared⟩, free⟩ := mem_freeStates.mp member
    exact ⟨rfl, ⟨sort, name, declared⟩, free⟩
  · rintro ⟨rfl, ⟨sort, name, declared⟩, free⟩
    exact ⟨(lid, sort), mem_freeStates.mpr ⟨⟨name, declared⟩, free⟩, rfl⟩

theorem mem_map_inputs {step lid now : Nat} :
    (step, lid) ∈ design.inputs.map (fun lid => (now, lid)) ↔
      step = now ∧ ∃ sort name, ⟨lid, .input sort name⟩ ∈ design := by
  rw [List.mem_map]
  constructor
  · rintro ⟨own, member, same⟩
    cases same
    exact ⟨rfl, mem_inputs.mp member⟩
  · rintro ⟨rfl, declared⟩
    exact ⟨lid, mem_inputs.mpr declared, rfl⟩

/-- What needs a variable in some steps. -/
theorem mem_origins {steps step lid : Nat} :
    (step, lid) ∈ design.origins steps ↔
      (step < steps ∧ design.External step lid) ∨
      (step = steps ∧ design.DeclaresState lid ∧ (step = 0 ∨ design.lastNext? lid = none)) := by
  induction steps with
  | zero =>
      rw [origins, mem_map_states]
      constructor
      · rintro ⟨rfl, declared⟩
        exact Or.inr ⟨rfl, declared, Or.inl rfl⟩
      · rintro (⟨below, -⟩ | ⟨rfl, declared, -⟩)
        · omega
        · exact ⟨rfl, declared⟩
  | succ steps ih =>
      rw [origins, List.mem_append, List.mem_append, ih, mem_map_inputs, mem_map_freeStates]
      constructor
      · rintro (((⟨below, external⟩ | ⟨rfl, free⟩) | ⟨rfl, isInput⟩) | ⟨rfl, declared, free⟩)
        · exact Or.inl ⟨by omega, external⟩
        · exact Or.inl ⟨by omega, Or.inr free⟩
        · exact Or.inl ⟨by omega, Or.inl isInput⟩
        · exact Or.inr ⟨rfl, declared, Or.inr free⟩
      · rintro (⟨below, external⟩ | ⟨rfl, declared, first | free⟩)
        · rcases Nat.lt_succ_iff_lt_or_eq.mp below with earlier | here
          · exact Or.inl (Or.inl (Or.inl ⟨earlier, external⟩))
          · rcases external with isInput | free
            · exact Or.inl (Or.inr ⟨here, isInput⟩)
            · exact Or.inl (Or.inl (Or.inr ⟨here, free⟩))
        · omega
        · exact Or.inr ⟨rfl, declared, free⟩

/-- What instructions are turned into keeps the order of their line ids. -/
theorem sorted_filterMap_lid (wellFormed : design.WellFormed) {α : Type}
    {select : Instruction → Option α} {key : α → Nat}
    (keyed : ∀ instruction a, select instruction = some a → key a = instruction.lid) :
    (design.filterMap select).Pairwise fun a b => key a < key b := by
  rw [List.pairwise_filterMap]
  apply wellFormed.sorted.imp
  intro first second smaller a foundA b foundB
  rw [keyed first a foundA, keyed second b foundB]
  exact smaller

theorem nodup_filterMap_lid (wellFormed : design.WellFormed) {α : Type}
    {select : Instruction → Option α} {key : α → Nat}
    (keyed : ∀ instruction a, select instruction = some a → key a = instruction.lid) :
    ((design.filterMap select).map key).Nodup := by
  rw [List.Nodup, List.pairwise_map]
  exact (sorted_filterMap_lid wellFormed keyed).imp fun smaller => Nat.ne_of_lt smaller

theorem nodup_states (wellFormed : design.WellFormed) : (design.states.map Prod.fst).Nodup := by
  apply nodup_filterMap_lid wellFormed
  rintro ⟨lid, operation⟩ state found
  cases operation <;> cases found
  rfl

theorem nodup_inputs (wellFormed : design.WellFormed) : design.inputs.Nodup := by
  have distinct : (design.inputs.map id).Nodup := by
    apply nodup_filterMap_lid wellFormed
    rintro ⟨lid, operation⟩ input found
    cases operation <;> cases found
    rfl
  simpa using distinct

theorem nodup_freeStates (wellFormed : design.WellFormed) :
    (design.freeStates.map Prod.fst).Nodup :=
  (nodup_states wellFormed).sublist (List.filter_sublist.map _)

/-- A line id does not name both an input and a state. -/
theorem not_input_and_state (wellFormed : design.WellFormed) {lid : Nat}
    (isInput : ∃ sort name, ⟨lid, .input sort name⟩ ∈ design)
    (isState : design.DeclaresState lid) : False := by
  obtain ⟨inputSort, inputName, input⟩ := isInput
  obtain ⟨stateSort, stateName, state⟩ := isState
  have same := wellFormed.unique input state rfl
  cases same

/-- No two origins are the same. -/
theorem nodup_origins (wellFormed : design.WellFormed) (steps : Nat) :
    (design.origins steps).Nodup := by
  have tagged {β : Type} (list : List β) (key : β → Nat) (step : Nat)
      (distinct : (list.map key).Nodup) : (list.map fun b => (step, key b)).Nodup := by
    have paired := distinct.map (f := fun lid => (step, lid)) (by intro a b same; cases same; rfl)
    rw [List.map_map] at paired
    exact paired
  induction steps with
  | zero => exact tagged _ _ _ (nodup_states wellFormed)
  | succ steps ih =>
      rw [origins, List.nodup_append', List.nodup_append']
      refine ⟨⟨ih, ?_, ?_⟩, tagged _ _ _ (nodup_freeStates wellFormed), ?_⟩
      · exact tagged _ id _ (by simpa using nodup_inputs wellFormed)
      · rintro ⟨step, lid⟩ old new
        obtain ⟨rfl, isInput⟩ := mem_map_inputs.mp new
        rcases mem_origins.mp old with ⟨below, -⟩ | ⟨-, isState, -⟩
        · omega
        · exact not_input_and_state wellFormed isInput isState
      · rintro ⟨step, lid⟩ old new
        obtain ⟨rfl, -⟩ := mem_map_freeStates.mp new
        rcases List.mem_append.mp old with old | old
        · rcases mem_origins.mp old with ⟨below, -⟩ | ⟨same, -⟩
          · omega
          · omega
        · have := (mem_map_inputs.mp old).1
          omega

theorem realises_supplyOf (wellFormed : design.WellFormed) (steps base : Nat)
    (assignment : Nat → Nat) :
    design.Realises steps base assignment (design.supplyOf steps base assignment) := by
  intro index step lid found
  obtain ⟨inside, same⟩ := List.getElem?_eq_some_iff.mp found
  have place : (design.origins steps).idxOf (step, lid) = index := by
    rw [← same]
    exact (nodup_origins wellFormed steps).idxOf_getElem index inside
  have member : (step, lid) ∈ design.origins steps := List.mem_of_getElem? found
  rw [supplyOf, if_pos member, place]

theorem origins_append (design : Design) (steps : Nat) :
    ∃ more, design.origins (steps + 1) = design.origins steps ++ more :=
  ⟨_, by rw [origins, List.append_assoc]⟩

/-- What is realised for more steps is so for fewer. -/
theorem origins_isPrefix (design : Design) {fewer steps : Nat} (le : fewer ≤ steps) :
    design.origins fewer <+: design.origins steps := by
  induction steps with
  | zero =>
      have zero : fewer = 0 := by omega
      rw [zero]
  | succ steps ih =>
      rcases Nat.lt_or_eq_of_le le with smaller | same
      · obtain ⟨more, whole⟩ := design.origins_append steps
        rw [whole]
        exact (ih (by omega)).trans (List.prefix_append _ _)
      · rw [same]

/-! ## Values of origins -/

section Values

variable {supply : Supply} {step lid : Nat} (wellFormed : design.WellFormed)

include wellFormed

theorem declaresState_of_lastNext? {value : Nat} (found : design.lastNext? lid = some value) :
    design.DeclaresState lid := by
  obtain ⟨own, sort, member⟩ := exists_of_lastNext? found
  obtain ⟨earlier, inside, formed⟩ := wellFormed.of_mem member
  obtain ⟨stateSort, name, declared⟩ := formed.resolved.target lid rfl
  exact ⟨stateSort, name, inside declared⟩

theorem entry_of_external (external : design.External step lid) :
    design.entry supply step lid = supply step lid := by
  cases step with
  | zero => rfl
  | succ step =>
      have free : design.lastNext? lid = none := by
        rcases external with isInput | ⟨-, later | free⟩
        · cases found : design.lastNext? lid with
          | none => rfl
          | some value =>
              exact (not_input_and_state wellFormed isInput
                (declaresState_of_lastNext? wellFormed found)).elim
        · cases later
        · exact free
      simp only [entry, free]

/-- A state keeps through a step what it has at the start. -/
theorem run_state (declared : design.DeclaresState lid) :
    design.run supply step lid = design.entry supply step lid := by
  obtain ⟨sort, name, member⟩ := declared
  exact run_of_not_computed wellFormed member fun _ => rfl

theorem run_of_external (external : design.External step lid) :
    design.run supply step lid = supply step lid := by
  have kept : design.run supply step lid = design.entry supply step lid := by
    rcases external with ⟨sort, name, member⟩ | ⟨declared, -⟩
    · exact run_of_not_computed wellFormed member fun _ => rfl
    · exact run_state wellFormed declared
  rw [kept, entry_of_external wellFormed external]

end Values

end BoundedCheck.Design
