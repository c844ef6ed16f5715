import Mathlib
import BoundedCheck.Proofs.Frames

/-!
# Prepared tables

The pass over a design of words succeeds.  The tables then know the sort, the name or the state of
each instruction that has one, and the first frame holds a variable for every state.
-/

namespace BoundedCheck

open Enumerator

/-! ## Names of variables -/

/-- A text without blanks. -/
def Unbroken (text : String) : Prop :=
  ∀ c ∈ text.toList, Text.isBlank c = false

theorem unbroken_of_graphic {text : String}
    (graphic : ∀ c ∈ text.toList, 32 < c.toNat ∧ c.toNat < 127) : Unbroken text := by
  intro c member
  have bounds := graphic c member
  simp only [Text.isBlank, Text.blankRanges, List.any_cons, List.any_nil, Bool.or_false,
    Bool.or_eq_false_iff, Bool.and_eq_false_iff, decide_eq_false_iff_not]
  omega

theorem unbroken_toString (n : Nat) : Unbroken (toString n) := by
  apply unbroken_of_graphic
  intro c member
  rw [Nat.toString_eq_repr, Nat.toList_repr] at member
  have digit := Nat.isDigit_of_mem_toDigits (by decide) (by decide) member
  simp only [Char.isDigit, Bool.and_eq_true, decide_eq_true_eq] at digit
  have low : 48 ≤ c.toNat := digit.1
  have high : c.toNat ≤ 57 := digit.2
  omega

theorem unbroken_append {first second : String} (left : Unbroken first) (right : Unbroken second) :
    Unbroken (first ++ second) := by
  intro c member
  rw [String.toList_append, List.mem_append] at member
  exact member.elim (left c) (right c)

namespace Tables

variable {tables later : Tables BitSort} {design before : Design} {lid : Nat}

theorem unbroken_stepName (step : Nat)
    (named : ∃ name, tables.varNames.get? lid = some name ∧ Unbroken name) :
    Unbroken (tables.stepName lid step) := by
  obtain ⟨name, found, unbroken⟩ := named
  have line : Unbroken "_" := unbroken_of_graphic (by simp)
  rw [stepName, found]
  exact unbroken_append (unbroken_append unbroken line) (unbroken_toString step)

theorem bindName_names {name : String} (unbroken : Unbroken name) :
    ∃ base, (tables.bindName lid name).varNames.get? lid = some base ∧ Unbroken base := by
  have mark : Unbroken "@" := unbroken_of_graphic (by simp)
  refine ⟨_, by simp [bindName, OrderedMap.get?_insert]; rfl, ?_⟩
  split
  · exact unbroken_append (unbroken_append unbroken mark) (unbroken_toString lid)
  · exact unbroken

section Sorts

variable {instruction : Instruction}
  (fresh : ∀ lid, tables.sorts.contains lid = true → ∃ earlier ∈ before, earlier.lid = lid)

include fresh

/-- An instruction that comes later has no sort in the table yet. -/
theorem sort_absent (increasing : ∀ earlier ∈ before, earlier.lid < instruction.lid) :
    tables.sorts.contains instruction.lid = false := by
  rw [Bool.eq_false_iff]
  intro present
  obtain ⟨earlier, inside, same⟩ := fresh _ present
  exact absurd same (Nat.ne_of_lt (increasing earlier inside))

/-- An instruction enters at most its own line id into the table of sorts. -/
theorem sorts_snoc (kept : ∀ other, other ≠ instruction.lid →
      later.sorts.get? other = tables.sorts.get? other) (lid : Nat)
    (present : later.sorts.contains lid = true) :
    ∃ earlier ∈ before ++ [instruction], earlier.lid = lid := by
  by_cases same : lid = instruction.lid
  · exact ⟨instruction, by simp, same.symm⟩
  · rw [OrderedMap.contains, kept lid same] at present
    obtain ⟨earlier, member, here⟩ := fresh lid present
    exact ⟨earlier, List.mem_append_left _ member, here⟩

end Sorts

/-- What the tables of a design say about one of its instructions. -/
def Knows (tables : Tables BitSort) (design : Design) (instruction : Instruction) : Prop :=
  match instruction.operation with
  | .sort _ => ∃ entry, tables.sorts.get? instruction.lid = some entry ∧
    entry.handle.width = design.sortWidth instruction.lid
  | .next _ state _ => tables.nexts.get? instruction.lid = some state
  | .input _ _ | .state _ _ =>
    ∃ name, tables.varNames.get? instruction.lid = some name ∧ Unbroken name
  | _ => True

/-- The tables know some instructions and no other sort. -/
structure Covers (tables : Tables BitSort) (design before : Design) : Prop where
  knows : ∀ instruction ∈ before, tables.Knows design instruction
  fresh : ∀ lid, tables.sorts.contains lid = true → ∃ earlier ∈ before, earlier.lid = lid

theorem Covers.sortOf (covers : tables.Covers design before) (lid : Nat) {sort : Nat}
    (declared : before.DeclaresSort sort) :
    ∃ handle, tables.sortOf lid sort = .ok handle ∧ handle.width = design.sortWidth sort := by
  obtain ⟨kind, member⟩ := declared
  obtain ⟨entry, found, sized⟩ := covers.knows _ member
  exact ⟨entry.handle, by simp [Tables.sortOf, found], sized⟩

/-- Two tables differ in what they say about one line id only. -/
structure AgreeOff (tables later : Tables BitSort) (lid : Nat) : Prop where
  sorts : ∀ other, other ≠ lid → later.sorts.get? other = tables.sorts.get? other
  varNames : ∀ other, other ≠ lid → later.varNames.get? other = tables.varNames.get? other
  nexts : ∀ other, other ≠ lid → later.nexts.get? other = tables.nexts.get? other

theorem AgreeOff.knows (agree : tables.AgreeOff later lid) {instruction : Instruction}
    (other : instruction.lid ≠ lid) (knows : tables.Knows design instruction) :
    later.Knows design instruction := by
  unfold Knows at *
  rwa [agree.sorts _ other, agree.varNames _ other, agree.nexts _ other]

theorem AgreeOff.variableOf (agree : tables.AgreeOff later lid) {origin : Nat × Nat}
    (other : origin.2 ≠ lid) : design.variableOf later origin = design.variableOf tables origin := by
  simp only [Design.variableOf, stepName, agree.varNames _ other]

theorem Covers.snoc (covers : tables.Covers design before) {instruction : Instruction}
    (increasing : ∀ earlier ∈ before, earlier.lid < instruction.lid)
    (agree : tables.AgreeOff later instruction.lid) (knows : later.Knows design instruction) :
    later.Covers design (before ++ [instruction]) where
  knows one member := by
    rcases List.mem_append.mp member with earlier | last
    · exact agree.knows (Nat.ne_of_lt (increasing one earlier)) (covers.knows one earlier)
    · rw [List.mem_singleton.mp last]
      exact knows
  fresh := sorts_snoc covers.fresh agree.sorts

theorem AgreeOff.refl (tables : Tables BitSort) (lid : Nat) : tables.AgreeOff tables lid :=
  ⟨fun _ _ => rfl, fun _ _ => rfl, fun _ _ => rfl⟩

theorem agreeOff_bindName (tables : Tables BitSort) (lid : Nat) (name : String) :
    tables.AgreeOff (tables.bindName lid name) lid where
  sorts _ _ := rfl
  varNames other differ := by simp [bindName, OrderedMap.get?_insert, differ]
  nexts _ _ := rfl

end Tables

/-! ## The first frame -/

namespace Preparation

variable {design before after : Design} {start : Array Variable} {assignment : Nat → Nat}
  {supply : Supply} {p : Preparation Enumerator BitSort Nat} {instruction : Instruction}

/-- The first frame holds the variables of the states among some instructions. -/
structure Seeded (design : Design) (start : Array Variable) (assignment : Nat → Nat)
    (supply : Supply) (before : Design) (p : Preparation Enumerator BitSort Nat) : Prop where
  made : design.Made p.tables start (before.origins 0) p.solver.vars
  tracks : p.seed.Tracks design p.solver.terms assignment (supply 0) before.DeclaresState
  owns : p.seed.Owns p.solver.terms start.size (before.origins 0) 0
  inside : ∀ lid t, p.seed.get? lid = some t → t < p.solver.terms.size

/-- Names of other instructions do not matter. -/
theorem Seeded.rename (seeded : Seeded design start assignment supply before p) {lid : Nat}
    (others : ∀ earlier ∈ before, earlier.lid < lid) {tables : Tables BitSort}
    (agree : p.tables.AgreeOff tables lid) :
    Seeded design start assignment supply before { p with tables := tables } := by
  refine ⟨?_, seeded.tracks, seeded.owns, seeded.inside⟩
  have unchanged : (before.origins 0).map (design.variableOf tables) =
      (before.origins 0).map (design.variableOf p.tables) := by
    apply List.map_congr_left
    rintro ⟨step, state⟩ member
    obtain ⟨-, sort, name, declared⟩ := Design.mem_map_states.mp member
    exact agree.variableOf (Nat.ne_of_lt (others _ declared))
  unfold Design.Made
  rw [unchanged]
  exact seeded.made

theorem origins_zero_append (before rest : Design) :
    Design.origins (before ++ rest) 0 = before.origins 0 ++ rest.origins 0 := by
  simp only [Design.origins, Design.states, List.filterMap_append, List.map_append]

theorem origins_snoc_of_not_state (before : Design)
    (other : instruction.operation.isState = false) :
    Design.origins (before ++ [instruction]) 0 = before.origins 0 := by
  obtain ⟨lid, operation⟩ := instruction
  rw [origins_zero_append]
  cases operation with
  | state sort name => cases other
  | _ => exact List.append_nil _

theorem Seeded.pass (seeded : Seeded design start assignment supply before p)
    (other : instruction.operation.isState = false) :
    Seeded design start assignment supply (before ++ [instruction]) p := by
  have same := origins_snoc_of_not_state before other
  refine ⟨same ▸ seeded.made, seeded.tracks.mono ?_, same ▸ seeded.owns, seeded.inside⟩
  rintro lid ⟨sort, name, member⟩
  rcases List.mem_append.mp member with earlier | last
  · exact ⟨sort, name, earlier⟩
  · rw [← List.mem_singleton.mp last] at other
    cases other

theorem ask_of_ok {α : Type} {request : SolverM Enumerator α} {a : α} {solver : Enumerator}
    (ran : request p.solver = .ok a solver) : ask request p = .ok a { p with solver := solver } := by
  simp [ask, CheckM.ofSolver_of_ok ran]

theorem registerSort_of_new {lid width : Nat} (new : p.tables.sorts.contains lid = false)
    (pos : 0 < width) (le : width ≤ Word.maxWidth) :
    registerSort lid width p = .ok () { p with tables := { p.tables with
      sorts := p.tables.sorts.insert lid ⟨width, ⟨width, pos, le⟩⟩ } } := by
  have ran : (Backend.makeSort width : SolverM Enumerator BitSort) p.solver =
      .ok ⟨width, pos, le⟩ p.solver := by
    simp [Backend.makeSort, Enumerator.makeSort, pos, le]
  have read : (get : CheckM (Preparation Enumerator BitSort Nat) _) p = .ok p p := rfl
  unfold registerSort
  rw [CheckM.bind_of_ok read, if_neg (by simp [new]), CheckM.bind_of_ok (ask_of_ok ran)]
  simp [modify, modifyGet, MonadStateOf.modifyGet, EStateM.modifyGet, SortTable.register, new]

theorem seedState_of_ok {lid sort t : Nat} {handle : BitSort} {solver : Enumerator}
    (sorted : p.tables.sortOf lid sort = .ok handle)
    (ran : Enumerator.makeVariable (p.tables.stepName lid 1) handle p.solver = .ok t solver) :
    seedState lid sort p =
      .ok () { p with solver := solver, seed := p.seed.insert lid t } := by
  have read : (get : CheckM (Preparation Enumerator BitSort Nat) _) p = .ok p p := rfl
  have handled : (CheckM.ofExcept (p.tables.sortOf lid sort) :
      CheckM (Preparation Enumerator BitSort Nat) _) p = .ok handle p := by rw [sorted]; rfl
  unfold seedState
  rw [CheckM.bind_of_ok read, CheckM.bind_of_ok handled]
  exact CheckM.bind_of_ok (ask_of_ok ran)

/-- A state gets the variable of its first step. -/
theorem Seeded.seedState (seeded : Seeded design start assignment supply before p) {steps : Nat}
    (setting : design.Setting steps start.size assignment supply) {lid sort : Nat}
    {name : Option String} (whole : design = before ++ ⟨lid, .state sort name⟩ :: after)
    (covers : p.tables.Covers design before) :
    ∃ later, Preparation.seedState lid sort p = .ok () later ∧ Grows p.solver later.solver ∧
      later.tables = p.tables ∧
      Seeded design start assignment supply (before ++ [⟨lid, .state sort name⟩]) later := by
  have formed := (whole ▸ setting.wellFormed).at_place
  have member : ⟨lid, .state sort name⟩ ∈ design := by simp [whole]
  have declared := formed.resolved.sorts sort (by simp [Operation.sortReferences, Operation.sort?])
  obtain ⟨handle, sorted, sized⟩ := covers.sortOf lid declared
  rw [← Design.valueWidth_eq setting.wellFormed member rfl] at sized
  have due : before.origins 0 ++ [(0, lid)] <+: design.origins steps := by
    refine List.IsPrefix.trans ?_ (design.origins_isPrefix (Nat.zero_le steps))
    rw [whole, origins_zero_append]
    exact (List.prefix_append_right_inj _).mpr (List.prefix_append [(0, lid)] (after.origins 0))
  obtain ⟨t, solver, ran, grown, made, named, carries⟩ :=
    setting.makeVariable seeded.made due sized
  refine ⟨_, seedState_of_ok sorted ran, grown, rfl, ?_⟩
  refine ⟨?_, ?_, ?_, ?_⟩
  · rwa [origins_zero_append]
  · refine ((seeded.tracks.later grown.terms).insert carries).mono ?_
    rintro other ⟨s, symbol, inside⟩
    rcases List.mem_append.mp inside with earlier | last
    · exact Or.inl ⟨s, symbol, earlier⟩
    · cases List.mem_singleton.mp last
      exact Or.inr rfl
  · rw [origins_zero_append]
    refine (seeded.owns.later grown.terms).push ?_ named
    intro old
    obtain ⟨-, s, symbol, earlier⟩ := Design.mem_map_states.mp old
    exact Nat.lt_irrefl _ (formed.increasing ⟨lid, .state s symbol⟩ earlier)
  · intro other u found
    rw [OrderedMap.get?_insert] at found
    split at found
    · cases found
      exact carries.below
    · exact Nat.lt_of_lt_of_le (seeded.inside other u found) grown.terms.1

/-! ## The pass over a design -/

theorem unbroken_symbol {operation : Operation} (fits : operation.SymbolFits) {fallback : String}
    (unbroken : Unbroken fallback) : Unbroken (operation.name?.getD fallback) := by
  cases named : operation.name? with
  | none => exact unbroken
  | some name => exact fun c member => ((fits name named).2 c member).1

theorem unbroken_default {word : String} (plain : Unbroken word) (lid : Nat) :
    Unbroken (word ++ toString lid) :=
  unbroken_append plain (unbroken_toString lid)

/-- Each instruction of a design of words can be registered. -/
theorem register_ok {steps : Nat} (setting : design.Setting steps start.size assignment supply)
    (whole : design = before ++ instruction :: after) (covers : p.tables.Covers design before)
    (seeded : Seeded design start assignment supply before p) :
    ∃ later, register instruction p = .ok () later ∧ Grows p.solver later.solver ∧
      later.tables.Covers design (before ++ [instruction]) ∧
      Seeded design start assignment supply (before ++ [instruction]) later := by
  have formed := (whole ▸ setting.wellFormed).at_place
  have member : instruction ∈ design := by simp [whole]
  have increasing := formed.increasing
  obtain ⟨lid, operation⟩ := instruction
  cases operation with
  | sort kind =>
      obtain ⟨width, rfl, le⟩ := setting.words lid kind member
      have new : p.tables.sorts.contains lid = false := Tables.sort_absent covers.fresh increasing
      have agree : p.tables.AgreeOff { p.tables with
          sorts := p.tables.sorts.insert lid ⟨width, ⟨width, formed.literals.1, le⟩⟩ } lid := by
        refine ⟨fun other differ => ?_, fun _ _ => rfl, fun _ _ => rfl⟩
        simp [OrderedMap.get?_insert, differ]
      refine ⟨_, registerSort_of_new new formed.literals.1 le, .refl _,
        covers.snoc increasing agree ?_, (seeded.rename increasing agree).pass rfl⟩
      refine ⟨_, by simp [OrderedMap.get?_insert]; rfl, ?_⟩
      exact (Design.sortWidth_eq setting.wellFormed member).symm
  | input sort name =>
      have plain : Unbroken "input" := unbroken_of_graphic (by simp)
      have agree := p.tables.agreeOff_bindName lid (name.getD s!"input{lid}")
      refine ⟨_, rfl, .refl _, covers.snoc increasing agree ?_,
        (seeded.rename increasing agree).pass rfl⟩
      exact Tables.bindName_names (unbroken_symbol formed.symbol (unbroken_default plain lid))
  | state sort name =>
      have plain : Unbroken "state" := unbroken_of_graphic (by simp)
      have agree := p.tables.agreeOff_bindName lid (name.getD s!"state{lid}")
      have knows := covers.snoc increasing agree
        (Tables.bindName_names (unbroken_symbol formed.symbol (unbroken_default plain lid)))
      have earlier : Tables.Covers _ design before :=
        ⟨fun one inside => knows.knows one (List.mem_append_left _ inside), covers.fresh⟩
      obtain ⟨later, ran, grown, same, done⟩ :=
        (seeded.rename increasing agree).seedState setting whole earlier
      exact ⟨later, ran, grown, same ▸ knows, done⟩
  | next sort state value =>
      have agree : p.tables.AgreeOff { p.tables with
          nexts := p.tables.nexts.insert lid state } lid := by
        refine ⟨fun _ _ => rfl, fun _ _ => rfl, fun other differ => ?_⟩
        simp [OrderedMap.get?_insert, differ]
      refine ⟨_, rfl, .refl _, covers.snoc increasing agree ?_,
        (seeded.rename increasing agree).pass rfl⟩
      simp [Tables.Knows, OrderedMap.get?_insert]
  | uext sort operand extra name =>
      -- Only an extension by no bits with a symbol is entered, under that symbol.
      have pass : Seeded design start assignment supply
          (before ++ [⟨lid, .uext sort operand extra name⟩]) p := seeded.pass rfl
      cases extra with
      | zero =>
          cases name with
          | none => exact ⟨p, rfl, .refl _, covers.snoc increasing (.refl _ _) trivial, pass⟩
          | some symbol =>
              exact ⟨_, rfl, .refl _,
                covers.snoc increasing ⟨fun _ _ => rfl, fun _ _ => rfl, fun _ _ => rfl⟩ trivial,
                pass.made, pass.tracks, pass.owns, pass.inside⟩
      | succ extra => exact ⟨p, rfl, .refl _, covers.snoc increasing (.refl _ _) trivial, pass⟩
  | _ =>
      exact ⟨p, rfl, .refl _, covers.snoc increasing (.refl _ _) trivial, seeded.pass rfl⟩

theorem registerAll_ok {steps : Nat} (setting : design.Setting steps start.size assignment supply)
    {rest : Design} (whole : design = before ++ rest) (covers : p.tables.Covers design before)
    (seeded : Seeded design start assignment supply before p) :
    ∃ later, registerAll rest p = .ok () later ∧ Grows p.solver later.solver ∧
      later.tables.Covers design design ∧ Seeded design start assignment supply design later := by
  induction rest generalizing before p with
  | nil =>
      rw [List.append_nil] at whole
      exact ⟨p, rfl, .refl _, whole ▸ covers, whole ▸ seeded⟩
  | cons instruction rest ih =>
      obtain ⟨middle, ran, grown, covered, done⟩ := register_ok setting whole covers seeded
      obtain ⟨later, others, more, final⟩ := ih (by rw [whole, List.append_cons]) covered done
      refine ⟨later, ?_, grown.trans more, final⟩
      rw [registerAll, CheckM.bind_of_ok ran, others]

/-- The pass from empty tables. -/
theorem registerAll_of_setting {steps : Nat} {solver : Enumerator}
    (setting : design.Setting steps solver.vars.size assignment supply) :
    ∃ p, registerAll design ⟨solver, ({} : Tables BitSort), {}⟩ = .ok () p ∧
      Grows solver p.solver ∧ p.tables.Covers design design ∧
      Seeded design solver.vars assignment supply design p := by
  have covers : ({} : Tables BitSort).Covers design [] :=
    ⟨by simp, fun lid present => by cases present⟩
  have seeded : Seeded design solver.vars assignment supply []
      ⟨solver, ({} : Tables BitSort), {}⟩ := by
    refine ⟨(List.append_nil _).symm, ?_, ?_, ?_⟩
    · rintro lid ⟨sort, name, member⟩
      cases member
    · intro index lid found
      cases found
    · intro lid t found
      cases found
  exact registerAll_ok setting (List.nil_append design).symm covers seeded

/-! ## Supported sorts -/

section Tables

variable {σ Handle Term : Type} {p later : Preparation σ Handle Term}

theorem ask_eq_ok {α : Type} {request : SolverM σ α} {a : α} (ran : ask request p = .ok a later) :
    request p.solver = .ok a later.solver ∧ later.tables = p.tables ∧ later.seed = p.seed := by
  unfold ask CheckM.ofSolver EStateM.adaptExcept at ran
  cases answer : request p.solver with
  | ok b solver =>
      rw [answer] at ran
      cases ran
      exact ⟨rfl, rfl, rfl⟩
  | error stop solver =>
      rw [answer] at ran
      cases ran

theorem registerSort_keeps [Backend σ Handle Term] {lid width : Nat}
    (ran : registerSort lid width p = .ok () later) :
    later.seed = p.seed ∧ later.tables.names = p.tables.names ∧
      later.tables.varNames = p.tables.varNames := by
  obtain ⟨own, same, read, ran⟩ := CheckM.bind_eq_ok.mp ran
  cases read
  split at ran
  · cases ran
    exact ⟨rfl, rfl, rfl⟩
  · obtain ⟨handle, middle, asked, ran⟩ := CheckM.bind_eq_ok.mp ran
    obtain ⟨-, tables, seed⟩ := ask_eq_ok asked
    cases ran
    rw [← tables]
    exact ⟨seed, rfl, rfl⟩

theorem seedState_eq_ok [Backend σ Handle Term] {lid sort : Nat}
    (ran : seedState lid sort p = .ok () later) :
    later.tables = p.tables ∧ ∃ term, later.seed = p.seed.insert lid term := by
  obtain ⟨own, same, read, ran⟩ := CheckM.bind_eq_ok.mp ran
  cases read
  obtain ⟨handle, middle, sorted, ran⟩ := CheckM.bind_eq_ok.mp ran
  have unchanged : middle = p := by
    cases found : p.tables.sortOf lid sort with
    | ok value => rw [found] at sorted; cases sorted; rfl
    | error error => rw [found] at sorted; cases sorted
  obtain ⟨term, last, asked, ran⟩ := CheckM.bind_eq_ok.mp ran
  obtain ⟨-, tables, seed⟩ := ask_eq_ok asked
  cases ran
  rw [← unchanged]
  exact ⟨tables, term, congrArg (fun frame => OrderedMap.insert frame lid term) seed⟩

end Tables

variable {later : Preparation Enumerator BitSort Nat}

theorem registerSort_eq_ok {lid width : Nat} (new : p.tables.sorts.contains lid = false)
    (ran : registerSort lid width p = .ok () later) :
    width ≤ Word.maxWidth ∧
      ∀ other, other ≠ lid → later.tables.sorts.get? other = p.tables.sorts.get? other := by
  obtain ⟨own, same, read, ran⟩ := CheckM.bind_eq_ok.mp ran
  cases read
  rw [if_neg (by simp [new])] at ran
  obtain ⟨handle, middle, asked, ran⟩ := CheckM.bind_eq_ok.mp ran
  obtain ⟨made, tables, -⟩ := ask_eq_ok asked
  cases ran
  simp only [Backend.makeSort, Enumerator.makeSort] at made
  split at made
  · rename_i valid
    refine ⟨valid.2, fun other differ => ?_⟩
    simp [tables, SortTable.register, new, OrderedMap.get?_insert, differ]
  · cases made

/-- What registering one instruction says about its sort, and does to the table of sorts. -/
theorem register_eq_ok (new : p.tables.sorts.contains instruction.lid = false)
    (ran : register instruction p = .ok () later) :
    (∀ kind, instruction.operation = .sort kind →
      ∃ width, kind = .bitVec width ∧ width ≤ Word.maxWidth) ∧
    ∀ other, other ≠ instruction.lid →
      later.tables.sorts.get? other = p.tables.sorts.get? other := by
  obtain ⟨lid, operation⟩ := instruction
  cases operation with
  | sort kind =>
      cases kind with
      | bitVec width =>
          obtain ⟨le, others⟩ := registerSort_eq_ok new ran
          refine ⟨?_, others⟩
          rintro kind same
          cases same
          exact ⟨width, rfl, le⟩
      | array index element => cases ran
  | state sort name =>
      obtain ⟨_, middle, bound, ran⟩ := CheckM.bind_eq_ok.mp ran
      cases bound
      rw [(seedState_eq_ok ran).1]
      exact ⟨fun kind same => (nomatch same), fun _ _ => rfl⟩
  | uext sort operand extra name =>
      refine ⟨fun kind same => (nomatch same), ?_⟩
      cases extra <;> cases name <;> cases ran <;> exact fun _ _ => rfl
  | _ =>
      cases ran
      exact ⟨fun kind same => (nomatch same), fun _ _ => rfl⟩

/-- A pass that succeeds met only sorts of words. -/
theorem sorts_of_registerAll {rest : Design} (wellFormed : Design.WellFormed (before ++ rest))
    (fresh : ∀ lid, p.tables.sorts.contains lid = true → ∃ earlier ∈ before, earlier.lid = lid)
    (ran : registerAll rest p = .ok () later) :
    ∀ lid kind, ⟨lid, .sort kind⟩ ∈ rest → ∃ width, kind = .bitVec width ∧ width ≤ Word.maxWidth := by
  induction rest generalizing before p with
  | nil =>
      intro lid kind member
      cases member
  | cons instruction rest ih =>
      obtain ⟨_, middle, first, others⟩ := CheckM.bind_eq_ok.mp ran
      have new := Tables.sort_absent fresh wellFormed.at_place.increasing
      obtain ⟨here, kept⟩ := register_eq_ok new first
      rw [List.append_cons] at wellFormed
      intro lid kind member
      rcases List.mem_cons.mp member with isFirst | inside
      · exact here kind (isFirst ▸ rfl)
      · exact ih wellFormed (Tables.sorts_snoc fresh kept) others lid kind inside

end Preparation

end BoundedCheck
