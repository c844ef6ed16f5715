import Mathlib
import BoundedCheck.Proofs.Requests
import BoundedCheck.Proofs.Scanning

/-!
# Names of variables

The variable of an input or state is named after its symbol and the number of the step.  A symbol that
is taken already is told apart by the line id.  The name that this gives can be the symbol of another
declaration, and this is the only way in which two variables can come to have the same name.
-/

namespace BoundedCheck

/-! ## Symbols -/

/-- The symbol of an input or state. -/
def Instruction.declared? (instruction : Instruction) : Option String :=
  match instruction.operation with
  | .input _ name => some (name.getD s!"input{instruction.lid}")
  | .state _ name => some (name.getD s!"state{instruction.lid}")
  | _ => none

/-- The symbol that an instruction binds, its own or another one for its operand. -/
def Instruction.symbol? (instruction : Instruction) : Option String :=
  match instruction.operation with
  | .uext _ _ 0 (some name) => some name
  | _ => instruction.declared?

theorem Instruction.symbol?_of_declared {instruction : Instruction} {symbol : String}
    (declared : instruction.declared? = some symbol) : instruction.symbol? = some symbol := by
  obtain ⟨lid, operation⟩ := instruction
  cases operation with
  | input | state => exact declared
  | _ => cases declared

namespace Design

variable {design before : Design} {instruction : Instruction} {lid : Nat} {symbol : String}

/-- An input or state has a symbol. -/
def Declares (design : Design) (lid : Nat) (symbol : String) : Prop :=
  ∃ instruction ∈ design, instruction.lid = lid ∧ instruction.declared? = some symbol

/-- A symbol is bound by an instruction before a line id. -/
def Taken (design : Design) (lid : Nat) (symbol : String) : Prop :=
  ∃ earlier ∈ design, earlier.lid < lid ∧ earlier.symbol? = some symbol

/-- A symbol that is taken, told apart by its line id, is the symbol of another declaration. -/
def Clash (design : Design) (lid other : Nat) : Prop :=
  ∃ symbol, design.Declares lid symbol ∧ design.Taken lid symbol ∧
    design.Declares other s!"{symbol}@{lid}" ∧ ¬ design.Taken other s!"{symbol}@{lid}"

/-- The name of the variables of an input or state, without the number of the step. -/
inductive BaseName (design : Design) (lid : Nat) : String → Prop where
  | plain {symbol : String} : design.Declares lid symbol → ¬ design.Taken lid symbol →
      BaseName design lid symbol
  | apart {symbol : String} : design.Declares lid symbol → design.Taken lid symbol →
      BaseName design lid s!"{symbol}@{lid}"

theorem declares_snoc : Declares (before ++ [instruction]) lid symbol ↔
    before.Declares lid symbol ∨ instruction.lid = lid ∧ instruction.declared? = some symbol := by
  simp [Declares, or_and_right, exists_or]

theorem taken_snoc (beyond : lid ≤ instruction.lid) :
    Taken (before ++ [instruction]) lid symbol ↔ before.Taken lid symbol := by
  constructor
  · rintro ⟨earlier, member, below, bound⟩
    rcases List.mem_append.mp member with old | new
    · exact ⟨earlier, old, below, bound⟩
    · rw [List.mem_singleton.mp new] at below
      omega
  · rintro ⟨earlier, member, below, bound⟩
    exact ⟨earlier, List.mem_append_left _ member, below, bound⟩

theorem BaseName.snoc {base : String} (named : before.BaseName lid base)
    (beyond : lid ≤ instruction.lid) : BaseName (before ++ [instruction]) lid base := by
  cases named with
  | plain declared free =>
      exact .plain (declares_snoc.mpr (Or.inl declared)) ((taken_snoc beyond).not.mpr free)
  | apart declared taken =>
      exact .apart (declares_snoc.mpr (Or.inl declared)) ((taken_snoc beyond).mpr taken)

end Design

/-! ## What a preparation binds -/

namespace Tables

variable {Handle : Type} {tables later : Tables Handle} {before : Design} {instruction : Instruction}

/-- The symbols that are taken, and the names of the inputs and states so far. -/
structure Names (tables : Tables Handle) (before : Design) : Prop where
  taken : ∀ symbol, tables.names.contains symbol = true ↔
    ∃ instruction ∈ before, instruction.symbol? = some symbol
  named : ∀ lid symbol, before.Declares lid symbol →
    ∃ base, tables.varNames.get? lid = some base ∧ before.BaseName lid base

/-- The tables after the symbols of an instruction are bound. -/
structure Binds (tables later : Tables Handle) (instruction : Instruction) : Prop where
  names : ∀ symbol, later.names.contains symbol = true ↔
    tables.names.contains symbol = true ∨ instruction.symbol? = some symbol
  here : ∀ symbol, instruction.declared? = some symbol → later.varNames.get? instruction.lid =
    some (if tables.names.contains symbol then s!"{symbol}@{instruction.lid}" else symbol)
  others : ∀ lid, lid ≠ instruction.lid → later.varNames.get? lid = tables.varNames.get? lid

theorem Names.snoc (names : tables.Names before) (binds : tables.Binds later instruction)
    (increasing : ∀ earlier ∈ before, earlier.lid < instruction.lid) :
    later.Names (before ++ [instruction]) where
  taken symbol := by
    rw [binds.names, names.taken]
    simp [or_and_right, exists_or]
  named lid symbol declared := by
    rcases Design.declares_snoc.mp declared with old | ⟨rfl, new⟩
    · obtain ⟨base, found, named⟩ := names.named lid symbol old
      obtain ⟨earlier, member, rfl, -⟩ := old
      have below := increasing earlier member
      exact ⟨base, (binds.others _ (Nat.ne_of_lt below)).trans found,
        named.snoc (Nat.le_of_lt below)⟩
    · refine ⟨_, binds.here symbol new, ?_⟩
      have iff : tables.names.contains symbol = true ↔ before.Taken instruction.lid symbol := by
        rw [names.taken]
        exact ⟨fun ⟨earlier, member, bound⟩ => ⟨earlier, member, increasing earlier member, bound⟩,
          fun ⟨earlier, member, _, bound⟩ => ⟨earlier, member, bound⟩⟩
      have same : Design.Taken (before ++ [instruction]) instruction.lid symbol ↔
          before.Taken instruction.lid symbol := Design.taken_snoc (Nat.le_refl _)
      split
      · rename_i taken
        exact .apart declared (same.mpr (iff.mp taken))
      · rename_i free
        exact .plain declared fun taken => free (iff.mpr (same.mp taken))

theorem stepName_congr {lid other : Nat}
    (same : later.varNames.get? lid = tables.varNames.get? other) (step : Nat) :
    later.stepName lid step = tables.stepName other step := by
  simp only [stepName, same]

theorem contains_insert {α : Type} (map : OrderedMap String α) (key other : String) (value : α) :
    (map.insert key value).contains other = true ↔ map.contains other = true ∨ key = other := by
  rw [OrderedMap.contains, OrderedMap.get?_insert]
  by_cases same : other = key
  · simp [same]
  · simp [same, OrderedMap.contains, Ne.symm same]

/-- Instructions that bind no symbol. -/
theorem binds_of_eq (unbound : instruction.symbol? = none) (names : later.names = tables.names)
    (varNames : later.varNames = tables.varNames) : tables.Binds later instruction where
  names symbol := by simp [names, unbound]
  here symbol declared := by
    rw [Instruction.symbol?_of_declared declared] at unbound
    cases unbound
  others lid _ := by rw [varNames]

theorem binds_bindName (instruction : Instruction) {symbol : String}
    (declared : instruction.declared? = some symbol) :
    tables.Binds (tables.bindName instruction.lid symbol) instruction where
  names other := by
    rw [Instruction.symbol?_of_declared declared, Option.some_inj]
    exact contains_insert tables.names symbol other instruction.lid
  here other found := by
    rw [declared] at found
    cases found
    simp [bindName, OrderedMap.get?_insert]
  others lid different := by simp [bindName, OrderedMap.get?_insert, different]

/-- Another name for a value takes the name, and leaves the variables alone. -/
theorem binds_rename {lid sort operand : Nat} {name : String} :
    tables.Binds { tables with names := tables.names.insert name operand }
      ⟨lid, .uext sort operand 0 (some name)⟩ where
  names other := by
    have symbol : (⟨lid, .uext sort operand 0 (some name)⟩ : Instruction).symbol? = some name := rfl
    rw [symbol, Option.some_inj]
    exact contains_insert tables.names name other operand
  here other found := by cases found
  others lid _ := rfl

/-- The names of the states so far stay, and an instruction adds what it asks for. -/
theorem names_snoc (binds : tables.Binds later instruction)
    (increasing : ∀ earlier ∈ before, earlier.lid < instruction.lid) :
    (Design.states (before ++ [instruction])).map (fun state => later.stepName state.1 1) =
      before.states.map (fun state => tables.stepName state.1 1) ++
        Preparation.asked tables instruction := by
  have old : before.states.map (fun state => later.stepName state.1 1) =
      before.states.map (fun state => tables.stepName state.1 1) := by
    apply List.map_congr_left
    rintro ⟨lid, sort⟩ member
    obtain ⟨name, declared⟩ := Design.mem_states.mp member
    exact stepName_congr (binds.others lid (Nat.ne_of_lt (increasing _ declared))) 1
  have new : (Design.states [instruction]).map (fun state => later.stepName state.1 1) =
      Preparation.asked tables instruction := by
    obtain ⟨lid, operation⟩ := instruction
    cases operation with
    | state sort name =>
        have bound : tables.Binds (tables.bindName lid (name.getD s!"state{lid}"))
            ⟨lid, .state sort name⟩ := binds_bindName ⟨lid, .state sort name⟩ rfl
        have same := (binds.here _ rfl).trans (bound.here _ rfl).symm
        exact congrArg (fun text => [text]) (stepName_congr same 1)
    | _ => rfl
  rw [Design.states, List.filterMap_append, List.map_append]
  exact congrArg₂ (· ++ ·) old new

end Tables

namespace Preparation

variable {σ Handle Term : Type} [Backend σ Handle Term] {R : List String → σ → σ → Prop}
  {p later : Preparation σ Handle Term} {instruction : Instruction} {before rest : Design}

theorem binds_register (ran : register instruction p = .ok () later) :
    p.tables.Binds later.tables instruction := by
  obtain ⟨lid, operation⟩ := instruction
  cases operation with
  | sort kind =>
      cases kind with
      | bitVec width =>
          obtain ⟨-, names, varNames⟩ := registerSort_keeps ran
          exact Tables.binds_of_eq rfl names varNames
      | array index element => cases ran
  | input sort name =>
      cases ran
      exact Tables.binds_bindName _ rfl
  | state sort name =>
      obtain ⟨_, middle, bound, ran⟩ := CheckM.bind_eq_ok.mp ran
      cases bound
      rw [(seedState_eq_ok ran).1]
      exact Tables.binds_bindName _ rfl
  | uext sort operand extra name =>
      cases extra with
      | succ extra =>
          cases ran
          exact Tables.binds_of_eq rfl rfl rfl
      | zero =>
          cases name with
          | none =>
              cases ran
              exact Tables.binds_of_eq rfl rfl rfl
          | some name =>
              cases ran
              exact Tables.binds_rename
  | _ =>
      cases ran
      exact Tables.binds_of_eq rfl rfl rfl

/-- A preparation asks for one variable of each state, in order. -/
theorem names_registerAll (respected : Respected R) {start : σ}
    (sorted : (before ++ rest).Pairwise fun first second => first.lid < second.lid)
    (names : p.tables.Names before)
    (related : R (before.states.map fun state => p.tables.stepName state.1 1) start p.solver)
    (ran : registerAll rest p = .ok () later) :
    later.tables.Names (before ++ rest) ∧
      R ((Design.states (before ++ rest)).map fun state => later.tables.stepName state.1 1)
        start later.solver := by
  induction rest generalizing before p with
  | nil =>
      cases ran
      rw [List.append_nil]
      exact ⟨names, related⟩
  | cons instruction rest ih =>
      obtain ⟨_, middle, registered, ran⟩ := CheckM.bind_eq_ok.mp ran
      have increasing : ∀ earlier ∈ before, earlier.lid < instruction.lid := fun earlier member =>
        (List.pairwise_append.mp sorted).2.2 earlier member instruction List.mem_cons_self
      have binds := binds_register registered
      have passes := passes_register (p := p) respected instruction
      rw [registered] at passes
      have further := respected.trans related passes.of_ok
      rw [← Tables.names_snoc binds increasing] at further
      rw [List.append_cons] at sorted ⊢
      exact ih sorted (names.snoc binds increasing) further ran

end Preparation

/-! ## What an unrolling asks for -/

/-- The names of the variables of some steps, in the order in which they are made. -/
def Tables.variableNames {Handle : Type} (tables : Tables Handle) (design : Design) (count : Nat) :
    List String :=
  (design.origins count).map fun origin => tables.stepName origin.2 (origin.1 + 1)

namespace Engine

variable {σ Handle Term : Type} [Backend σ Handle Term] {R : List String → σ → σ → Prop}
  {engine later : Engine σ Handle Term} {design : Design} {start : σ} {count : Nat}

/-- An engine has asked for the variables of some steps. -/
structure Numbered (R : List String → σ → σ → Prop) (design : Design) (start : σ) (count : Nat)
    (engine : Engine σ Handle Term) : Prop where
  same : engine.design = design
  size : engine.states.size = count + 1
  names : engine.tables.Names design
  asked : R (engine.tables.variableNames design count) start engine.solver

theorem numbered_prepare (respected : Respected R) (wellFormed : design.WellFormed)
    (ran : prepare { design := design, solver := start } = .ok () engine) :
    Numbered R design start 0 engine := by
  obtain ⟨p, registered, rfl⟩ := prepare_eq_ok ran
  have empty : ({} : Tables Handle).Names [] := by
    constructor
    · simp [OrderedMap.contains, OrderedMap.get?]
    · rintro lid symbol ⟨_, member, -⟩
      cases member
  have sorted : ([] ++ design : Design).Pairwise fun first second => first.lid < second.lid :=
    wellFormed.sorted
  obtain ⟨names, asked⟩ :=
    Preparation.names_registerAll (p := ⟨start, {}, {}⟩) respected sorted empty
      (respected.refl start) registered
  refine ⟨rfl, rfl, names, ?_⟩
  rw [Tables.variableNames, Design.origins, List.map_map]
  exact asked

theorem Numbered.execute (numbered : Numbered R design start count engine)
    (respected : Respected R) {number : Nat} (ran : Engine.execute engine = .ok number later) :
    Numbered R design start (count + 1) later := by
  have prepared : engine.states.isEmpty = false := by
    simp [Array.isEmpty, numbered.size]
  rw [execute_of_prepared prepared] at ran
  have passes := passes_advance respected engine
  have advanced := advanced_advance engine
  rw [ran] at passes advanced
  have asked := respected.trans numbered.asked passes.of_ok
  cases advanced with
  | recorded solver frames =>
      refine ⟨numbered.same, by simp [numbered.size], numbered.names, ?_⟩
      have split : engine.tables.variableNames design (count + 1) =
          engine.tables.variableNames design count ++ engine.asked := by
        simp only [Tables.variableNames, Design.origins, Engine.asked, numbered.same, numbered.size,
          List.map_append, List.map_map, List.append_assoc]
        rfl
      exact split ▸ asked

theorem Numbered.unroll (numbered : Numbered R design start count engine)
    (respected : Respected R) {further : Nat} (ran : Engine.unroll further engine = .ok () later) :
    Numbered R design start (count + further) later :=
  unroll_invariant (fun reached executed => reached.execute respected executed) numbered ran

end Engine

/-! ## Names that are the same -/

/-- A text that ends in a mark and a number is split at its last mark. -/
theorem append_mark_inj {mark : Char} {first second rest others : List Char} (plain : mark ∉ rest)
    (plain' : mark ∉ others) (same : first ++ mark :: rest = second ++ mark :: others) :
    first = second ∧ rest = others := by
  induction first generalizing second with
  | nil =>
      cases second with
      | nil => exact ⟨rfl, (List.cons.inj same).2⟩
      | cons c tail => exact absurd (by simp [(List.cons.inj same).2]) plain
  | cons c tail ih =>
      cases second with
      | nil =>
          rw [← (List.cons.inj same).2] at plain'
          exact absurd (by simp) plain'
      | cons c' tail' =>
          obtain ⟨head, tails⟩ := List.cons.inj same
          obtain ⟨begins, ends⟩ := ih tails
          exact ⟨by rw [head, begins], ends⟩

theorem toString_inj {first second : Nat} (same : toString first = toString second) :
    first = second := by
  have digits := congrArg (fun text => Nat.ofDigitChars 10 text.toList 0) same
  simpa [Nat.toString_eq_repr, Nat.toList_repr] using digits

theorem numbered_inj (mark : Char) (other : mark.isDigit = false) {base base' : String}
    {number number' : Nat}
    (same : base ++ String.singleton mark ++ toString number =
      base' ++ String.singleton mark ++ toString number') :
    base = base' ∧ number = number' := by
  have plain (n : Nat) : mark ∉ (toString n).toList := by
    intro member
    rw [Text.Numeral.isDigit_of_mem_toString member] at other
    cases other
  have texts := congrArg String.toList same
  simp only [String.toList_append, String.toList_singleton, List.append_assoc,
    List.singleton_append] at texts
  obtain ⟨bases, numbers⟩ := append_mark_inj (plain number) (plain number') texts
  exact ⟨String.toList_inj.mp bases, toString_inj (String.toList_inj.mp numbers)⟩

namespace Design

variable {design : Design} {lid other : Nat} {symbol base : String}

theorem Declares.unique (wellFormed : design.WellFormed) {symbol' : String}
    (first : design.Declares lid symbol) (second : design.Declares lid symbol') :
    symbol = symbol' := by
  obtain ⟨instruction, member, rfl, declared⟩ := first
  obtain ⟨instruction', member', same, declared'⟩ := second
  rw [wellFormed.unique member' member same, declared] at declared'
  exact Option.some.inj declared'

/-- A symbol with two declarations is taken at one of them. -/
theorem taken_of_declares (different : lid ≠ other) (first : design.Declares lid symbol)
    (second : design.Declares other symbol) :
    design.Taken lid symbol ∨ design.Taken other symbol := by
  obtain ⟨instruction, member, rfl, declared⟩ := first
  obtain ⟨instruction', member', rfl, declared'⟩ := second
  rcases Nat.lt_or_gt_of_ne different with below | above
  · exact Or.inr ⟨instruction, member, below, Instruction.symbol?_of_declared declared⟩
  · exact Or.inl ⟨instruction', member', above, Instruction.symbol?_of_declared declared'⟩

/-- Two declarations have the same base name only by a clash. -/
theorem clash_of_baseName (different : lid ≠ other) (first : design.BaseName lid base)
    (second : design.BaseName other base) : design.Clash lid other ∨ design.Clash other lid := by
  generalize alike : base = base' at second
  cases first with
  | plain declared free =>
      cases second with
      | plain declared' free' =>
          subst alike
          rcases taken_of_declares different declared declared' with taken | taken'
          · exact absurd taken free
          · exact absurd taken' free'
      | apart declared' taken' =>
          subst alike
          exact Or.inr ⟨_, declared', taken', declared, free⟩
  | apart declared taken =>
      cases second with
      | plain declared' free' =>
          subst alike
          exact Or.inl ⟨_, declared, taken, declared', free'⟩
      | apart declared' taken' =>
          exact absurd (numbered_inj '@' rfl alike).2 different

theorem Clash.baseName (clash : design.Clash lid other) :
    ∃ base, design.BaseName lid base ∧ design.BaseName other base := by
  obtain ⟨symbol, declared, taken, declared', free⟩ := clash
  exact ⟨_, .apart declared taken, .plain declared' free⟩

theorem BaseName.unique (wellFormed : design.WellFormed) {base' : String}
    (first : design.BaseName lid base) (second : design.BaseName lid base') : base = base' := by
  cases first with
  | plain declared free =>
      cases second with
      | plain declared' _ => exact declared.unique wellFormed declared'
      | apart declared' taken =>
          rw [declared.unique wellFormed declared'] at free
          exact absurd taken free
  | apart declared taken =>
      cases second with
      | plain declared' free =>
          rw [declared.unique wellFormed declared'] at taken
          exact absurd taken free
      | apart declared' _ => rw [declared.unique wellFormed declared']

theorem not_clash_self (wellFormed : design.WellFormed) : ¬ design.Clash lid lid := by
  rintro ⟨symbol, declared, taken, declared', free⟩
  rw [← declared.unique wellFormed declared'] at free
  exact free taken

theorem External.declares {step : Nat} (external : design.External step lid) :
    ∃ symbol, design.Declares lid symbol := by
  rcases external with ⟨sort, name, member⟩ | ⟨⟨sort, name, member⟩, -⟩
  · exact ⟨_, _, member, rfl, rfl⟩
  · exact ⟨_, _, member, rfl, rfl⟩

theorem declares_of_mem_origins {count step : Nat} (member : (step, lid) ∈ design.origins count) :
    ∃ symbol, design.Declares lid symbol := by
  rcases mem_origins.mp member with ⟨-, external⟩ | ⟨-, isState⟩
  · exact external.declares
  · have external : design.External step lid := Or.inr isState
    exact external.declares

/-- What has a variable in some step has one in the first step. -/
theorem zero_mem_origins {count step : Nat} (member : (step, lid) ∈ design.origins count) :
    (0, lid) ∈ design.origins count := by
  rcases mem_origins.mp member with ⟨below, external⟩ | ⟨rfl, declared, -⟩
  · refine mem_origins.mpr (Or.inl ⟨by omega, ?_⟩)
    rcases external with isInput | ⟨declared, -⟩
    · exact Or.inl isInput
    · exact Or.inr ⟨declared, Or.inl rfl⟩
  · cases step with
    | zero => exact member
    | succ step => exact mem_origins.mpr (Or.inl ⟨by omega, Or.inr ⟨declared, Or.inl rfl⟩⟩)

end Design

theorem Tables.stepName_inj {Handle : Type} {tables : Tables Handle} {lid other step time : Nat}
    (same : tables.stepName lid step = tables.stepName other time) :
    (tables.varNames.get? lid).getD "" = (tables.varNames.get? other).getD "" ∧ step = time :=
  numbered_inj '_' rfl same

/-- The names of variables differ unless there is a clash of symbols. -/
theorem Tables.Names.nodup_iff {Handle : Type} {tables : Tables Handle} {design : Design}
    (names : tables.Names design) (wellFormed : design.WellFormed) (count : Nat) :
    (tables.variableNames design count).Nodup ↔
      ¬ ∃ lid other, (0, lid) ∈ design.origins count ∧ (0, other) ∈ design.origins count ∧
        design.Clash lid other := by
  rw [variableNames, List.nodup_map_iff_inj_on (Design.nodup_origins wellFormed count)]
  constructor
  · rintro injective ⟨lid, other, here, there, clash⟩
    obtain ⟨base, named, named'⟩ := clash.baseName
    obtain ⟨symbol, declared, -, declared', -⟩ := id clash
    obtain ⟨found, stored, proper⟩ := names.named lid _ declared
    obtain ⟨found', stored', proper'⟩ := names.named other _ declared'
    rw [proper.unique wellFormed named] at stored
    rw [proper'.unique wellFormed named'] at stored'
    have same := injective _ here _ there (stepName_congr (stored.trans stored'.symm) 1)
    cases same
    exact Design.not_clash_self wellFormed clash
  · rintro none ⟨step, lid⟩ here ⟨time, other⟩ there same
    obtain ⟨bases, steps⟩ := stepName_inj same
    obtain ⟨symbol, declared⟩ := Design.declares_of_mem_origins here
    obtain ⟨symbol', declared'⟩ := Design.declares_of_mem_origins there
    obtain ⟨base, stored, named⟩ := names.named lid _ declared
    obtain ⟨base', stored', named'⟩ := names.named other _ declared'
    simp only [stored, stored', Option.getD_some] at bases
    subst bases
    by_contra different
    have apart : lid ≠ other := by
      rintro rfl
      exact different (Prod.ext (Nat.succ.inj steps) rfl)
    rcases Design.clash_of_baseName apart named named' with clash | clash
    · exact none ⟨lid, other, Design.zero_mem_origins here, Design.zero_mem_origins there, clash⟩
    · exact none ⟨other, lid, Design.zero_mem_origins there, Design.zero_mem_origins here, clash⟩

namespace Engine

/-- Prepares a design and unrolls a number of steps. -/
def prepareAndUnroll {σ Handle Term : Type} [Backend σ Handle Term] (count : Nat) :
    CheckM (Engine σ Handle Term) Unit := do
  prepare
  unroll count

/-- The names of the variables that were asked for through a recorder. -/
def askedNames {σ Handle Term : Type} (engine : Engine (Recorder σ Handle Term) Handle Term) :
    List String :=
  engine.solver.log.toList.filterMap Call.variableName?

/--
Over any solver, an unrolling asks for one variable of each value from outside, in a fixed order.
Their names are all different unless a symbol that is told apart by its line id, because it is taken,
is itself the symbol of another declaration.
-/
theorem askedNames_nodup_iff {σ Handle Term : Type} [Backend σ Handle Term] {source : String}
    {design : Design} (accepted : Design.read source = .ok design) {solver : σ} {count : Nat}
    {engine : Engine (Recorder σ Handle Term) Handle Term}
    (ran : prepareAndUnroll count ({ design := design, solver := solver } :
      Engine σ Handle Term).recorded = .ok () engine) :
    engine.askedNames = engine.tables.variableNames design count ∧
      (engine.askedNames.Nodup ↔
        ¬ ∃ lid other, (0, lid) ∈ design.origins count ∧ (0, other) ∈ design.origins count ∧
          design.Clash lid other) := by
  have wellFormed := Design.wellFormed_of_read accepted
  obtain ⟨_, prepared, preparation, others⟩ := CheckM.bind_eq_ok.mp ran
  have numbered := (numbered_prepare Recorder.respected_built wellFormed preparation).unroll
    Recorder.respected_built others
  rw [Nat.zero_add] at numbered
  obtain ⟨-, calls, log, -, names⟩ := numbered.asked
  have asked : engine.askedNames = engine.tables.variableNames design count := by
    rw [askedNames, log]
    exact names
  rw [asked]
  exact ⟨rfl, numbered.names.nodup_iff wellFormed count⟩

end Engine

namespace Sample

/-- A symbol that is taken by another state, and one that is taken by a second name of a state. -/
def renamed : Design :=
  [⟨1, .sort (.bitVec 1)⟩, ⟨2, .state 1 (some "x")⟩, ⟨3, .input 1 (some "x")⟩,
    ⟨4, .uext 1 2 0 (some "y")⟩, ⟨5, .state 1 (some "y")⟩]

/-- A symbol that reads like one that was told apart by its line id. -/
def clashing : Design :=
  [⟨1, .sort (.bitVec 1)⟩, ⟨2, .state 1 (some "x")⟩, ⟨3, .state 1 (some "x")⟩,
    ⟨4, .state 1 (some "x@3")⟩]

end Sample

namespace Engine

theorem askedNames_nodup_iff_renamed :
    Design.read "1 sort bitvec 1\n2 state 1 x\n3 input 1 x\n4 uext 1 2 0 y\n5 state 1 y\n" =
        .ok Sample.renamed ∧
      ∃ engine, prepareAndUnroll 1 ({ design := Sample.renamed, solver := {} } :
          Engine Enumerator Enumerator.BitSort Nat).recorded = .ok () engine ∧
        engine.askedNames = ["x_1", "y@5_1", "x@3_1", "x_2", "y@5_2"] ∧
        ¬ ∃ lid other, (0, lid) ∈ Sample.renamed.origins 1 ∧ (0, other) ∈ Sample.renamed.origins 1 ∧
          Sample.renamed.Clash lid other := by
  have accepted : Design.read
      "1 sort bitvec 1\n2 state 1 x\n3 input 1 x\n4 uext 1 2 0 y\n5 state 1 y\n" =
        .ok Sample.renamed := by decide +kernel
  have fine : CheckM.succeeds (prepareAndUnroll 1) ({ design := Sample.renamed, solver := {} } :
      Engine Enumerator Enumerator.BitSort Nat).recorded = true := by decide +kernel
  have named : (endState (prepareAndUnroll 1 ({ design := Sample.renamed, solver := {} } :
      Engine Enumerator Enumerator.BitSort Nat).recorded)).askedNames =
        ["x_1", "y@5_1", "x@3_1", "x_2", "y@5_2"] := by decide +kernel
  obtain ⟨_, engine, ran⟩ := CheckM.exists_of_succeeds fine
  rw [ran] at named
  refine ⟨accepted, engine, ran, named, (askedNames_nodup_iff accepted ran).2.mp ?_⟩
  have names : engine.askedNames = ["x_1", "y@5_1", "x@3_1", "x_2", "y@5_2"] := named
  rw [names]
  decide

/-- The second and the third state have variables of the same name. -/
theorem askedNames_not_nodup :
    Design.read "1 sort bitvec 1\n2 state 1 x\n3 state 1 x\n4 state 1 x@3\n" =
        .ok Sample.clashing ∧
      ∃ engine, prepareAndUnroll 0 ({ design := Sample.clashing, solver := {} } :
          Engine Enumerator Enumerator.BitSort Nat).recorded = .ok () engine ∧
        engine.askedNames = ["x_1", "x@3_1", "x@3_1"] ∧ ¬ engine.askedNames.Nodup := by
  have fine : CheckM.succeeds (prepareAndUnroll 0) ({ design := Sample.clashing, solver := {} } :
      Engine Enumerator Enumerator.BitSort Nat).recorded = true := by decide +kernel
  have named : (endState (prepareAndUnroll 0 ({ design := Sample.clashing, solver := {} } :
      Engine Enumerator Enumerator.BitSort Nat).recorded)).askedNames =
        ["x_1", "x@3_1", "x@3_1"] := by decide +kernel
  obtain ⟨_, engine, ran⟩ := CheckM.exists_of_succeeds fine
  rw [ran] at named
  have names : engine.askedNames = ["x_1", "x@3_1", "x@3_1"] := named
  refine ⟨by decide +kernel, engine, ran, names, ?_⟩
  rw [names]
  decide

end Engine

end BoundedCheck
