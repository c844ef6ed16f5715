import Mathlib
import BoundedCheck.Check
import BoundedCheck.Proofs.Queries

/-!
# Growing engines

While a design is prepared and unrolled its solver only gets more terms and variables, and frames
refer to terms that it has.  Any list of instructions can be unrolled without a fault, as long as
its slices end at positions of 32 bits: an operand without a value is an error, and all others are
terms.
-/

namespace BoundedCheck

open Enumerator

/-! ## Runs without faults -/

/-- A run that goes along a relation, and ends with a result or an error but not with a fault. -/
inductive Smooth {ε σ α : Type} (G : σ → σ → Prop) (P : α → σ → Prop) (s : σ) :
    EStateM.Result (Stop ε) σ α → Prop where
  | ok {a : α} {later : σ} : G s later → P a later → Smooth G P s (.ok a later)
  | error {cause : ε} {later : σ} : G s later → Smooth G P s (.error (.error cause) later)

namespace Smooth

variable {ε σ α β : Type} {G : σ → σ → Prop} {P : α → σ → Prop} {Q : β → σ → Prop} {s : σ}

theorem bind [IsTrans σ G] {first : EStateM (Stop ε) σ α}
    {next : α → EStateM (Stop ε) σ β} (smooth : Smooth G P s (first s))
    (rest : ∀ a middle, G s middle → P a middle → Smooth G Q middle (next a middle)) :
    Smooth G Q s ((first >>= next) s) := by
  simp only [Bind.bind, EStateM.bind]
  generalize first s = result at smooth
  cases smooth with
  | error gone => exact .error gone
  | @ok a middle gone holds =>
      have last := rest a middle gone holds
      simp only
      generalize next a middle = ended at last
      cases last with
      | ok further holds => exact .ok (IsTrans.trans _ _ _ gone further) holds
      | error further => exact .error (IsTrans.trans _ _ _ gone further)

theorem ofExcept_bind {result : Except CheckError α} {next : α → CheckM σ β} (refl : G s s)
    (rest : ∀ a, result = .ok a → Smooth G Q s (next a s)) :
    Smooth G Q s ((CheckM.ofExcept result >>= next) s) := by
  cases result with
  | ok a => exact rest a rfl
  | error error => exact .error refl

theorem ofSolver {request : SolverM σ α} (smooth : Smooth G P s (request s)) :
    Smooth G P s (CheckM.ofSolver request s) := by
  simp only [CheckM.ofSolver, EStateM.adaptExcept]
  generalize request s = result at smooth
  cases smooth with
  | ok gone holds => exact .ok gone holds
  | error gone => exact .error gone

theorem ofOperator {request : EStateM Fault σ α} {a : α} {later : σ}
    (ran : request s = .ok a later) (gone : G s later) (holds : P a later) :
    Smooth G P s (CheckM.ofOperator request s) := by
  simp only [CheckM.ofOperator, EStateM.adaptExcept, ran]
  exact .ok gone holds

end Smooth

/-! ## Solvers -/

namespace Enumerator

/-- A valid solver of which nothing is required. -/
structure Sound (s : Enumerator) : Prop where
  valid : Valid s
  idle : Idle s

/-- A solver got more terms and variables. -/
structure Grown (s later : Enumerator) : Prop where
  sound : Sound later
  terms : s.terms.size ≤ later.terms.size
  vars : s.vars.toList <+: later.vars.toList

theorem Sound.grown {s : Enumerator} (sound : Sound s) : Grown s s :=
  ⟨sound, Nat.le_refl _, List.prefix_rfl⟩

theorem Grown.trans {s middle later : Enumerator} (first : Grown s middle)
    (second : Grown middle later) : Grown s later :=
  ⟨second.sound, Nat.le_trans first.terms second.terms, first.vars.trans second.vars⟩

instance : IsTrans Enumerator Grown :=
  ⟨fun _ _ _ => Grown.trans⟩

variable {s : Enumerator}

theorem Sound.add (sound : Sound s) {node : Node} {width : Nat}
    (valid : Valid (s.add node width).2) : Grown s (s.add node width).2 where
  sound := ⟨valid, sound.idle.assertions, sound.idle.marks, sound.idle.assumptions⟩
  terms := by simp [Enumerator.add]
  vars := List.prefix_rfl

theorem lt_size_add (s : Enumerator) (node : Node) (width : Nat) :
    (s.add node width).1 < (s.add node width).2.terms.size := by
  simp [Enumerator.add]

/-- A solver has a term. -/
def Present (t : Nat) (s : Enumerator) : Prop :=
  t < s.terms.size

theorem smooth_makeSort (sound : Sound s) (width : Nat) :
    Smooth Grown (fun _ _ => True) s (makeSort width s) := by
  unfold makeSort
  split
  · exact .ok sound.grown trivial
  · exact .error sound.grown

theorem smooth_makeVariable (sound : Sound s) (name : String) (sort : BitSort) :
    Smooth Grown Present s (makeVariable name sort s) := by
  have valid := sound.valid.makeVariable name sort
  refine .ok ⟨⟨valid, sound.idle.assertions, sound.idle.marks, sound.idle.assumptions⟩, ?_, ?_⟩ ?_
  · simp
  · simp
  · simp [Present]

theorem smooth_makeConstant (sound : Sound s) (value : Nat) (sort : BitSort) :
    Smooth Grown Present s (makeConstant value sort s) := by
  have small : value % Word.bound sort.width < 2 ^ sort.width := by
    rw [Word.bound_eq_pow sort.le]
    exact Nat.mod_lt _ (Nat.two_pow_pos _)
  exact .ok (sound.add (valid_constant sound.valid sort.pos small)) (lt_size_add s _ _)

/-- A request for a term is granted. -/
def Grants (request : EStateM Fault Enumerator Nat) (s : Enumerator) : Prop :=
  ∃ t later, request s = .ok t later ∧ Grown s later ∧ Present t later

theorem Grants.smooth {request : EStateM Fault Enumerator Nat} (grants : Grants request s) :
    Smooth Grown Present s (CheckM.ofOperator request s) := by
  obtain ⟨t, later, ran, grown, present⟩ := grants
  exact .ofOperator ran grown present

theorem grants_not (sound : Sound s) {a : Nat} (inside : Present a s) :
    Grants (not a) s := by
  simp only [Grants, not, width_eq_ok inside]
  exact ⟨_, _, rfl, sound.add (valid_not sound.valid inside), lt_size_add s _ _⟩

theorem grants_binary (sound : Sound s) (op : BinaryOp) {a b : Nat} (insideA : Present a s)
    (insideB : Present b s) :
    Grants (binary op a b) s := by
  simp only [Grants, binary, width_eq_ok insideA, width_eq_ok insideB]
  exact ⟨_, _, rfl, sound.add (valid_binary sound.valid op insideA insideB), lt_size_add s _ _⟩

theorem grants_ite (sound : Sound s) {condition onTrue onFalse : Nat}
    (insideC : Present condition s) (insideT : Present onTrue s) (insideF : Present onFalse s) :
    Grants (ite condition onTrue onFalse) s := by
  simp only [Grants, ite, width_eq_ok insideT]
  exact ⟨_, _, rfl, sound.add (valid_ite sound.valid insideC insideT insideF), lt_size_add s _ _⟩

theorem grants_uext (sound : Sound s) {a : Nat} (inside : Present a s) (extra : Nat) :
    Grants (uext a extra) s := by
  unfold Grants uext
  split
  · exact ⟨a, s, rfl, sound.grown, inside⟩
  · rename_i positive
    simp only [width_eq_ok inside]
    have zeros := sound.add
      (valid_constant sound.valid (Nat.pos_of_ne_zero positive) (Nat.two_pow_pos extra))
    have joined := zeros.sound.add (valid_uext sound.valid positive inside)
    exact ⟨_, _, rfl, zeros.trans joined, lt_size_add _ _ _⟩

theorem grants_slice (sound : Sound s) {a high low : Nat} (inside : Present a s)
    (fits : high - low + 1 < narrowBound) :
    Grants (slice a high low) s := by
  have width : Word.sliceWidth high low = .ok (high - low + 1) := narrow_eq_ok fits
  simp only [Grants, slice, width]
  exact ⟨_, _, rfl, sound.add (valid_slice sound.valid inside width), lt_size_add s _ _⟩

end Enumerator

/-! ## Frames -/

namespace Frame

/-- All terms of a frame are numbered below a bound. -/
def Below (size : Nat) (frame : Frame Nat) : Prop :=
  ∀ entry ∈ frame.entries, entry.2 < size

variable {size more : Nat} {frame : Frame Nat}

theorem below_empty (size : Nat) : Below size {} :=
  fun _ member => absurd member List.not_mem_nil

theorem Below.mono (below : Below size frame) (le : size ≤ more) : Below more frame :=
  fun entry member => Nat.lt_of_lt_of_le (below entry member) le

theorem Below.insert (below : Below size frame) (lid : Nat) {term : Nat} (small : term < size) :
    Below size (OrderedMap.insert frame lid term) := by
  intro entry member
  unfold OrderedMap.insert at member
  split at member
  · obtain ⟨old, listed, rfl⟩ := List.mem_map.mp member
    split
    · exact small
    · exact below old listed
  · rcases List.mem_append.mp member with old | new
    · exact below entry old
    · rw [List.mem_singleton.mp new]
      exact small

theorem Below.resolve (below : Below size frame) {lid operand term : Nat}
    (found : frame.resolve lid operand = .ok term) : term < size := by
  unfold Frame.resolve OrderedMap.get? at found
  split at found
  · rename_i present
    cases found
    obtain ⟨before, after, split, -⟩ := List.lookup_eq_some_iff.mp present
    exact below (operand, term) (by simp [split])
  · cases found

end Frame

/-! ## Steps -/

/-- A slice has a width of 32 bits and ends at a position of 32 bits. -/
def Operation.NarrowSlice : Operation → Prop
  | .slice _ _ lowBit width => width < narrowBound ∧ lowBit + max width 1 - 1 < narrowBound
  | _ => True

instance (operation : Operation) : Decidable operation.NarrowSlice := by
  cases operation <;> unfold Operation.NarrowSlice <;> infer_instance

/-- All slices of a design are narrow. -/
def Design.NarrowSlices (design : Design) : Prop :=
  ∀ instruction ∈ design, instruction.operation.NarrowSlice

instance (design : Design) : Decidable design.NarrowSlices :=
  inferInstanceAs (Decidable (∀ instruction ∈ design, instruction.operation.NarrowSlice))

namespace StepFrames

/-- All terms of the frames of a step are numbered below a bound. -/
structure Below (size : Nat) (frames : StepFrames Nat) : Prop where
  current : frames.current.Below size
  next : frames.next.Below size
  bads : frames.bads.Below size
  constraints : frames.constraints.Below size

variable {size more : Nat} {frames : StepFrames Nat} {frame : Frame Nat} {s : Enumerator}

theorem Below.mono (below : Below size frames) (le : size ≤ more) : Below more frames :=
  ⟨below.current.mono le, below.next.mono le, below.bads.mono le, below.constraints.mono le⟩

theorem smooth_freshVariable (tables : Tables BitSort) (sound : Sound s) (lid sort step : Nat) :
    Smooth Grown Present s (freshVariable tables lid sort step s) :=
  .ofExcept_bind sound.grown fun handle _ => .ofSolver (smooth_makeVariable sound _ handle)

theorem smooth_constant (tables : Tables BitSort) (sound : Sound s) (lid sort value : Nat) :
    Smooth Grown Present s (constant tables lid sort value s) :=
  .ofExcept_bind sound.grown fun handle _ => .ofSolver (smooth_makeConstant sound value handle)

/-- A value, if there is one, is a term of the solver. -/
def Delivers (result : Option Nat) (s : Enumerator) : Prop :=
  ∀ t ∈ result, Present t s

theorem smooth_some {request : CheckM Enumerator Nat}
    (smooth : Smooth Grown Present s (request s)) :
    Smooth Grown Delivers s ((do return some (← request) : CheckM Enumerator (Option Nat)) s) := by
  refine smooth.bind fun t middle grown present => .ok grown.sound.grown ?_
  rintro _ ⟨⟩
  exact present

theorem smooth_value (tables : Tables BitSort) (sound : Sound s) (below : frame.Below s.terms.size)
    (step : Nat) (instruction : Instruction) (narrow : instruction.operation.NarrowSlice) :
    Smooth Grown Delivers s (value? tables step frame instruction s) := by
  obtain ⟨lid, operation⟩ := instruction
  have without : Smooth Grown Delivers s ((pure none : CheckM Enumerator (Option Nat)) s) :=
    .ok sound.grown fun _ member => nomatch member
  have operand {result : Nat → CheckM Enumerator (Option Nat)} (number : Nat)
      (rest : ∀ a, Present a s → Smooth Grown Delivers s (result a s)) :
      Smooth Grown Delivers s ((CheckM.ofExcept (frame.resolve lid number) >>= result) s) :=
    .ofExcept_bind sound.grown fun a found => rest a (below.resolve found)
  cases operation with
  | input sort name => exact smooth_some (smooth_freshVariable tables sound lid sort step)
  | init sort state value => exact .error sound.grown
  | ones sort => exact .error sound.grown
  | const sort value => exact smooth_some (smooth_constant tables sound lid sort value)
  | zero sort => exact smooth_some (smooth_constant tables sound lid sort 0)
  | one sort => exact smooth_some (smooth_constant tables sound lid sort 1)
  | not sort number =>
      exact .ofExcept_bind sound.grown fun _ _ => operand number fun a inside =>
        smooth_some (grants_not sound inside).smooth
  | binary op sort left right =>
      exact .ofExcept_bind sound.grown fun _ _ => operand left fun a insideA =>
        operand right fun b insideB => smooth_some (grants_binary sound op insideA insideB).smooth
  | ite sort condition onTrue onFalse =>
      exact .ofExcept_bind sound.grown fun _ _ => operand condition fun c insideC =>
        operand onTrue fun a insideA => operand onFalse fun b insideB =>
          smooth_some (grants_ite sound insideC insideA insideB).smooth
  | uext sort number extra name =>
      exact .ofExcept_bind sound.grown fun _ _ => operand number fun a inside =>
        smooth_some (grants_uext sound inside extra).smooth
  | slice sort number lowBit width =>
      obtain ⟨narrowWidth, narrowUpper⟩ := narrow
      have upper : sliceUpper lowBit width = .ok (lowBit + (width - 1)) :=
        narrow_eq_ok (by omega)
      refine .ofExcept_bind sound.grown fun _ _ => operand number fun a inside => ?_
      have fits : lowBit + (width - 1) - lowBit + 1 < narrowBound := by
        simp only [narrowBound] at narrowWidth ⊢
        omega
      rw [upper]
      exact smooth_some (grants_slice sound inside fits).smooth
  | sort | state | output | next | constraint | bad => exact without

theorem smooth_evaluate (tables : Tables BitSort) (sound : Sound s)
    (below : frames.Below s.terms.size) (step : Nat) (instruction : Instruction)
    (narrow : instruction.operation.NarrowSlice) :
    Smooth Grown (fun frames later => frames.Below later.terms.size) s
      (evaluate tables step frames instruction s) := by
  have value := smooth_value tables sound below.current step instruction narrow
  obtain ⟨lid, operation⟩ := instruction
  cases operation with
  | next sort state value =>
      simp only [evaluate]
      cases tables.nexts.get? lid with
      | none => exact .error sound.grown
      | some state =>
          exact .ofExcept_bind sound.grown fun t found => .ok sound.grown
            { below with next := below.next.insert state (below.current.resolve found) }
  | constraint condition name =>
      exact .ofExcept_bind sound.grown fun t found => .ok sound.grown
        { below with constraints := below.constraints.insert lid (below.current.resolve found) }
  | bad condition name =>
      exact .ofExcept_bind sound.grown fun t found => .ok sound.grown
        { below with bads := below.bads.insert lid (below.current.resolve found) }
  | _ =>
      refine value.bind fun result middle grown delivers => ?_
      have kept := below.mono grown.terms
      cases result with
      | none => exact .ok grown.sound.grown kept
      | some t =>
          exact .ok grown.sound.grown
            { kept with current := kept.current.insert lid (delivers t rfl) }

/-- Evaluation goes along the instructions; each finds the frames within the terms so far. -/
theorem smooth_evaluateAll (tables : Tables BitSort) {design : Design}
    (narrow : design.NarrowSlices) (sound : Sound s)
    (below : frames.Below s.terms.size) (step : Nat) :
    Smooth Grown (fun frames later => frames.Below later.terms.size) s
      (evaluateAll tables step design frames s) := by
  induction design generalizing s frames with
  | nil => exact .ok sound.grown below
  | cons instruction rest ih =>
      exact (smooth_evaluate tables sound below step instruction (narrow _ List.mem_cons_self)).bind
        fun frames middle grown kept =>
          ih (fun _ member => narrow _ (List.mem_cons_of_mem _ member)) grown.sound kept

theorem smooth_renewAll (tables : Tables BitSort) (sound : Sound s)
    (below : frames.Below s.terms.size) (step : Nat) (free : List (Nat × Nat)) :
    Smooth Grown (fun frames later => frames.Below later.terms.size) s
      (renewAll tables step free frames s) := by
  induction free generalizing s frames with
  | nil => exact .ok sound.grown below
  | cons state rest ih =>
      obtain ⟨lid, sort⟩ := state
      refine (smooth_freshVariable tables sound lid sort (step + 1)).bind
        fun t middle grown present => ?_
      have kept := below.mono grown.terms
      exact ih grown.sound { kept with next := kept.next.insert lid present }

theorem smooth_run (tables : Tables BitSort) {design : Design}
    (narrow : design.NarrowSlices) (sound : Sound s)
    (below : frame.Below s.terms.size) (step : Nat) :
    Smooth Grown (fun frames later => frames.Below later.terms.size) s
      (run tables design step frame s) := by
  have start : ({ current := frame } : StepFrames Nat).Below s.terms.size :=
    ⟨below, Frame.below_empty _, Frame.below_empty _, Frame.below_empty _⟩
  exact (smooth_evaluateAll tables narrow sound start step).bind fun frames middle grown kept =>
    smooth_renewAll tables grown.sound kept step design.freeStates

end StepFrames

/-! ## Preparations -/

namespace Preparation

/-- The solver of a preparation is sound and has the terms of the first frame. -/
structure Sound (p : Preparation Enumerator BitSort Nat) : Prop where
  solver : p.solver.Sound
  seed : p.seed.Below p.solver.terms.size

/-- A preparation went on. -/
structure Grown (p later : Preparation Enumerator BitSort Nat) : Prop where
  sound : Sound later
  solver : p.solver.Grown later.solver

instance : IsTrans (Preparation Enumerator BitSort Nat) Grown :=
  ⟨fun _ _ _ first second => ⟨second.sound, first.solver.trans second.solver⟩⟩

variable {p : Preparation Enumerator BitSort Nat}

theorem Sound.grown (sound : Sound p) : Grown p p :=
  ⟨sound, sound.solver.grown⟩

theorem smooth_ask {α : Type} {request : SolverM Enumerator α} {P : α → Enumerator → Prop}
    (sound : Sound p) (smooth : Smooth Enumerator.Grown P p.solver (request p.solver)) :
    Smooth Grown (fun a later => P a later.solver) p (ask request p) := by
  unfold ask
  have asked := Smooth.ofSolver smooth
  generalize CheckM.ofSolver request p.solver = result at asked
  cases asked with
  | ok grown holds => exact .ok ⟨⟨grown.sound, sound.seed.mono grown.terms⟩, grown⟩ holds
  | error grown => exact .error ⟨⟨grown.sound, sound.seed.mono grown.terms⟩, grown⟩

/-- The tables are all the same to the solver. -/
theorem Sound.grown_tables (sound : Sound p) (tables : Tables BitSort) :
    Grown p { p with tables := tables } :=
  ⟨⟨sound.solver, sound.seed⟩, sound.solver.grown⟩

theorem smooth_seedState (sound : Sound p) (lid sort : Nat) :
    Smooth Grown (fun _ _ => True) p (seedState lid sort p) := by
  refine .ofExcept_bind (G := Grown) sound.grown fun handle _ => ?_
  refine (smooth_ask sound (smooth_makeVariable sound.solver _ handle)).bind
    fun t middle grown present => .ok ⟨⟨grown.sound.solver, ?_⟩, grown.sound.solver.grown⟩ trivial
  exact grown.sound.seed.insert lid present

theorem smooth_registerSort (sound : Sound p) (lid width : Nat) :
    Smooth Grown (fun _ _ => True) p (registerSort lid width p) := by
  have read : Smooth Grown (fun own middle => own = middle) p
      ((get : CheckM (Preparation Enumerator BitSort Nat) _) p) := .ok sound.grown rfl
  refine read.bind fun own middle grown _ => ?_
  split
  · exact .ok grown.sound.grown trivial
  · exact (smooth_ask grown.sound (smooth_makeSort grown.sound.solver width)).bind
      fun handle last grown _ => .ok (grown.sound.grown_tables _) trivial

theorem smooth_register (sound : Sound p) (instruction : Instruction) :
    Smooth Grown (fun _ _ => True) p (register instruction p) := by
  obtain ⟨lid, operation⟩ := instruction
  cases operation with
  | sort kind =>
      cases kind with
      | bitVec width => exact smooth_registerSort sound lid width
      | array index element => exact .error sound.grown
  | state sort name =>
      have bound : Smooth Grown (fun _ _ => True) p (bindName lid (name.getD s!"state{lid}") p) :=
        .ok (sound.grown_tables _) trivial
      exact bound.bind fun _ middle grown _ => smooth_seedState grown.sound lid sort
  | uext sort operand extra name =>
      cases extra with
      | zero =>
          cases name with
          | none => exact .ok sound.grown trivial
          | some symbol => exact .ok (sound.grown_tables _) trivial
      | succ extra => exact .ok sound.grown trivial
  | input | next => exact .ok (sound.grown_tables _) trivial
  | _ => exact .ok sound.grown trivial

theorem smooth_registerAll (sound : Sound p) (design : Design) :
    Smooth Grown (fun _ _ => True) p (registerAll design p) := by
  induction design generalizing p with
  | nil => exact .ok sound.grown trivial
  | cons instruction rest ih =>
      exact (smooth_register sound instruction).bind fun _ middle grown _ => ih grown.sound

end Preparation

/-! ## Engines -/

namespace Engine

/-- The solver of an engine is sound and has the terms of all frames. -/
structure Sound (engine : Engine Enumerator BitSort Nat) : Prop where
  solver : engine.solver.Sound
  states : ∀ frame ∈ engine.states, frame.Below engine.solver.terms.size
  bads : ∀ frame ∈ engine.bads, frame.Below engine.solver.terms.size
  constraints : ∀ frame ∈ engine.constraints, frame.Below engine.solver.terms.size

/-- An engine went on with its design. -/
structure Grown (engine later : Engine Enumerator BitSort Nat) : Prop where
  sound : Sound later
  design : later.design = engine.design
  solver : engine.solver.Grown later.solver

instance : IsTrans (Engine Enumerator BitSort Nat) Grown where
  trans _ _ _ first second :=
    ⟨second.sound, second.design.trans first.design, first.solver.trans second.solver⟩

variable {engine : Engine Enumerator BitSort Nat}

theorem Sound.grown (sound : Sound engine) : Grown engine engine :=
  ⟨sound, rfl, sound.solver.grown⟩

theorem sound_fresh (limit : Nat) (design : Design) : Sound (Engine.fresh limit design) where
  solver := ⟨Reachable.valid .start, rfl, rfl, rfl⟩
  states := by simp [Engine.fresh]
  bads := by simp [Engine.fresh]
  constraints := by simp [Engine.fresh]

theorem Sound.withSolver (sound : Sound engine) {solver : Enumerator}
    (grown : engine.solver.Grown solver) : Sound { engine with solver := solver } where
  solver := grown.sound
  states frame member := (sound.states frame member).mono grown.terms
  bads frame member := (sound.bads frame member).mono grown.terms
  constraints frame member := (sound.constraints frame member).mono grown.terms

theorem smooth_prepare (sound : Sound engine) :
    Smooth Grown (fun _ _ => True) engine (prepare engine) := by
  unfold prepare
  split
  · have start : Preparation.Sound ⟨engine.solver, engine.tables, {}⟩ :=
      ⟨sound.solver, Frame.below_empty _⟩
    have registered := Preparation.smooth_registerAll start engine.design
    generalize (Preparation.registerAll engine.design : CheckM (Preparation _ _ _) _)
      ⟨engine.solver, engine.tables, {}⟩ = result at registered
    cases registered with
    | @ok _ p grown _ =>
        have kept := sound.withSolver grown.solver
        refine .ok ⟨⟨kept.solver, ?_, kept.bads, kept.constraints⟩, rfl, grown.solver⟩ trivial
        intro frame member
        rw [List.mem_singleton.mp (Array.mem_toList_iff.mpr member)]
        exact grown.sound.seed
    | @error cause p grown =>
        have kept := sound.withSolver grown.solver
        exact .error ⟨⟨kept.solver, kept.states, kept.bads, kept.constraints⟩, rfl, grown.solver⟩
  · exact .error sound.grown

theorem Sound.newest (sound : Sound engine) :
    (engine.states.back?.getD {}).Below engine.solver.terms.size := by
  cases found : engine.states.back? with
  | none => exact Frame.below_empty _
  | some frame => exact sound.states frame (Array.mem_of_back? found)

theorem smooth_advance (narrow : engine.design.NarrowSlices)
    (sound : Sound engine) : Smooth Grown (fun _ _ => True) engine (advance engine) := by
  unfold advance
  have ran := StepFrames.smooth_run engine.tables narrow sound.solver sound.newest
    engine.states.size
  simp only
  generalize StepFrames.run engine.tables engine.design _ _ engine.solver = result at ran
  cases ran with
  | @ok frames solver grown below =>
      have kept := sound.withSolver grown
      refine .ok ⟨⟨grown.sound, ?_, ?_, ?_⟩, rfl, grown⟩ trivial
      · intro frame member
        rcases Array.mem_push.mp member with before | rfl
        · rcases Array.mem_push.mp before with old | rfl
          · rw [← Array.mem_toList_iff, Array.toList_pop] at old
            exact kept.states frame (Array.mem_toList_iff.mp (List.mem_of_mem_dropLast old))
          · exact below.current
        · exact below.next
      · intro frame member
        rcases Array.mem_push.mp member with old | rfl
        · exact kept.bads frame old
        · exact below.bads
      · intro frame member
        rcases Array.mem_push.mp member with old | rfl
        · exact kept.constraints frame old
        · exact below.constraints
  | @error cause solver grown => exact .error ⟨sound.withSolver grown, rfl, grown⟩

theorem smooth_execute (narrow : engine.design.NarrowSlices)
    (sound : Sound engine) : Smooth Grown (fun _ _ => True) engine (execute engine) := by
  have read : (get : CheckM (Engine Enumerator BitSort Nat) _) engine = .ok engine engine := rfl
  unfold execute
  rw [CheckM.bind_of_ok read]
  split
  · refine (smooth_prepare sound).bind fun _ middle grown _ => ?_
    exact smooth_advance (by rwa [grown.design]) grown.sound
  · exact smooth_advance narrow sound

end Engine

end BoundedCheck
