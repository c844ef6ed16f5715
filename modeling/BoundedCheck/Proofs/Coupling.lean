import Mathlib
import BoundedCheck.Proofs.Histories

/-!
# Coupled solvers

Two solvers with the same terms give the same answers to all requests for terms, whatever else
distinguishes them.  A relation between such solvers is therefore kept when a design is unrolled over
both of them, and the frames of the two unrollings are the same.
-/

namespace BoundedCheck

/-! ## Runs in lockstep -/

/-- Two runs keep two states related, and end with related results or for the same reason. -/
inductive Lockstep {ε σ α : Type} (S : σ → σ → Prop) (R : α → α → σ → σ → Prop) :
    EStateM.Result ε σ α → EStateM.Result ε σ α → Prop where
  | ok {a b : α} {s t : σ} : S s t → R a b s t → Lockstep S R (.ok a s) (.ok b t)
  | error {stop : ε} {s t : σ} : S s t → Lockstep S R (.error stop s) (.error stop t)

theorem Lockstep.endState {ε σ α : Type} {S : σ → σ → Prop} {R : α → α → σ → σ → Prop}
    {left right : EStateM.Result ε σ α} (lockstep : Lockstep S R left right) :
    S (endState left) (endState right) := by
  cases lockstep with
  | ok related _ => exact related
  | error related => exact related

theorem Lockstep.bind {ε σ α β : Type} {S : σ → σ → Prop} {R : α → α → σ → σ → Prop}
    {Q : β → β → σ → σ → Prop} {first first' : EStateM ε σ α} {next next' : α → EStateM ε σ β}
    {s t : σ} (lockstep : Lockstep S R (first s) (first' t))
    (rest : ∀ a b s t, S s t → R a b s t → Lockstep S Q (next a s) (next' b t)) :
    Lockstep S Q ((first >>= next) s) ((first' >>= next') t) := by
  simp only [Bind.bind, EStateM.bind]
  generalize first s = left at lockstep
  generalize first' t = right at lockstep
  cases lockstep with
  | ok related results => exact rest _ _ _ _ related results
  | error related => exact .error related

/-- Two computations give the same results from related states, and keep the states related. -/
def Coupled {ε σ α : Type} (S : σ → σ → Prop) (first second : EStateM ε σ α) : Prop :=
  ∀ s t, S s t → Lockstep S (fun a b _ _ => a = b) (first s) (second t)

namespace Coupled

variable {ε δ σ α β : Type} {S : σ → σ → Prop}

theorem outcome_eq {first second : EStateM ε σ α} {s t : σ} (coupled : Coupled S first second)
    (related : S s t) : outcome (second t) = outcome (first s) := by
  have ran := coupled s t related
  generalize first s = left at ran
  generalize second t = right at ran
  cases ran with
  | ok _ same => rw [outcome, outcome, same]
  | error _ => rfl

theorem of_pure (a : α) : Coupled S (pure a : EStateM ε σ α) (pure a) :=
  fun _ _ related => .ok related rfl

theorem of_throw (stop : ε) : Coupled S (throw stop : EStateM ε σ α) (throw stop) :=
  fun _ _ related => .error related

theorem bind {first first' : EStateM ε σ α} {next next' : α → EStateM ε σ β}
    (coupled : Coupled S first first') (rest : ∀ a, Coupled S (next a) (next' a)) :
    Coupled S (first >>= next) (first' >>= next') := by
  intro s t related
  refine (coupled s t related).bind ?_
  rintro a _ s t related rfl
  exact rest a s t related

theorem adaptExcept {first first' : EStateM ε σ α} (convert : ε → δ)
    (coupled : Coupled S first first') :
    Coupled S (first.adaptExcept convert) (first'.adaptExcept convert) := by
  intro s t related
  have ran := coupled s t related
  simp only [EStateM.adaptExcept]
  generalize first s = left at ran
  generalize first' t = right at ran
  cases ran with
  | ok related same => exact .ok related same
  | error related => exact .error related

theorem of_get {next next' : σ → EStateM ε σ α}
    (rest : ∀ s t, S s t → Coupled S (next s) (next' t)) :
    Coupled S (get >>= next) (get >>= next') :=
  fun s t related => rest s t related s t related

theorem of_modify {change change' : σ → σ} (kept : ∀ s t, S s t → S (change s) (change' t)) :
    Coupled S (modify change : EStateM ε σ Unit) (modify change') :=
  fun s t related => .ok (kept s t related) rfl

theorem ofExcept {S : σ → σ → Prop} (result : Except CheckError α) :
    Coupled S (CheckM.ofExcept result : CheckM σ α) (CheckM.ofExcept result) := by
  cases result with
  | ok a => exact .of_pure a
  | error error => exact .of_throw _

end Coupled

/-! ## Requests for terms -/

namespace Enumerator

/--
A relation between solvers with the same terms that is kept by new terms, and by new variables whose
names are related.
-/
structure Coupling (N : String → String → Prop) (S : Enumerator → Enumerator → Prop) : Prop where
  terms {s t : Enumerator} : S s t → t.terms = s.terms
  flag {s t : Enumerator} : S s t → t.overflow = s.overflow
  grow {s t : Enumerator} (terms : Array Term) (overflow : Option Nat) : S s t →
    S { s with terms := terms, overflow := overflow } { t with terms := terms, overflow := overflow }
  makeVariable {name name' : String} (sort : BitSort) : N name name' →
    Coupled S (makeVariable name sort) (makeVariable name' sort)

namespace Coupling

variable {N : String → String → Prop} {S : Enumerator → Enumerator → Prop} (coupling : Coupling N S)

include coupling

theorem add {s t : Enumerator} (node : Node) (width : Nat) (related : S s t) :
    S (s.add node width).2 (t.add node width).2 := by
  simp only [Enumerator.add, coupling.terms related, coupling.flag related]
  exact coupling.grow _ _ related

/-- A new term has the same number in both solvers. -/
theorem added {ε : Type} {s t : Enumerator} (node : Node) (width : Nat) (related : S s t) :
    Lockstep S (fun a b _ _ => a = b)
      (.ok (s.add node width).1 (s.add node width).2 : EStateM.Result ε _ _)
      (.ok (t.add node width).1 (t.add node width).2) :=
  .ok (coupling.add node width related) (congrArg Array.size (coupling.terms related)).symm

omit coupling in
theorem makeSort (width : Nat) : Coupled S (makeSort width) (makeSort width) := by
  intro s t related
  unfold Enumerator.makeSort
  split
  · exact .ok related rfl
  · exact .error related

theorem makeConstant (value : Nat) (sort : BitSort) :
    Coupled S (makeConstant value sort) (makeConstant value sort) :=
  fun _ _ related => coupling.added _ _ related

theorem not (a : Nat) : Coupled S (not a) (not a) := by
  intro s t related
  simp only [Enumerator.not, width, coupling.terms related]
  cases s.terms[a]? with
  | none => exact .error related
  | some term => exact coupling.added _ _ related

theorem binary (op : BinaryOp) (a b : Nat) : Coupled S (binary op a b) (binary op a b) := by
  intro s t related
  simp only [Enumerator.binary, width, coupling.terms related]
  cases s.terms[a]? with
  | none => exact .error related
  | some left =>
      cases s.terms[b]? with
      | none => exact .error related
      | some right => exact coupling.added _ _ related

theorem ite (condition onTrue onFalse : Nat) :
    Coupled S (ite condition onTrue onFalse) (ite condition onTrue onFalse) := by
  intro s t related
  simp only [Enumerator.ite, width, coupling.terms related]
  cases s.terms[onTrue]? with
  | none => exact .error related
  | some term => exact coupling.added _ _ related

theorem uext (a extra : Nat) : Coupled S (uext a extra) (uext a extra) := by
  intro s t related
  have same := coupling.terms related
  unfold Enumerator.uext
  split
  · exact .ok related rfl
  · simp only [width, same]
    cases s.terms[a]? with
    | none => exact .error related
    | some term =>
        simp only [show (t.add (.constant 0) extra).1 = (s.add (.constant 0) extra).1 from
          congrArg Array.size same]
        exact coupling.added _ _ (coupling.add _ _ related)

theorem slice (a high low : Nat) : Coupled S (slice a high low) (slice a high low) := by
  intro s t related
  unfold Enumerator.slice
  cases Word.sliceWidth high low with
  | error fault => exact .error related
  | ok width => exact coupling.added _ _ related

end Coupling

end Enumerator

open Enumerator

/-- Tables that differ in names only. -/
structure Tables.Relabelled {Handle : Type} (tables tables' : Tables Handle) : Prop where
  sorts : tables'.sorts = tables.sorts
  nexts : tables'.nexts = tables.nexts

theorem Tables.Relabelled.sortOf_eq {Handle : Type} {tables tables' : Tables Handle}
    (relabelled : Relabelled tables tables') (lid sort : Nat) :
    tables'.sortOf lid sort = tables.sortOf lid sort := by
  rw [sortOf, sortOf, relabelled.sorts]

variable {N : String → String → Prop} {S : Enumerator → Enumerator → Prop}

/-! ## Steps -/

namespace StepFrames

theorem coupled_some {request request' : CheckM Enumerator Nat}
    (coupled : Coupled S request request') :
    Coupled S (do return some (← request)) (do return some (← request')) :=
  coupled.bind fun term => .of_pure (some term)

section Tables

variable {tables tables' : Tables BitSort} (coupling : Coupling N S)
  (relabelled : tables.Relabelled tables')
  (named : ∀ lid step, N (tables.stepName lid step) (tables'.stepName lid step))

include coupling

theorem coupled_binaryOperator (op : BinaryOp) (a b : Nat) :
    Coupled S (binaryOperator op a b : CheckM Enumerator Nat) (binaryOperator op a b) :=
  .of_get fun _ _ _ => (coupling.binary op a b).adaptExcept _

include relabelled

theorem coupled_constant (lid sort value : Nat) :
    Coupled S (constant tables lid sort value : CheckM Enumerator Nat)
      (constant tables' lid sort value) := by
  unfold constant
  rw [relabelled.sortOf_eq]
  exact (Coupled.ofExcept _).bind fun handle => (coupling.makeConstant value handle).adaptExcept _

include named

theorem coupled_freshVariable (lid sort step : Nat) :
    Coupled S (freshVariable tables lid sort step : CheckM Enumerator Nat)
      (freshVariable tables' lid sort step) := by
  unfold freshVariable
  rw [relabelled.sortOf_eq]
  exact (Coupled.ofExcept _).bind fun handle =>
    (coupling.makeVariable handle (named lid step)).adaptExcept _

theorem coupled_value? (step : Nat) (frame : Frame Nat) (instruction : Instruction) :
    Coupled S
      (value? tables step frame instruction : CheckM Enumerator (Option Nat))
      (value? tables' step frame instruction) := by
  obtain ⟨lid, operation⟩ := instruction
  cases operation with
  | input sort name =>
      exact coupled_some (coupled_freshVariable coupling relabelled named lid sort step)
  | const sort value => exact coupled_some (coupled_constant coupling relabelled lid sort value)
  | zero sort => exact coupled_some (coupled_constant coupling relabelled lid sort 0)
  | one sort => exact coupled_some (coupled_constant coupling relabelled lid sort 1)
  | not sort operand =>
      simp only [value?, relabelled.sortOf_eq]
      refine (Coupled.ofExcept _).bind fun _ => (Coupled.ofExcept _).bind fun a => ?_
      exact coupled_some ((coupling.not a).adaptExcept _)
  | binary op sort left right =>
      simp only [value?, relabelled.sortOf_eq]
      refine (Coupled.ofExcept _).bind fun _ => (Coupled.ofExcept _).bind fun a => ?_
      refine (Coupled.ofExcept _).bind fun b => ?_
      exact coupled_some (coupled_binaryOperator coupling op a b)
  | ite sort condition onTrue onFalse =>
      simp only [value?, relabelled.sortOf_eq]
      refine (Coupled.ofExcept _).bind fun _ => (Coupled.ofExcept _).bind fun c => ?_
      refine (Coupled.ofExcept _).bind fun a => (Coupled.ofExcept _).bind fun b => ?_
      exact coupled_some ((coupling.ite c a b).adaptExcept _)
  | uext sort operand extra name =>
      simp only [value?, relabelled.sortOf_eq]
      refine (Coupled.ofExcept _).bind fun _ => (Coupled.ofExcept _).bind fun a => ?_
      exact coupled_some ((coupling.uext a extra).adaptExcept _)
  | slice sort operand lowBit width =>
      simp only [value?, relabelled.sortOf_eq]
      refine (Coupled.ofExcept _).bind fun _ => (Coupled.ofExcept _).bind fun a => ?_
      cases sliceUpper lowBit width with
      | error fault => exact .of_throw _
      | ok upper => exact coupled_some ((coupling.slice a upper lowBit).adaptExcept _)
  | init | ones => exact .of_throw _
  | sort | state | output | next | constraint | bad => exact .of_pure none

theorem coupled_evaluate (step : Nat) (frames : StepFrames Nat) (instruction : Instruction) :
    Coupled S
      (evaluate tables step frames instruction : CheckM Enumerator (StepFrames Nat))
      (evaluate tables' step frames instruction) := by
  have value := coupled_value? coupling relabelled named step frames.current instruction
  obtain ⟨lid, operation⟩ := instruction
  cases operation with
  | next sort state source =>
      simp only [evaluate, relabelled.nexts]
      cases tables.nexts.get? lid with
      | none => exact .of_throw _
      | some target => exact (Coupled.ofExcept _).bind fun term => .of_pure _
  | constraint condition name => exact (Coupled.ofExcept _).bind fun term => .of_pure _
  | bad condition name => exact (Coupled.ofExcept _).bind fun term => .of_pure _
  | _ =>
      refine value.bind fun result => ?_
      cases result with
      | none => exact .of_pure _
      | some term => exact .of_pure _

theorem coupled_evaluateAll (step : Nat) (design : Design) (frames : StepFrames Nat) :
    Coupled S
      (evaluateAll tables step design frames : CheckM Enumerator (StepFrames Nat))
      (evaluateAll tables' step design frames) := by
  induction design generalizing frames with
  | nil => exact .of_pure frames
  | cons instruction rest ih =>
      exact (coupled_evaluate coupling relabelled named step frames instruction).bind ih

theorem coupled_renewAll (step : Nat) (free : List (Nat × Nat)) (frames : StepFrames Nat) :
    Coupled S (renewAll tables step free frames : CheckM Enumerator (StepFrames Nat))
      (renewAll tables' step free frames) := by
  induction free generalizing frames with
  | nil => exact .of_pure frames
  | cons entry rest ih =>
      exact (coupled_freshVariable coupling relabelled named entry.1 entry.2 (step + 1)).bind
        fun term => ih _

/-- A step of a design makes the same frames over coupled solvers. -/
theorem coupled_run (design : Design) (step : Nat) (frame : Frame Nat) :
    Coupled S (run tables design step frame : CheckM Enumerator (StepFrames Nat))
      (run tables' design step frame) :=
  (coupled_evaluateAll coupling relabelled named step design _).bind fun frames =>
    coupled_renewAll coupling relabelled named step _ frames

end Tables

end StepFrames

/-! ## One design over two solvers -/

namespace Preparation

/-- Preparations that differ in their solvers only, which are related. -/
def Beside (S : Enumerator → Enumerator → Prop) (p q : Preparation Enumerator BitSort Nat) : Prop :=
  ∃ solver, S p.solver solver ∧ q = { p with solver := solver }

theorem beside_ask {α : Type} {request : SolverM Enumerator α}
    (coupled : Coupled S request request) :
    Coupled (Beside S) (ask request : CheckM (Preparation Enumerator BitSort Nat) α)
      (ask request) := by
  rintro p _ ⟨solver, related, rfl⟩
  have ran := coupled.adaptExcept (Stop.map CheckError.solver) _ _ related
  simp only [ask, CheckM.ofSolver]
  generalize request.adaptExcept _ p.solver = left at ran
  generalize request.adaptExcept _ solver = right at ran
  cases ran with
  | ok related same => exact .ok ⟨_, related, rfl⟩ same
  | error related => exact .error ⟨_, related, rfl⟩

/-- A change that neither reads nor writes the solver. -/
theorem beside_modify {change : Preparation Enumerator BitSort Nat → _}
    (blind : ∀ p solver, change { p with solver := solver } = { change p with solver := solver })
    (kept : ∀ p, (change p).solver = p.solver) :
    Coupled (Beside S) (modify change : CheckM (Preparation Enumerator BitSort Nat) Unit)
      (modify change) := by
  refine .of_modify ?_
  rintro p _ ⟨solver, related, rfl⟩
  exact ⟨solver, by rwa [kept], blind p solver⟩

theorem beside_registerSort (lid width : Nat) :
    Coupled (Beside S)
      (registerSort lid width : CheckM (Preparation Enumerator BitSort Nat) Unit)
      (registerSort lid width) := by
  refine .of_get ?_
  rintro p _ ⟨solver, -, rfl⟩
  simp only
  split
  · exact .of_pure ()
  · exact (beside_ask (Coupling.makeSort width)).bind fun handle =>
      beside_modify (fun _ _ => rfl) fun _ => rfl

theorem beside_bindName (lid : Nat) (name : String) :
    Coupled (Beside S) (bindName lid name : CheckM (Preparation Enumerator BitSort Nat) Unit)
      (bindName lid name) :=
  beside_modify (fun _ _ => rfl) fun _ => rfl

variable (coupling : Coupling Eq S)

include coupling

theorem beside_seedState (lid sort : Nat) :
    Coupled (Beside S) (seedState lid sort : CheckM (Preparation Enumerator BitSort Nat) Unit)
      (seedState lid sort) := by
  refine .of_get ?_
  rintro p _ ⟨solver, -, rfl⟩
  refine (Coupled.ofExcept _).bind fun handle => ?_
  exact (beside_ask (coupling.makeVariable handle rfl)).bind fun term =>
    beside_modify (fun _ _ => rfl) fun _ => rfl

theorem beside_register (instruction : Instruction) :
    Coupled (Beside S) (register instruction : CheckM (Preparation Enumerator BitSort Nat) Unit)
      (register instruction) := by
  obtain ⟨lid, operation⟩ := instruction
  cases operation with
  | sort kind =>
      cases kind with
      | bitVec width => exact beside_registerSort lid width
      | array index element => exact .of_throw _
  | input sort name => exact beside_bindName lid _
  | state sort name =>
      exact (beside_bindName lid _).bind fun _ => beside_seedState coupling lid sort
  | uext sort operand extra name =>
      cases extra with
      | succ extra => exact .of_pure ()
      | zero =>
          cases name with
          | none => exact .of_pure ()
          | some symbol => exact beside_modify (fun _ _ => rfl) fun _ => rfl
  | next sort state value => exact beside_modify (fun _ _ => rfl) fun _ => rfl
  | _ => exact .of_pure ()

theorem beside_registerAll (design : Design) :
    Coupled (Beside S) (registerAll design : CheckM (Preparation Enumerator BitSort Nat) Unit)
      (registerAll design) := by
  induction design with
  | nil => exact .of_pure ()
  | cons instruction rest ih => exact (beside_register coupling instruction).bind fun _ => ih

end Preparation

namespace Engine

/-- Engines that differ in their solvers only, which are related. -/
def Beside (S : Enumerator → Enumerator → Prop) (engine other : Engine Enumerator BitSort Nat) :
    Prop :=
  ∃ solver, S engine.solver solver ∧ other = { engine with solver := solver }

variable (coupling : Coupling Eq S)

include coupling

theorem beside_prepare : Coupled (Beside S) prepare prepare := by
  rintro engine _ ⟨solver, related, rfl⟩
  have ran := Preparation.beside_registerAll coupling engine.design
    ⟨engine.solver, engine.tables, {}⟩ _ ⟨solver, related, rfl⟩
  unfold prepare
  dsimp only
  split
  · generalize Preparation.registerAll engine.design ⟨engine.solver, engine.tables, {}⟩ = left at ran
    generalize Preparation.registerAll engine.design ⟨solver, engine.tables, {}⟩ = right at ran
    cases ran with
    | ok prepared _ =>
        obtain ⟨last, related, rfl⟩ := prepared
        exact .ok ⟨last, related, rfl⟩ rfl
    | error prepared =>
        obtain ⟨last, related, rfl⟩ := prepared
        exact .error ⟨last, related, rfl⟩
  · exact .error ⟨solver, related, rfl⟩

theorem beside_advance : Coupled (Beside S) advance advance := by
  rintro engine _ ⟨solver, related, rfl⟩
  have same : engine.tables.Relabelled engine.tables := ⟨rfl, rfl⟩
  have ran := StepFrames.coupled_run coupling same (fun _ _ => rfl) engine.design
    engine.states.size (engine.states.back?.getD {}) _ _ related
  unfold advance
  simp only
  generalize StepFrames.run engine.tables engine.design _ _ engine.solver = left at ran
  generalize StepFrames.run engine.tables engine.design _ _ solver = right at ran
  cases ran with
  | error related => exact .error ⟨_, related, rfl⟩
  | ok related same =>
      subst same
      exact .ok ⟨_, related, rfl⟩ rfl

theorem beside_execute : Coupled (Beside S) execute execute := by
  refine .of_get ?_
  rintro engine _ ⟨solver, -, rfl⟩
  simp only
  split
  · exact (beside_prepare coupling).bind fun _ => beside_advance coupling
  · exact beside_advance coupling

end Engine

end BoundedCheck
