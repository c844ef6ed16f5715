import Mathlib
import BoundedCheck.Proofs.Growing
import BoundedCheck.Proofs.Histories
import BoundedCheck.Proofs.MachineSearch

/-!
# Checks without faults

A check of any list of instructions ends with a verdict or an error.  An engine that grew without
faults asks only for terms that it has; a solver with a term wider than a word refuses the query,
and otherwise no operator leaves its range.  The check of a machine, which stops at each of these,
comes to the same.
-/

namespace BoundedCheck

open Enumerator

/-! ## Queries -/

section Queries

variable {s : Enumerator} {roots constraints : List Nat} {condition : Nat}

/-- A query without a wide term is searched, and one with a wide term is refused. -/
theorem Enumerator.solve_ne_fault (valid : Valid s) (inside : ∀ root ∈ roots, root < s.terms.size)
    (few : s.variableBits < narrowBound) (fault : Fault) :
    s.solve roots ≠ .error (.fault fault) := by
  intro failed
  cases wide : oversize? s.terms with
  | some width =>
      rw [solve_of_oversize valid (oversize?_eq_some_iff.mp wide)] at failed
      cases failed
  | none =>
      obtain ⟨found, -, solved⟩ := solve_of_narrow valid inside (oversize?_eq_none_iff.mp wide)
      have bits := Nat.lt_of_le_of_lt (queryBits_le_variableBits s roots) few
      rw [solved, if_neg (Nat.not_le.mpr bits)] at failed
      split at failed <;> cases failed

/-- A refused query leaves nothing behind. -/
theorem query_of_refusal (idle : s.Idle) {cause : SolverError}
    (solved : s.solve (condition :: constraints) = .error (.error cause)) :
    query constraints condition s = .error (.error (.solver cause)) { s with model := none } := by
  unfold query
  rw [show (Backend.checkSat : SolverM Enumerator Bool) = Enumerator.checkSat from rfl,
    checkSat_pose idle, solved]
  cases cause with
  | unknown reason => exact absurd solved solve_ne_unknown
  | _ => simp only [pop_of_idle idle]

/-- The variables are kept by every query, also by one that ends with a fault. -/
theorem vars_query (idle : s.Idle) (constraints : List Nat) (condition : Nat) :
    (endState (query constraints condition s)).vars = s.vars := by
  cases solved : s.solve (condition :: constraints) with
  | ok found =>
      rw [query_of_ok idle solved]
      rfl
  | error stop =>
      cases stop with
      | error cause =>
          rw [query_of_refusal idle solved]
          rfl
      | fault fault =>
          unfold query
          rw [show (Backend.checkSat : SolverM Enumerator Bool) = Enumerator.checkSat from rfl,
            checkSat_pose idle, solved]
          rfl

theorem Enumerator.Sound.grown_model (sound : Sound s) (model : Option (Array Nat)) :
    Grown s { s with model := model } :=
  ⟨⟨sound.valid.of_model model, sound.idle.of_model model⟩, Nat.le_refl _, List.prefix_rfl⟩

end Queries

/-! ## The engine of a machine -/

namespace Machine

/-- The enumerating solver, with queries computed by a machine. -/
@[reducible]
def backend : Backend Enumerator BitSort Nat :=
  { (inferInstance : Backend Enumerator BitSort Nat) with checkSat := checkSat }

theorem evaluateAll_eq (tables : Tables BitSort) (step : Nat) (design : Design)
    (frames : StepFrames Nat) :
    @StepFrames.evaluateAll _ _ _ backend tables step design frames =
      StepFrames.evaluateAll tables step design frames := by
  induction design generalizing frames with
  | nil => rfl
  | cons instruction rest ih =>
      exact congrArg (StepFrames.evaluate tables step frames instruction >>= ·) (funext ih)

theorem renewAll_eq (tables : Tables BitSort) (step : Nat) (free : List (Nat × Nat))
    (frames : StepFrames Nat) :
    @StepFrames.renewAll _ _ _ backend tables step free frames =
      StepFrames.renewAll tables step free frames := by
  induction free generalizing frames with
  | nil => rfl
  | cons state rest ih =>
      exact congrArg (StepFrames.freshVariable tables state.1 state.2 (step + 1) >>= ·)
        (funext fun term => ih _)

theorem run_eq (tables : Tables BitSort) (design : Design) (step : Nat) (frame : Frame Nat) :
    @StepFrames.run _ _ _ backend tables design step frame =
      StepFrames.run tables design step frame := by
  unfold StepFrames.run
  rw [evaluateAll_eq]
  exact congrArg _ (funext fun frames => renewAll_eq tables step design.freeStates frames)

theorem registerAll_eq (design : Design) :
    @Preparation.registerAll _ _ _ backend design = Preparation.registerAll design := by
  induction design with
  | nil => rfl
  | cons instruction rest ih =>
      exact congrArg (Preparation.register instruction >>= fun _ => ·) ih

/-- No query is asked while a design is unrolled. -/
theorem execute_eq : @Engine.execute _ _ _ backend = Engine.execute := by
  have prepared : @Engine.prepare _ _ _ backend = Engine.prepare := by
    unfold Engine.prepare
    rw [funext registerAll_eq]
  have advanced : @Engine.advance _ _ _ backend = Engine.advance := by
    funext engine
    simp only [Engine.advance]
    rw [run_eq]
  unfold Engine.execute
  rw [prepared, advanced]

end Machine

/-! ## Runs with few variables -/

/--
A run that makes variables.  As long as they have few bits it ends without a fault, and a machine
comes to the same.
-/
structure Calm {ε σ α : Type} (G : σ → σ → Prop) (bits : σ → Nat) (s : σ)
    (machine result : EStateM.Result (Stop ε) σ α) : Prop where
  more : bits s ≤ bits (endState result)
  gone : ∀ a later, result = .ok a later → G s later
  smooth : bits (endState result) < narrowBound → Smooth G (fun _ _ => True) s result
  agrees : bits (endState result) < narrowBound → machine = result

namespace Calm

variable {σ α β : Type} {G : σ → σ → Prop} {bits : σ → Nat} {s : σ}

theorem of_pure (refl : G s s) (a : α) :
    Calm G bits s (.ok a s : EStateM.Result (Stop CheckError) σ α) (.ok a s) where
  more := Nat.le_refl _
  gone := by
    rintro _ _ ⟨⟩
    exact refl
  smooth _ := .ok refl trivial
  agrees _ := rfl

/-- Few bits at the end were few in the middle, so that both parts are calm. -/
theorem bind [IsTrans σ G] {machine first : CheckM σ α} {machineNext next : α → CheckM σ β}
    (calm : Calm G bits s (machine s) (first s))
    (rest : ∀ a middle, G s middle → Calm G bits middle (machineNext a middle) (next a middle)) :
    Calm G bits s ((machine >>= machineNext) s) ((first >>= next) s) := by
  cases ran : first s with
  | error stop last =>
      rw [ran] at calm
      rw [CheckM.bind_of_error ran]
      refine ⟨calm.more, (fun _ _ failed => nomatch failed), fun few => ?_, fun few => ?_⟩
      · cases calm.smooth few with
        | error gone => exact .error gone
      · exact CheckM.bind_of_error (calm.agrees few)
  | ok a middle =>
      rw [ran] at calm
      have gone := calm.gone a middle rfl
      have last := rest a middle gone
      rw [CheckM.bind_of_ok ran]
      refine ⟨calm.more.trans last.more, fun b later ended => ?_, fun few => ?_, fun few => ?_⟩
      · exact IsTrans.trans _ _ _ gone (last.gone b later ended)
      · have ended := last.smooth few
        generalize next a middle = result at ended
        cases ended with
        | ok further _ => exact .ok (IsTrans.trans _ _ _ gone further) trivial
        | error further => exact .error (IsTrans.trans _ _ _ gone further)
      · rw [CheckM.bind_of_ok (calm.agrees (Nat.lt_of_le_of_lt last.more few))]
        exact last.agrees few

end Calm

theorem Smooth.calm {σ α : Type} {G : σ → σ → Prop} {P : α → σ → Prop} {bits : σ → Nat} {s : σ}
    {machine result : EStateM.Result (Stop CheckError) σ α} (smooth : Smooth G P s result)
    (mono : ∀ later, G s later → bits s ≤ bits later) (agrees : machine = result) :
    Calm G bits s machine result := by
  cases smooth with
  | ok gone holds =>
      refine ⟨mono _ gone, ?_, fun _ => .ok gone trivial, fun _ => agrees⟩
      rintro _ _ ⟨⟩
      exact gone
  | error gone =>
      exact ⟨mono _ gone, (fun _ _ failed => nomatch failed), fun _ => .error gone, fun _ => agrees⟩

theorem Enumerator.variableBits_eq_sum (s : Enumerator) :
    s.variableBits = (s.vars.toList.map Variable.width).sum := by
  have widths : s.vars.toList.map Variable.width =
      (List.range s.vars.size).map s.varWidth := by
    apply List.ext_getElem?
    intro index
    rw [List.getElem?_map, List.getElem?_map, Array.getElem?_toList]
    by_cases below : index < s.vars.size
    · rw [Array.getElem?_eq_getElem below, List.getElem?_range below]
      simp [varWidth, below]
    · rw [Array.getElem?_eq_none (Nat.not_lt.mp below), List.getElem?_eq_none (by simpa using below)]
      rfl
  rw [variableBits, widths]
  rfl

theorem Enumerator.Grown.variableBits_le {s later : Enumerator} (grown : Grown s later) :
    s.variableBits ≤ later.variableBits := by
  obtain ⟨added, all⟩ := grown.vars
  rw [variableBits_eq_sum, variableBits_eq_sum, ← all, List.map_append, List.sum_append]
  exact Nat.le_add_right _ _

section Queries

variable {s : Enumerator} {constraints : List Nat} {condition : Nat}

theorem Machine.query_eq (sound : Sound s)
    (inside : ∀ root ∈ condition :: constraints, Present root s)
    (few : s.variableBits < narrowBound) :
    @query _ _ _ backend constraints condition s = query constraints condition s := by
  have posed := pose_of_idle sound.idle constraints condition
  have valid : Valid (pose constraints condition s) := by
    rw [posed]
    exact sound.valid.congr rfl rfl rfl (by simpa [Enumerator.roots, Present] using inside)
  have bits : (pose constraints condition s).variableBits < narrowBound := by
    rw [posed]
    exact few
  have asked := checkSat_eq valid (Nat.lt_of_le_of_lt (queryBits_le_variableBits _ _) bits)
  unfold query
  rw [show (Backend.checkSat : SolverM Enumerator Bool) = Enumerator.checkSat from rfl, ← asked]
  rfl

theorem calm_query (sound : Sound s) (inside : ∀ root ∈ condition :: constraints, Present root s) :
    Calm Grown variableBits s (@query _ _ _ Machine.backend constraints condition s)
      (query constraints condition s) := by
  have vars := vars_query sound.idle constraints condition
  have bits : (endState (query constraints condition s)).variableBits = s.variableBits := by
    rw [variableBits_eq_sum, vars, variableBits_eq_sum]
  refine ⟨bits.ge, fun answer later ran => ?_, fun few => ?_, fun few => ?_⟩
  · obtain ⟨same, -⟩ := query_eq_ok sound.idle sound.valid inside ran
    rw [same]
    exact sound.grown_model _
  · cases solved : s.solve (condition :: constraints) with
    | ok found =>
        rw [query_of_ok sound.idle solved]
        exact .ok (sound.grown_model found) trivial
    | error stop =>
        cases stop with
        | fault fault =>
            exact absurd solved (solve_ne_fault sound.valid inside (bits ▸ few) fault)
        | error cause =>
            rw [query_of_refusal sound.idle solved]
            exact .error (sound.grown_model none)
  · exact Machine.query_eq sound inside (bits ▸ few)

theorem calm_queryAll (sound : Sound s) (step : Nat) {conditions : List (Nat × Nat)}
    (insideAll : ∀ root ∈ constraints, Present root s)
    (inside : ∀ entry ∈ conditions, Present entry.2 s) :
    Calm Grown variableBits s (@queryAll _ _ _ Machine.backend step constraints conditions s)
      (queryAll step constraints conditions s) := by
  induction conditions generalizing s with
  | nil => exact .of_pure sound.grown none
  | cons entry rest ih =>
      obtain ⟨bad, t⟩ := entry
      obtain ⟨first, others⟩ := List.forall_mem_cons.mp inside
      refine (calm_query sound (List.forall_mem_cons.mpr ⟨first, insideAll⟩)).bind
        fun answer middle grown => ?_
      cases answer with
      | unreachable =>
          exact ih grown.sound (fun root member => (insideAll root member).trans_le grown.terms)
            fun entry member => (others entry member).trans_le grown.terms
      | reachable model => exact .of_pure grown.sound.grown _
      | undecided reason => exact .of_pure grown.sound.grown _

end Queries

/-! ## Checks -/

namespace Engine

variable {engine later : Engine Enumerator BitSort Nat}

theorem Sound.present_constraints (sound : Sound engine) :
    ∀ root ∈ engine.allConstraints, Present root engine.solver := by
  intro root member
  obtain ⟨frame, listed, valued⟩ := List.mem_flatMap.mp member
  obtain ⟨entry, inside, rfl⟩ := List.mem_map.mp valued
  exact sound.constraints frame (Array.mem_toList_iff.mp listed) entry inside

theorem Sound.present_bads (sound : Sound engine) :
    ∀ entry ∈ engine.lastBads, Present entry.2 engine.solver := by
  intro entry member
  unfold lastBads at member
  cases found : engine.bads.back? with
  | none =>
      rw [found] at member
      cases member
  | some frame =>
      rw [found] at member
      exact sound.bads frame (Array.mem_of_back? found) entry member

/-- The bits of all variables of an engine. -/
def variableBits (engine : Engine Enumerator BitSort Nat) : Nat :=
  engine.solver.variableBits

theorem calm_execute (narrow : engine.design.NarrowSlices)
    (sound : Sound engine) :
    Calm Grown variableBits engine (@execute _ _ _ Machine.backend engine) (execute engine) :=
  (smooth_execute narrow sound).calm (fun _ grown => grown.solver.variableBits_le)
    (congrFun Machine.execute_eq engine)

theorem calm_askLast (sound : Sound engine) (step : Nat) :
    Calm Grown variableBits engine (@askLast _ _ _ Machine.backend step engine)
      (askLast step engine) := by
  have asked := calm_queryAll sound.solver step sound.present_constraints sound.present_bads
  unfold askLast
  generalize @queryAll _ _ _ Machine.backend step engine.allConstraints engine.lastBads
    engine.solver = machine at asked
  generalize queryAll step engine.allConstraints engine.lastBads engine.solver = result at asked
  have grows {solver : Enumerator} (grown : engine.solver.Grown solver) :
      Grown engine { engine with solver := solver } :=
    ⟨sound.withSolver grown, rfl, grown⟩
  cases result with
  | ok found solver =>
      refine ⟨asked.more, ?_, fun few => ?_, fun few => ?_⟩
      · rintro _ _ ⟨⟩
        exact grows (asked.gone found solver rfl)
      · exact .ok (grows (asked.gone found solver rfl)) trivial
      · rw [asked.agrees few]
  | error stop solver =>
      refine ⟨asked.more, (fun _ _ failed => nomatch failed), fun few => ?_, fun few => ?_⟩
      · cases asked.smooth few with
        | error grown => exact .error (grows grown)
      · rw [asked.agrees few]

/-- Exploration goes on from an engine that the last step and its queries have grown. -/
theorem calm_explore (narrow : engine.design.NarrowSlices)
    (sound : Sound engine) (depth : Nat) :
    Calm Grown variableBits engine (@explore _ _ _ Machine.backend depth engine)
      (explore depth engine) := by
  induction depth generalizing engine with
  | zero => exact .of_pure sound.grown none
  | succ depth ih =>
      refine (calm_execute narrow sound).bind fun step middle grown => ?_
      refine (calm_askLast grown.sound step).bind fun found last further => ?_
      cases found with
      | some verdict => exact .of_pure further.sound.grown _
      | none => exact ih (by rwa [further.design, grown.design]) further.sound

theorem calm_bmc (narrow : engine.design.NarrowSlices)
    (sound : Sound engine) (depth : Nat) :
    Calm Grown variableBits engine (@bmc _ _ _ Machine.backend depth engine)
      (bmc depth engine) := by
  refine (calm_explore narrow sound depth).bind fun found last grown => ?_
  cases found with
  | some verdict => exact .of_pure grown.sound.grown _
  | none => exact .of_pure grown.sound.grown _

end Engine

/--
Checks a design as a machine does: it stops with a fault at each sum beyond 32 bits, each shift of a
word by 64 places or more, each division by zero and each place beyond an array.
-/
def Machine.check (settings : Settings) (design : Design) : Except (Stop CheckError) Verdict :=
  match settings.solver with
  | .z3 => .error (.error (.backendUnavailable SolverKind.z3.name))
  | .exhaustive =>
    outcome (@Engine.bmc _ _ _ backend settings.depth (Engine.fresh settings.freeBitLimit design))

/-- A machine comes to the same as long as the variables have few bits. -/
theorem Machine.check_eq {settings : Settings} {design : Design} (narrow : design.NarrowSlices)
    (few : (endState (Engine.bmc settings.depth
      (Engine.fresh settings.freeBitLimit design))).variableBits < narrowBound) :
    Machine.check settings design = BoundedCheck.check settings design := by
  have sound := Engine.sound_fresh settings.freeBitLimit design
  have agrees := (Engine.calm_bmc (by exact narrow) sound settings.depth).agrees few
  unfold Machine.check BoundedCheck.check
  cases settings.solver with
  | z3 => rfl
  | exhaustive =>
      simp only [agrees]
      cases Engine.bmc settings.depth (Engine.fresh settings.freeBitLimit design) with
      | ok verdict last => rfl
      | error stop last => rfl

/--
A check of any list of instructions, whether it makes sense or not, ends with a verdict or an error
and never with a fault, and a machine comes to the same.  All that is asked is that slices end at
positions of 32 bits and that the variables made by the check have less than 2^32 bits together.
-/
theorem check_without_fault (settings : Settings) (design : Design)
    (narrow : design.NarrowSlices)
    (few : (endState (Engine.bmc settings.depth
      (Engine.fresh settings.freeBitLimit design))).variableBits < narrowBound) :
    ∃ result : Except CheckError Verdict,
      check settings design = result.mapError .error ∧
      Machine.check settings design = result.mapError .error := by
  have sound := Engine.sound_fresh settings.freeBitLimit design
  have smooth := (Engine.calm_bmc (by exact narrow) sound settings.depth).smooth few
  rw [Machine.check_eq narrow few]
  unfold check
  cases settings.solver with
  | z3 => exact ⟨.error (.backendUnavailable SolverKind.z3.name), rfl, rfl⟩
  | exhaustive =>
      generalize Engine.bmc settings.depth (Engine.fresh settings.freeBitLimit design) = result
        at smooth
      cases smooth with
      | @ok verdict last _ _ => exact ⟨.ok verdict, rfl, rfl⟩
      | @error cause last _ => exact ⟨.error cause, rfl, rfl⟩

namespace Sample

/-- A line id is given twice, an operand is missing, widths differ, and a slice has no bits. -/
def tangled : Design :=
  [⟨1, .sort (.bitVec 2)⟩, ⟨2, .sort (.bitVec 3)⟩, ⟨3, .input 1 none⟩, ⟨4, .state 2 none⟩,
    ⟨5, .binary .sdiv 2 4 3⟩, ⟨6, .slice 1 5 7 0⟩, ⟨5, .binary .smod 1 3 4⟩, ⟨7, .output 99 none⟩,
    ⟨8, .binary .concat 1 5 3⟩, ⟨9, .binary .sll 2 8 6⟩, ⟨10, .bad 6 none⟩,
    ⟨11, .binary .slt 1 4 9⟩, ⟨12, .bad 11 none⟩, ⟨13, .next 1 4 9⟩, ⟨14, .constraint 5 none⟩]

end Sample

/-- The search divides by zero and reads operands at other widths on its way to a model. -/
theorem check_without_fault_tangled :
    let settings : Settings := { depth := 2, solver := .exhaustive }
    let verdict : Verdict := .violated 1 12 "0 100 state4_1\n1 01 input3_1\n"
    Sample.tangled.NarrowSlices ∧
      (endState (Engine.bmc settings.depth
        (Engine.fresh settings.freeBitLimit Sample.tangled))).variableBits < narrowBound ∧
      check settings Sample.tangled = .ok verdict ∧
      Machine.check settings Sample.tangled = .ok verdict := by
  intro settings verdict
  have narrow : Sample.tangled.NarrowSlices := by decide
  have few : (endState (Engine.bmc settings.depth
      (Engine.fresh settings.freeBitLimit Sample.tangled))).variableBits < narrowBound := by
    decide +kernel
  have ran : check settings Sample.tangled = .ok verdict := by decide +kernel
  obtain ⟨result, same, machine⟩ := check_without_fault settings Sample.tangled narrow few
  exact ⟨narrow, few, ran, machine.trans (same.symm.trans ran)⟩

end BoundedCheck
