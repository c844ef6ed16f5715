import Mathlib
import BoundedCheck.Proofs.Unrolling

/-!
# Typed frames

The frames of an unrolling have a term for each instruction that has a value, and for no other, and
the newest frame has one for each state.  The widths that the solver computes for them are those of
the sorts that the instructions declare.
-/

namespace BoundedCheck

/-! ## Keys of frames -/

namespace OrderedMap

variable {κ α : Type} [BEq κ] [LawfulBEq κ]

theorem mem_keys {map : OrderedMap κ α} {key : κ} : key ∈ map.keys ↔ map.contains key = true := by
  rw [contains, get?, List.lookup_isSome_iff, keys, List.mem_map]
  constructor
  · rintro ⟨entry, member, rfl⟩
    exact ⟨entry, member, beq_self_eq_true entry.1⟩
  · rintro ⟨entry, member, same⟩
    exact ⟨entry, member, (eq_of_beq same).symm⟩

theorem nodup_keys_insert {map : OrderedMap κ α} (distinct : map.keys.Nodup) (key : κ) (value : α) :
    (map.insert key value).keys.Nodup := by
  rw [keys_insert]
  split
  · exact distinct
  · rename_i absent
    rw [← mem_keys] at absent
    exact distinct.append (List.nodup_singleton key) (by simpa using absent)

end OrderedMap

namespace Frame

variable {Term : Type} {frame : Frame Term} {allowed : Nat → Prop}

/-- Only some line ids have a term, and each of them one. -/
structure Within (frame : Frame Term) (allowed : Nat → Prop) : Prop where
  distinct : frame.keys.Nodup
  inside : ∀ lid ∈ frame.keys, allowed lid

theorem within_empty (allowed : Nat → Prop) : Within ({} : Frame Term) allowed :=
  ⟨List.nodup_nil, fun _ member => by cases member⟩

theorem Within.mono (within : frame.Within allowed) {more : Nat → Prop}
    (weaker : ∀ lid, allowed lid → more lid) : frame.Within more :=
  ⟨within.distinct, fun lid member => weaker lid (within.inside lid member)⟩

theorem Within.insert (within : frame.Within allowed) {lid : Nat} (fine : allowed lid)
    (term : Term) : Within (OrderedMap.insert frame lid term) allowed := by
  refine ⟨OrderedMap.nodup_keys_insert within.distinct lid term, ?_⟩
  intro other member
  rw [OrderedMap.keys_insert] at member
  split at member
  · exact within.inside other member
  · rcases List.mem_append.mp member with old | new
    · exact within.inside other old
    · rw [List.mem_singleton.mp new]
      exact fine

end Frame

/-! ## What a step fills -/

/-- Every `next` instruction is registered for a state. -/
def Tables.Targets {Handle : Type} (tables : Tables Handle) (design : Design) : Prop :=
  ∀ lid sort state value target, ⟨lid, .next sort state value⟩ ∈ design →
    tables.nexts.get? lid = some target → design.DeclaresState target

namespace StepFrames

variable {σ Handle Term : Type} [Backend σ Handle Term] {tables : Tables Handle} {design : Design}
  {frames later : StepFrames Term} {instruction : Instruction} {s t : σ} {step : Nat}

/-- A step gives terms to values in its own frame, and to states in the one that follows. -/
structure Fills (design : Design) (frames : StepFrames Term) : Prop where
  current : frames.current.Within design.DeclaresValue
  next : frames.next.Within design.DeclaresState

theorem isValue_of_value? {frame : Frame Term} {term : Term}
    (ran : value? tables step frame instruction s = .ok (some term) t) :
    instruction.operation.isValue = true := by
  obtain ⟨lid, operation⟩ := instruction
  cases operation with
  | sort | output | next | constraint | bad | init => cases ran
  | _ => rfl

theorem Fills.evaluate (fills : frames.Fills design) (member : instruction ∈ design)
    (targets : tables.Targets design)
    (ran : evaluate tables step frames instruction s = .ok later t) : later.Fills design := by
  obtain ⟨lid, operation⟩ := instruction
  cases operation with
  | next sort state value =>
      simp only [StepFrames.evaluate] at ran
      cases found : tables.nexts.get? lid with
      | none =>
          rw [found] at ran
          cases ran
      | some target =>
          rw [found] at ran
          obtain ⟨term, middle, -, ran⟩ := CheckM.bind_eq_ok.mp ran
          cases ran
          exact ⟨fills.current, fills.next.insert (targets _ _ _ _ _ member found) term⟩
  | constraint condition name =>
      obtain ⟨term, middle, -, ran⟩ := CheckM.bind_eq_ok.mp ran
      cases ran
      exact ⟨fills.current, fills.next⟩
  | bad condition name =>
      obtain ⟨term, middle, -, ran⟩ := CheckM.bind_eq_ok.mp ran
      cases ran
      exact ⟨fills.current, fills.next⟩
  | _ =>
      obtain ⟨value, middle, valued, ran⟩ := CheckM.bind_eq_ok.mp ran
      cases value with
      | none =>
          cases ran
          exact fills
      | some term =>
          cases ran
          exact ⟨fills.current.insert ⟨_, member, isValue_of_value? valued⟩ term, fills.next⟩

theorem Fills.evaluateAll (targets : tables.Targets design) {rest : Design}
    (inside : rest ⊆ design) (fills : frames.Fills design)
    (ran : evaluateAll tables step rest frames s = .ok later t) : later.Fills design := by
  induction rest generalizing frames s with
  | nil =>
      cases ran
      exact fills
  | cons instruction rest ih =>
      obtain ⟨middle, solver, first, others⟩ := CheckM.bind_eq_ok.mp ran
      have filled := fills.evaluate (inside List.mem_cons_self) targets first
      exact ih (List.subset_of_cons_subset inside) filled others

theorem Fills.renewAll {free : List (Nat × Nat)}
    (inside : ∀ state ∈ free, design.DeclaresState state.1) (fills : frames.Fills design)
    (ran : renewAll tables step free frames s = .ok later t) : later.Fills design := by
  induction free generalizing frames s with
  | nil =>
      cases ran
      exact fills
  | cons state rest ih =>
      obtain ⟨term, solver, -, others⟩ := CheckM.bind_eq_ok.mp ran
      have filled : Fills design { frames with next := frames.next.insert state.1 term } :=
        ⟨fills.current, fills.next.insert (inside state List.mem_cons_self) term⟩
      exact ih (fun other member => inside other (List.mem_cons_of_mem state member)) filled others

/-- A step that starts from a frame of states. -/
theorem fills_of_run (targets : tables.Targets design) {frame : Frame Term}
    (within : frame.Within design.DeclaresState)
    (ran : run tables design step frame s = .ok frames t) : frames.Fills design := by
  obtain ⟨middle, solver, evaluated, renewed⟩ := CheckM.bind_eq_ok.mp ran
  have start : Fills design { current := frame } := by
    refine ⟨within.mono ?_, Frame.within_empty _⟩
    rintro lid ⟨sort, name, member⟩
    exact ⟨_, member, rfl⟩
  have filled := start.evaluateAll targets (List.Subset.refl design) evaluated
  refine filled.renewAll ?_ renewed
  rintro ⟨lid, sort⟩ member
  obtain ⟨⟨name, declared⟩, -⟩ := Design.mem_freeStates.mp member
  exact ⟨sort, name, declared⟩

end StepFrames

namespace Preparation

variable {σ Handle Term : Type} [Backend σ Handle Term] {p later : Preparation σ Handle Term}
  {design : Design} {instruction : Instruction}

theorem within_register (member : instruction ∈ design)
    (within : p.seed.Within design.DeclaresState) (ran : register instruction p = .ok () later) :
    later.seed.Within design.DeclaresState := by
  obtain ⟨lid, operation⟩ := instruction
  cases operation with
  | sort kind =>
      cases kind with
      | bitVec width =>
          obtain ⟨seed, -⟩ := registerSort_keeps ran
          rw [seed]
          exact within
      | array index element => cases ran
  | state sort name =>
      obtain ⟨_, middle, bound, ran⟩ := CheckM.bind_eq_ok.mp ran
      cases bound
      obtain ⟨-, term, seeded⟩ := seedState_eq_ok ran
      rw [seeded]
      exact within.insert ⟨sort, name, member⟩ term
  | uext sort operand extra name =>
      cases extra <;> cases name <;> cases ran <;> exact within
  | _ =>
      cases ran
      exact within

theorem within_registerAll {rest : Design} (inside : rest ⊆ design)
    (within : p.seed.Within design.DeclaresState) (ran : registerAll rest p = .ok () later) :
    later.seed.Within design.DeclaresState := by
  induction rest generalizing p with
  | nil =>
      cases ran
      exact within
  | cons instruction rest ih =>
      obtain ⟨_, middle, first, others⟩ := CheckM.bind_eq_ok.mp ran
      exact ih (List.subset_of_cons_subset inside)
        (within_register (inside List.mem_cons_self) within first) others

end Preparation

namespace Engine

section Shapes

variable {σ Handle Term : Type} [Backend σ Handle Term] {engine later : Engine σ Handle Term}
  {design : Design} {count : Nat}

/-- After some steps the newest frame has terms for states only, and the others for values only. -/
structure Shaped (design : Design) (count : Nat) (engine : Engine σ Handle Term) : Prop where
  same : engine.design = design
  targets : engine.tables.Targets design
  size : engine.states.size = count + 1
  older : ∀ step < count, ∀ frame, engine.states[step]? = some frame →
    frame.Within design.DeclaresValue
  newest : ∀ frame, engine.states[count]? = some frame → frame.Within design.DeclaresState

theorem Shaped.execute (shaped : Shaped design count engine) {number : Nat}
    (ran : Engine.execute engine = .ok number later) : Shaped design (count + 1) later := by
  have prepared : engine.states.isEmpty = false := by
    simp [Array.isEmpty, shaped.size]
  have last : count < engine.states.size := by
    rw [shaped.size]
    exact Nat.lt_succ_self count
  have starts : (engine.states.back?.getD {}).Within design.DeclaresState := by
    rw [Array.back?_eq_getElem?, shaped.size, Nat.add_sub_cancel, Array.getElem?_eq_getElem last]
    exact shaped.newest _ (Array.getElem?_eq_getElem last)
  rw [execute_of_prepared prepared] at ran
  unfold advance at ran
  simp only [shaped.same] at ran
  cases stepped : StepFrames.run engine.tables design engine.states.size
      (engine.states.back?.getD {}) engine.solver with
  | error stop solver =>
      rw [stepped] at ran
      cases ran
  | ok frames solver =>
      rw [stepped] at ran
      cases ran
      have filled := StepFrames.fills_of_run shaped.targets starts stepped
      refine ⟨rfl, shaped.targets, by simp [shaped.size], ?_, ?_⟩
      · intro step below frame found
        simp only [Array.getElem?_push, Array.getElem?_pop, Array.size_push, Array.size_pop,
          shaped.size, Nat.add_sub_cancel] at found
        rcases Nat.lt_or_eq_of_le (Nat.le_of_lt_succ below) with earlier | here
        · rw [if_neg (by omega), if_neg (by omega), if_pos earlier] at found
          exact shaped.older step earlier frame found
        · rw [if_neg (by omega), if_pos here] at found
          cases found
          exact filled.current
      · intro frame found
        have newest : ((engine.states.pop.push frames.current).push frames.next)[count + 1]? =
            some frames.next := by
          rw [Array.getElem?_push, if_pos (by simp [shaped.size])]
        rw [newest] at found
        cases found
        exact filled.next

theorem shaped_prepare {solver : σ}
    (ran : prepare { design := design, solver := solver } = .ok () engine)
    (targets : engine.tables.Targets design) : Shaped design 0 engine := by
  obtain ⟨p, registered, rfl⟩ := prepare_eq_ok ran
  have within : p.seed.Within design.DeclaresState :=
    Preparation.within_registerAll (List.Subset.refl design) (Frame.within_empty _) registered
  refine ⟨rfl, targets, rfl, fun step below => absurd below (Nat.not_lt_zero step), ?_⟩
  intro frame found
  cases found
  exact within

end Shapes

open Enumerator

variable {design : Design} {assignment : Nat → Nat} {supply : Supply} {start : Array Variable}
  {count : Nat} {engine : Engine Enumerator BitSort Nat}

theorem targets_of_covers {tables : Tables BitSort} (wellFormed : design.WellFormed)
    (covers : tables.Covers design design) : tables.Targets design := by
  intro lid sort state value target member found
  have known : tables.nexts.get? lid = some state := covers.knows _ member
  rw [known] at found
  cases found
  obtain ⟨earlier, inside, formed⟩ := wellFormed.of_mem member
  obtain ⟨own, name, declared⟩ := formed.resolved.target state rfl
  exact ⟨own, name, inside declared⟩

/-- Steps of a new engine start with its preparation. -/
theorem unroll_of_prepare {solver : Enumerator} {prepared : Engine Enumerator BitSort Nat}
    (ran : prepare { design := design, solver := solver } = .ok () prepared)
    (filled : prepared.states.isEmpty = false) :
    unroll (count + 1) { design := design, solver := solver } = unroll (count + 1) prepared := by
  have same : execute { design := design, solver := solver } = execute prepared := by
    rw [execute_of_empty rfl ran, execute_of_prepared filled]
  simp only [unroll, bind, EStateM.bind, same]

/-- A new engine that was unrolled shows a run, has the shape of its design and a larger solver. -/
theorem shaped_of_unroll (wellFormed : design.WellFormed) {solver : Enumerator}
    (ran : unroll (count + 1) { design := design, solver := solver } = .ok () engine) :
    design.Words ∧ Grows solver engine.solver ∧ Shaped design (count + 1) engine ∧
      Unrolled design solver.vars (fun _ => 0) (fun _ _ => 0) (count + 1) engine := by
  obtain ⟨number, first, executed, -⟩ := CheckM.bind_eq_ok.mp ran
  have supported := supported_of_execute wellFormed executed
  have scenario := scenario_zero wellFormed supported (count + 1) solver.vars.size
  obtain ⟨prepared, preparation, grown, unrolled⟩ := prepare_ok solver scenario.setting
  have shaped := shaped_prepare preparation (targets_of_covers wellFormed unrolled.covers)
  rw [unroll_of_prepare preparation (by simp [Array.isEmpty, unrolled.size])] at ran
  obtain ⟨later, others, more, done⟩ :=
    unrolled.unroll_ok scenario (Nat.le_of_eq (Nat.zero_add (count + 1)))
  rw [others] at ran
  cases ran
  rw [Nat.zero_add] at done
  have shape := unroll_invariant (fun reached executed => reached.execute executed) shaped others
  rw [Nat.zero_add] at shape
  exact ⟨supported.sorts, grown.trans more, shape, done⟩

theorem Logged.sized {frames : Array (Frame Nat)} {terms : Array Enumerator.Term}
    {values : Nat → Valuation} {conditions : List (Nat × Nat)}
    (logged : Logged frames terms assignment values conditions count) {frame : Frame Nat}
    (member : frame ∈ frames.toList) {entry : Nat × Nat} (listed : entry ∈ frame.entries) :
    entry.2 < terms.size ∧ widthOf terms entry.2 = 1 := by
  obtain ⟨step, here⟩ := List.getElem?_of_mem member
  rw [Array.getElem?_toList] at here
  have below : step < count := by
    rw [← logged.size]
    exact (Array.getElem?_eq_some_iff.mp here).1
  obtain ⟨other, found, lists⟩ := logged.lists step below
  rw [found] at here
  cases here
  obtain ⟨place, placed⟩ := List.getElem?_of_mem listed
  obtain ⟨condition, -, -, carries⟩ := lists.condition_at placed
  exact ⟨carries.below, carries.sized⟩

/-- Which line ids have a term in the frame of a step, when some steps are completed. -/
def Holds (design : Design) (count step lid : Nat) : Prop :=
  if step < count then design.DeclaresValue lid else design.DeclaresState lid

theorem Shaped.within (shaped : Shaped design count engine) {step : Nat} {frame : Frame Nat}
    (found : engine.states[step]? = some frame) : frame.Within (Holds design count step) := by
  have inside := (Array.getElem?_eq_some_iff.mp found).1
  rw [shaped.size] at inside
  unfold Holds
  by_cases below : step < count
  · simp only [if_pos below]
    exact shaped.older step below frame found
  · have last : step = count := by omega
    subst last
    simp only [if_neg below]
    exact shaped.newest frame found

theorem Unrolled.carries (unrolled : Unrolled design start assignment supply count engine)
    {step lid : Nat} {frame : Frame Nat} (found : engine.states[step]? = some frame)
    (held : Holds design count step lid) :
    ∃ t, frame.get? lid = some t ∧ Carries engine.solver.terms assignment t (design.valueWidth lid)
      (design.run supply step lid) := by
  have inside := (Array.getElem?_eq_some_iff.mp found).1
  rw [unrolled.size] at inside
  obtain ⟨other, here, tracks, -⟩ := unrolled.states step (Nat.le_of_lt_succ inside)
  rw [here] at found
  cases found
  unfold Holds at held
  split at held
  · rename_i below
    exact tracks lid (Or.inr ⟨below, held⟩)
  · exact tracks lid (Or.inl held)

theorem Holds.declaresValue {step lid : Nat} (held : Holds design count step lid) :
    design.DeclaresValue lid := by
  unfold Holds at held
  split at held
  · exact held
  · obtain ⟨sort, name, member⟩ := held
    exact ⟨_, member, rfl⟩

/--
After any number of steps, the completed frames have a term for each value and the newest one for
each state, and no other.  Every term has the width of the sort of its instruction, bad conditions and
constraints have one bit, and no term that the solver makes is empty or wider than a word.
-/
theorem frames_typed {source : String} (accepted : Design.read source = .ok design) {limit : Nat}
    {solver : Enumerator} (reachable : Reachable limit solver)
    (ran : unroll count { design := design, solver := solver } = .ok () engine) :
    (0 < count → engine.states.size = count + 1) ∧
      (∀ step frame, engine.states[step]? = some frame →
        frame.keys.Nodup ∧
          (∀ lid, lid ∈ frame.keys ↔
            if step < count then design.DeclaresValue lid else design.DeclaresState lid) ∧
          ∀ lid t, frame.get? lid = some t →
            t < engine.solver.terms.size ∧ design.HasWidth lid (widthOf engine.solver.terms t)) ∧
      (∀ frame ∈ engine.bads.toList ++ engine.constraints.toList, ∀ entry ∈ frame.entries,
        entry.2 < engine.solver.terms.size ∧ widthOf engine.solver.terms entry.2 = 1) ∧
      ∀ t < engine.solver.terms.size, 1 ≤ widthOf engine.solver.terms t ∧
        ((∀ old < solver.terms.size, widthOf solver.terms old ≤ 64) →
          widthOf engine.solver.terms t ≤ 64) := by
  have wellFormed := Design.wellFormed_of_read accepted
  cases count with
  | zero =>
      cases ran
      refine ⟨fun more => absurd more (Nat.lt_irrefl 0), ?_, ?_, ?_⟩
      · intro step frame found
        cases found
      · intro frame member
        cases member
      · exact fun t below => ⟨reachable.valid.width_pos below, fun narrow => narrow t below⟩
  | succ count =>
      obtain ⟨words, grown, shaped, unrolled⟩ := shaped_of_unroll wellFormed ran
      refine ⟨fun _ => shaped.size, ?_, ?_, ?_⟩
      · intro step frame found
        have within := shaped.within found
        refine ⟨within.distinct, fun lid => ⟨within.inside lid, fun held => ?_⟩, ?_⟩
        · obtain ⟨t, stored, -⟩ := unrolled.carries found held
          exact OrderedMap.mem_keys.mpr (by simp [OrderedMap.contains, stored])
        · intro lid t stored
          have member : lid ∈ frame.keys :=
            OrderedMap.mem_keys.mpr (by simp [OrderedMap.contains, stored])
          have held := within.inside lid member
          obtain ⟨other, same, carries⟩ := unrolled.carries found held
          rw [stored] at same
          cases same
          rw [carries.sized]
          exact ⟨carries.below,
            held.declaresValue.hasWidth wellFormed words (List.Subset.refl design) wellFormed⟩
      · intro frame member entry listed
        rcases List.mem_append.mp member with bad | constraint
        · exact unrolled.bads.sized bad listed
        · exact unrolled.constraints.sized constraint listed
      · intro t below
        refine ⟨(grown.valid reachable.valid).width_pos below, fun narrow => grown.narrow ?_ t⟩
        intro old
        by_cases inside : old < solver.terms.size
        · exact narrow old inside
        · rw [widthOf, Array.getElem?_eq_none (Nat.not_lt.mp inside)]
          exact Nat.zero_le _

/-- After two steps of the sample the first frame has a comparison, and no bad condition. -/
theorem frames_typed_sample :
    Design.read Sample.source = .ok Sample.design ∧ Reachable 20 {} ∧
      ∃ engine, unroll 2 { design := Sample.design, solver := ({} : Enumerator) } = .ok () engine ∧
        engine.states.size = 3 ∧
        (∀ frame, engine.states[0]? = some frame → 8 ∈ frame.keys ∧ 9 ∉ frame.keys) ∧
        ∀ t < engine.solver.terms.size, widthOf engine.solver.terms t ≤ 64 := by
  have fine : CheckM.succeeds (unroll 2)
      { design := Sample.design, solver := ({} : Enumerator) } = true := by decide +kernel
  obtain ⟨_, engine, ran⟩ := CheckM.exists_of_succeeds fine
  have fresh : Reachable 20 {} := .start
  obtain ⟨size, frames, -, widths⟩ := frames_typed Sample.read_source fresh ran
  refine ⟨Sample.read_source, fresh, engine, ran, size Nat.two_pos, ?_, fun t below =>
    (widths t below).2 fun old inside => absurd inside (Nat.not_lt_zero old)⟩
  intro frame found
  obtain ⟨-, keys, -⟩ := frames 0 frame found
  constructor
  · exact (keys 8).mpr ⟨.binary .eq 7 2 3, by decide, rfl⟩
  · intro member
    obtain ⟨operation, declared, isValue⟩ : Sample.design.DeclaresValue 9 := (keys 9).mp member
    have bad : (⟨9, operation⟩ : Instruction) = ⟨9, .bad 8 (some "same")⟩ :=
      (Design.wellFormed_of_read Sample.read_source).unique declared (by decide) rfl
    cases bad
    cases isValue

end Engine

end BoundedCheck
