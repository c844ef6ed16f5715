import Mathlib
import BoundedCheck.Schedule
import BoundedCheck.Proofs.Mirroring
import BoundedCheck.Proofs.Refusals

/-!
# Designs with a counter

The line ids of a counter come after those of its design, so no instruction of the design refers to
it.  Its terms and its variable stand beside those of the design, and the checks of the design with
and without the counter take the same course.
-/

namespace BoundedCheck

open Enumerator

/-! ## Tables below a bound -/

/-- Two tables say the same about the line ids below a bound. -/
structure Tables.AgreeBelow (tables tables' : Tables BitSort) (bound : Nat) : Prop where
  sorts : ∀ lid < bound, tables'.sorts.get? lid = tables.sorts.get? lid
  varNames : ∀ lid < bound, tables'.varNames.get? lid = tables.varNames.get? lid
  nexts : ∀ lid < bound, tables'.nexts.get? lid = tables.nexts.get? lid

/-- An instruction has its line id and all references below a bound. -/
structure Instruction.Within (bound : Nat) (instruction : Instruction) : Prop where
  lid : instruction.lid < bound
  sorts : ∀ sort ∈ instruction.operation.sortReferences, sort < bound
  operands : ∀ operand ∈ instruction.operation.operands, operand < bound

namespace Tables

variable {tables tables' : Tables BitSort} {bound lid : Nat}

theorem AgreeBelow.sortOf (agree : tables.AgreeBelow tables' bound) (lid : Nat) {sort : Nat}
    (below : sort < bound) : tables'.sortOf lid sort = tables.sortOf lid sort := by
  rw [Tables.sortOf, Tables.sortOf, agree.sorts sort below]

theorem AgreeBelow.stepName (agree : tables.AgreeBelow tables' bound) (below : lid < bound)
    (step : Nat) : tables'.stepName lid step = tables.stepName lid step := by
  rw [Tables.stepName, Tables.stepName, agree.varNames lid below]

end Tables

/-! ## Frames side by side -/

namespace Frame

variable {places more : List Nat} {bound lid t t' : Nat} {frame frame' : Frame Nat}

/-- Below a bound, two frames have corresponding terms. -/
def Paired (places : List Nat) (bound : Nat) (frame frame' : Frame Nat) : Prop :=
  ∀ lid < bound, Option.Rel (Sends places) (frame.get? lid) (frame'.get? lid)

/-- Two frames list the same line ids with corresponding terms. -/
def Aligned (places : List Nat) (frame frame' : Frame Nat) : Prop :=
  List.Forall₂ (fun entry entry' => entry.1 = entry'.1 ∧ Sends places entry.2 entry'.2)
    frame.entries frame'.entries

theorem Paired.mono (paired : Paired places bound frame frame') (longer : places <+: more) :
    Paired more bound frame frame' := by
  intro lid below
  have related := paired lid below
  generalize frame.get? lid = left at related ⊢
  generalize frame'.get? lid = right at related ⊢
  cases related with
  | none => exact .none
  | some sent => exact .some (sent.mono longer)

theorem Paired.insert (paired : Paired places bound frame frame') (lid : Nat)
    (sent : Sends places t t') :
    Paired places bound (OrderedMap.insert frame lid t) (OrderedMap.insert frame' lid t') := by
  intro other below
  rw [OrderedMap.get?_insert, OrderedMap.get?_insert]
  split
  · exact .some sent
  · exact paired other below

theorem Paired.insert_beyond (paired : Paired places bound frame frame') (beyond : bound ≤ lid) :
    Paired places bound frame (OrderedMap.insert frame' lid t') := by
  intro other below
  have differ : ¬ other = lid := by omega
  simpa [OrderedMap.get?_insert, differ] using paired other below

theorem Aligned.mono (aligned : Aligned places frame frame') (longer : places <+: more) :
    Aligned more frame frame' :=
  List.Forall₂.imp (fun _ _ both => ⟨both.1, both.2.mono longer⟩) aligned

theorem Aligned.contains (aligned : Aligned places frame frame') (lid : Nat) :
    OrderedMap.contains frame' lid = OrderedMap.contains frame lid := by
  unfold Aligned at aligned
  unfold OrderedMap.contains OrderedMap.get?
  generalize frame.entries = entries at aligned ⊢
  generalize frame'.entries = entries' at aligned ⊢
  induction aligned with
  | nil => rfl
  | @cons entry entry' _ _ both _ ih =>
      obtain ⟨key, value⟩ := entry
      obtain ⟨key', value'⟩ := entry'
      obtain rfl : key = key' := both.1
      rw [List.lookup_cons, List.lookup_cons]
      split
      · rfl
      · exact ih

theorem Aligned.insert (aligned : Aligned places frame frame') (lid : Nat)
    (sent : Sends places t t') :
    Aligned places (OrderedMap.insert frame lid t) (OrderedMap.insert frame' lid t') := by
  unfold Aligned OrderedMap.insert
  rw [aligned.contains]
  split
  · refine List.forall₂_map_left_iff.mpr (List.forall₂_map_right_iff.mpr ?_)
    refine List.Forall₂.imp ?_ aligned
    intro entry entry' both
    rw [← both.1]
    split
    · exact ⟨rfl, sent⟩
    · exact both
  · exact List.rel_append aligned (.cons ⟨rfl, sent⟩ .nil)

theorem Aligned.values (aligned : Aligned places frame frame') :
    List.Forall₂ (Sends places) (OrderedMap.values frame) (OrderedMap.values frame') :=
  List.forall₂_map_left_iff.mpr
    (List.forall₂_map_right_iff.mpr (List.Forall₂.imp (fun _ _ both => both.2) aligned))

end Frame

/-- The frames of two steps under way, and what the larger ones hold for the counter. -/
structure StepFrames.Paired (places : List Nat) (start : Nat) (now coming : Option Nat)
    (frames frames' : StepFrames Nat) : Prop where
  current : Frame.Paired places start frames.current frames'.current
  next : Frame.Paired places start frames.next frames'.next
  bads : Frame.Aligned places frames.bads frames'.bads
  constraints : Frame.Aligned places frames.constraints frames'.constraints
  held : frames'.current.get? (start + 3) = now
  passed : frames'.next.get? (start + 3) = coming

/-! ## Instructions of the design -/

namespace StepFrames

variable {gap step start : Nat} {extra : Variable} {places : List Nat}
  {tables tables' : Tables BitSort} {frame frame' : Frame Nat} {frames frames' : StepFrames Nat}
  {now coming : Option Nat} {instruction : Instruction}

theorem Paired.mono (paired : Paired places start now coming frames frames') {more : List Nat}
    (longer : places <+: more) : Paired more start now coming frames frames' where
  current := paired.current.mono longer
  next := paired.next.mono longer
  bads := paired.bads.mono longer
  constraints := paired.constraints.mono longer
  held := paired.held
  passed := paired.passed

theorem mirrors_ofExcept {α : Type} (result : Except CheckError α) :
    Mirrors gap extra places (fun _ => Eq) (CheckM.ofExcept result : CheckM Enumerator α)
      (CheckM.ofExcept result) := by
  cases result with
  | ok a => exact mirrors_pure rfl
  | error error => exact mirrors_throw _

theorem mirrors_resolve (paired : Frame.Paired places start frame frame') (lid : Nat)
    {operand : Nat} (below : operand < start) :
    Mirrors gap extra places Sends (CheckM.ofExcept (frame.resolve lid operand))
      (CheckM.ofExcept (frame'.resolve lid operand)) := by
  have related := paired operand below
  unfold Frame.resolve
  generalize frame.get? operand = left at related ⊢
  generalize frame'.get? operand = right at related ⊢
  cases related with
  | none => exact mirrors_throw _
  | some sent => exact mirrors_pure sent

theorem mirrors_some {request request' : CheckM Enumerator Nat}
    (mirrors : Mirrors gap extra places Sends request request') :
    Mirrors gap extra places (fun more => Option.Rel (Sends more))
      (do return some (← request)) (do return some (← request')) :=
  mirrors.bind fun _ _ _ _ sent => mirrors_pure (.some sent)

section Values

variable (agree : tables.AgreeBelow tables' start)

include agree

theorem mirrors_freshVariable {lid sort : Nat} (own : lid < start) (below : sort < start)
    (named : ∃ name, tables.varNames.get? lid = some name ∧ Unbroken name) :
    Mirrors gap extra places Sends (freshVariable tables lid sort step : CheckM Enumerator Nat)
      (freshVariable tables' lid sort step) := by
  unfold freshVariable
  rw [agree.sortOf lid below, agree.stepName own]
  refine (mirrors_ofExcept _).bind ?_
  rintro more handle _ - rfl
  exact (mirrors_makeVariable (Tables.unbroken_stepName step named) handle).adaptExcept _

theorem mirrors_constant {sort : Nat} (lid value : Nat) (below : sort < start) :
    Mirrors gap extra places Sends (constant tables lid sort value : CheckM Enumerator Nat)
      (constant tables' lid sort value) := by
  unfold constant
  rw [agree.sortOf lid below]
  refine (mirrors_ofExcept _).bind ?_
  rintro more handle _ - rfl
  exact (mirrors_makeConstant value handle).adaptExcept _

/-- Both sides look up the sort of an operation before they evaluate it. -/
theorem mirrors_sorted {α β : Type} {R : List Nat → α → β → Prop} {next : CheckM Enumerator α}
    {next' : CheckM Enumerator β} {sort : Nat} (lid : Nat) (below : sort < start)
    (rest : ∀ more, places <+: more → Mirrors gap extra more R next next') :
    Mirrors gap extra places R (CheckM.ofExcept (tables.sortOf lid sort) >>= fun _ => next)
      (CheckM.ofExcept (tables'.sortOf lid sort) >>= fun _ => next') := by
  rw [agree.sortOf lid below]
  exact (mirrors_ofExcept _).bind fun more _ _ longer _ => rest more longer

/-- The instructions of the design have corresponding values. -/
theorem mirrors_value? {design : Design} (knows : tables.Knows design instruction)
    (within : instruction.Within start) (paired : Frame.Paired places start frame frame') :
    Mirrors gap extra places (fun more => Option.Rel (Sends more))
      (value? tables step frame instruction : CheckM Enumerator (Option Nat))
      (value? tables' step frame' instruction) := by
  obtain ⟨lid, operation⟩ := instruction
  obtain ⟨own, sorts, operands⟩ := within
  cases operation with
  | input sort name =>
      exact mirrors_some (mirrors_freshVariable agree own (sorts sort (.head _)) knows)
  | const sort value => exact mirrors_some (mirrors_constant agree lid value (sorts sort (.head _)))
  | zero sort => exact mirrors_some (mirrors_constant agree lid 0 (sorts sort (.head _)))
  | one sort => exact mirrors_some (mirrors_constant agree lid 1 (sorts sort (.head _)))
  | not sort operand =>
      refine mirrors_sorted agree lid (sorts sort (.head _)) fun more longer => ?_
      refine (mirrors_resolve (paired.mono longer) lid (operands operand (.head _))).bind ?_
      intro most a a' _ sent
      exact mirrors_some ((mirrors_not sent).adaptExcept _)
  | binary op sort left right =>
      refine mirrors_sorted agree lid (sorts sort (.head _)) fun more longer => ?_
      refine (mirrors_resolve (paired.mono longer) lid (operands left (.head _))).bind ?_
      intro most a a' longest first
      refine (mirrors_resolve (paired.mono (longer.trans longest)) lid
        (operands right (.tail _ (.head _)))).bind ?_
      intro last b b' latest second
      exact mirrors_some ((mirrors_binary op (first.mono latest) second).adaptExcept _)
  | ite sort condition onTrue onFalse =>
      refine mirrors_sorted agree lid (sorts sort (.head _)) fun more longer => ?_
      refine (mirrors_resolve (paired.mono longer) lid (operands condition (.head _))).bind ?_
      intro most c c' longest chosen
      have further := longer.trans longest
      refine (mirrors_resolve (paired.mono further) lid
        (operands onTrue (.tail _ (.head _)))).bind ?_
      intro last a a' latest first
      refine (mirrors_resolve (paired.mono (further.trans latest)) lid
        (operands onFalse (.tail _ (.tail _ (.head _))))).bind ?_
      intro final b b' ending second
      exact mirrors_some ((mirrors_ite (chosen.mono (latest.trans ending)) (first.mono ending)
        second).adaptExcept _)
  | uext sort operand bits name =>
      refine mirrors_sorted agree lid (sorts sort (.head _)) fun more longer => ?_
      refine (mirrors_resolve (paired.mono longer) lid (operands operand (.head _))).bind ?_
      intro most a a' _ sent
      exact mirrors_some ((mirrors_uext bits sent).adaptExcept _)
  | slice sort operand lowBit width =>
      refine mirrors_sorted agree lid (sorts sort (.head _)) fun more longer => ?_
      refine (mirrors_resolve (paired.mono longer) lid (operands operand (.head _))).bind ?_
      intro most a a' _ sent
      cases sliceUpper lowBit width with
      | error fault => exact mirrors_throw _
      | ok upper => exact mirrors_some ((mirrors_slice upper lowBit sent).adaptExcept _)
  | init | ones => exact mirrors_throw _
  | sort | state | output | next | constraint | bad => exact mirrors_pure .none

/-- One instruction of the design keeps the frames side by side. -/
theorem mirrors_evaluate {design : Design} (knows : tables.Knows design instruction)
    (within : instruction.Within start) (paired : Paired places start now coming frames frames') :
    Mirrors gap extra places (fun more => Paired more start now coming)
      (evaluate tables step frames instruction : CheckM Enumerator (StepFrames Nat))
      (evaluate tables' step frames' instruction) := by
  have value : Mirrors gap extra places (fun more => Option.Rel (Sends more))
      (value? tables step frames.current instruction : CheckM Enumerator (Option Nat))
      (value? tables' step frames'.current instruction) :=
    mirrors_value? agree knows within paired.current
  have own := within.lid
  have operands := within.operands
  obtain ⟨lid, operation⟩ := instruction
  have apart {other : Nat} (below : other < start) : ¬ start + 3 = other := by omega
  cases operation with
  | next sort target source =>
      have found : tables.nexts.get? lid = some target := knows
      have found' : tables'.nexts.get? lid = some target := (agree.nexts lid own).trans found
      simp only [evaluate, found, found']
      refine (mirrors_resolve paired.current lid (operands source (.tail _ (.head _)))).bind ?_
      intro more t t' longer sent
      have grown := paired.mono longer
      refine mirrors_pure { grown with next := grown.next.insert target sent, passed := ?_ }
      simpa [OrderedMap.get?_insert, apart (operands target (.head _))] using paired.passed
  | constraint condition name =>
      refine (mirrors_resolve paired.current lid (operands condition (.head _))).bind ?_
      intro more t t' longer sent
      have grown := paired.mono longer
      exact mirrors_pure { grown with constraints := grown.constraints.insert lid sent }
  | bad condition name =>
      refine (mirrors_resolve paired.current lid (operands condition (.head _))).bind ?_
      intro more t t' longer sent
      have grown := paired.mono longer
      exact mirrors_pure { grown with bads := grown.bads.insert lid sent }
  | _ =>
      refine value.bind ?_
      intro more result result' longer related
      have grown := paired.mono longer
      cases related with
      | none => exact mirrors_pure grown
      | some sent =>
          refine mirrors_pure { grown with current := grown.current.insert lid sent, held := ?_ }
          simpa [OrderedMap.get?_insert, apart own] using paired.held

theorem mirrors_evaluateAll {design rest : Design}
    (knows : ∀ instruction ∈ rest, tables.Knows design instruction)
    (within : ∀ instruction ∈ rest, instruction.Within start)
    (paired : Paired places start now coming frames frames') :
    Mirrors gap extra places (fun more => Paired more start now coming)
      (evaluateAll tables step rest frames : CheckM Enumerator (StepFrames Nat))
      (evaluateAll tables' step rest frames') := by
  induction rest generalizing places frames frames' with
  | nil => exact mirrors_pure paired
  | cons instruction rest ih =>
      refine (mirrors_evaluate agree (knows instruction (.head _)) (within instruction (.head _))
        paired).bind ?_
      intro more later later' _ related
      exact ih (fun other member => knows other (.tail _ member))
        (fun other member => within other (.tail _ member)) related

/-- Free states of the design are renewed on both sides. -/
theorem mirrors_renewAll {states : List (Nat × Nat)}
    (below : ∀ state ∈ states, state.1 < start ∧ state.2 < start)
    (named : ∀ state ∈ states, ∃ name, tables.varNames.get? state.1 = some name ∧ Unbroken name)
    (paired : Paired places start now coming frames frames') :
    Mirrors gap extra places (fun more => Paired more start now coming)
      (renewAll tables step states frames : CheckM Enumerator (StepFrames Nat))
      (renewAll tables' step states frames') := by
  induction states generalizing places frames frames' with
  | nil => exact mirrors_pure paired
  | cons state rest ih =>
      obtain ⟨lid, sort⟩ := state
      obtain ⟨own, sorted⟩ := below _ (.head _)
      have apart : ¬ start + 3 = lid := by
        have : lid < start := own
        omega
      refine (mirrors_freshVariable agree own sorted (named _ (.head _))).bind ?_
      intro more t t' longer sent
      have grown := paired.mono longer
      refine ih (fun other member => below other (.tail _ member))
        (fun other member => named other (.tail _ member))
        { grown with next := grown.next.insert lid sent, passed := ?_ }
      simpa [OrderedMap.get?_insert, apart] using paired.passed

end Values

/-! ## Instructions of the counter -/

variable {s s' : Enumerator}

theorem evaluate_const {lid sort : Nat} {handle : BitSort} (value : Nat)
    (sorted : tables.sortOf lid sort = .ok handle) :
    evaluate tables step frames ⟨lid, .const sort value⟩ s =
      .ok { frames with current := frames.current.insert lid s.terms.size }
        (s.add (.constant (value % Word.bound handle.width)) handle.width).2 := by
  simp only [evaluate, value?, constant, sorted]
  rfl

theorem evaluate_binary {lid sort left right a b : Nat} {handle : BitSort} (op : BinaryOp)
    (sorted : tables.sortOf lid sort = .ok handle)
    (first : frames.current.get? left = some a) (second : frames.current.get? right = some b)
    (insideA : a < s.terms.size) (insideB : b < s.terms.size) :
    evaluate tables step frames ⟨lid, .binary op sort left right⟩ s =
      .ok { frames with current := frames.current.insert lid s.terms.size }
        (s.add (.binary op a b)
          (Word.resultWidth op (widthOf s.terms a) (widthOf s.terms b))).2 := by
  generalize result : (s.add (.binary op a b)
    (Word.resultWidth op (widthOf s.terms a) (widthOf s.terms b))).2 = later
  have made : Enumerator.binary op a b s = .ok s.terms.size later := by
    simp only [Enumerator.binary, width_eq_ok insideA, width_eq_ok insideB, ← result]
    rfl
  have asked : (binaryOperator op a b : CheckM Enumerator Nat) s = .ok s.terms.size later :=
    CheckM.ofOperator_of_ok made
  have valued : value? tables step frames.current ⟨lid, .binary op sort left right⟩ s =
      .ok (some s.terms.size) later := by
    simp only [value?, sorted, Frame.resolve, first, second]
    exact CheckM.bind_of_ok asked
  exact CheckM.bind_of_ok valued

theorem evaluate_next {lid sort target source state t : Nat}
    (known : tables.nexts.get? lid = some state) (found : frames.current.get? source = some t) :
    evaluate tables step frames ⟨lid, .next sort target source⟩ s =
      .ok { frames with next := frames.next.insert state t } s := by
  simp only [evaluate, known, Frame.resolve, found]
  rfl

end StepFrames

/-- The tables know the sort of a counter and the state that it updates. -/
structure Tables.KnowsCounter (tables : Tables BitSort) (start : Nat) : Prop where
  sort : ∃ entry, tables.sorts.get? start = some entry
  next : tables.nexts.get? (start + 5) = some (start + 3)

namespace StepFrames

variable {gap step start c : Nat} {extra : Variable} {places : List Nat}
  {tables tables' : Tables BitSort} {frame frame' : Frame Nat} {frames frames' : StepFrames Nat}
  {now coming : Option Nat} {s s' : Enumerator}

theorem Paired.insert_beside
    (paired : Paired places start now coming frames frames') {lid : Nat} (beyond : start ≤ lid)
    (other : lid ≠ start + 3) (t : Nat) :
    Paired places start now coming frames
      { frames' with current := frames'.current.insert lid t } where
  current := paired.current.insert_beyond beyond
  next := paired.next
  bads := paired.bads
  constraints := paired.constraints
  held := by
    simpa [OrderedMap.get?_insert, Ne.symm other] using paired.held
  passed := paired.passed

/-- A constant of the counter. -/
theorem const_beside (embedded : Embedded gap extra places s s')
    (paired : Paired places start now coming frames frames') {lid : Nat} {handle : BitSort}
    (sorted : tables'.sortOf lid start = .ok handle) (beyond : start ≤ lid)
    (other : lid ≠ start + 3) (step value : Nat) :
    ∃ last later' t, evaluate tables' step frames' ⟨lid, .const start value⟩ s' = .ok last later' ∧
      Embedded gap extra places s later' ∧ Paired places start now coming frames last ∧
      Extends s'.terms later'.terms ∧ last.current.get? lid = some t ∧
      t < later'.terms.size ∧ widthOf later'.terms t = handle.width := by
  refine ⟨_, _, s'.terms.size, evaluate_const value sorted,
    embedded.add_beside handle.le (fun _ member => nomatch member),
    paired.insert_beside beyond other _, .push _ _, ?_, ?_, widthOf_push_size _ _⟩
  · simp [OrderedMap.get?_insert]
  · simp [Enumerator.add]

/-- The sum of two terms of the counter. -/
theorem sum_beside (embedded : Embedded gap extra places s s')
    (paired : Paired places start now coming frames frames') {lid left right a b : Nat}
    {handle : BitSort} (sorted : tables'.sortOf lid start = .ok handle) (beyond : start ≤ lid)
    (other : lid ≠ start + 3) (step : Nat) (first : frames'.current.get? left = some a)
    (second : frames'.current.get? right = some b) (insideA : a < s'.terms.size)
    (insideB : b < s'.terms.size) (fits : widthOf s'.terms a ≤ Word.maxWidth) :
    ∃ last later' t, evaluate tables' step frames' ⟨lid, .binary .add start left right⟩ s' =
        .ok last later' ∧
      Embedded gap extra places s later' ∧ Paired places start now coming frames last ∧
      last.current.get? lid = some t ∧ t < later'.terms.size := by
  refine ⟨_, _, s'.terms.size, evaluate_binary .add sorted first second insideA insideB,
    embedded.add_beside fits ?_, paired.insert_beside beyond other _, ?_, ?_⟩
  · intro child member
    rcases List.mem_pair.mp member with rfl | rfl
    · exact insideA
    · exact insideB
  · simp [OrderedMap.get?_insert]
  · simp [Enumerator.add]

/-- The counter is evaluated on the larger side only, and goes on with a new term. -/
theorem evaluateAll_counter (schedule : Schedule) (knows : tables'.KnowsCounter start)
    (embedded : Embedded gap extra places s s')
    (paired : Paired places start (some c) coming frames frames') (inside : c < s'.terms.size)
    (step : Nat) :
    ∃ last later', evaluateAll tables' step (schedule.counter start) frames' s' = .ok last later' ∧
      Embedded gap extra places s later' ∧
      ∃ t < later'.terms.size, Paired places start (some c) (some t) frames last := by
  obtain ⟨entry, registered⟩ := knows.sort
  have sorted (lid : Nat) : tables'.sortOf lid start = .ok entry.handle := by
    rw [Tables.sortOf, registered]
  obtain ⟨frames₁, s₁, -, zero, embedded₁, paired₁, grown₁, -⟩ :=
    const_beside embedded paired (sorted (start + 1)) (by omega) (by omega) step 0
  obtain ⟨frames₂, s₂, one, ranOne, embedded₂, paired₂, grown₂, foundOne, insideOne, widthOne⟩ :=
    const_beside embedded₁ paired₁ (sorted (start + 2)) (by omega) (by omega) step 1
  have inside₂ : c < s₂.terms.size :=
    Nat.lt_of_lt_of_le inside (Nat.le_trans grown₁.1 grown₂.1)
  obtain ⟨frames₃, s₃, sum, ranSum, embedded₃, paired₃, foundSum, insideSum⟩ :=
    sum_beside embedded₂ paired₂ (sorted (start + 4)) (by omega) (by omega) step foundOne
      paired₂.held insideOne inside₂ (widthOne ▸ entry.handle.le)
  have sortRan : evaluate tables' step frames' ⟨start, .sort (.bitVec schedule.counterWidth)⟩ s' =
      .ok frames' s' := rfl
  have stateRan : evaluate tables' step frames₂
      ⟨start + 3, .state start (some schedule.counterName)⟩ s₂ = .ok frames₂ s₂ := rfl
  refine ⟨{ frames₃ with next := frames₃.next.insert (start + 3) sum }, s₃, ?_, embedded₃, sum,
    insideSum, { paired₃ with next := paired₃.next.insert_beyond (by omega), passed := ?_ }⟩
  · simp only [Schedule.counter, evaluateAll]
    rw [CheckM.bind_of_ok sortRan, CheckM.bind_of_ok zero, CheckM.bind_of_ok ranOne,
      CheckM.bind_of_ok stateRan, CheckM.bind_of_ok ranSum]
    exact CheckM.bind_of_ok (evaluate_next knows.next foundSum)
  · simp [OrderedMap.get?_insert]

end StepFrames

/-! ## Steps -/

namespace Design

variable {design : Design} {instruction : Instruction}

theorem le_foldl_lid (design : Design) (least : Nat) :
    least ≤ design.foldl (fun greatest instruction => max greatest instruction.lid) least ∧
      ∀ instruction ∈ design, instruction.lid ≤
        design.foldl (fun greatest instruction => max greatest instruction.lid) least := by
  induction design generalizing least with
  | nil => exact ⟨Nat.le_refl least, fun _ member => nomatch member⟩
  | cons first rest ih =>
      obtain ⟨above, others⟩ := ih (max least first.lid)
      refine ⟨Nat.le_trans (Nat.le_max_left _ _) above, fun instruction member => ?_⟩
      rcases List.mem_cons.mp member with rfl | later
      · exact Nat.le_trans (Nat.le_max_right _ _) above
      · exact others instruction later

theorem lid_le_maxLid (member : instruction ∈ design) : instruction.lid ≤ design.maxLid :=
  (le_foldl_lid design 0).2 instruction member

/-- All references of a well-formed design lie below the line ids of its counter. -/
theorem WellFormed.within (wellFormed : design.WellFormed) (member : instruction ∈ design) :
    instruction.Within (design.maxLid + 1) := by
  obtain ⟨before, after, whole⟩ := List.append_of_mem member
  have formed := (whole ▸ wellFormed).at_place
  have below {earlier : Instruction} (inside : earlier ∈ before) :
      earlier.lid < design.maxLid + 1 :=
    Nat.lt_succ_of_le (lid_le_maxLid (by simp [whole, inside]))
  refine ⟨Nat.lt_succ_of_le (lid_le_maxLid member), fun sort mentioned => ?_,
    fun operand mentioned => ?_⟩
  · obtain ⟨kind, declared⟩ := formed.resolved.sorts sort mentioned
    exact below declared
  · obtain ⟨operation, declared, -⟩ := formed.resolved.operands operand mentioned
    exact below declared

variable {start : Nat}

theorem state_below (within : ∀ instruction ∈ design, instruction.Within start)
    {state : Nat × Nat} (member : state ∈ design.states) : state.1 < start ∧ state.2 < start := by
  obtain ⟨⟨lid, operation⟩, inside, found⟩ := List.mem_filterMap.mp member
  have limits := within _ inside
  cases operation with
  | state sort name =>
      cases found
      exact ⟨limits.lid, limits.sorts sort (.head _)⟩
  | _ => cases found

theorem state_named {tables : Tables BitSort}
    (knows : ∀ instruction ∈ design, tables.Knows design instruction) {state : Nat × Nat}
    (member : state ∈ design.states) :
    ∃ name, tables.varNames.get? state.1 = some name ∧ Unbroken name := by
  obtain ⟨⟨lid, operation⟩, inside, found⟩ := List.mem_filterMap.mp member
  have known := knows _ inside
  cases operation with
  | state sort name =>
      cases found
      exact known
  | _ => cases found

/-- The counter is updated in each step, so it is not a free state. -/
theorem freeStates_counter (within : ∀ instruction ∈ design, instruction.Within start)
    (schedule : Schedule) : freeStates (design ++ schedule.counter start) = design.freeStates := by
  have states : Design.states (design ++ schedule.counter start) =
      design.states ++ [(start + 3, start)] := List.filterMap_append
  have updated : Design.updated (design ++ schedule.counter start) =
      design.updated ++ [start + 3] := List.filterMap_append
  unfold freeStates
  rw [states, updated, List.filter_append]
  have last : [(start + 3, start)].filter (fun state =>
      !(design.updated ++ [start + 3]).contains state.1) = [] := by simp
  rw [last, List.append_nil]
  refine List.filter_congr fun state member => ?_
  have below := (state_below within member).1
  have differ : ¬ state.1 = start + 3 := by omega
  simp [differ]

end Design

namespace StepFrames

variable {gap start c : Nat} {extra : Variable} {places : List Nat}
  {tables tables' : Tables BitSort} {frame frame' : Frame Nat} {design : Design} {s s' : Enumerator}

/-- A step keeps the frames side by side, and the counter has a term for the next step. -/
theorem agree_run (schedule : Schedule) (agree : tables.AgreeBelow tables' start)
    (knows : ∀ instruction ∈ design, tables.Knows design instruction)
    (within : ∀ instruction ∈ design, instruction.Within start)
    (counter : tables'.KnowsCounter start) (embedded : Embedded gap extra places s s')
    (paired : Frame.Paired places start frame frame') (held : frame'.get? (start + 3) = some c)
    (inside : c < s'.terms.size) (step : Nat) :
    Agree (fun frames frames' later later' => ∃ more t, places <+: more ∧
        Embedded gap extra more later later' ∧ t < later'.terms.size ∧
        Paired more start (some c) (some t) frames frames')
      (run tables design step frame s)
      (run tables' (design ++ schedule.counter start) step frame' s') := by
  have initial : Paired places start (some c) none { current := frame } { current := frame' } :=
    ⟨paired, fun _ _ => .none, .nil, .nil, held, rfl⟩
  unfold run
  rw [evaluateAll_append, bind_assoc, Design.freeStates_counter within]
  -- the design on both sides, then the counter on one, then the free states on both
  refine (mirrors_evaluateAll agree knows within initial embedded).bind ?_
  rintro frames frames' later later' ⟨grown, more, longer, embeddedMore, related⟩
  obtain ⟨last, final, ran, embeddedLast, t, insideT, pairedLast⟩ :=
    evaluateAll_counter schedule counter embeddedMore related
      (Nat.lt_of_lt_of_le inside grown.1) step
  rw [CheckM.bind_of_ok ran]
  have below : ∀ state ∈ design.freeStates, state.1 < start ∧ state.2 < start :=
    fun state member => Design.state_below within (List.mem_of_mem_filter member)
  have named : ∀ state ∈ design.freeStates,
      ∃ name, tables.varNames.get? state.1 = some name ∧ Unbroken name :=
    fun state member => Design.state_named knows (List.mem_of_mem_filter member)
  refine (mirrors_renewAll agree below named pairedLast embeddedLast).mono ?_
  rintro ended ended' solver solver' ⟨further, most, longest, embeddedMost, pairedMost⟩
  exact ⟨most, t, longer.trans longest, embeddedMost, Nat.lt_of_lt_of_le insideT further.1,
    pairedMost⟩

end StepFrames

/-! ## Engines -/

/-- A variable that a check can make for the counter of a schedule. -/
def Schedule.IsCounter (schedule : Schedule) (start : Nat) (var : Variable) : Prop :=
  var.width = schedule.counterWidth ∧
    (var.name = s!"{schedule.counterName}_1" ∨ var.name = s!"{schedule.counterName}@{start + 3}_1")

/-- Verdicts that differ in the models only, by the row of the counter. -/
def Verdict.Corresponds (schedule : Schedule) (start states : Nat) (verdict verdict' : Verdict) :
    Prop :=
  ∃ counter, schedule.IsCounter start counter ∧ Verdict.Matches states counter verdict verdict'

namespace Engine

variable {schedule : Schedule} {design : Design} {start : Nat} {extra : Variable}
  {places : List Nat} {engine engine' : Engine Enumerator BitSort Nat}

/-- An engine of a design has the terms and frames of an engine of the design and its counter. -/
structure Abreast (schedule : Schedule) (design : Design) (start : Nat) (extra : Variable)
    (places : List Nat) (engine engine' : Engine Enumerator BitSort Nat) : Prop where
  same : engine.design = design
  same' : engine'.design = design ++ schedule.counter start
  isCounter : schedule.IsCounter start extra
  embedded : Embedded design.states.length extra places engine.solver engine'.solver
  knows : ∀ instruction ∈ design, engine.tables.Knows design instruction
  agree : engine.tables.AgreeBelow engine'.tables start
  counter : engine'.tables.KnowsCounter start
  size : engine'.states.size = engine.states.size
  prepared : 0 < engine.states.size
  last : Frame.Paired places start (engine.states.back?.getD {}) (engine'.states.back?.getD {})
  held : ∃ t < engine'.solver.terms.size,
    (engine'.states.back?.getD {}).get? (start + 3) = some t
  asked : Frame.Aligned places (engine.bads.back?.getD {}) (engine'.bads.back?.getD {})
  under : List.Forall₂ (Sends places) engine.allConstraints engine'.allConstraints

/-- Two engines are in step with each other, whatever the places of the terms. -/
def InStep (schedule : Schedule) (design : Design) (start : Nat)
    (engine engine' : Engine Enumerator BitSort Nat) : Prop :=
  ∃ extra places, Abreast schedule design start extra places engine engine'

theorem allConstraints_push (engine : Engine Enumerator BitSort Nat) (frame : Frame Nat) :
    (engine.constraints.push frame).toList.flatMap OrderedMap.values =
      engine.allConstraints ++ OrderedMap.values frame := by
  rw [Array.toList_push, List.flatMap_append, List.flatMap_singleton]
  rfl

theorem Abreast.advance (abreast : Abreast schedule design start extra places engine engine')
    (within : ∀ instruction ∈ design, instruction.Within start) :
    Agree (fun number number' later later' =>
        number = number' ∧ InStep schedule design start later later')
      (Engine.advance engine) (Engine.advance engine') := by
  obtain ⟨c, inside, held⟩ := abreast.held
  have ran := StepFrames.agree_run schedule abreast.agree abreast.knows within abreast.counter
    abreast.embedded abreast.last held inside engine.states.size
  simp only [Engine.advance, abreast.same, abreast.same', abreast.size]
  generalize StepFrames.run engine.tables design engine.states.size
    (engine.states.back?.getD {}) engine.solver = left at ran ⊢
  generalize StepFrames.run engine'.tables (design ++ schedule.counter start) engine.states.size
    (engine'.states.back?.getD {}) engine'.solver = right at ran ⊢
  cases ran with
  | error => exact .error
  | @ok frames frames' solver solver' related =>
      obtain ⟨more, t, longer, embedded, below, paired⟩ := related
      refine .ok ⟨rfl, extra, more, rfl, rfl, abreast.isCounter, embedded, abreast.knows,
        abreast.agree, abreast.counter, ?_, ?_, ?_, ⟨t, below, ?_⟩, ?_, ?_⟩
      · simp [abreast.size]
      · simp
      · simpa using paired.next
      · simpa using paired.passed
      · simpa using paired.bads
      · rw [allConstraints, allConstraints, allConstraints_push, allConstraints_push]
        exact List.rel_append (abreast.under.imp fun _ _ => Sends.mono longer)
          paired.constraints.values

theorem InStep.execute (inStep : InStep schedule design start engine engine')
    (within : ∀ instruction ∈ design, instruction.Within start) :
    Agree (fun number number' later later' =>
        number = number' ∧ InStep schedule design start later later')
      (Engine.execute engine) (Engine.execute engine') := by
  obtain ⟨extra, places, abreast⟩ := inStep
  have nonempty (e : Engine Enumerator BitSort Nat) (some : 0 < e.states.size) :
      e.states.isEmpty = false := by
    rw [Array.isEmpty_eq_false_iff]
    exact Array.ne_empty_of_size_pos some
  rw [execute_of_prepared (nonempty engine abreast.prepared),
    execute_of_prepared (nonempty engine' (abreast.size ▸ abreast.prepared))]
  exact abreast.advance within

theorem InStep.askLast (inStep : InStep schedule design start engine engine') (step : Nat) :
    Agree (fun verdict verdict' later later' =>
        Option.Rel (Verdict.Corresponds schedule start design.states.length) verdict verdict' ∧
        InStep schedule design start later later')
      (Engine.askLast step engine) (Engine.askLast step engine') := by
  obtain ⟨extra, places, abreast⟩ := inStep
  have answered : Agree _ (queryAll step engine.allConstraints engine.lastBads engine.solver)
      (queryAll step engine'.allConstraints engine'.lastBads engine'.solver) :=
    mirrors_queryAll step abreast.under abreast.asked abreast.embedded
  unfold Engine.askLast
  generalize queryAll step engine.allConstraints engine.lastBads engine.solver = left
    at answered ⊢
  generalize queryAll step engine'.allConstraints engine'.lastBads engine'.solver = right
    at answered ⊢
  cases answered with
  | error => exact .error
  | ok related =>
      obtain ⟨grown, more, longer, embedded, matched⟩ := related
      obtain ⟨t, below, held⟩ := abreast.held
      refine .ok ⟨?_, extra, more, { abreast with
        embedded := embedded
        last := abreast.last.mono longer
        held := ⟨t, Nat.lt_of_lt_of_le below grown.1, held⟩
        asked := abreast.asked.mono longer
        under := abreast.under.imp fun _ _ => Sends.mono longer }⟩
      cases matched with
      | none => exact .none
      | some same => exact .some ⟨extra, abreast.isCounter, same⟩

/-- If two engines come into step by their next step, they come to the same verdict. -/
theorem agree_explore (within : ∀ instruction ∈ design, instruction.Within start)
    (executed : Agree (fun number number' later later' =>
        number = number' ∧ InStep schedule design start later later')
      (Engine.execute engine) (Engine.execute engine')) (remaining : Nat) :
    Agree (fun verdict verdict' _ _ =>
        Option.Rel (Verdict.Corresponds schedule start design.states.length) verdict verdict')
      (Engine.explore remaining engine) (Engine.explore remaining engine') := by
  -- the hypothesis is about one step only, so it also covers engines that are not prepared yet
  induction remaining generalizing engine engine' with
  | zero => exact .ok .none
  | succ remaining ih =>
      refine executed.bind ?_
      rintro step _ later later' ⟨rfl, inStep⟩
      refine (inStep.askLast step).bind ?_
      rintro verdict verdict' last last' ⟨corresponding, stillInStep⟩
      cases corresponding with
      | some same => exact .ok (.some same)
      | none => exact ih (stillInStep.execute within)

theorem agree_bmc (within : ∀ instruction ∈ design, instruction.Within start)
    (executed : Agree (fun number number' later later' =>
        number = number' ∧ InStep schedule design start later later')
      (Engine.execute engine) (Engine.execute engine')) (depth : Nat) :
    Agree (fun verdict verdict' _ _ =>
        Verdict.Corresponds schedule start design.states.length verdict verdict')
      (Engine.bmc depth engine) (Engine.bmc depth engine') := by
  refine (agree_explore within executed depth).bind ?_
  rintro verdict verdict' last last' corresponding
  cases corresponding with
  | some same => exact .ok same
  | none => exact .ok ⟨⟨_, _⟩, ⟨rfl, .inl rfl⟩, .safe depth⟩

end Engine

/-! ## Preparation -/

theorem Schedule.counterWidth_le {schedule : Schedule} (few : schedule.steps < wideBound) :
    schedule.counterWidth ≤ Word.maxWidth := by
  have bounded : schedule.steps - 1 < 2 ^ 64 :=
    Nat.lt_of_le_of_lt (Nat.sub_le _ _) few
  unfold Schedule.counterWidth
  rcases Nat.eq_zero_or_pos (schedule.steps - 1) with zero | positive
  · rw [zero]
    decide
  · exact (Nat.log2_lt (Nat.ne_of_gt positive)).mpr bounded

/-- The sort of a counter. -/
def Schedule.counterSort (schedule : Schedule) (fits : schedule.counterWidth ≤ Word.maxWidth) :
    BitSort :=
  ⟨schedule.counterWidth, Nat.succ_pos _, fits⟩

namespace Tables

variable (tables : Tables BitSort) (schedule : Schedule) (start : Nat)

/-- The tables with the sort of a counter and its name. -/
def withName (handle : BitSort) : Tables BitSort :=
  Tables.bindName { tables with
    sorts := tables.sorts.insert start ⟨schedule.counterWidth, handle⟩ } (start + 3)
    schedule.counterName

/-- The tables with all that a counter enters. -/
def withCounter (handle : BitSort) : Tables BitSort :=
  { tables.withName schedule start handle with
    nexts := tables.nexts.insert (start + 5) (start + 3) }

theorem agreeBelow_withCounter (handle : BitSort) :
    tables.AgreeBelow (tables.withCounter schedule start handle) start := by
  refine ⟨fun lid below => ?_, fun lid below => ?_, fun lid below => ?_⟩
  · have differ : ¬ lid = start := by omega
    simp [withCounter, withName, bindName, OrderedMap.get?_insert, differ]
  · have differ : ¬ lid = start + 3 := by omega
    simp [withCounter, withName, bindName, OrderedMap.get?_insert, differ]
  · have differ : ¬ lid = start + 5 := by omega
    simp [withCounter, OrderedMap.get?_insert, differ]

theorem knowsCounter_withCounter (handle : BitSort) :
    (tables.withCounter schedule start handle).KnowsCounter start where
  sort := ⟨⟨schedule.counterWidth, handle⟩, by
    simp [withCounter, withName, bindName, OrderedMap.get?_insert]⟩
  next := by
    simp [withCounter, OrderedMap.get?_insert]

theorem isCounter_withName (handle : BitSort) :
    schedule.IsCounter start
      ⟨(tables.withName schedule start handle).stepName (start + 3) 1, schedule.counterWidth⟩ := by
  have found : (tables.withName schedule start handle).varNames.get? (start + 3) =
      some (if tables.names.contains schedule.counterName then
        s!"{schedule.counterName}@{start + 3}" else schedule.counterName) := by
    simp [withName, bindName, OrderedMap.get?_insert]
  have suffix (base : String) : base ++ "_" ++ toString 1 = base ++ "_1" := String.append_assoc
  refine ⟨rfl, ?_⟩
  rw [stepName, found]
  split
  · exact Or.inr (suffix _)
  · exact Or.inl (suffix _)

end Tables

namespace Preparation

variable {p : Preparation Enumerator BitSort Nat} {start : Nat}

/-- A counter with a new sort can be registered, and makes one variable. -/
theorem registerAll_counter (schedule : Schedule) (fits : schedule.counterWidth ≤ Word.maxWidth)
    (new : p.tables.sorts.contains start = false) :
    ∃ handle counter, schedule.IsCounter start counter ∧
      registerAll (schedule.counter start) p = .ok () {
        solver := (Enumerator.add (.var p.solver.vars.size) counter.width
          { p.solver with vars := p.solver.vars.push counter }).2
        tables := p.tables.withCounter schedule start handle
        seed := p.seed.insert (start + 3) p.solver.terms.size } := by
  have sorted : (p.tables.withName schedule start (schedule.counterSort fits)).sortOf
      (start + 3) start = .ok (schedule.counterSort fits) := by
    simp [Tables.sortOf, Tables.withName, Tables.bindName, OrderedMap.get?_insert]
  have sortRan : register ⟨start, .sort (.bitVec schedule.counterWidth)⟩ p =
      .ok () { p with tables := { p.tables with
        sorts := p.tables.sorts.insert start ⟨_, schedule.counterSort fits⟩ } } :=
    registerSort_of_new new (Nat.succ_pos _) fits
  have stateRan : seedState (start + 3) start { p with
      tables := p.tables.withName schedule start (schedule.counterSort fits) } = .ok () _ :=
    seedState_of_ok sorted rfl
  refine ⟨schedule.counterSort fits, _,
    p.tables.isCounter_withName schedule start (schedule.counterSort fits), ?_⟩
  simp only [Schedule.counter, registerAll]
  rw [CheckM.bind_of_ok sortRan]
  -- the constants and the sum enter nothing
  exact CheckM.bind_of_ok stateRan

end Preparation

/-- What a pass over a well-formed design leaves behind, if it succeeds. -/
structure Preparation.Passed (design : Design) (p : Preparation Enumerator BitSort Nat) : Prop where
  valid : Valid p.solver
  idle : p.solver.Idle
  states : p.solver.vars.size = design.states.length
  covers : p.tables.Covers design design
  named : ∀ var ∈ p.solver.vars, Unbroken var.name
  inside : ∀ lid t, p.seed.get? lid = some t → t < p.solver.terms.size

variable {design : Design}

theorem Preparation.passed_of_registerAll (wellFormed : design.WellFormed) {limit : Nat}
    {p : Preparation Enumerator BitSort Nat}
    (ran : registerAll design ⟨{ freeBitLimit := limit }, {}, {}⟩ = .ok () p) :
    Passed design p := by
  have whole : Design.WellFormed ([] ++ design) := wellFormed
  have words : design.Words :=
    sorts_of_registerAll whole (fun lid present => by cases present) ran
  have setting : design.Setting 0 (Enumerator.vars { freeBitLimit := limit }).size (fun _ => 0)
      (fun _ _ => 0) := Design.setting_zero wellFormed words 0 _
  obtain ⟨p', ran', grown, covers, seeded⟩ := registerAll_of_setting setting
  obtain rfl : p = p' := by
    rw [ran] at ran'
    cases ran'
    rfl
  have rest := grown.rest
  refine ⟨grown.valid (Reachable.valid .start), ?_, ?_, covers, ?_, seeded.inside⟩
  · rw [rest]
    exact ⟨rfl, rfl, rfl⟩
  · rw [seeded.made.size]
    simp [Design.origins]
  · intro var member
    rw [← Array.mem_toList_iff, seeded.made] at member
    obtain ⟨origin, first, rfl⟩ := List.mem_map.mp (List.nil_append _ ▸ member)
    obtain ⟨state, isState, rfl⟩ := List.mem_map.mp first
    exact Tables.unbroken_stepName _ (Design.state_named covers.knows isState)

namespace Engine

theorem paired_self {frame : Frame Nat} {size : Nat} (start : Nat)
    (inside : ∀ lid t, frame.get? lid = some t → t < size) :
    Frame.Paired (List.range size) start frame frame := by
  intro lid _
  cases found : frame.get? lid with
  | none => exact .none
  | some t => exact .some (Embedded.sends_range (inside lid t found))

/-- Preparing a design with its counter fails as preparing the design does, or both get in step. -/
theorem agree_prepare (wellFormed : design.WellFormed) (schedule : Schedule)
    (fits : schedule.counterWidth ≤ Word.maxWidth) (limit : Nat) :
    Agree (fun _ _ later later' => InStep schedule design (design.maxLid + 1) later later')
      (prepare (Engine.fresh limit design))
      (prepare (Engine.fresh limit (design ++ schedule.counter (design.maxLid + 1)))) := by
  have empty (design : Design) : (Engine.fresh limit design).states.isEmpty = true := rfl
  unfold prepare
  rw [if_pos (empty _), if_pos (empty _)]
  simp only [Engine.fresh, Preparation.registerAll_append]
  generalize ran : Preparation.registerAll design
    (⟨{ freeBitLimit := limit }, {}, {}⟩ : Preparation Enumerator BitSort Nat) = result
  cases result with
  | error stop p =>
      -- the counter is never reached
      rw [CheckM.bind_of_error ran]
      exact .error
  | ok _ p =>
      have passed := Preparation.passed_of_registerAll wellFormed ran
      have new : p.tables.sorts.contains (design.maxLid + 1) = false := by
        rw [Bool.eq_false_iff]
        intro present
        obtain ⟨earlier, member, same⟩ := passed.covers.fresh _ present
        exact absurd same (Nat.ne_of_lt (Nat.lt_succ_of_le (Design.lid_le_maxLid member)))
      obtain ⟨handle, counter, isCounter, added⟩ :=
        Preparation.registerAll_counter schedule fits new
      rw [CheckM.bind_of_ok ran, added]
      refine .ok ⟨counter, List.range p.solver.terms.size, rfl, rfl, isCounter, ?_,
        passed.covers.knows, p.tables.agreeBelow_withCounter schedule _ handle,
        p.tables.knowsCounter_withCounter schedule _ handle, rfl, Nat.one_pos, ?_, ?_, .nil, .nil⟩
      · rw [← passed.states]
        exact .of_variable passed.valid passed.idle passed.named (isCounter.1 ▸ fits)
      · exact (paired_self _ passed.inside).insert_beyond (by omega)
      · refine ⟨p.solver.terms.size, ?_, ?_⟩
        · simp [Enumerator.add]
        · simp [OrderedMap.get?_insert]

/-- The first steps of a design and of the design with its counter. -/
theorem agree_execute (wellFormed : design.WellFormed) (schedule : Schedule)
    (fits : schedule.counterWidth ≤ Word.maxWidth) (limit : Nat) :
    Agree (fun number number' later later' =>
        number = number' ∧ InStep schedule design (design.maxLid + 1) later later')
      (execute (Engine.fresh limit design))
      (execute (Engine.fresh limit (design ++ schedule.counter (design.maxLid + 1)))) := by
  have unfolded (design : Design) : execute (Engine.fresh limit design) =
      (prepare >>= fun _ => advance) (Engine.fresh limit design) := rfl
  rw [unfolded, unfolded]
  refine (agree_prepare wellFormed schedule fits limit).bind ?_
  rintro _ _ later later' ⟨counter, places, abreast⟩
  exact abreast.advance fun instruction member => wellFormed.within member

end Engine

/-! ## Checks -/

/--
A counter can be added to every design that was read, if its line ids do not run out, and the check
then ends as it does without the counter: with the same error, as safe to the same depth, or with
the same bad condition violated at the same step.  The model is that of the design with one row put
in after the states, in which the counter is zero.
-/
theorem check_splice {source : String} {design : Design}
    (accepted : Design.read source = .ok design) (room : design.maxLid + 7 ≤ wideBound)
    {schedule : Schedule} (few : schedule.steps < wideBound) (settings : Settings) :
    ∃ spliced, schedule.splice design = .ok spliced ∧
      Alike (Verdict.Corresponds schedule (design.maxLid + 1) design.states.length)
        (check settings design) (check settings spliced) := by
  have wellFormed := Design.wellFormed_of_read accepted
  have numbered : schedule.splice design =
      .ok (design ++ schedule.counter (design.maxLid + 1)) := by
    have inRange : design.maxLid + 1 + 5 < wideBound := by omega
    simp only [Schedule.splice, Schedule.counterFor, Schedule.counterFrom, if_pos inRange]
  refine ⟨_, numbered, ?_⟩
  unfold check
  cases settings.solver with
  | z3 => exact .error
  | exhaustive =>
      have checked := Engine.agree_bmc (fun instruction member => wellFormed.within member)
        (Engine.agree_execute wellFormed schedule (Schedule.counterWidth_le few)
          settings.freeBitLimit) settings.depth
      simp only
      generalize Engine.bmc settings.depth (Engine.fresh settings.freeBitLimit design) = left
        at checked ⊢
      generalize Engine.bmc settings.depth (Engine.fresh settings.freeBitLimit
        (design ++ schedule.counter (design.maxLid + 1))) = right at checked ⊢
      cases checked with
      | ok corresponding => exact .ok corresponding
      | error => exact .error

/-- The sample with a counter whose name is that of one of its states. -/
theorem check_splice_sample :
    Design.read Sample.source = .ok Sample.design ∧ Sample.design.maxLid + 7 ≤ wideBound ∧
      5 < wideBound ∧
      ∃ spliced, Schedule.splice { counterName := "s", steps := 5 } Sample.design = .ok spliced ∧
        Alike (Verdict.Corresponds { counterName := "s", steps := 5 } 14 2)
          (check { depth := 2, solver := .exhaustive } Sample.design)
          (check { depth := 2, solver := .exhaustive } spliced) := by
  have room : Sample.design.maxLid + 7 ≤ wideBound := by decide
  have few : 5 < wideBound := by decide
  exact ⟨Sample.read_source, room, few, check_splice Sample.read_source room few _⟩

end BoundedCheck
