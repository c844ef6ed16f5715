import Mathlib
import BoundedCheck.Answer
import BoundedCheck.Proofs.Printing
import BoundedCheck.Proofs.Splicing

/-!
# Emitted designs

A design with its counter is well formed, so what is printed for it is read back as it is.  A check
of the printed text and a check with the schedule then take the same course.
-/

namespace BoundedCheck

/-! ## Counters behind a design -/

namespace Scope

open Reader

variable {scope : Scope} {start width next lid : Nat}

/-- A scope takes one more instruction if that is acceptable and its widths agree. -/
theorem wellFormed_cons (wellFormed : Design.WellFormed scope.reverse) {instruction : Instruction}
    (acceptable : Acceptable scope.reverse instruction)
    (agree : instruction.operation.WidthsAgree scope.reverse) :
    Design.WellFormed (List.reverse (instruction :: scope)) := by
  rw [List.reverse_cons]
  exact .snoc wellFormed ⟨acceptable.positive, acceptable.inRange, acceptable.increasing,
    acceptable.admissible.resolved, acceptable.admissible.literals, acceptable.admissible.symbol,
    agree⟩

theorem below_cons (below : ∀ other ∈ scope, other.lid < next) (operation : Operation) :
    ∀ other ∈ (⟨next, operation⟩ : Instruction) :: scope, other.lid < next + 1 := by
  intro other member
  rcases List.mem_cons.mp member with rfl | earlier
  · exact Nat.lt_succ_self _
  · exact Nat.lt_succ_of_lt (below other earlier)

/-- A line id names a value of a sort. -/
def Holds (scope : Scope) (sort lid : Nat) : Prop :=
  ∃ operation, ⟨lid, operation⟩ ∈ scope ∧ operation.isValue = true ∧ operation.sort? = some sort

theorem holds_cons_self {operation : Operation} (isValue : operation.isValue = true)
    (sorted : operation.sort? = some start) : Holds (⟨lid, operation⟩ :: scope) start lid :=
  ⟨operation, List.mem_cons_self, isValue, sorted⟩

theorem Holds.cons (holds : scope.Holds start lid) (instruction : Instruction) :
    Holds (instruction :: scope) start lid := by
  obtain ⟨operation, member, isValue, sorted⟩ := holds
  exact ⟨operation, List.mem_cons_of_mem _ member, isValue, sorted⟩

theorem Holds.isValue (holds : scope.Holds start lid) :
    ∃ operation, ⟨lid, operation⟩ ∈ scope ∧ operation.isValue = true := by
  obtain ⟨operation, member, isValue, -⟩ := holds
  exact ⟨operation, member, isValue⟩

/-- A scope with the sort of a counter, and the line id that comes next. -/
structure Counting (scope : Scope) (start width next : Nat) : Prop where
  wellFormed : Design.WellFormed scope.reverse
  below : ∀ other ∈ scope, other.lid < next
  sorted : ⟨start, .sort (.bitVec width)⟩ ∈ scope

namespace Counting

theorem cons (counting : scope.Counting start width next) (operation : Operation)
    (inRange : next < wideBound) (admissible : Admissible scope.reverse operation)
    (agree : operation.WidthsAgree scope.reverse) :
    Counting (⟨next, operation⟩ :: scope) start width (next + 1) where
  wellFormed := by
    refine wellFormed_cons counting.wellFormed ⟨?_, inRange, ?_, admissible⟩ agree
    · exact Nat.zero_lt_of_lt (counting.below _ counting.sorted)
    · intro other member
      exact counting.below other (List.mem_reverse.mp member)
  below := below_cons counting.below operation
  sorted := List.mem_cons_of_mem _ counting.sorted

theorem declared (counting : scope.Counting start width next) :
    Design.DeclaresWidth scope.reverse start width :=
  List.mem_reverse.mpr counting.sorted

theorem sortWidth (counting : scope.Counting start width next) {other : Nat}
    (declared : Design.DeclaresWidth scope.reverse start other) : other = width := by
  rw [← Design.sortWidth_eq counting.wellFormed declared]
  exact Design.sortWidth_eq counting.wellFormed counting.declared

theorem valueWidth (counting : scope.Counting start width next) (holds : scope.Holds start lid)
    {other : Nat} (known : Design.HasWidth scope.reverse lid other) : other = width := by
  obtain ⟨operation, member, -, sorted⟩ := holds
  obtain ⟨found, sort, inside, -, foundSorted, declared⟩ := known
  have same := counting.wellFormed.unique inside (List.mem_reverse.mpr member) rfl
  cases same
  rw [sorted] at foundSorted
  cases foundSorted
  exact counting.sortWidth declared

/-- The sort of the counter resolves for every operation that names it and no other. -/
theorem sort_resolved (counting : scope.Counting start width next) {operation : Operation}
    (references : operation.sortReferences = [start]) :
    ∀ sort ∈ operation.sortReferences, ∃ kind, ⟨sort, .sort kind⟩ ∈ scope := by
  rw [references]
  intro sort member
  rw [List.mem_singleton.mp member]
  exact ⟨_, counting.sorted⟩

/-- A constant of the counter's sort. -/
theorem const (counting : scope.Counting start width next) (value : Nat)
    (inRange : next < wideBound) (fits : value < wideBound ∧ value < 1 <<< width) :
    Counting (⟨next, .const start value⟩ :: scope) start width (next + 1) := by
  refine counting.cons _ inRange ⟨?_, ⟨fits.1, width, counting.declared, fits.2⟩, ?_⟩ trivial
  · exact resolved_of_scope (counting.sort_resolved rfl) (by simp [Operation.target?])
      (by simp [Operation.operands])
  · exact symbolFits_of_none rfl

/-- A state of the counter's sort. -/
theorem state (counting : scope.Counting start width next) (inRange : next < wideBound)
    {name : String} (isWord : IsWord name) :
    Counting (⟨next, .state start (some name)⟩ :: scope) start width (next + 1) := by
  refine counting.cons _ inRange ⟨?_, trivial, ?_⟩ trivial
  · exact resolved_of_scope (counting.sort_resolved rfl) (by simp [Operation.target?])
      (by simp [Operation.operands])
  · rintro _ ⟨⟩
    exact isWord

/-- A sum of two values of the counter's sort. -/
theorem sum (counting : scope.Counting start width next) (inRange : next < wideBound)
    {left right : Nat} (leftHolds : scope.Holds start left) (rightHolds : scope.Holds start right) :
    Counting (⟨next, .binary .add start left right⟩ :: scope) start width (next + 1) := by
  refine counting.cons _ inRange ⟨?_, trivial, symbolFits_of_none rfl⟩ ?_
  · refine resolved_of_scope (counting.sort_resolved rfl) (by simp [Operation.target?]) ?_
    simpa [Operation.operands] using ⟨leftHolds.isValue, rightHolds.isValue⟩
  · refine ⟨fun l r leftKnown rightKnown => ?_, fun l result leftKnown declared => ?_⟩
    · rw [counting.valueWidth leftHolds leftKnown, counting.valueWidth rightHolds rightKnown]
    · rw [counting.valueWidth leftHolds leftKnown, counting.sortWidth declared]

/-- The next value of a state of the counter's sort. -/
theorem next_state (counting : scope.Counting start width next) (inRange : next < wideBound)
    {name : Option String} {target value : Nat} (isState : ⟨target, .state start name⟩ ∈ scope)
    (holds : scope.Holds start value) :
    Counting (⟨next, .next start target value⟩ :: scope) start width (next + 1) := by
  have targetHolds : scope.Holds start target := ⟨_, isState, rfl, rfl⟩
  refine counting.cons _ inRange ⟨?_, trivial, symbolFits_of_none rfl⟩ ?_
  · refine resolved_of_scope (counting.sort_resolved rfl) ?_ ?_
    · rintro _ ⟨⟩
      exact ⟨start, name, isState⟩
    · simpa [Operation.operands] using ⟨targetHolds.isValue, holds.isValue⟩
  · intro result declared
    rw [counting.sortWidth declared]
    exact ⟨fun _ known => counting.valueWidth targetHolds known,
      fun _ known => counting.valueWidth holds known⟩

end Counting

/-- A sort of bit vectors starts a counter. -/
theorem counting_sort (wellFormed : Design.WellFormed scope.reverse) (positive : 0 < start)
    (below : ∀ other ∈ scope, other.lid < start) (inRange : start < wideBound)
    (widthPositive : 0 < width) (narrow : width < narrowBound) :
    Counting (⟨start, .sort (.bitVec width)⟩ :: scope) start width (start + 1) where
  wellFormed := by
    refine wellFormed_cons wellFormed ⟨positive, inRange, ?_, ?_⟩ trivial
    · intro other member
      exact below other (List.mem_reverse.mp member)
    · refine ⟨resolved_of_scope ?_ ?_ ?_, ⟨widthPositive, narrow⟩, symbolFits_of_none rfl⟩
      · simp [Operation.sortReferences, Operation.sort?]
      · simp [Operation.target?]
      · simp [Operation.operands]
  below := below_cons below _
  sorted := List.mem_cons_self

end Scope

/-- The six instructions of a counter may follow a design whose line ids are smaller. -/
theorem Design.WellFormed.counter {design : Design} (wellFormed : design.WellFormed)
    (schedule : Schedule) {start : Nat} (positive : 0 < start)
    (below : ∀ other ∈ design, other.lid < start) (room : start + 5 < wideBound)
    (narrow : schedule.counterWidth < narrowBound) (isWord : IsWord schedule.counterName) :
    WellFormed (design ++ schedule.counter start) := by
  have two : 2 ≤ 1 <<< schedule.counterWidth := by
    rw [Nat.one_shiftLeft]
    exact Nat.le_self_pow (Nat.succ_ne_zero _) 2
  have sort : Scope.Counting (⟨start, .sort (.bitVec schedule.counterWidth)⟩ :: design.reverse)
      start schedule.counterWidth (start + 1) := by
    refine Scope.counting_sort ?_ positive ?_ (by omega) (Nat.succ_pos _) narrow
    · rwa [List.reverse_reverse]
    · simpa using below
  have zero := sort.const 0 (by omega) ⟨by decide, by omega⟩
  have one := zero.const 1 (by omega) ⟨by decide, by omega⟩
  have state := one.state (by omega) isWord
  have sum := state.sum (by omega) (.cons (Scope.holds_cons_self rfl rfl) _)
    (Scope.holds_cons_self rfl rfl)
  have next := sum.next_state (by omega) (List.mem_cons_of_mem _ List.mem_cons_self)
    (Scope.holds_cons_self rfl rfl)
  simpa [Schedule.counter] using next.wellFormed

namespace Schedule

variable {design : Design} {steps : Nat}

/-- A design with room for a counter takes one. -/
theorem splice_eq (schedule : Schedule) (room : design.maxLid + 7 ≤ wideBound) :
    schedule.splice design = .ok (design ++ schedule.counter (design.maxLid + 1)) := by
  have inRange : design.maxLid + 1 + 5 < wideBound := by omega
  simp only [splice, counterFor, counterFrom, if_pos inRange]

theorem isWord_counterName : IsWord "fv__counter" := by
  have plain : "fv__counter".toList.all (fun c => !Text.isBlank c && c != ';') = true := rfl
  refine ⟨by decide, fun c member => ?_⟩
  simpa using List.all_eq_true.mp plain c member

/-- The counter of a proof schedule may follow every well-formed design with room for it. -/
theorem wellFormed_splice (wellFormed : design.WellFormed) (room : design.maxLid + 7 ≤ wideBound)
    (few : steps < wideBound) :
    Design.WellFormed (design ++ counter { steps := steps } (design.maxLid + 1)) := by
  have narrow : counterWidth { steps := steps } < narrowBound :=
    Nat.lt_of_le_of_lt (counterWidth_le few) (by decide)
  refine wellFormed.counter _ (Nat.succ_pos _) ?_ (by omega) narrow isWord_counterName
  intro other member
  exact Nat.lt_succ_of_le (Design.lid_le_maxLid member)

end Schedule

/-! ## Answers -/

namespace CommandLine

/-- The options with a number of steps, and with the request to print the design or without it. -/
def Options.scheduled (steps : Nat) (emit : Bool) (options : Options) : Options :=
  { options with schedule := some steps, emitSchedule := emit }

/-- The options without a number of steps and without the request to print the design. -/
def Options.unscheduled (options : Options) : Options :=
  { options with schedule := none, emitSchedule := false }

/-- The bytes of a text are decoded as the text. -/
theorem fromUTF8?_toUTF8 (text : String) : String.fromUTF8? text.toUTF8 = some text := by
  unfold String.fromUTF8?
  rw [String.toUTF8_eq_toByteArray, dif_pos text.isValidUTF8]
  rfl

theorem respond_run (file : String) (options : Options) {content : String → Option ByteArray}
    {source : String} (stored : content file = some source.toUTF8) (build : Build) :
    respond (.run file options) content build = answer options source := by
  simp only [respond, answerFile, stored, Option.bind_some, fromUTF8?_toUTF8]

/-- Without a schedule, a design is checked as it stands. -/
theorem answer_unscheduled (options : Options) {source : String} {design : Design}
    (accepted : Design.read source = .ok design) :
    answer options.unscheduled source = reportOf (check options.settings design) := by
  simp only [answer, accepted, Options.unscheduled, Bool.false_eq_true, if_false, checkDesign]
  rfl

/-- With a schedule, a design is checked with its counter. -/
theorem answer_scheduled (options : Options) {source : String} {design spliced : Design}
    (accepted : Design.read source = .ok design) {steps : Nat}
    (counted : Schedule.splice { steps := steps } design = .ok spliced) :
    answer (options.scheduled steps false) source = reportOf (check options.settings spliced) := by
  simp only [answer, accepted, Options.scheduled, Bool.false_eq_true, if_false, checkDesign,
    Options.proofSchedule, counted]
  rfl

/-- A design with its counter is printed on demand. -/
theorem answer_emit (options : Options) {source text : String} {design spliced : Design}
    (accepted : Design.read source = .ok design) {steps : Nat}
    (counted : Schedule.splice { steps := steps } design = .ok spliced)
    (printed : Design.text spliced = .ok text) :
    answer (options.scheduled steps true) source = { status := 0, output := text } := by
  simp only [answer, accepted, Options.scheduled, if_true, emit, Options.proofSchedule, counted,
    printed]

/--
The text that is printed for a design and a number of steps is read as the design followed by its
counter, a well-formed design.  Checking that text, from whatever file, gives what checking the design
with the number of steps gives, for all other options.
-/
theorem emitted_check_agrees {source : String} {design : Design}
    (accepted : Design.read source = .ok design) (room : design.maxLid + 7 ≤ wideBound)
    {steps : Nat} (few : steps < wideBound) (options : Options) (build : Build) (file : String)
    (content : String → Option ByteArray) (stored : content file = some source.toUTF8) :
    ∃ text spliced,
      respond (.run file (options.scheduled steps true)) content build =
        { status := 0, output := text } ∧
      Schedule.splice { steps := steps } design = .ok spliced ∧
      Design.read text = .ok spliced ∧ spliced.WellFormed ∧
      (∃ counter, spliced = design ++ counter ∧
        counter.map Instruction.lid = List.range' (design.maxLid + 1) 6) ∧
      ∀ (copy : String) (emitted : String → Option ByteArray), emitted copy = some text.toUTF8 →
        respond (.run copy options.unscheduled) emitted build =
          respond (.run file (options.scheduled steps false)) content build := by
  have counted := Schedule.splice_eq { steps := steps } room
  have wellFormed :=
    Schedule.wellFormed_splice (Design.wellFormed_of_read accepted) room few
  obtain ⟨rows, shown, nonempty, areWords⟩ := wellFormed.rows
  obtain ⟨text, printed, characters⟩ := Design.text_of_words shown
  have reread :=
    wellFormed.read_of_words shown (Source.texts_lines_printed areWords nonempty characters)
  refine ⟨text, _, ?_, counted, reread, wellFormed, ⟨_, rfl, rfl⟩, fun copy emitted written => ?_⟩
  · rw [respond_run _ _ stored]
    exact answer_emit options accepted counted printed
  · rw [respond_run _ _ written, respond_run _ _ stored, answer_unscheduled options reread,
      answer_scheduled options accepted counted]

/-- The sample with a counter of three bits, checked by the built-in solver for two steps. -/
theorem emitted_check_agrees_sample :
    let options : Options := { bound := 2, solver := some .exhaustive, freeBitLimit := 24 }
    Design.read Sample.source = .ok Sample.design ∧ Sample.design.maxLid + 7 ≤ wideBound ∧
      ∃ text spliced,
        respond (.run "design" (options.scheduled 5 true)) (fun _ => some Sample.source.toUTF8) =
          { status := 0, output := text } ∧
        Design.read text = .ok spliced ∧
        respond (.run "emitted" options) (fun _ => some text.toUTF8) =
          respond (.run "design" (options.scheduled 5 false))
            (fun _ => some Sample.source.toUTF8) := by
  intro options
  have room : Sample.design.maxLid + 7 ≤ wideBound := by decide
  have few : 5 < wideBound := by decide
  obtain ⟨text, spliced, shown, -, reread, -, -, same⟩ :=
    emitted_check_agrees Sample.read_source room few options {} "design"
      (fun _ => some Sample.source.toUTF8) rfl
  exact ⟨Sample.read_source, room, text, spliced, shown, reread, same "emitted" _ rfl⟩

end CommandLine

end BoundedCheck
