import Mathlib
import BoundedCheck.Proofs.Verdicts

/-!
# Texts of models

The text of a model has a line for every variable with its number, its binary digits and its name.
The digits can be read back, and the run that takes its values from them violates the design.
-/

namespace BoundedCheck

open Enumerator

namespace Text.Numeral

theorem mem_toDigits_two {value : Nat} {c : Char} (member : c ∈ Nat.toDigits 2 value) :
    c = '0' ∨ c = '1' := by
  have bit {number : Nat} (small : number < 2) :
      number.digitChar = '0' ∨ number.digitChar = '1' := by
    rcases Nat.le_one_iff_eq_zero_or_eq_one.mp (Nat.le_of_lt_succ small) with rfl | rfl
    · exact Or.inl rfl
    · exact Or.inr rfl
  induction value using Nat.strongRecOn with
  | ind value ih =>
      rw [Nat.toDigits_eq_if (Nat.lt_succ_self 1)] at member
      split at member
      · rename_i small
        rw [List.mem_singleton.mp member]
        exact bit small
      · rename_i large
        rcases List.mem_append.mp member with higher | lowest
        · exact ih (value / 2) (Nat.div_lt_self (by omega) (Nat.lt_succ_self 1)) higher
        · rw [List.mem_singleton.mp lowest]
          exact bit (Nat.mod_lt _ (Nat.succ_pos 1))

theorem mem_binaryDigits {width value : Nat} {c : Char}
    (member : c ∈ (binaryDigits width value).toList) : c = '0' ∨ c = '1' := by
  rw [binaryDigits, String.toList_ofList, List.leftpad] at member
  rcases List.mem_append.mp member with zero | digit
  · exact Or.inl (List.eq_of_mem_replicate zero)
  · exact mem_toDigits_two digit

/-- Reading binary digits appends them to what was read before. -/
theorem extend?_of_binary {digits : List Char} (binary : ∀ c ∈ digits, c = '0' ∨ c = '1')
    (value : Nat) : extend? 2 value digits = some (Nat.ofDigitChars 2 digits value) := by
  induction digits generalizing value with
  | nil => rfl
  | cons c rest ih =>
      obtain ⟨first, others⟩ := List.forall_mem_cons.mp binary
      have digit : digit? 2 c = some (c.toNat - '0'.toNat) := by
        rcases first with rfl | rfl
        · decide
        · decide
      simp only [extend?, digit, Nat.ofDigitChars_cons]
      exact ih others _

/-- Zeros in front of a number do not change it. -/
theorem magnitude?_binaryDigits (width value : Nat) :
    magnitude? 2 (binaryDigits width value).toList = some value := by
  have read : extend? 2 0 (binaryDigits width value).toList = some value := by
    rw [extend?_of_binary (fun c => mem_binaryDigits), binaryDigits, String.toList_ofList,
      List.leftpad, Nat.ofDigitChars_append, Nat.ofDigitChars_replicate_zero, Nat.mul_zero,
      Nat.ofDigitChars_toDigits (Nat.lt_succ_self 1) (by decide)]
  cases digits : (binaryDigits width value).toList with
  | nil =>
      have length := congrArg List.length digits
      rw [binaryDigits, String.toList_ofList, List.length_leftpad] at length
      have some := List.length_pos_of_ne_nil (Nat.toDigits_ne_nil (b := 2) (n := value))
      exact absurd length (by simp only [List.length_nil]; omega)
  | cons first rest =>
      rw [digits] at read
      exact read

/-- A number that fits a width has a digit for each of its bits. -/
theorem length_binaryDigits {width value : Nat} (positive : 0 < width)
    (small : value < 2 ^ width) : (binaryDigits width value).toList.length = width := by
  have fits := (Nat.length_toDigits_le_iff (Nat.lt_succ_self 1) positive).mpr small
  rw [binaryDigits, String.toList_ofList, List.length_leftpad, Nat.max_eq_left fits]

end Text.Numeral

/-! ## Reading a model -/

namespace Model

/-- The lines of a text, each without its end. -/
def lines (text : String) : List (List Char) :=
  (text.toList.splitOn '\n').dropLast

/-- The columns of each line of a text. -/
def rows (text : String) : List (List (List Char)) :=
  (lines text).map (List.splitOn ' ')

/-- The value in the column of digits of a line. -/
def value (text : String) (index : Nat) : Nat :=
  match (rows text)[index]? with
  | some [_, digits, _] => (Text.Numeral.magnitude? 2 digits).getD 0
  | _ => 0

/-- The columns of a variable. -/
def row (assignment : Array Nat) (index : Nat) (var : Variable) : List (List Char) :=
  [(toString index).toList, (Text.Numeral.binaryDigits var.width (assignment.getD index 0)).toList,
    var.name.toList]

theorem toList_modelLine (assignment : Array Nat) (index : Nat) (var : Variable) :
    (modelLine assignment index var).toList =
      [' '].intercalate (row assignment index var) ++ ['\n'] := by
  simp [modelLine, row, toString]

theorem space_not_mem {text : String} (unbroken : Unbroken text) : ' ' ∉ text.toList := by
  intro member
  have blank := unbroken ' ' member
  rw [Text.isBlank_space] at blank
  cases blank

theorem newline_not_mem {text : String} (unbroken : Unbroken text) : '\n' ∉ text.toList := by
  intro member
  have blank := unbroken '\n' member
  rw [Text.isBlank_newline] at blank
  cases blank

/-- The columns of a variable are without blanks. -/
theorem unbroken_row {assignment : Array Nat} {index : Nat} {var : Variable}
    (named : Unbroken var.name) {column : List Char} (member : column ∈ row assignment index var) :
    ∃ text, Unbroken text ∧ column = text.toList := by
  simp only [row, List.mem_cons, List.not_mem_nil, or_false] at member
  rcases member with rfl | rfl | rfl
  · exact ⟨_, unbroken_toString index, rfl⟩
  · refine ⟨_, unbroken_of_graphic fun c inside => ?_, rfl⟩
    rcases Text.Numeral.mem_binaryDigits inside with rfl | rfl <;> decide
  · exact ⟨_, named, rfl⟩

theorem flatMap_line (texts : List (List Char)) :
    texts.flatMap (· ++ ['\n']) = ['\n'].intercalate (texts ++ [[]]) := by
  induction texts with
  | nil => rfl
  | cons first rest ih =>
      rw [List.flatMap_cons, List.cons_append, List.intercalate_cons_of_ne_nil (by simp), ih]

/-- A line of columns is read back by its spaces. -/
theorem splitOn_row {assignment : Array Nat} {index : Nat} {var : Variable}
    (named : Unbroken var.name) :
    List.splitOn ' ' ([' '].intercalate (row assignment index var)) = row assignment index var := by
  apply List.splitOn_intercalate
  · intro column member
    obtain ⟨text, unbroken, rfl⟩ := unbroken_row named member
    exact space_not_mem unbroken
  · simp [row]

theorem newline_not_mem_line {assignment : Array Nat} {index : Nat} {var : Variable}
    (named : Unbroken var.name) : '\n' ∉ [' '].intercalate (row assignment index var) := by
  have absent (column : List Char) (member : column ∈ row assignment index var) : '\n' ∉ column := by
    obtain ⟨text, unbroken, rfl⟩ := unbroken_row named member
    exact newline_not_mem unbroken
  have first := absent (toString index).toList (by simp [row])
  have second := absent (Text.Numeral.binaryDigits var.width (assignment.getD index 0)).toList
    (by simp [row])
  have third := absent var.name.toList (by simp [row])
  simp only [row, List.intercalate_cons_cons, List.intercalate_singleton, List.mem_append,
    List.mem_singleton, first, second, third]
  decide

theorem toList_modelText (vars : Array Variable) (assignment : Array Nat) :
    (modelText vars assignment).toList =
      (vars.toList.mapIdx fun index var => [' '].intercalate (row assignment index var)).flatMap
        (· ++ ['\n']) := by
  simp only [modelText, String.toList_join, List.mapIdx_eq_zipIdx_map, List.flatMap_map,
    toList_modelLine]

/-- The lines of a model are those of its variables, in order. -/
theorem lines_modelText {vars : Array Variable} (assignment : Array Nat)
    (named : ∀ (index : Nat) (var : Variable), vars[index]? = some var → Unbroken var.name) :
    lines (modelText vars assignment) =
      vars.toList.mapIdx fun index var => [' '].intercalate (row assignment index var) := by
  rw [lines, toList_modelText, flatMap_line, List.splitOn_intercalate _ _ (by simp),
    List.dropLast_concat]
  intro line member
  rcases List.mem_append.mp member with inside | last
  · obtain ⟨index, below, rfl⟩ := List.mem_mapIdx.mp inside
    refine newline_not_mem_line (named index _ ?_)
    rw [← Array.getElem?_toList, List.getElem?_eq_getElem below]
  · rw [List.mem_singleton.mp last]
    exact List.not_mem_nil

/-- The rows of a model are those of the variables, in order. -/
theorem rows_modelText {vars : Array Variable} (assignment : Array Nat)
    (named : ∀ (index : Nat) (var : Variable), vars[index]? = some var → Unbroken var.name) :
    rows (modelText vars assignment) = vars.toList.mapIdx (row assignment) := by
  rw [rows, lines_modelText assignment named]
  apply List.ext_getElem?
  intro index
  rw [List.getElem?_map, List.getElem?_mapIdx, List.getElem?_mapIdx, Array.getElem?_toList]
  cases found : vars[index]? with
  | none => rfl
  | some var =>
      simp only [Option.map_some]
      rw [splitOn_row (named index var found)]

/-- The value of a variable is read back. -/
theorem value_modelText {vars : Array Variable} {assignment : Array Nat}
    (named : ∀ (index : Nat) (var : Variable), vars[index]? = some var → Unbroken var.name)
    (size : assignment.size = vars.size) (index : Nat) :
    value (modelText vars assignment) index = assignment.getD index 0 := by
  unfold value
  rw [rows_modelText assignment named, List.getElem?_mapIdx, Array.getElem?_toList]
  cases found : vars[index]? with
  | none =>
      have beyond : ¬ index < assignment.size := by
        rw [size]
        simpa using found
      simp [Array.getD, beyond]
  | some var =>
      simp only [Option.map_some, row]
      rw [Text.Numeral.magnitude?_binaryDigits, Option.getD_some]

/-- A text is a table of variables: a line for each, with its number, binary digits and name. -/
structure Tabulates (text : String) (vars : Array Variable) : Prop where
  whole : text.toList = (lines text).flatMap (· ++ ['\n'])
  count : (lines text).length = vars.size
  columns : ∀ (index : Nat) (var : Variable), vars[index]? = some var →
    ∃ digits, (rows text)[index]? = some [(toString index).toList, digits, var.name.toList] ∧
      digits.length = var.width ∧ ∀ c ∈ digits, c = '0' ∨ c = '1'

theorem tabulates_modelText {vars : Array Variable} {assignment : Array Nat}
    (named : ∀ (index : Nat) (var : Variable), vars[index]? = some var → Unbroken var.name)
    (positive : ∀ var ∈ vars, 0 < var.width)
    (small : ∀ (index : Nat) (var : Variable), vars[index]? = some var →
      assignment.getD index 0 < 2 ^ var.width) :
    Tabulates (modelText vars assignment) vars where
  whole := by rw [lines_modelText assignment named, toList_modelText]
  count := by rw [lines_modelText assignment named, List.length_mapIdx, Array.length_toList]
  columns index var found := by
    have length := Text.Numeral.length_binaryDigits (positive var (Array.mem_of_getElem? found))
      (small index var found)
    refine ⟨_, ?_, length, fun c => Text.Numeral.mem_binaryDigits⟩
    rw [rows_modelText assignment named, List.getElem?_mapIdx, Array.getElem?_toList, found]
    rfl

end Model

/-! ## Replaying a model -/

namespace Engine

variable {design : Design} {start : Array Variable} {assignment : Nat → Nat} {supply : Supply}
  {count : Nat} {engine : Engine Enumerator BitSort Nat}

/-- An origin is an input or a state. -/
theorem exists_of_mem_origins {steps step lid : Nat} (member : (step, lid) ∈ design.origins steps) :
    (∃ sort name, ⟨lid, .input sort name⟩ ∈ design) ∨ design.DeclaresState lid := by
  rcases Design.mem_origins.mp member with ⟨-, isInput | ⟨isState, -⟩⟩ | ⟨-, isState, -⟩
  · exact Or.inl isInput
  · exact Or.inr isState
  · exact Or.inr isState

/-- The names of variables are without blanks. -/
theorem Unrolled.unbroken (unrolled : Unrolled design #[] assignment supply count engine)
    {index : Nat} {var : Variable} (found : engine.solver.vars[index]? = some var) :
    Unbroken var.name := by
  have place := getElem?_of_made unrolled.made index
  simp only [Array.size_empty, Nat.zero_add] at place
  rw [found] at place
  obtain ⟨⟨step, lid⟩, origin, rfl⟩ := Option.map_eq_some_iff.mp place.symm
  apply Tables.unbroken_stepName
  rcases exists_of_mem_origins (List.mem_of_getElem? origin) with
    ⟨sort, name, member⟩ | ⟨sort, name, member⟩
  · exact unrolled.covers.knows _ member
  · exact unrolled.covers.knows _ member

namespace Explored

theorem unbroken (explored : Explored design count engine) (index : Nat) (var : Variable)
    (found : engine.solver.vars[index]? = some var) : Unbroken var.name :=
  explored.base.unbroken found

/-- A model is read back from its text. -/
theorem value_modelText (explored : Explored design count engine) {roots : List Nat}
    {assignment : Array Nat} (isModel : engine.solver.IsModel roots assignment) :
    Model.value (modelText engine.solver.vars assignment) = (assignment.getD · 0) := by
  funext index
  exact Model.value_modelText explored.unbroken isModel.size index

/-- The variables are those of the origins, in order. -/
theorem origins_owned (explored : Explored design count engine) :
    engine.solver.vars.size = (design.origins count).length ∧
      ∀ index step lid : Nat, (design.origins count)[index]? = some (step, lid) →
        ∃ frame root, engine.states[step]? = some frame ∧ frame.get? lid = some root ∧
          varIndex? engine.solver.terms root = some index := by
  refine ⟨by simpa using explored.base.made.size, ?_⟩
  intro index step lid found
  have le : step ≤ count := by
    rcases Design.mem_origins.mp (List.mem_of_getElem? found) with ⟨below, -⟩ | ⟨last, -⟩
    · exact Nat.le_of_lt below
    · exact Nat.le_of_eq last
  obtain ⟨frame, present, -, owns⟩ := explored.base.states step le
  obtain ⟨root, here, named⟩ := owns index lid found
  refine ⟨frame, root, present, here, ?_⟩
  simpa using named

end Explored

/-- The model of a violation, replayed as a run. -/
theorem Violation.replays {step bad : Nat} {model : String}
    (violation : Violation design step bad model engine) :
    ∃ t, (bad, t) ∈ engine.lastBads ∧ Model.Tabulates model engine.solver.vars ∧
      design.Fits (design.supplyOf (step + 1) 0 (Model.value model)) ∧
      (∀ earlier ≤ step,
        design.Constrained (design.supplyOf (step + 1) 0 (Model.value model)) earlier) ∧
      (∃ condition name, ⟨bad, .bad condition name⟩ ∈ design ∧
        design.run (design.supplyOf (step + 1) 0 (Model.value model)) step condition = 1) ∧
      ∀ index, ¬ engine.solver.Occurs (t :: engine.allConstraints) index →
        Model.value model index = 0 := by
  have explored := violation.explored
  obtain ⟨before, t, after, assignment, split, -, isModel, rfl⟩ := violation.found
  have entry : engine.lastBads[before.length]? = some (bad, t) := by simp [split]
  have unrolled := explored.unrolled _ _ (explored.scenario isModel.inRange)
  obtain ⟨condition, stated, satisfies⟩ := unrolled.satisfies_iff entry
  obtain ⟨holds, constrained⟩ := satisfies.mp isModel.satisfied
  obtain ⟨operation, member, selected⟩ := Design.mem_conditions.mp (List.mem_of_getElem? stated)
  rw [explored.value_modelText isModel]
  refine ⟨t, List.mem_of_getElem? entry, Model.tabulates_modelText explored.unbroken
      (fun var member => (explored.valid.words var member).1) isModel.inRange,
    explored.fits isModel.inRange, constrained, ?_, isModel.unreached⟩
  cases operation with
  | bad c name =>
      cases selected
      exact ⟨condition, name, member, holds⟩
  | _ => cases selected

end Engine

/--
A counterexample is genuine and can be read from its text.  The text is a table of all variables that
the check has made, those of the values from outside in order.  The run that takes these values from
the table keeps every constraint up to the step of the verdict, and the bad condition holds at that
step.  A variable that the query does not reach is zero.
-/
theorem counterexample_replays {source : String} {design : Design}
    (accepted : Design.read source = .ok design) {settings : Settings}
    (exhaustive : settings.solver = .exhaustive) {number bad : Nat} {model : String}
    (answered : check settings design = .ok (.violated number bad model)) :
    ∃ engine step t,
      Engine.bmc settings.depth (Engine.fresh settings.freeBitLimit design) =
        .ok (.violated number bad model) engine ∧
      number = step + 1 ∧ (bad, t) ∈ engine.lastBads ∧
      Model.Tabulates model engine.solver.vars ∧
      engine.solver.vars.size = (design.origins number).length ∧
      (∀ index earlier lid : Nat, (design.origins number)[index]? = some (earlier, lid) →
        ∃ frame root, engine.states[earlier]? = some frame ∧ frame.get? lid = some root ∧
          varIndex? engine.solver.terms root = some index) ∧
      design.Fits (design.supplyOf number 0 (Model.value model)) ∧
      (∀ earlier ≤ step,
        design.Constrained (design.supplyOf number 0 (Model.value model)) earlier) ∧
      (∃ condition name, ⟨bad, .bad condition name⟩ ∈ design ∧
        design.run (design.supplyOf number 0 (Model.value model)) step condition = 1) ∧
      (∀ index, ¬ engine.solver.Occurs (t :: engine.allConstraints) index →
        Model.value model index = 0) := by
  obtain ⟨engine, ran⟩ := bmc_of_check exhaustive answered
  rcases Engine.bmc_eq_ok (Design.wellFormed_of_read accepted) ran with
    ⟨safe, -⟩ | ⟨step, -, _, _, same, -, violation⟩
  · cases safe
  · cases same
    obtain ⟨t, listed, table, replayed⟩ := violation.replays
    obtain ⟨size, owned⟩ := violation.explored.origins_owned
    exact ⟨engine, step, t, ran, rfl, listed, table, size, owned, replayed⟩

/-- The model of the sample gives the state a value above that of the free state. -/
theorem counterexample_replays_sample :
    let model := "0 01 s_1\n1 00 state6_1\n2 00 x_1\n3 00 state6_2\n"
    Design.read Sample.source = .ok Sample.design ∧
      check { depth := 2, solver := .exhaustive } Sample.design = .ok (.violated 1 11 model) ∧
      Sample.design.run (Sample.design.supplyOf 1 0 (Model.value model)) 0 10 = 1 := by
  intro model
  have answered : check { depth := 2, solver := .exhaustive } Sample.design =
      .ok (.violated 1 11 model) := by decide +kernel
  obtain ⟨engine, step, t, -, same, -, -, -, -, -, -, ⟨condition, name, member, holds⟩, -⟩ :=
    counterexample_replays Sample.read_source rfl answered
  have first : step = 0 := by omega
  have tenth : condition = 10 ∧ name = none := by simpa [Sample.design] using member
  rw [first, tenth.1] at holds
  exact ⟨Sample.read_source, answered, holds⟩

end BoundedCheck
