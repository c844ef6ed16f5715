import Mathlib
import BoundedCheck.Design.Printer
import BoundedCheck.Proofs.Scanning

/-!
# Printed designs are read back

The reader takes from a printed line exactly the words that the printer wrote and gives the
instruction they were written for.  A well-formed design can be printed, and reading the text gives
the same design.
-/

namespace BoundedCheck

namespace Reader

variable {α β : Type} {reader : Reader ReadError α} {next : α → Reader ReadError β} {a : α} {b : β}
  {front back words : List String} {rest : List Token} {text : String}

/-- Before the given rest a reader takes tokens with the given texts and gives a result. -/
def Takes (reader : Reader ReadError α) (words : List String) (rest : List Token) (a : α) : Prop :=
  ∀ tokens : List Token, tokens.map Token.text = words → reader (tokens ++ rest) = .ok (a, rest)

namespace Takes

theorem pure (a : α) (rest : List Token) : Takes (Pure.pure a) [] rest a := by
  intro tokens texts
  rw [List.map_eq_nil_iff.mp texts]
  rfl

/-- The first reader leaves to the second what it does not take. -/
theorem bind (first : ∀ rest, Takes reader front rest a) (second : Takes (next a) back rest b) :
    Takes (reader >>= next) (front ++ back) rest b := by
  intro tokens texts
  obtain ⟨taken, left, rfl, frontTexts, backTexts⟩ := List.map_eq_append_iff.mp texts
  have step := first (left ++ rest) taken frontTexts
  rw [List.append_assoc]
  simp only [Bind.bind, StateT.bind, step, Except.bind]
  exact second left backTexts

/-- A reader that takes one word. -/
theorem cons (first : ∀ rest, Takes reader [text] rest a) (second : Takes (next a) back rest b) :
    Takes (reader >>= next) (text :: back) rest b :=
  bind first second

/-- A reader that takes no word. -/
theorem skip (first : ∀ rest, Takes reader [] rest a) (second : Takes (next a) words rest b) :
    Takes (reader >>= next) words rest b :=
  bind first second

theorem map (f : α → β) (first : Takes reader words rest a) :
    Takes (reader >>= fun a => Pure.pure (f a)) words rest (f a) := by
  intro tokens texts
  simp only [Bind.bind, StateT.bind, first tokens texts, Except.bind]
  rfl

end Takes

/-- The next token is the next word, wherever it stands. -/
theorem takes_word {next : Token → Reader ReadError β} {line : Line} {expected : Expectation}
    (second : ∀ token, token.text = text → Takes (next token) words rest b) :
    Takes (word line expected >>= next) (text :: words) rest b := by
  intro tokens texts
  obtain ⟨token, others, rfl, same, remaining⟩ := List.map_eq_cons_iff.mp texts
  exact second token same others remaining

/-- The symbol of a line, or its end. -/
theorem takes_symbol (name : Option String) : Takes symbol name.toList [] name := by
  intro tokens texts
  cases name with
  | none =>
      rw [List.map_eq_nil_iff.mp texts]
      rfl
  | some text =>
      obtain ⟨token, rfl, rfl⟩ := List.map_eq_singleton_iff.mp texts
      rfl

/-! ## Numbers -/

theorem takes_number {bound value : Nat} {token : Token} (below : value < bound)
    (shown : token.text = toString value) (rest : List Token) :
    Takes (number bound token) [] rest value := by
  unfold number
  rw [shown, Text.Numeral.below?_toString below]
  exact Takes.pure _ _

theorem takes_lid {value : Nat} {token : Token} (positive : 0 < value) (below : value < wideBound)
    (shown : token.text = toString value) (rest : List Token) :
    Takes (lid token) [] rest value := by
  unfold lid
  rw [shown, Text.Numeral.below?_toString below]
  simp only [Option.filter_some, positive, decide_true, if_true]
  exact Takes.pure _ _

/-- A constant that fits its width and a word is read back. -/
theorem takes_constant {width value : Nat} {token : Token} (fits : value < Word.bound width)
    (shown : token.text = toString value) (rest : List Token) :
    Takes (constant .decimal width token) [] rest value := by
  have inRange : value < 1 <<< 127 :=
    Nat.lt_of_lt_of_le (Nat.lt_of_lt_of_le fits (Word.bound_le width)) (by decide)
  have signed : Text.Numeral.signed? 128 (toString value) = some (value : Int) := by
    unfold Text.Numeral.signed?
    rw [Text.Numeral.integer?_toString]
    simp only [Option.filter_some, Bool.and_eq_true, decide_eq_true_eq]
    rw [if_pos (by omega)]
  have read : Constant.read .decimal width (toString value) = .ok value := by
    simp only [Constant.read, Constant.readDecimal, signed]
    exact if_pos fits
  rw [constant_eq, shown, read]
  exact Takes.pure _ _

/-! ## References -/

section References

variable {scope : Scope} (wellFormed : Design.WellFormed scope.reverse) (line : Line)
include wellFormed

theorem takes_reference {instruction : Instruction} (member : instruction ∈ scope.reverse)
    {token : Token} (shown : token.text = toString instruction.lid) (rest : List Token) :
    Takes (reference scope token) [] rest instruction := by
  have unsigned : token.text.toList.head? ≠ some '-' := by
    rw [shown]
    cases shape : (toString instruction.lid).toList with
    | nil => exact absurd shape (Text.Numeral.toList_toString_ne_nil _)
    | cons first others =>
        intro starts
        cases starts
        exact Text.Numeral.toList_toString_ne_cons (by decide) shape
  obtain ⟨earlier, -, formed⟩ := wellFormed.of_mem member
  unfold reference
  rw [if_neg unsigned]
  refine Takes.skip (takes_lid formed.positive formed.inRange shown) ?_
  rw [Scope.find_of_mem wellFormed member]
  exact Takes.pure _ _

theorem takes_sortRef {s : Nat} {kind : SortKind} (declared : ⟨s, .sort kind⟩ ∈ scope.reverse)
    (rest : List Token) : Takes (sortRef scope line) [toString s] rest (s, kind) := by
  refine takes_word fun token shown => ?_
  exact Takes.skip (takes_reference wellFormed declared shown) (Takes.pure _ _)

theorem takes_stateRef {s : Nat} (declared : Design.DeclaresState scope.reverse s)
    (rest : List Token) : Takes (stateRef scope line) [toString s] rest s := by
  obtain ⟨sort, name, member⟩ := declared
  refine takes_word fun token shown => ?_
  exact Takes.skip (takes_reference wellFormed member shown) (Takes.pure _ _)

theorem takes_operand {s : Nat} (declared : Design.DeclaresValue scope.reverse s)
    (rest : List Token) : Takes (operand scope line) [toString s] rest s := by
  obtain ⟨operation, member, isValue⟩ := declared
  refine takes_word fun token shown => ?_
  refine Takes.skip (takes_reference wellFormed member shown) ?_
  rw [if_pos isValue]
  exact Takes.pure _ _

/-! ## Lines -/

theorem takes_sortKind {kind : SortKind} {arguments : List String}
    (shown : (Operation.sort kind).arguments = .ok arguments)
    (resolved : (Operation.sort kind).Resolved scope.reverse)
    (literals : (Operation.sort kind).LiteralsFit scope.reverse) (rest : List Token) :
    Takes (sortKind scope line) arguments rest kind := by
  cases kind with
  | bitVec width =>
      cases shown
      refine takes_word fun tag tagText => ?_
      rw [if_pos tagText]
      refine takes_word fun token widthText => ?_
      refine Takes.skip (takes_number literals.2 widthText) ?_
      rw [if_neg (Nat.ne_of_gt literals.1)]
      exact Takes.pure _ _
  | array index element =>
      cases shown
      obtain ⟨indexKind, indexDeclared⟩ := resolved.sorts index (by simp [Operation.sortReferences])
      obtain ⟨elementKind, elementDeclared⟩ :=
        resolved.sorts element (by simp [Operation.sortReferences])
      refine takes_word fun tag tagText => ?_
      rw [if_neg (by simp [tagText]), if_pos tagText]
      refine Takes.cons (takes_sortRef wellFormed line indexDeclared) ?_
      exact Takes.cons (takes_sortRef wellFormed line elementDeclared) (Takes.pure _ _)

end References

/-- A slice is shown by its upper and lower bit. -/
theorem takes_sliceBits (line : Line) {lowBit width upper : Nat} (positive : 0 < width)
    (narrowWidth : width < narrowBound) (shown : sliceUpper lowBit width = .ok upper)
    (rest : List Token) :
    Takes (sliceBits line) [toString upper, toString lowBit] rest (lowBit, width) := by
  unfold sliceUpper narrow at shown
  split at shown
  · rename_i inside
    cases shown
    refine takes_word fun upperToken upperText => ?_
    refine Takes.skip (takes_number inside upperText) ?_
    refine takes_word fun lowerToken lowerText => ?_
    refine Takes.skip (takes_number (by omega) lowerText) ?_
    have sameWidth : lowBit + (width - 1) - lowBit + 1 = width := by omega
    rw [if_neg (by omega), difference_bind, sameWidth, if_pos narrowWidth]
    exact Takes.pure _ _
  · cases shown

/-- A printed line id is fresh in the scope of the instructions before it. -/
theorem takes_freshLid {scope : Scope} (line : Line) {value : Nat} (positive : 0 < value)
    (inRange : value < wideBound) (increasing : ∀ other ∈ scope.reverse, other.lid < value)
    (rest : List Token) :
    Takes (freshLid scope line) [toString value] rest value := by
  have unknown : scope.find value = none := by
    apply List.find?_eq_none.mpr
    intro other member
    have smaller := increasing other (List.mem_reverse.mpr member)
    simp only [beq_iff_eq]
    omega
  have greater : ¬ value ≤ scope.lastLid := by
    cases scope with
    | nil => exact Nat.not_le.mpr positive
    | cons newest older => exact Nat.not_le.mpr (increasing newest (by simp))
  refine takes_word fun token shown => ?_
  refine Takes.skip (takes_lid positive inRange shown) ?_
  rw [unknown, if_neg (by simp), if_neg greater]
  exact Takes.pure _ _

section Lines

variable {scope : Scope} (wellFormed : Design.WellFormed scope.reverse) (line : Line)
include wellFormed

/-- The arguments of an operation are read back, with the symbol after them. -/
theorem takes_operation {operation : Operation} {arguments : List String}
    (shown : operation.arguments = .ok arguments) (resolved : operation.Resolved scope.reverse)
    (literals : operation.LiteralsFit scope.reverse) :
    Takes (Reader.operation scope line operation.keyword) (arguments ++ operation.name?.toList) []
      operation := by
  have ends {operation : Operation} : Takes (symbol >>= fun _ => pure operation) [] [] operation :=
    (takes_symbol none).map fun _ => operation
  have takesSort {s : Nat} (member : s ∈ operation.sortReferences) :
      ∃ kind, ∀ rest, Takes (sortRef scope line) [toString s] rest (s, kind) := by
    obtain ⟨kind, declared⟩ := resolved.sorts s member
    exact ⟨kind, takes_sortRef wellFormed line declared⟩
  have takesOperand {lid : Nat} (member : lid ∈ operation.operands) :=
    takes_operand wellFormed line (resolved.operands lid member)
  cases operation with
  | sort kind =>
      rw [show (Operation.sort kind).name?.toList = [] from rfl]
      exact Takes.bind (takes_sortKind wellFormed line shown resolved literals) ends
  | input s name | state s name =>
      cases shown
      obtain ⟨kind, sortTaken⟩ := takesSort List.mem_cons_self
      exact Takes.cons sortTaken ((takes_symbol name).map _)
  | init s target value | next s target value =>
      cases shown
      obtain ⟨kind, sortTaken⟩ := takesSort List.mem_cons_self
      refine Takes.cons sortTaken ?_
      refine Takes.cons (takes_stateRef wellFormed line (resolved.target target rfl)) ?_
      exact Takes.cons (takesOperand (by simp [Operation.operands])) ends
  | constraint condition name | bad condition name | output condition name =>
      cases shown
      exact Takes.cons (takesOperand List.mem_cons_self) ((takes_symbol name).map _)
  | const s value =>
      cases shown
      obtain ⟨wide, width, declared, fits⟩ := literals
      have small : value < Word.bound width := by
        rw [Word.bound_eq]
        rcases Nat.le_total width Word.maxWidth with narrow | broad
        · rwa [Nat.min_eq_left narrow]
        · rwa [Nat.min_eq_right broad]
      refine Takes.cons (takes_sortRef wellFormed line declared) ?_
      refine takes_word fun token valueText => ?_
      exact Takes.skip (takes_constant small valueText) ends
  | zero s | one s | ones s =>
      cases shown
      obtain ⟨kind, sortTaken⟩ := takesSort List.mem_cons_self
      exact Takes.cons sortTaken ends
  | not s operand =>
      cases shown
      obtain ⟨kind, sortTaken⟩ := takesSort List.mem_cons_self
      refine Takes.cons sortTaken ?_
      exact Takes.cons (takesOperand List.mem_cons_self) ends
  | binary op s left right =>
      cases shown
      obtain ⟨kind, sortTaken⟩ := takesSort List.mem_cons_self
      refine Takes.cons sortTaken ?_
      refine Takes.cons (takesOperand (by simp [Operation.operands])) ?_
      exact Takes.cons (takesOperand (by simp [Operation.operands])) ends
  | ite s condition onTrue onFalse =>
      cases shown
      obtain ⟨kind, sortTaken⟩ := takesSort List.mem_cons_self
      refine Takes.cons sortTaken ?_
      refine Takes.cons (takesOperand (by simp [Operation.operands])) ?_
      refine Takes.cons (takesOperand (by simp [Operation.operands])) ?_
      exact Takes.cons (takesOperand (by simp [Operation.operands])) ends
  | uext s operand extra name =>
      cases shown
      obtain ⟨kind, sortTaken⟩ := takesSort List.mem_cons_self
      refine Takes.cons sortTaken ?_
      refine Takes.cons (takesOperand List.mem_cons_self) ?_
      refine takes_word fun token extraText => ?_
      exact Takes.skip (takes_number literals extraText) ((takes_symbol name).map _)
  | slice s operand lowBit width =>
      obtain ⟨positive, narrowWidth, -⟩ := literals
      obtain ⟨kind, sortTaken⟩ := takesSort List.mem_cons_self
      simp only [Operation.arguments] at shown
      split at shown
      · rename_i upper upperShown
        cases shown
        refine Takes.cons sortTaken ?_
        refine Takes.cons (takesOperand List.mem_cons_self) ?_
        exact Takes.bind (takes_sliceBits line positive narrowWidth upperShown) ends
      · cases shown

theorem takes_instruction {instruction : Instruction}
    (formed : instruction.WellFormed scope.reverse) {words : List String}
    (shown : instruction.words = .ok words) :
    Takes (Reader.instruction scope line) words [] instruction := by
  unfold Instruction.words at shown
  split at shown
  · rename_i arguments argumentsShown
    cases shown
    refine Takes.cons (takes_freshLid line formed.positive formed.inRange formed.increasing) ?_
    have keywordTaken (rest : List Token) : Takes (keyword line)
        [instruction.operation.keyword.text] rest instruction.operation.keyword := by
      refine takes_word fun token same => ?_
      rw [same, Keyword.ofText?_text]
      exact Takes.pure _ _
    refine Takes.cons keywordTaken ?_
    exact (takes_operation wellFormed line argumentsShown formed.resolved formed.literals).map _
  · cases shown

end Lines

end Reader

/-! ## Widths -/

namespace Scope

variable {scope : Scope}

theorem rule_of_equal {role : Role} {actual expected : Option Nat}
    (same : ∀ a e, actual = some a → expected = some e → a = e) :
    (WidthRule.equal role actual expected).mismatch? = none := by
  cases actual with
  | none => rfl
  | some a =>
      cases expected with
      | none => rfl
      | some e => exact if_pos (same a e rfl rfl)

theorem rule_of_inside {upper : Nat} {operandWidth : Option Nat}
    (inside : ∀ width, operandWidth = some width → upper < width) :
    (WidthRule.inside upper operandWidth).mismatch? = none := by
  cases operandWidth with
  | none => rfl
  | some width => exact if_pos (inside width rfl)

theorem binaryRules_hold {op : BinaryOp} {s left right : Nat}
    (agree : (Operation.binary op s left right).WidthsAgree scope.reverse) :
    ∀ rule ∈ scope.rules (.binary op s left right), rule.mismatch? = none := by
  have sortKnown {lid width : Nat} (known : scope.sortWidth? lid = some width) :=
    declaresWidth_of_sortWidth? known
  have valueKnown {lid width : Nat} (known : scope.valueWidth? lid = some width) :=
    hasWidth_of_valueWidth? known
  cases op with
  | concat =>
      simp only [Scope.rules, binaryRules, Operation.sort?, Option.bind_some, List.mem_singleton,
        forall_eq]
      refine rule_of_equal fun result sum declared known => ?_
      obtain ⟨l, leftKnown, known⟩ := Option.bind_eq_some_iff.mp known
      obtain ⟨r, rightKnown, rfl⟩ := Option.map_eq_some_iff.mp known
      exact agree l r result (valueKnown leftKnown) (valueKnown rightKnown) (sortKnown declared)
  | implies | iff =>
      obtain ⟨leftOne, rightOne, resultOne⟩ := agree
      simp only [Scope.rules, binaryRules, Operation.sort?, Option.bind_some, List.mem_cons,
        List.not_mem_nil, or_false, forall_eq_or_imp, forall_eq]
      refine ⟨rule_of_equal ?_, rule_of_equal ?_, rule_of_equal ?_⟩
      · rintro width _ known ⟨⟩
        exact leftOne width (valueKnown known)
      · rintro width _ known ⟨⟩
        exact rightOne width (valueKnown known)
      · rintro width _ known ⟨⟩
        exact resultOne width (sortKnown known)
  | eq | neq | ugt | sgt | ugte | sgte | ult | slt | ulte | slte =>
      obtain ⟨same, resultOne⟩ := agree
      simp only [Scope.rules, binaryRules, Operation.sort?, Option.bind_some, List.mem_cons,
        List.not_mem_nil, or_false, forall_eq_or_imp, forall_eq]
      refine ⟨rule_of_equal ?_, rule_of_equal ?_⟩
      · intro r l rightKnown leftKnown
        exact same l r (valueKnown leftKnown) (valueKnown rightKnown)
      · rintro width _ known ⟨⟩
        exact resultOne width (sortKnown known)
  | add | sub | mul | sdiv | udiv | smod | sll | srl | sra | and | or | xor =>
      obtain ⟨same, result⟩ := agree
      simp only [Scope.rules, binaryRules, Operation.sort?, Option.bind_some, List.mem_cons,
        List.not_mem_nil, or_false, forall_eq_or_imp, forall_eq]
      refine ⟨rule_of_equal ?_, rule_of_equal ?_⟩
      · intro r l rightKnown leftKnown
        exact same l r (valueKnown leftKnown) (valueKnown rightKnown)
      · intro width l known leftKnown
        exact result l width (valueKnown leftKnown) (sortKnown known)

/-- An operation with agreeing widths has no mismatch. -/
theorem mismatch?_of_widthsAgree {operation : Operation}
    (literals : operation.LiteralsFit scope.reverse)
    (agree : operation.WidthsAgree scope.reverse) : scope.mismatch? operation = none := by
  apply List.findSome?_eq_none_iff.mpr
  have sortKnown {lid width : Nat} (known : scope.sortWidth? lid = some width) :=
    declaresWidth_of_sortWidth? known
  have valueKnown {lid width : Nat} (known : scope.valueWidth? lid = some width) :=
    hasWidth_of_valueWidth? known
  cases operation with
  | init s target value | next s target value =>
      simp only [Scope.rules, Operation.sort?, Option.bind_some, List.mem_cons, List.not_mem_nil,
        or_false, forall_eq_or_imp, forall_eq]
      refine ⟨rule_of_equal ?_, rule_of_equal ?_⟩
      · intro width result known declared
        exact (agree result (sortKnown declared)).1 width (valueKnown known)
      · intro width result known declared
        exact (agree result (sortKnown declared)).2 width (valueKnown known)
  | constraint condition name | bad condition name =>
      simp only [Scope.rules, List.mem_singleton, forall_eq]
      refine rule_of_equal ?_
      rintro width _ known ⟨⟩
      exact agree width (valueKnown known)
  | not s operand =>
      simp only [Scope.rules, Operation.sort?, Option.bind_some, List.mem_singleton, forall_eq]
      refine rule_of_equal fun width result known declared => ?_
      exact agree result width (sortKnown declared) (valueKnown known)
  | ite s condition onTrue onFalse =>
      obtain ⟨single, branches⟩ := agree
      simp only [Scope.rules, Operation.sort?, Option.bind_some, List.mem_cons, List.not_mem_nil,
        or_false, forall_eq_or_imp, forall_eq]
      refine ⟨rule_of_equal ?_, rule_of_equal ?_, rule_of_equal ?_⟩
      · rintro width _ known ⟨⟩
        exact single width (valueKnown known)
      · intro width result known declared
        exact (branches result (sortKnown declared)).1 width (valueKnown known)
      · intro width result known declared
        exact (branches result (sortKnown declared)).2 width (valueKnown known)
  | uext s operand extra name =>
      simp only [Scope.rules, Operation.sort?, Option.bind_some, List.mem_singleton, forall_eq]
      refine rule_of_equal fun result sum declared known => ?_
      obtain ⟨width, operandKnown, rfl⟩ := Option.map_eq_some_iff.mp known
      exact agree result width (sortKnown declared) (valueKnown operandKnown)
  | slice s operand lowBit bits =>
      obtain ⟨inside, result⟩ := agree
      simp only [Scope.rules, Operation.sort?, Option.bind_some, List.mem_cons, List.not_mem_nil,
        or_false, forall_eq_or_imp, forall_eq]
      refine ⟨rule_of_inside fun width known => ?_, rule_of_equal ?_⟩
      · have within := inside width (valueKnown known)
        have positive := literals.1
        omega
      · rintro width _ known ⟨⟩
        exact result width (sortKnown known)
  | binary op s left right => exact binaryRules_hold agree
  | sort kind | input s name | state s name | output value name | const s value | zero s | one s
  | ones s => exact fun rule member => absurd member List.not_mem_nil

/-! ## Designs -/

theorem readLine_of_words (wellFormed : Design.WellFormed scope.reverse)
    {instruction : Instruction} (formed : instruction.WellFormed scope.reverse)
    {words : List String} (shown : instruction.words = .ok words) {line : Line}
    (texts : line.tokens.map Token.text = words) : scope.readLine line = .ok instruction := by
  have taken := Reader.takes_instruction wellFormed line formed shown line.tokens texts
  rw [List.append_nil] at taken
  rw [readLine_of_ok taken, mismatch?_of_widthsAgree formed.literals formed.widths]
  rfl

/-- Lines with the printed words of instructions are read as these. -/
theorem readLines_of_words {rest : Design} {rows : List (List String)}
    (shown : List.Forall₂ (fun instruction words => instruction.words = .ok words) rest rows)
    (wellFormed : Design.WellFormed (scope.reverse ++ rest)) {lines : List Line}
    (texts : lines.map (·.tokens.map Token.text) = rows) :
    scope.readLines lines = .ok (rest.reverse ++ scope) := by
  induction shown generalizing scope lines with
  | nil =>
      rw [List.map_eq_nil_iff.mp texts]
      rfl
  | @cons instruction words rest rows first others ih =>
      obtain ⟨line, more, rfl, lineTexts, moreTexts⟩ := List.map_eq_cons_iff.mp texts
      have formed := wellFormed.at_place
      have read := readLine_of_words wellFormed.of_append formed first lineTexts
      rw [List.append_cons, ← List.reverse_cons] at wellFormed
      rw [readLines_cons, read]
      have later := ih wellFormed moreTexts
      rwa [List.append_cons, ← List.reverse_cons] at later

end Scope

/-- Numbers in their ranges can be printed. -/
theorem Operation.arguments_of_literals {earlier : Design} {operation : Operation}
    (literals : operation.LiteralsFit earlier) :
    ∃ arguments, operation.arguments = .ok arguments ∧ ∀ text ∈ arguments, IsWord text := by
  have tags : IsWord "bitvec" ∧ IsWord "array" :=
    ⟨isWord_of_isAlphanum (by decide) rfl, isWord_of_isAlphanum (by decide) rfl⟩
  cases operation with
  | sort kind =>
      cases kind with
      | bitVec width => exact ⟨_, rfl, by simp [tags.1]⟩
      | array index element => exact ⟨_, rfl, by simp [tags.2]⟩
  | slice s operand lowBit width =>
      obtain ⟨positive, -, inside⟩ := literals
      have upper : sliceUpper lowBit width = .ok (lowBit + (width - 1)) :=
        narrow_eq_ok (by omega)
      exact ⟨_, by rw [Operation.arguments, upper], by simp⟩
  | _ => exact ⟨_, rfl, by simp⟩

/-- An instruction that is well formed after some others can be printed as words. -/
theorem Instruction.WellFormed.words {earlier : Design} {instruction : Instruction}
    (formed : instruction.WellFormed earlier) :
    ∃ words, instruction.words = .ok words ∧ words ≠ [] ∧ ∀ text ∈ words, IsWord text := by
  obtain ⟨arguments, shown, areWords⟩ := Operation.arguments_of_literals formed.literals
  refine ⟨_, by rw [Instruction.words, shown], by simp, ?_⟩
  simp only [List.forall_mem_cons, List.forall_mem_append]
  refine ⟨isWord_repr _, isWord_keyword _, areWords, ?_⟩
  intro text member
  exact formed.symbol text (Option.mem_toList.mp member)

namespace Design

/-- A design is printed when each of its instructions is. -/
theorem text_of_words {design : Design} {rows : List (List String)}
    (shown : List.Forall₂ (fun instruction words => instruction.words = .ok words) design rows) :
    ∃ source, Design.text design = .ok source ∧ source.toList = rows.flatMap Source.printed := by
  induction shown with
  | nil => exact ⟨"", rfl, rfl⟩
  | @cons instruction words rest rows first others ih =>
      obtain ⟨source, restShown, characters⟩ := ih
      have lineShown : instruction.text = .ok (" ".intercalate words) := by
        rw [Instruction.text, first]
      refine ⟨" ".intercalate words ++ "\n" ++ source, ?_, ?_⟩
      · rw [Design.text, lineShown, restShown]
      · rw [String.toList_append, String.toList_append, characters]
        rfl

/-- The words of a well-formed design, line by line. -/
theorem WellFormed.rows {design : Design} (wellFormed : design.WellFormed) :
    ∃ rows : List (List String),
      List.Forall₂ (fun instruction words => Instruction.words instruction = .ok words) design rows ∧
      (∀ row ∈ rows, row ≠ []) ∧ ∀ row ∈ rows, ∀ text ∈ row, IsWord text := by
  induction wellFormed with
  | nil => exact ⟨[], .nil, by simp, by simp⟩
  | @snoc earlier instruction wellFormed formed ih =>
      obtain ⟨rows, shown, nonempty, areWords⟩ := ih
      obtain ⟨words, lastShown, lastNonempty, lastWords⟩ := formed.words
      refine ⟨rows ++ [words], List.rel_append shown (.cons lastShown .nil), ?_, ?_⟩
      · simpa [or_imp, forall_and] using ⟨nonempty, lastNonempty⟩
      · simpa [or_imp, forall_and] using ⟨areWords, lastWords⟩

/-- A text is read as a design if its lines are the words of the instructions. -/
theorem WellFormed.read_of_words {design : Design} (wellFormed : design.WellFormed)
    {rows : List (List String)}
    (shown : List.Forall₂ (fun instruction words => Instruction.words instruction = .ok words)
      design rows)
    {text : String} (texts : (Source.lines text).map (·.tokens.map Token.text) = rows) :
    Design.read text = .ok design := by
  have read : Scope.readLines [] (Source.lines text) = .ok (design.reverse ++ []) :=
    Scope.readLines_of_words shown (by simpa using wellFormed) texts
  rw [Design.read_eq, read, List.append_nil]
  exact congrArg Except.ok (List.reverse_reverse design)

/-- Printing a well-formed design succeeds, and reading what was printed gives the design back. -/
theorem read_text {design : Design} (wellFormed : design.WellFormed) :
    ∃ source, design.text = .ok source ∧ Design.read source = .ok design := by
  obtain ⟨rows, shown, nonempty, areWords⟩ := wellFormed.rows
  obtain ⟨source, printed, characters⟩ := text_of_words shown
  exact ⟨source, printed,
    wellFormed.read_of_words shown (Source.texts_lines_printed areWords nonempty characters)⟩

/-- The sample is printed in decimal, without its comment, and read back. -/
theorem read_text_mixed :
    Sample.mixed.WellFormed ∧
      ∃ source, Design.text Sample.mixed = .ok source ∧ source ≠ Sample.mixedSource ∧
        Design.read source = .ok Sample.mixed := by
  have wellFormed := wellFormed_of_read Sample.read_mixedSource
  obtain ⟨source, shown, read⟩ := read_text wellFormed
  refine ⟨wellFormed, source, shown, ?_, read⟩
  rintro rfl
  exact absurd shown (by decide +kernel)

end Design

end BoundedCheck
