import BoundedCheck.Design.Constant
import BoundedCheck.Design.Scope
import BoundedCheck.Fault
import BoundedCheck.Source.Scan

/-!
# Reading designs

Each line of a source gives one instruction.  Its words are taken from left to right; references
must name earlier instructions of the right kind, and line ids must increase.  Reading stops at the
first line that is refused.  What it computes on the way is a parameter, so that the same reading can
be done with sums that stop at the end of their range.
-/

namespace BoundedCheck

/-- What a reading computes, and what it stops with. -/
class Arithmetic (ε : Type) where
  /-- Stops at a line that is refused. -/
  refusal : ReadError → ε
  /-- The lines of a source. -/
  lines : String → Except ε (List Line)
  /-- The place behind a line. -/
  lineEnd : Line → Except ε Span
  /-- The value of a constant. -/
  constant : Radix → Nat → String → Except ε (Except Constant.Refusal Nat)
  /-- How far a bit position is above another. -/
  difference : Nat → Nat → Except ε Nat
  /-- The width rules of an operation. -/
  rules : Scope → Operation → Except ε (List WidthRule)

/-- Places are counted on from zero beyond their range; nothing else leaves its range. -/
instance : Arithmetic ReadError where
  refusal := id
  lines source := .ok (Source.lines source)
  lineEnd line := .ok line.endSpan
  constant digits width text := .ok (Constant.read digits width text)
  difference upper lower := .ok (upper - lower)
  rules scope operation := .ok (scope.rules operation)

/-- Takes words from the front of a line. -/
abbrev Reader (ε α : Type) := StateT (List Token) (Except ε) α

namespace Reader

variable {ε α : Type}

/-- A result that takes no words. -/
def compute (result : Except ε α) : Reader ε α :=
  fun tokens => result.map (·, tokens)

variable [Arithmetic ε]

/-- Refuses the line. -/
def refuse (cause : Cause) (span : Span) : Reader ε α :=
  fun _ => .error (Arithmetic.refusal ⟨cause, span⟩)

/-- The next word of a line. -/
def word (line : Line) (expected : Expectation) : Reader ε Token
  | [] => (Arithmetic.lineEnd line).bind fun span =>
    .error (Arithmetic.refusal ⟨.missingArgument expected, span⟩)
  | token :: rest => .ok (token, rest)

/-- The optional symbol at the end of a line, after which nothing follows. -/
def symbol : Reader ε (Option String)
  | [] => .ok (none, [])
  | [name] => .ok (some name.text, [])
  | _ :: extra :: _ =>
    .error (Arithmetic.refusal ⟨.unexpectedToken .endOfLine extra.text, extra.span⟩)

/-- A number below a bound. -/
def number (bound : Nat) (token : Token) : Reader ε Nat :=
  match Text.Numeral.below? bound token.text with
  | some value => pure value
  | none => refuse (.invalidNumber token.text) token.span

/-- A line id, which is positive. -/
def lid (token : Token) : Reader ε Nat :=
  match (Text.Numeral.below? wideBound token.text).filter (0 < ·) with
  | some value => pure value
  | none => refuse (.invalidNumber token.text) token.span

/-- The instruction that a word refers to. -/
def reference (scope : Scope) (token : Token) : Reader ε Instruction :=
  if token.text.toList.head? = some '-' then
    refuse (.negatedOperand token.text) token.span
  else do
    let target ← lid token
    match scope.find target with
    | some instruction => pure instruction
    | none => refuse (.undefinedReference target) token.span

/-- A reference to a sort, with what the sort declares. -/
def sortRef (scope : Scope) (line : Line) : Reader ε (Nat × SortKind) := do
  let token ← word line .sortId
  let target ← reference scope token
  match target.operation with
  | .sort kind => pure (target.lid, kind)
  | _ => refuse (.notASort target.lid) token.span

/-- A reference to a state. -/
def stateRef (scope : Scope) (line : Line) : Reader ε Nat := do
  let token ← word line .stateId
  let target ← reference scope token
  if target.operation.isState then pure target.lid
  else refuse (.notAState target.lid) token.span

/-- A reference to an instruction with a value. -/
def operand (scope : Scope) (line : Line) : Reader ε Nat := do
  let token ← word line .operandId
  let target ← reference scope token
  if target.operation.isValue then pure target.lid
  else refuse (.notAValue target.lid) token.span

/-- What a sort instruction declares. -/
def sortKind (scope : Scope) (line : Line) : Reader ε SortKind := do
  let tag ← word line .sortKind
  if tag.text = "bitvec" then do
    let token ← word line .bitVecWidth
    let width ← number narrowBound token
    if width = 0 then refuse (.malformed .zeroWidth) token.span
    else pure (.bitVec width)
  else if tag.text = "array" then do
    let index ← sortRef scope line
    let element ← sortRef scope line
    pure (.array index.1 element.1)
  else refuse (.unexpectedToken .sortName tag.text) tag.span

/-- The value of a constant, or why its digits are refused. -/
def judge (width : Nat) (token : Token) : Except Constant.Refusal Nat → Reader ε Nat
  | .ok value => pure value
  | .error .invalid => refuse (.invalidNumber token.text) token.span
  | .error .overflow => refuse (.constantOverflow token.text width) token.span

/-- The digits of a constant. -/
def constant (digits : Radix) (width : Nat) (token : Token) : Reader ε Nat :=
  compute (Arithmetic.constant digits width token.text) >>= judge width token

/-- The place of the sort of an instruction. -/
def sortSpan (line : Line) : Span :=
  match line.tokens[2]? with
  | some token => token.span
  | none => line.span

/-- The place of the keyword of an instruction. -/
def keywordSpan (line : Line) : Span :=
  match line.tokens[1]? with
  | some token => token.span
  | none => line.span

/-- The bits of a slice, given by its upper and lower bit. -/
def sliceBits (line : Line) : Reader ε (Nat × Nat) := do
  let token ← word line .upperBit
  let upper ← number narrowBound token
  let lower ← number narrowBound (← word line .lowerBit)
  if upper < lower then refuse (.malformed (.reversedSlice upper lower)) token.span
  else
    let above ← compute (Arithmetic.difference upper lower)
    if above + 1 < narrowBound then pure (lower, above + 1)
    else refuse (.malformed (.wideSlice upper lower)) token.span

/-- The arguments of a keyword, with the symbol that may follow them. -/
def operation (scope : Scope) (line : Line) : Keyword → Reader ε Operation
  | .sort => do
    let kind ← sortKind scope line
    let _ ← symbol
    pure (.sort kind)
  | .input => do
    let sort ← sortRef scope line
    pure (.input sort.1 (← symbol))
  | .state => do
    let sort ← sortRef scope line
    pure (.state sort.1 (← symbol))
  | .init => do
    let sort ← sortRef scope line
    let state ← stateRef scope line
    let value ← operand scope line
    let _ ← symbol
    pure (.init sort.1 state value)
  | .next => do
    let sort ← sortRef scope line
    let state ← stateRef scope line
    let value ← operand scope line
    let _ ← symbol
    pure (.next sort.1 state value)
  | .constraint => do
    let condition ← operand scope line
    pure (.constraint condition (← symbol))
  | .bad => do
    let condition ← operand scope line
    pure (.bad condition (← symbol))
  | .output => do
    let value ← operand scope line
    pure (.output value (← symbol))
  | .const digits => do
    let sort ← sortRef scope line
    match sort.2 with
    | .array _ _ => refuse (.malformed .constantSort) (sortSpan line)
    | .bitVec width =>
      let token ← word line .constantValue
      let value ← constant digits width token
      let _ ← symbol
      pure (.const sort.1 value)
  | .zero => do
    let sort ← sortRef scope line
    let _ ← symbol
    pure (.zero sort.1)
  | .one => do
    let sort ← sortRef scope line
    let _ ← symbol
    pure (.one sort.1)
  | .ones => do
    let sort ← sortRef scope line
    let _ ← symbol
    pure (.ones sort.1)
  | .not => do
    let sort ← sortRef scope line
    let value ← operand scope line
    let _ ← symbol
    pure (.not sort.1 value)
  | .binary op => do
    let sort ← sortRef scope line
    let left ← operand scope line
    let right ← operand scope line
    let _ ← symbol
    pure (.binary op sort.1 left right)
  | .ite => do
    let sort ← sortRef scope line
    let condition ← operand scope line
    let onTrue ← operand scope line
    let onFalse ← operand scope line
    let _ ← symbol
    pure (.ite sort.1 condition onTrue onFalse)
  | .uext => do
    let sort ← sortRef scope line
    let value ← operand scope line
    let extra ← number narrowBound (← word line .extensionWidth)
    pure (.uext sort.1 value extra (← symbol))
  | .slice => do
    let sort ← sortRef scope line
    let value ← operand scope line
    let bits ← sliceBits line
    let _ ← symbol
    pure (.slice sort.1 value bits.1 bits.2)

/-- A line id that no earlier instruction has and that is greater than all of them. -/
def freshLid (scope : Scope) (line : Line) : Reader ε Nat := do
  let token ← word line .lid
  let value ← lid token
  if (scope.find value).isSome then refuse (.duplicateLid value) token.span
  else if value ≤ scope.lastLid then
    refuse (.nonIncreasingLid value scope.lastLid) token.span
  else pure value

/-- The second word of a line. -/
def keyword (line : Line) : Reader ε Keyword := do
  let token ← word line .keyword
  match Keyword.ofText? token.text with
  | some keyword => pure keyword
  | none => refuse (.unsupportedOperator token.text) token.span

/-- The words of a line as an instruction, before its widths are checked. -/
def instruction (scope : Scope) (line : Line) : Reader ε Instruction := do
  let lid ← freshLid scope line
  let keyword ← keyword line
  let operation ← operation scope line keyword
  pure ⟨lid, operation⟩

end Reader

/-- The instruction of a line whose widths obey the rules, by any arithmetic. -/
def Arithmetic.readLine (ε : Type) [Arithmetic ε] (scope : Scope) (line : Line) :
    Except ε Instruction :=
  match Reader.instruction scope line line.tokens with
  | .error stop => .error stop
  | .ok (instruction, _) =>
    match Arithmetic.rules scope instruction.operation with
    | .error stop => .error stop
    | .ok rules =>
      match rules.findSome? WidthRule.mismatch? with
      | some mismatch =>
        .error (refusal ⟨.sortMismatch instruction.lid mismatch, Reader.keywordSpan line⟩)
      | none => .ok instruction

/-- Reads lines one after the other, each in the scope of those before it. -/
def Arithmetic.readLines (ε : Type) [Arithmetic ε] (scope : Scope) : List Line → Except ε Scope
  | [] => .ok scope
  | line :: rest =>
    match readLine ε scope line with
    | .error stop => .error stop
    | .ok instruction => readLines ε (instruction :: scope) rest

/-- The design that a text describes, by any arithmetic. -/
def Arithmetic.read (ε : Type) [Arithmetic ε] (source : String) : Except ε Design :=
  match Arithmetic.lines source with
  | .error stop => .error stop
  | .ok lines =>
    match readLines ε [] lines with
    | .error stop => .error stop
    | .ok scope => .ok scope.reverse

/-- The instruction of a line whose widths obey the rules. -/
def Scope.readLine (scope : Scope) (line : Line) : Except ReadError Instruction :=
  Arithmetic.readLine ReadError scope line

/-- Reads lines one after the other, each in the scope of those before it. -/
def Scope.readLines (scope : Scope) (lines : List Line) : Except ReadError Scope :=
  Arithmetic.readLines ReadError scope lines

/-- The design that a text describes. -/
def Design.read (source : String) : Except ReadError Design :=
  Arithmetic.read ReadError source

/-! ## One step at a time -/

theorem Reader.constant_eq (digits : Radix) (width : Nat) (token : Token) :
    Reader.constant (ε := ReadError) digits width token =
      Reader.judge width token (Constant.read digits width token.text) := rfl

theorem Reader.difference_bind {α : Type} (upper lower : Nat) (next : Nat → Reader ReadError α) :
    (Reader.compute (Arithmetic.difference upper lower) >>= next) = next (upper - lower) := rfl

namespace Scope

variable {scope : Scope} {line : Line}

theorem readLine_of_error {error : ReadError}
    (refused : Reader.instruction scope line line.tokens = .error error) :
    scope.readLine line = .error error := by
  simp only [readLine, Arithmetic.readLine, refused]

theorem readLine_of_ok {instruction : Instruction} {rest : List Token}
    (taken : Reader.instruction (ε := ReadError) scope line line.tokens = .ok (instruction, rest)) :
    scope.readLine line = (scope.mismatch? instruction.operation).elim (.ok instruction)
      fun mismatch => .error ⟨.sortMismatch instruction.lid mismatch, Reader.keywordSpan line⟩ := by
  simp only [readLine, Arithmetic.readLine, taken, Arithmetic.rules, Arithmetic.refusal, id]
  unfold mismatch?
  cases (scope.rules instruction.operation).findSome? WidthRule.mismatch? with
  | none => rfl
  | some mismatch => rfl

/-- A line that is read was taken as an instruction that breaks no rule. -/
theorem readLine_eq_ok {instruction : Instruction}
    (accepted : scope.readLine line = .ok instruction) :
    ∃ rest, Reader.instruction (ε := ReadError) scope line line.tokens = .ok (instruction, rest) ∧
      scope.mismatch? instruction.operation = none := by
  cases taken : Reader.instruction (ε := ReadError) scope line line.tokens with
  | error error =>
      rw [readLine_of_error taken] at accepted
      cases accepted
  | ok outcome =>
      obtain ⟨candidate, rest⟩ := outcome
      rw [readLine_of_ok taken] at accepted
      cases clean : scope.mismatch? candidate.operation with
      | none =>
          rw [clean] at accepted
          cases accepted
          exact ⟨rest, rfl, clean⟩
      | some mismatch =>
          rw [clean] at accepted
          cases accepted

/-- A line is refused while its words are taken, or for a rule that its instruction breaks. -/
theorem readLine_eq_error {error : ReadError} (refused : scope.readLine line = .error error) :
    Reader.instruction scope line line.tokens = .error error ∨
      ∃ instruction rest mismatch,
        Reader.instruction (ε := ReadError) scope line line.tokens = .ok (instruction, rest) ∧
        error = ⟨.sortMismatch instruction.lid mismatch, Reader.keywordSpan line⟩ := by
  cases taken : Reader.instruction (ε := ReadError) scope line line.tokens with
  | error failure =>
      rw [readLine_of_error taken] at refused
      cases refused
      exact Or.inl rfl
  | ok outcome =>
      obtain ⟨instruction, rest⟩ := outcome
      rw [readLine_of_ok taken] at refused
      cases found : scope.mismatch? instruction.operation with
      | none =>
          rw [found] at refused
          cases refused
      | some mismatch =>
          rw [found] at refused
          cases refused
          exact Or.inr ⟨instruction, rest, mismatch, rfl, rfl⟩

theorem readLines_cons (scope : Scope) (line : Line) (rest : List Line) :
    scope.readLines (line :: rest) =
      (scope.readLine line).bind fun instruction => readLines (instruction :: scope) rest := by
  simp only [readLines, Arithmetic.readLines, readLine]
  cases Arithmetic.readLine ReadError scope line with
  | error error => rfl
  | ok instruction => rfl

theorem readLines_cons_eq_ok {rest : List Line} {final : Scope}
    (accepted : scope.readLines (line :: rest) = .ok final) :
    ∃ instruction, scope.readLine line = .ok instruction ∧
      readLines (instruction :: scope) rest = .ok final := by
  rw [readLines_cons] at accepted
  cases read : scope.readLine line with
  | error error =>
      rw [read] at accepted
      cases accepted
  | ok instruction =>
      rw [read] at accepted
      exact ⟨instruction, rfl, accepted⟩

end Scope

namespace Design

variable {source : String}

theorem read_eq (source : String) :
    read source = (Scope.readLines [] (Source.lines source)).map List.reverse := by
  simp only [read, Arithmetic.read, Arithmetic.lines, Scope.readLines]
  cases Arithmetic.readLines ReadError [] (Source.lines source) with
  | error error => rfl
  | ok scope => rfl

theorem readLines_of_ok {design : Design} (accepted : read source = .ok design) :
    Scope.readLines [] (Source.lines source) = .ok design.reverse := by
  rw [read_eq] at accepted
  cases found : Scope.readLines [] (Source.lines source) with
  | error error =>
      rw [found] at accepted
      cases accepted
  | ok scope =>
      rw [found] at accepted
      cases accepted
      rw [List.reverse_reverse]

theorem readLines_of_error {error : ReadError} (refused : read source = .error error) :
    Scope.readLines [] (Source.lines source) = .error error := by
  rw [read_eq] at refused
  cases found : Scope.readLines [] (Source.lines source) with
  | error failure =>
      rw [found] at refused
      cases refused
      rfl
  | ok scope =>
      rw [found] at refused
      cases refused

end Design

end BoundedCheck
