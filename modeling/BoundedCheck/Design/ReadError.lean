import BoundedCheck.Design.Instruction
import BoundedCheck.Source.Span

/-!
# Errors of reading

Each error has a cause and the span of the text that shows it.
-/

namespace BoundedCheck

/-- What a line should have had at some place. -/
inductive Expectation where
  | lid
  | keyword
  | sortKind
  | sortName
  | bitVecWidth
  | sortId
  | stateId
  | operandId
  | constantValue
  | extensionWidth
  | upperBit
  | lowerBit
  | endOfLine
  deriving DecidableEq, Repr

/-- The wording of an expectation. -/
def Expectation.text : Expectation → String
  | .lid => "lid"
  | .keyword => "keyword"
  | .sortKind => "sort kind"
  | .sortName => "`bitvec` or `array`"
  | .bitVecWidth => "bitvector width"
  | .sortId => "sort id"
  | .stateId => "state id"
  | .operandId => "operand id"
  | .constantValue => "constant value"
  | .extensionWidth => "extension width"
  | .upperBit => "upper bit"
  | .lowerBit => "lower bit"
  | .endOfLine => "end of line"

/-- The part that a word plays in an instruction. -/
inductive Role where
  | state
  | value
  | condition
  | operand
  | thenBranch
  | elseBranch
  | leftOperand
  | rightOperand
  | resultSort
  deriving DecidableEq, Repr

/-- The wording of a role. -/
def Role.text : Role → String
  | .state => "state"
  | .value => "value"
  | .condition => "condition"
  | .operand => "operand"
  | .thenBranch => "then branch"
  | .elseBranch => "else branch"
  | .leftOperand => "left operand"
  | .rightOperand => "right operand"
  | .resultSort => "result sort"

/-- How the widths of an instruction disagree. -/
inductive Mismatch where
  | width (role : Role) (actual expected : Nat)
  | outside (upper operandWidth : Nat)
  deriving DecidableEq, Repr

/-- The wording of a disagreement. -/
def Mismatch.text : Mismatch → String
  | .width role actual expected => s!"{role.text} has width {actual}, expected {expected}"
  | .outside upper operandWidth => s!"slice upper bit {upper} is outside a {operandWidth}-bit operand"

/-- Arguments that are numbers but make no sense together. -/
inductive Malformation where
  | zeroWidth
  | constantSort
  | reversedSlice (upper lower : Nat)
  | wideSlice (upper lower : Nat)
  deriving DecidableEq, Repr

/-- The wording of a malformation. -/
def Malformation.text : Malformation → String
  | .zeroWidth => "bitvector width must be positive"
  | .constantSort => "constants require a bitvector sort"
  | .reversedSlice upper lower => s!"slice upper bit {upper} is below lower bit {lower}"
  | .wideSlice upper lower => s!"slice {upper}..{lower} is too wide"

/-- Why a line is refused. -/
inductive Cause where
  | unexpectedToken (expected : Expectation) (found : String)
  | missingArgument (expected : Expectation)
  | unsupportedOperator (name : String)
  | negatedOperand (text : String)
  | duplicateLid (lid : Nat)
  | nonIncreasingLid (lid previous : Nat)
  | undefinedReference (lid : Nat)
  | notASort (lid : Nat)
  | notAState (lid : Nat)
  | notAValue (lid : Nat)
  | invalidNumber (text : String)
  | constantOverflow (text : String) (width : Nat)
  | malformed (malformation : Malformation)
  | sortMismatch (lid : Nat) (mismatch : Mismatch)
  deriving DecidableEq, Repr

/-- A cause with the place that shows it. -/
structure ReadError where
  cause : Cause
  span : Span
  deriving DecidableEq, Repr

/-- The wording of an error. -/
def ReadError.message (error : ReadError) : String :=
  let place := error.span.text
  match error.cause with
  | .unexpectedToken expected found =>
    s!"unexpected token at {place}: expected {expected.text}, found `{found}`"
  | .missingArgument expected => s!"missing argument at {place}: expected {expected.text}"
  | .unsupportedOperator name => s!"unsupported operator `{name}` at {place}"
  | .negatedOperand text => s!"negated operand `{text}` at {place} is not supported"
  | .duplicateLid lid => s!"duplicate lid {lid} at {place}"
  | .nonIncreasingLid lid previous =>
    s!"lid {lid} at {place} is not greater than the previous lid {previous}"
  | .undefinedReference lid => s!"reference to undefined lid {lid} at {place}"
  | .notASort lid => s!"lid {lid} at {place} is not a sort"
  | .notAState lid => s!"lid {lid} at {place} is not a state"
  | .notAValue lid => s!"lid {lid} at {place} does not produce a value"
  | .invalidNumber text => s!"invalid number `{text}` at {place}"
  | .constantOverflow text width => s!"constant `{text}` at {place} does not fit in {width} bits"
  | .malformed malformation => s!"invalid syntax at {place}: {malformation.text}"
  | .sortMismatch lid mismatch => s!"sort mismatch in lid {lid} at {place}: {mismatch.text}"

end BoundedCheck
