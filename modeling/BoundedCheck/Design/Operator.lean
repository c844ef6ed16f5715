/-!
# Binary operators

The operators of a design that take two words.
-/

namespace BoundedCheck

/-- An operator on two words; the comparisons are the ten from `eq` to `slte`. -/
inductive BinaryOp where
  | add | sub | mul | sdiv | udiv | smod
  | sll | srl | sra
  | and | or | xor
  | concat
  | eq | neq | ugt | sgt | ugte | sgte | ult | slt | ulte | slte
  | implies | iff
  deriving DecidableEq, Repr

namespace BinaryOp

/-- Every operator once. -/
def all : List BinaryOp :=
  [.add, .sub, .mul, .sdiv, .udiv, .smod, .sll, .srl, .sra, .and, .or, .xor, .concat,
    .eq, .neq, .ugt, .sgt, .ugte, .sgte, .ult, .slt, .ulte, .slte, .implies, .iff]

theorem mem_all (op : BinaryOp) : op ∈ all := by
  cases op <;> decide

/-- The word that stands for an operator in a design. -/
def name : BinaryOp → String
  | add => "add"
  | sub => "sub"
  | mul => "mul"
  | sdiv => "sdiv"
  | udiv => "udiv"
  | smod => "smod"
  | sll => "sll"
  | srl => "srl"
  | sra => "sra"
  | and => "and"
  | or => "or"
  | xor => "xor"
  | concat => "concat"
  | eq => "eq"
  | neq => "neq"
  | ugt => "ugt"
  | sgt => "sgt"
  | ugte => "ugte"
  | sgte => "sgte"
  | ult => "ult"
  | slt => "slt"
  | ulte => "ulte"
  | slte => "slte"
  | implies => "implies"
  | iff => "iff"

/-- The operator that a word stands for. -/
def ofName? (word : String) : Option BinaryOp :=
  all.find? (·.name == word)

theorem ofName?_name (op : BinaryOp) : ofName? op.name = some op := by
  cases op <;> decide

/-- A comparison answers with a single bit. -/
def isComparison : BinaryOp → Bool
  | eq | neq | ugt | sgt | ugte | sgte | ult | slt | ulte | slte => true
  | _ => false

/-- The place of an operator in the list of all. -/
def position (op : BinaryOp) : Nat :=
  all.idxOf op

end BinaryOp

end BoundedCheck
