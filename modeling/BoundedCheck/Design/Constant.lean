import BoundedCheck.Design.Keyword
import BoundedCheck.Text.Numeral
import BoundedCheck.Word

/-!
# Constants

The digits of a constant, read for a sort of the given width.  A value must fit the width and also
a 64-bit word; a negative decimal number stands for its two's complement.
-/

namespace BoundedCheck.Constant

/-- Why the digits of a constant are refused. -/
inductive Refusal where
  /-- The text is not a number of the notation. -/
  | invalid
  /-- The number does not fit. -/
  | overflow
  deriving DecidableEq, Repr

/-- Refuses a value that does not fit the width. -/
def fit (width value : Nat) : Except Refusal Nat :=
  if value < Word.bound width then .ok value else .error .overflow

/-- Binary digits; a text longer than the width is refused whatever it holds. -/
def readBinary (width : Nat) (text : String) : Except Refusal Nat :=
  if width < text.utf8ByteSize then .error .overflow
  else
    match Text.Numeral.magnitude? 2 text.toList with
    | some value => fit width value
    | none => .error .invalid

/-- Hexadecimal digits of a number of at most 128 bits. -/
def readHexadecimal (width : Nat) (text : String) : Except Refusal Nat :=
  match (Text.Numeral.natural? 16 text).filter (· < 1 <<< 128) with
  | some value => fit width value
  | none => .error .invalid

/-- The word of a decimal number; negative numbers go down to the least two's complement number. -/
def ofInteger (width : Nat) : Int → Except Refusal Nat
  | .ofNat value => fit width value
  | .negSucc predecessor =>
    if 64 < width then .error .overflow
    else if predecessor + 1 ≤ Word.bound width / 2 then
      fit width (Word.bound width - (predecessor + 1))
    else .error .overflow

/-- A decimal number of at most 128 bits with sign. -/
def readDecimal (width : Nat) (text : String) : Except Refusal Nat :=
  match Text.Numeral.signed? 128 text with
  | some value => ofInteger width value
  | none => .error .invalid

/-- The value of a constant. -/
def read (digits : Radix) (width : Nat) (text : String) : Except Refusal Nat :=
  match digits with
  | .binary => readBinary width text
  | .hexadecimal => readHexadecimal width text
  | .decimal => readDecimal width text

end BoundedCheck.Constant
