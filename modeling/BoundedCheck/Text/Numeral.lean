/-!
# Numerals

Numbers as they are written in designs and on the command line: one or more digits of a base,
after an optional sign.  Both letter cases serve as digits above nine.
-/

namespace BoundedCheck.Text.Numeral

/-- The value of a digit, when the character is a digit of the base. -/
def digit? (base : Nat) (c : Char) : Option Nat :=
  let code := c.toNat
  let value :=
    if 48 ≤ code ∧ code ≤ 57 then some (code - 48)
    else if 65 ≤ code ∧ code ≤ 70 then some (code - 55)
    else if 97 ≤ code ∧ code ≤ 102 then some (code - 87)
    else none
  value.filter (· < base)

/-- Continues a number read so far with further digits. -/
def extend? (base : Nat) : Nat → List Char → Option Nat
  | value, [] => some value
  | value, c :: rest =>
    match digit? base c with
    | none => none
    | some digit => extend? base (base * value + digit) rest

/-- The value of a non-empty list of digits. -/
def magnitude? (base : Nat) : List Char → Option Nat
  | [] => none
  | digits => extend? base 0 digits

/-- A natural number with an optional plus sign. -/
def natural? (base : Nat) (text : String) : Option Nat :=
  match text.toList with
  | '+' :: digits => magnitude? base digits
  | digits => magnitude? base digits

/-- A decimal number below a bound, with an optional plus sign. -/
def below? (bound : Nat) (text : String) : Option Nat :=
  (natural? 10 text).filter (· < bound)

/-- A decimal integer with an optional sign. -/
def integer? (text : String) : Option Int :=
  match text.toList with
  | '-' :: digits => (magnitude? 10 digits).map fun value => -(value : Int)
  | '+' :: digits => (magnitude? 10 digits).map fun value => (value : Int)
  | digits => (magnitude? 10 digits).map fun value => (value : Int)

/-- A decimal integer that fits a two's complement word of the given number of bits. -/
def signed? (bits : Nat) (text : String) : Option Int :=
  let half : Nat := 1 <<< (bits - 1)
  (integer? text).filter fun (value : Int) => -(half : Int) ≤ value && value < (half : Int)

/-- The binary digits of a number, most significant first, behind zeros up to the width. -/
def binaryDigits (width value : Nat) : String :=
  String.ofList ((Nat.toDigits 2 value).leftpad width '0')

end BoundedCheck.Text.Numeral
