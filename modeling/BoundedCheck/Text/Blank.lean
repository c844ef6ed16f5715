/-!
# Blank characters

The characters that separate words in a design: the code points with the Unicode property
`White_Space`.
-/

namespace BoundedCheck.Text

/-- The first and last code point of each run of `White_Space`, in increasing order. -/
def blankRanges : List (Nat × Nat) :=
  [(0x09, 0x0D), (0x20, 0x20), (0x85, 0x85), (0xA0, 0xA0), (0x1680, 0x1680), (0x2000, 0x200A),
    (0x2028, 0x2029), (0x202F, 0x202F), (0x205F, 0x205F), (0x3000, 0x3000)]

/-- A character is blank when its code point lies in one of the runs. -/
def isBlank (c : Char) : Bool :=
  blankRanges.any fun (first, last) => first ≤ c.toNat && c.toNat ≤ last

/-- The line feed separates words as well as lines. -/
theorem isBlank_newline : isBlank '\n' = true := by decide

/-- The words of a printed instruction are separated by a blank. -/
theorem isBlank_space : isBlank ' ' = true := by decide

end BoundedCheck.Text
