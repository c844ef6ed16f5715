import BoundedCheck.Fault

/-!
# Spans

A span is a piece of a source text: its byte offsets in UTF-8, and the line and column at which it
starts.  Lines and columns are counted from one, columns in characters, and both in 32 bits.
-/

namespace BoundedCheck

/-- A half-open range of bytes with the line and column of its start. -/
structure Span where
  start : Nat
  stop : Nat
  line : Nat
  column : Nat
  deriving DecidableEq, Repr, Inhabited

namespace Span

/-- The span of no text at all. -/
def nowhere : Span := ⟨0, 0, 0, 0⟩

/-- The least range that covers both spans; the column is that of the span on the earlier line. -/
def merge (a b : Span) : Span where
  start := min a.start b.start
  stop := max a.stop b.stop
  line := min a.line b.line
  column := if a.line ≤ b.line then a.column else b.column

/-- The number of bytes; a span that ends before it starts has none. -/
def length (s : Span) : Except Fault Nat :=
  if s.start ≤ s.stop then .ok (s.stop - s.start) else .error .overflow

/-- A span is empty when it ends where it starts. -/
def isEmpty (s : Span) : Bool :=
  s.start == s.stop

/-- The span with what 32 bits hold of its line and column. -/
def wrapped (s : Span) : Span :=
  { s with line := s.line % narrowBound, column := s.column % narrowBound }

/-- A span is shown by its line and column. -/
def text (s : Span) : String :=
  s!"{s.line}:{s.column}"

theorem merge_self (s : Span) : s.merge s = s := by
  simp [merge]

end Span

end BoundedCheck
