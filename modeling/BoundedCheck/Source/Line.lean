import BoundedCheck.Source.Span

/-!
# Tokens and lines

A token is a word of the source with its span; a line holds the tokens of one source line.
-/

namespace BoundedCheck

/-- A word of the source. -/
structure Token where
  text : String
  span : Span
  deriving DecidableEq, Repr

/-- The words of one source line, from left to right. -/
structure Line where
  number : Nat
  tokens : List Token
  deriving DecidableEq, Repr

namespace Line

/-- From the first token to the last. -/
def span (line : Line) : Span :=
  match line.tokens.head?, line.tokens.getLast? with
  | some first, some last => first.span.merge last.span
  | _, _ => Span.nowhere

/-- The column right after a token, before it is cut to 32 bits. -/
def columnAfter (last : Token) : Nat :=
  last.span.column + last.text.length % narrowBound

/-- The empty span right after the last token. -/
def endSpan (line : Line) : Span :=
  match line.tokens.getLast? with
  | some last => ⟨last.span.stop, last.span.stop, line.number, columnAfter last % narrowBound⟩
  | none => Span.nowhere

/-- The end of a line, provided that its column is a quantity of 32 bits. -/
def checkedEnd (line : Line) : Except Fault Span :=
  match line.tokens.getLast? with
  | some last =>
    match narrow (columnAfter last) with
    | .ok column => .ok ⟨last.span.stop, last.span.stop, line.number, column⟩
    | .error fault => .error fault
  | none => .ok Span.nowhere

/-- The line with what 32 bits hold of its number and of the places of its tokens. -/
def wrapped (line : Line) : Line where
  number := line.number % narrowBound
  tokens := line.tokens.map fun token => { token with span := token.span.wrapped }

end Line

end BoundedCheck
