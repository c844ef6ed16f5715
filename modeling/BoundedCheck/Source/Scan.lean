import BoundedCheck.Source.Line
import BoundedCheck.Text.Blank

/-!
# Lines of a text

A text is cut after each line feed.  In every piece the text before the first semicolon is code;
its words, the longest runs without a blank, become the tokens of a line.  Pieces without a word
give no line, but are counted.  Lines and columns are kept in 32 bits: a source with more of them
starts to count again at zero.
-/

namespace BoundedCheck.Source

/-- The number of bytes of a text in UTF-8. -/
def byteLength (text : List Char) : Nat :=
  text.foldr (fun c length => c.utf8Size + length) 0

/-- Cuts after each line feed.  `piece` holds the characters of the piece under way, newest first. -/
def cutFrom (piece : List Char) : List Char → List (List Char)
  | [] => if piece.isEmpty then [] else [piece.reverse]
  | c :: rest =>
    if c = '\n' then (c :: piece).reverse :: cutFrom [] rest else cutFrom (c :: piece) rest

/-- The pieces of a text, each but the last ending in its only line feed. -/
def pieces (text : List Char) : List (List Char) :=
  cutFrom [] text

/-- The part of a piece before its comment. -/
def code (piece : List Char) : List Char :=
  piece.takeWhile (· != ';')

/-- The token of a word that starts at the given byte and column. -/
def token (line start column : Nat) (word : List Char) : Token :=
  ⟨String.ofList word, ⟨start, start + byteLength word, line, column⟩⟩

/--
The words of a text.  `word` holds the characters of the word under way, newest first; it starts
at byte `start` and column `column`.
-/
def wordsFrom (line start column : Nat) (word : List Char) : List Char → List Token
  | [] => if word.isEmpty then [] else [token line start column word.reverse]
  | c :: rest =>
    if Text.isBlank c then
      if word.isEmpty then
        wordsFrom line (start + c.utf8Size) (column + 1) [] rest
      else
        token line start column word.reverse ::
          wordsFrom line (start + byteLength word + c.utf8Size) (column + word.length + 1) [] rest
    else
      wordsFrom line start column (c :: word) rest

/-- The tokens of the piece that starts at the given byte. -/
def tokens (line start : Nat) (piece : List Char) : List Token :=
  wordsFrom line start 1 [] (code piece)

/-- The lines of consecutive pieces, of which the first starts at the given byte. -/
def linesFrom (number start : Nat) : List (List Char) → List Line
  | [] => []
  | piece :: rest =>
    match tokens number start piece with
    | [] => linesFrom (number + 1) (start + byteLength piece) rest
    | first :: others =>
      ⟨number, first :: others⟩ :: linesFrom (number + 1) (start + byteLength piece) rest

/-- The lines of a text that hold at least one word, with all their places counted exactly. -/
def exactLines (text : String) : List Line :=
  linesFrom 1 0 (pieces text.toList)

/-- The lines of a text that hold at least one word. -/
def lines (text : String) : List Line :=
  (exactLines text).map Line.wrapped

end BoundedCheck.Source
