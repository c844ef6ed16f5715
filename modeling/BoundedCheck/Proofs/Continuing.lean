import Mathlib
import BoundedCheck.Proofs.Blaming
import BoundedCheck.Proofs.Tokens

/-!
# Sources that go on

Text behind whole lines leaves the lines before it as they are.  A source that was refused is refused
for the same reason however it goes on; one that was read keeps its instructions, and an error can
only be found in what was added.
-/

namespace BoundedCheck

/-! ## Lines of a longer source -/

namespace Source

theorem cutFrom_append_break (piece body more : List Char) :
    cutFrom piece (body ++ '\n' :: more) = cutFrom piece (body ++ ['\n']) ++ cutFrom [] more := by
  induction body generalizing piece with
  | nil => simp [cutFrom]
  | cons c rest ih =>
      simp only [List.cons_append, cutFrom]
      split
      · rw [ih, List.cons_append]
      · exact ih _

theorem length_cutFrom_break (piece body : List Char) :
    (cutFrom piece (body ++ ['\n'])).length = body.count '\n' + 1 := by
  induction body generalizing piece with
  | nil => simp [cutFrom]
  | cons c rest ih =>
      simp only [List.cons_append, cutFrom]
      split
      · rename_i breaks
        rw [breaks, List.length_cons, ih, List.count_cons_self]
      · rename_i different
        rw [ih, List.count_cons_of_ne different]

namespace Whole

variable {text : List Char}

theorem pieces_append (whole : Whole text) (more : List Char) :
    pieces (text ++ more) = pieces text ++ pieces more := by
  rcases whole with rfl | ⟨body, rfl⟩
  · rfl
  · rw [List.append_assoc]
    exact cutFrom_append_break [] body more

theorem length_pieces (whole : Whole text) : (pieces text).length = text.count '\n' := by
  rcases whole with rfl | ⟨body, rfl⟩
  · rfl
  · rw [List.count_append, List.count_singleton_self]
    exact length_cutFrom_break [] body

end Whole

theorem linesFrom_append (number start : Nat) (front back : List (List Char)) :
    linesFrom number start (front ++ back) = linesFrom number start front ++
      linesFrom (number + front.length) (start + byteLength front.flatten) back := by
  induction front generalizing number start with
  | nil => rfl
  | cons piece rest ih =>
      rw [List.cons_append, linesFrom_cons, ih, linesFrom_cons number start piece rest,
        List.append_assoc, List.flatten_cons, byteLength_append, List.length_cons, Nat.add_assoc,
        Nat.add_assoc, Nat.add_comm 1]

/-- The lines of a text that stands behind whole lines. -/
def linesBehind (before text : List Char) : List Line :=
  (linesFrom (before.count '\n' + 1) (byteLength before) (pieces text)).map Line.wrapped

/-- More text behind whole lines gives more lines. -/
theorem lines_append {text : String} (whole : Whole text.toList) (more : String) :
    lines (text ++ more) = lines text ++ linesBehind text.toList more.toList := by
  rw [lines, exactLines, String.toList_append, whole.pieces_append, linesFrom_append,
    whole.length_pieces, flatten_pieces, Nat.add_comm 1, Nat.zero_add, List.map_append]
  rfl

/-- What is added starts behind the text that was there. -/
theorem start_of_mem_linesBehind {before text : List Char} (whole : Whole before) {line : Line}
    (member : line ∈ linesBehind before text) {t : Token} (inside : t ∈ line.tokens) :
    byteLength before ≤ t.span.start ∧ t.span.start ≤ t.span.stop := by
  obtain ⟨counted, listed, rfl⟩ := List.mem_map.mp member
  obtain ⟨u, found, rfl⟩ := List.mem_map.mp inside
  have scanned := scanned_linesFrom (cut_pieces text) whole
  obtain ⟨gap, after, placed⟩ := scanned.placed (List.mem_flatMap.mpr ⟨counted, listed, found⟩)
  simp only [Span.wrapped, placed.span, spanAfter, byteLength_append]
  omega

theorem tokens_ne_nil_of_mem_linesBehind {before text : List Char} {line : Line}
    (member : line ∈ linesBehind before text) : line.tokens ≠ [] := by
  obtain ⟨counted, listed, rfl⟩ := List.mem_map.mp member
  obtain ⟨earlier, later, shape⟩ := List.append_of_mem listed
  obtain ⟨-, -, -, -, -, -, nonempty, -⟩ := linesFrom_eq_append_cons shape
  simpa [Line.wrapped] using nonempty

end Source

/-- An error of a line does not point before the tokens of the line. -/
theorem Line.Blames.start_le {line : Line} {error : ReadError} (blames : line.Blames error)
    (nonempty : line.tokens ≠ []) {place : Nat}
    (behind : ∀ t ∈ line.tokens, place ≤ t.span.start ∧ t.span.start ≤ t.span.stop) :
    place ≤ error.span.start := by
  cases blames with
  | token member _ => exact (behind _ member).1
  | missing expected =>
      have last := List.getLast?_eq_some_getLast nonempty
      obtain ⟨starts, ordered⟩ := behind _ (List.getLast_mem nonempty)
      rw [Line.endSpan, last]
      exact Nat.le_trans starts ordered

/-! ## Reading on -/

namespace Scope

variable {scope : Scope}

theorem readLines_append (front back : List Line) :
    scope.readLines (front ++ back) =
      (scope.readLines front).bind fun middle => middle.readLines back := by
  induction front generalizing scope with
  | nil => rfl
  | cons line rest ih =>
      rw [List.cons_append, readLines_cons, readLines_cons]
      cases scope.readLine line with
      | error failure => rfl
      | ok instruction => exact ih

/-- Reading adds instructions to the scope and changes none. -/
theorem suffix_of_readLines {lines : List Line} {final : Scope}
    (accepted : scope.readLines lines = .ok final) : scope <:+ final := by
  induction lines generalizing scope with
  | nil =>
      cases accepted
      exact List.suffix_rfl
  | cons line rest ih =>
      obtain ⟨instruction, -, later⟩ := readLines_cons_eq_ok accepted
      exact (List.suffix_cons _ _).trans (ih later)

end Scope

namespace Design

/-- What is added to whole lines is read behind them. -/
theorem read_append {text : String} (whole : Source.Whole text.toList) (more : String) :
    read (text ++ more) = ((Scope.readLines [] (Source.lines text)).bind fun middle =>
      middle.readLines (Source.linesBehind text.toList more.toList)).map List.reverse := by
  rw [read_eq, Source.lines_append whole, Scope.readLines_append]

/-- An error that is found behind whole lines points behind them. -/
theorem start_of_linesBehind {text : List Char} (whole : Source.Whole text) {more : List Char}
    {scope : Scope} {error : ReadError}
    (refused : scope.readLines (Source.linesBehind text more) = .error error) :
    Source.byteLength text ≤ error.span.start := by
  obtain ⟨earlier, line, later, final, shape, -, last⟩ := Scope.readLines_eq_error refused
  have member : line ∈ Source.linesBehind text more := by simp [shape]
  exact (Scope.blames_of_readLine last).start_le (Source.tokens_ne_nil_of_mem_linesBehind member)
    fun t inside => Source.start_of_mem_linesBehind whole member inside

/--
Whole lines are read once for all.  If they are refused, so is every source that starts with them,
with the same error; if they are read, a longer source gives the same instructions and more, or an
error in what was added.  So it is on the machine, while it can count the places.
-/
theorem read_continued {text more : String} (whole : text = "" ∨ ∃ body, text = body ++ "\n") :
    (∀ error, read text = .error error → read (text ++ more) = .error error) ∧
      (∀ design, read text = .ok design →
        (∃ added, read (text ++ more) = .ok (design ++ added)) ∨
          ∃ error, read (text ++ more) = .error error ∧ text.utf8ByteSize ≤ error.span.start) ∧
      Machine.Agrees text ∧ Machine.Agrees (text ++ more) := by
  have lines : Source.Whole text.toList := by
    rcases whole with rfl | ⟨body, rfl⟩
    · exact Or.inl rfl
    · exact Or.inr ⟨body.toList, by rw [String.toList_append]; rfl⟩
  refine ⟨fun error refused => ?_, fun design accepted => ?_, Machine.read_agrees _,
    Machine.read_agrees _⟩
  · rw [read_append lines, readLines_of_error refused]
    rfl
  · rw [read_append lines, readLines_of_ok accepted]
    cases outcome : Scope.readLines design.reverse
        (Source.linesBehind text.toList more.toList) with
    | ok final =>
        obtain ⟨new, rfl⟩ := Scope.suffix_of_readLines outcome
        refine Or.inl ⟨new.reverse, ?_⟩
        simp [Except.bind, Except.map, outcome]
    | error error =>
        refine Or.inr ⟨error, by simp [Except.bind, Except.map, outcome], ?_⟩
        rw [← Source.byteLength_toList]
        exact start_of_linesBehind lines outcome

/-- A line that lacks an argument is added to two that were read. -/
theorem read_continued_missing :
    (∃ body, "1 sort bitvec 1\n2 state 1 ü\n" = body ++ "\n") ∧
      read "1 sort bitvec 1\n2 state 1 ü\n" =
        .ok [⟨1, .sort (.bitVec 1)⟩, ⟨2, .state 1 (some "ü")⟩] ∧
      read ("1 sort bitvec 1\n2 state 1 ü\n" ++ " 3 not 1") =
        .error ⟨.missingArgument .operandId, ⟨37, 37, 3, 9⟩⟩ ∧
      ((∃ added, read ("1 sort bitvec 1\n2 state 1 ü\n" ++ " 3 not 1") =
          .ok ([⟨1, .sort (.bitVec 1)⟩, ⟨2, .state 1 (some "ü")⟩] ++ added)) ∨
        ∃ error, read ("1 sort bitvec 1\n2 state 1 ü\n" ++ " 3 not 1") = .error error ∧
          "1 sort bitvec 1\n2 state 1 ü\n".utf8ByteSize ≤ error.span.start) := by
  have whole : ∃ body, "1 sort bitvec 1\n2 state 1 ü\n" = body ++ "\n" :=
    ⟨"1 sort bitvec 1\n2 state 1 ü", by decide⟩
  have accepted : read "1 sort bitvec 1\n2 state 1 ü\n" =
      .ok [⟨1, .sort (.bitVec 1)⟩, ⟨2, .state 1 (some "ü")⟩] := by decide +kernel
  exact ⟨whole, accepted, by decide +kernel, (read_continued (Or.inr whole)).2.1 _ accepted⟩

end Design

end BoundedCheck
