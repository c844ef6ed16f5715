import Mathlib
import BoundedCheck.Proofs.MachineReading

/-!
# What an error points at

An error of a line is shown by one of its tokens, and what the error says of a text or of a line id
is read off that token.  Only a missing argument is shown by the end of the line.
-/

namespace BoundedCheck

/-! ## Written numbers -/

namespace Text.Numeral

/-- A text writes a number in decimal digits, with a plus sign before them or without. -/
def Writes (text : String) (number : Nat) : Prop :=
  ∃ digits : List Char, (text.toList = digits ∨ text.toList = '+' :: digits) ∧ digits ≠ [] ∧
    (∀ c ∈ digits, c.isDigit = true) ∧ Nat.ofDigitChars 10 digits 0 = number

theorem isDigit_of_digit? {c : Char} {digit : Nat} (found : digit? 10 c = some digit) :
    c.isDigit = true := by
  rw [Char.isDigit_iff_toNat]
  obtain ⟨value, small⟩ := Option.filter_eq_some_iff.mp found
  simp only [decide_eq_true_eq] at small
  split at value
  · assumption
  · split at value
    · cases value
      omega
    · split at value
      · cases value
        omega
      · cases value

theorem isDigit_of_extend? {digits : List Char} {value number : Nat}
    (read : extend? 10 value digits = some number) : ∀ c ∈ digits, c.isDigit = true := by
  induction digits generalizing value with
  | nil => exact fun c member => absurd member List.not_mem_nil
  | cons first rest ih =>
      unfold extend? at read
      split at read
      · cases read
      · rename_i digit found
        exact List.forall_mem_cons.mpr ⟨isDigit_of_digit? found, ih read⟩

theorem writes_of_magnitude? {text : String} {digits : List Char} {number : Nat}
    (shape : text.toList = digits ∨ text.toList = '+' :: digits)
    (read : magnitude? 10 digits = some number) : Writes text number := by
  cases digits with
  | nil => cases read
  | cons first rest =>
      have extended : extend? 10 0 (first :: rest) = some number := read
      have allDigits := isDigit_of_extend? extended
      rw [extend?_of_isDigit allDigits] at extended
      exact ⟨first :: rest, shape, by simp, allDigits, Option.some.inj extended⟩

/-- A number that is read is the one that is written. -/
theorem writes_of_below? {bound : Nat} {text : String} {number : Nat}
    (read : below? bound text = some number) : Writes text number := by
  have natural := (Option.filter_eq_some_iff.mp read).1
  unfold natural? at natural
  split at natural
  · rename_i digits shape
    exact writes_of_magnitude? (Or.inr shape) natural
  · exact writes_of_magnitude? (Or.inl rfl) natural

end Text.Numeral

/-! ## Errors of a line -/

/-- What a cause says of the text that shows it. -/
def Cause.Tells (text : String) : Cause → Prop
  | .unexpectedToken _ found | .unsupportedOperator found | .negatedOperand found
  | .invalidNumber found | .constantOverflow found _ => found = text
  | .duplicateLid lid | .nonIncreasingLid lid _ | .undefinedReference lid | .notASort lid
  | .notAState lid | .notAValue lid => Text.Numeral.Writes text lid
  | .malformed _ | .sortMismatch _ _ => True
  | .missingArgument _ => False

/-- An error is shown by a token of a line, or by the end of the line for want of a token. -/
inductive Line.Blames (line : Line) : ReadError → Prop where
  | token {token : Token} {cause : Cause} : token ∈ line.tokens → cause.Tells token.text →
      Blames line ⟨cause, token.span⟩
  | missing (expected : Expectation) : Blames line ⟨.missingArgument expected, line.endSpan⟩

namespace Reader

/--
A reader that is run after at least so many tokens of a line were taken.  If it succeeds, its result
has a property and a number of tokens was taken; if it fails, the line shows its error.
-/
def Locates {α : Type} (line : Line) (before : Nat) (reader : Reader ReadError α)
    (property : α → Prop) (behind : Nat) : Prop :=
  ∀ taken tokens, line.tokens = taken ++ tokens → before ≤ taken.length →
    (∀ a rest, reader tokens = .ok (a, rest) → property a ∧
      ∃ more, line.tokens = more ++ rest ∧ behind ≤ more.length) ∧
    ∀ error, reader tokens = .error error → line.Blames error

namespace Locates

variable {α β : Type} {line : Line} {before middle behind : Nat} {property : α → Prop}
  {result : β → Prop}

theorem pure {a : α} (holds : property a) (fewer : behind ≤ before) :
    Locates line before (Pure.pure a) property behind := by
  intro taken tokens shape enough
  constructor
  · intro b rest run
    cases run
    exact ⟨holds, taken, shape, Nat.le_trans fewer enough⟩
  · intro error run
    cases run

theorem refuse {token : Token} (member : token ∈ line.tokens) {cause : Cause}
    (tells : cause.Tells token.text) :
    Locates line before (Reader.refuse cause token.span) property behind := by
  intro taken tokens shape enough
  constructor
  · intro a rest run
    cases run
  · intro error run
    cases run
    exact .token member tells

theorem bind {reader : Reader ReadError α} {next : α → Reader ReadError β}
    (first : Locates line before reader property middle)
    (second : ∀ a, property a → Locates line middle (next a) result behind) :
    Locates line before (reader >>= next) result behind := by
  intro taken tokens shape enough
  obtain ⟨accepts, refuses⟩ := first taken tokens shape enough
  cases step : reader tokens with
  | error failure =>
      constructor
      · intro a rest run
        simp [Bind.bind, StateT.bind, Except.bind, step] at run
      · intro error run
        simp only [Bind.bind, StateT.bind, Except.bind, step] at run
        cases run
        exact refuses failure step
  | ok outcome =>
      obtain ⟨a, rest⟩ := outcome
      obtain ⟨holds, more, moreShape, moreEnough⟩ := accepts a rest step
      have follows := second a holds more rest moreShape moreEnough
      simpa only [Bind.bind, StateT.bind, Except.bind, step] using follows

end Locates

variable {scope : Scope} {line : Line} {before : Nat}

theorem locates_word (line : Line) (before : Nat) (expected : Expectation) :
    Locates line before (word line expected) (· ∈ line.tokens) (before + 1) := by
  intro taken tokens shape enough
  cases tokens with
  | nil =>
      constructor
      · intro a rest run
        cases run
      · intro error run
        cases run
        exact .missing expected
  | cons token others =>
      constructor
      · intro a rest run
        cases run
        refine ⟨by simp [shape], taken ++ [token], by simp [shape], ?_⟩
        rw [List.length_append, List.length_singleton]
        omega
      · intro error run
        cases run

theorem locates_symbol (line : Line) (before : Nat) :
    Locates line before symbol (fun _ => True) before := by
  intro taken tokens shape enough
  match tokens with
  | [] =>
      constructor
      · intro a rest run
        cases run
        exact ⟨trivial, taken, shape, enough⟩
      · intro error run
        cases run
  | [name] =>
      constructor
      · intro a rest run
        cases run
        refine ⟨trivial, taken ++ [name], by simp [shape], ?_⟩
        rw [List.length_append]
        omega
      · intro error run
        cases run
  | _ :: extra :: _ =>
      constructor
      · intro a rest run
        cases run
      · intro error run
        cases run
        exact .token (by simp [shape]) rfl

theorem locates_number (bound : Nat) {token : Token} (member : token ∈ line.tokens) :
    Locates line before (number bound token) (fun _ => True) before := by
  unfold number
  split
  · exact Locates.pure trivial (Nat.le_refl _)
  · exact Locates.refuse member rfl

theorem locates_lid {token : Token} (member : token ∈ line.tokens) :
    Locates line before (lid token) (Text.Numeral.Writes token.text) before := by
  unfold lid
  split
  · rename_i value read
    have small := (Option.filter_eq_some_iff.mp read).1
    exact Locates.pure (Text.Numeral.writes_of_below? small) (Nat.le_refl _)
  · exact Locates.refuse member rfl

theorem locates_reference (scope : Scope) {token : Token} (member : token ∈ line.tokens) :
    Locates line before (reference scope token)
      (fun instruction => Text.Numeral.Writes token.text instruction.lid) before := by
  unfold reference
  split
  · exact Locates.refuse member rfl
  · apply (locates_lid member).bind
    intro target written
    split
    · rename_i instruction found
      rw [← (mem_of_find found).2] at written
      exact Locates.pure written (Nat.le_refl _)
    · exact Locates.refuse member written

/-- A token that names an instruction, of which a choice is made. -/
theorem locates_named {α : Type} {scope : Scope} {line : Line} {before : Nat}
    (expected : Expectation) {choose : Token → Instruction → Reader ReadError α}
    (chosen : ∀ token ∈ line.tokens, ∀ target : Instruction,
      Text.Numeral.Writes token.text target.lid →
      Locates line (before + 1) (choose token target) (fun _ => True) (before + 1)) :
    Locates line before (word line expected >>= fun token => reference scope token >>= choose token)
      (fun _ => True) (before + 1) := by
  apply (locates_word line before expected).bind
  intro token member
  apply (locates_reference scope member).bind
  intro target written
  exact chosen token member target written

theorem locates_sortRef (scope : Scope) (line : Line) (before : Nat) :
    Locates line before (sortRef scope line) (fun _ => True) (before + 1) := by
  refine locates_named .sortId fun token member target written => ?_
  split
  · exact Locates.pure trivial (Nat.le_refl _)
  · exact Locates.refuse member written

theorem locates_stateRef (scope : Scope) (line : Line) (before : Nat) :
    Locates line before (stateRef scope line) (fun _ => True) (before + 1) := by
  refine locates_named .stateId fun token member target written => ?_
  split
  · exact Locates.pure trivial (Nat.le_refl _)
  · exact Locates.refuse member written

theorem locates_operand (scope : Scope) (line : Line) (before : Nat) :
    Locates line before (operand scope line) (fun _ => True) (before + 1) := by
  refine locates_named .operandId fun token member target written => ?_
  split
  · exact Locates.pure trivial (Nat.le_refl _)
  · exact Locates.refuse member written

theorem locates_sortKind (scope : Scope) (line : Line) (before : Nat) :
    Locates line before (sortKind scope line) (fun _ => True) (before + 1) := by
  apply (locates_word line before _).bind
  intro tag tagMember
  split
  · apply (locates_word line _ _).bind
    intro token member
    apply (locates_number narrowBound member).bind
    intro width _
    split
    · exact Locates.refuse member trivial
    · exact Locates.pure trivial (by omega)
  · split
    · apply (locates_sortRef scope line _).bind
      intro index _
      apply (locates_sortRef scope line _).bind
      intro element _
      exact Locates.pure trivial (by omega)
    · exact Locates.refuse tagMember rfl

theorem locates_constant (digits : Radix) (width : Nat) {token : Token}
    (member : token ∈ line.tokens) :
    Locates line before (constant digits width token) (fun _ => True) before := by
  rw [constant_eq, judge.eq_def]
  split
  · exact Locates.pure trivial (Nat.le_refl _)
  · exact Locates.refuse member rfl
  · exact Locates.refuse member rfl

theorem locates_sliceBits (line : Line) (before : Nat) :
    Locates line before (sliceBits line) (fun _ => True) (before + 1) := by
  apply (locates_word line before _).bind
  intro token member
  apply (locates_number narrowBound member).bind
  intro upper _
  apply (locates_word line _ _).bind
  intro lowerToken lowerMember
  apply (locates_number narrowBound lowerMember).bind
  intro lower _
  split
  · exact Locates.refuse member trivial
  · rw [difference_bind]
    split
    · exact Locates.pure trivial (by omega)
    · exact Locates.refuse member trivial

/-- Three tokens were taken when a constant of an array sort is refused. -/
theorem locates_sortSpan {α : Type} {property : α → Prop} {behind : Nat} (line : Line)
    (enough : 3 ≤ before) (malformation : Malformation) :
    Locates line before (refuse (.malformed malformation) (sortSpan line)) property behind := by
  intro taken tokens shape longer
  have inside : 2 < line.tokens.length := by
    rw [shape, List.length_append]
    omega
  have third : line.tokens[2]? = some (line.tokens.get ⟨2, inside⟩) :=
    List.getElem?_eq_getElem inside
  have refused : Locates line before
      (refuse (.malformed malformation) (line.tokens.get ⟨2, inside⟩).span) property behind :=
    Locates.refuse (List.get_mem _ _) trivial
  rw [sortSpan, third]
  exact refused taken tokens shape longer

/-- The arguments of every keyword are refused at a token, or at the end of the line. -/
theorem locates_operation (scope : Scope) (line : Line) (keyword : Keyword) :
    Locates line 2 (operation scope line keyword) (fun _ => True) 2 := by
  have ends {α : Type} {before : Nat} (enough : 2 ≤ before) (result : Option String → α) :
      Locates line before (do let name ← symbol; pure (result name)) (fun _ => True) 2 :=
    (locates_symbol line before).bind fun _ _ => Locates.pure trivial enough
  cases keyword with
  | sort =>
      apply (locates_sortKind scope line 2).bind
      intro kind _
      exact ends (by decide) _
  | input | state | zero | one | ones =>
      apply (locates_sortRef scope line 2).bind
      intro sort _
      exact ends (by decide) _
  | init | next =>
      apply (locates_sortRef scope line 2).bind
      intro sort _
      apply (locates_stateRef scope line _).bind
      intro state _
      apply (locates_operand scope line _).bind
      intro value _
      exact ends (by decide) _
  | constraint | bad | output =>
      apply (locates_operand scope line 2).bind
      intro value _
      exact ends (by decide) _
  | const digits =>
      apply (locates_sortRef scope line 2).bind
      intro sort _
      split
      · exact locates_sortSpan line (by decide) _
      · rename_i width isBitVec
        apply (locates_word line _ _).bind
        intro token member
        apply (locates_constant digits width member).bind
        intro value _
        exact ends (by decide) _
  | not =>
      apply (locates_sortRef scope line 2).bind
      intro sort _
      apply (locates_operand scope line _).bind
      intro value _
      exact ends (by decide) _
  | binary op =>
      apply (locates_sortRef scope line 2).bind
      intro sort _
      apply (locates_operand scope line _).bind
      intro left _
      apply (locates_operand scope line _).bind
      intro right _
      exact ends (by decide) _
  | ite =>
      apply (locates_sortRef scope line 2).bind
      intro sort _
      apply (locates_operand scope line _).bind
      intro condition _
      apply (locates_operand scope line _).bind
      intro onTrue _
      apply (locates_operand scope line _).bind
      intro onFalse _
      exact ends (by decide) _
  | uext =>
      apply (locates_sortRef scope line 2).bind
      intro sort _
      apply (locates_operand scope line _).bind
      intro value _
      apply (locates_word line _ _).bind
      intro token member
      apply (locates_number narrowBound member).bind
      intro extra _
      exact ends (by decide) _
  | slice =>
      apply (locates_sortRef scope line 2).bind
      intro sort _
      apply (locates_operand scope line _).bind
      intro value _
      apply (locates_sliceBits line _).bind
      intro bits _
      exact ends (by decide) _

theorem locates_freshLid (scope : Scope) (line : Line) :
    Locates line 0 (freshLid scope line) (fun _ => True) 1 := by
  apply (locates_word line 0 _).bind
  intro token member
  apply (locates_lid member).bind
  intro value written
  split
  · exact Locates.refuse member written
  · split
    · exact Locates.refuse member written
    · exact Locates.pure trivial (Nat.le_refl _)

theorem locates_keyword (line : Line) : Locates line 1 (keyword line) (fun _ => True) 2 := by
  apply (locates_word line 1 _).bind
  intro token member
  split
  · exact Locates.pure trivial (Nat.le_refl _)
  · exact Locates.refuse member rfl

/-- A line is refused at one of its tokens or at its end, and has two tokens if it is read. -/
theorem locates_instruction (scope : Scope) (line : Line) :
    Locates line 0 (Reader.instruction scope line) (fun _ => True) 2 := by
  apply (locates_freshLid scope line).bind
  intro lid _
  apply (locates_keyword line).bind
  intro keyword _
  apply (locates_operation scope line keyword).bind
  intro operation _
  exact Locates.pure trivial (Nat.le_refl _)

end Reader

/-! ## Lines that are refused -/

namespace Scope

variable {scope : Scope} {line : Line} {error : ReadError}

/-- The error of a line is shown by the line. -/
theorem blames_of_readLine (refused : scope.readLine line = .error error) : line.Blames error := by
  obtain ⟨accepts, refuses⟩ :=
    Reader.locates_instruction scope line [] line.tokens rfl (Nat.zero_le _)
  rcases readLine_eq_error refused with step | ⟨instruction, rest, mismatch, step, rfl⟩
  · exact refuses error step
  · -- Widths are compared once the line is read, so it has a keyword to show the mismatch.
    obtain ⟨-, more, shape, enough⟩ := accepts _ _ step
    have inside : 1 < line.tokens.length := by
      rw [shape, List.length_append]
      omega
    have second : line.tokens[1]? = some (line.tokens.get ⟨1, inside⟩) :=
      List.getElem?_eq_getElem inside
    rw [Reader.keywordSpan, second]
    exact .token (List.get_mem _ _) trivial

/-- Lines are refused at the first one that is refused after those before it. -/
theorem readLines_eq_error {lines : List Line} (refused : scope.readLines lines = .error error) :
    ∃ earlier line later final, lines = earlier ++ line :: later ∧
      scope.readLines earlier = .ok final ∧ final.readLine line = .error error := by
  induction lines generalizing scope with
  | nil => cases refused
  | cons first rest ih =>
      rw [readLines_cons] at refused
      cases step : scope.readLine first with
      | error failure =>
          rw [step] at refused
          cases refused
          exact ⟨[], first, rest, scope, rfl, rfl, step⟩
      | ok instruction =>
          rw [step] at refused
          obtain ⟨earlier, line, later, final, rfl, accepted, last⟩ := ih refused
          refine ⟨first :: earlier, line, later, final, rfl, ?_, last⟩
          rw [readLines_cons, step]
          exact accepted

end Scope

/-! ## Errors in a source -/

/-- The first line of a source that is refused: the text before it is read as a design. -/
def Source.FirstRefused (source : String) (line : Line) (error : ReadError) : Prop :=
  ∃ text rest program later, source = text ++ rest ∧
    Source.lines source = Source.lines text ++ line :: later ∧ Design.read text = .ok program ∧
    Scope.readLine program.reverse line = .error error

/-- The text that shows an error is that of a token, or nothing behind the last one for want of it. -/
def ReadError.ShownBy (error : ReadError) (line : Line) (shown : String) : Prop :=
  (∃ token ∈ line.tokens, error.span = token.span ∧ token.text = shown ∧
    error.cause.Tells shown) ∨
  ∃ expected last, error.cause = .missingArgument expected ∧ line.tokens.getLast? = some last ∧
    shown = "" ∧ error.span.start = last.span.stop ∧ error.span.stop = last.span.stop

/-- An error points into a source, where a text stands on a line. -/
structure ReadError.Points (error : ReadError) (source : String) (line : Line) (shown : String) :
    Prop where
  place : ∃ before after, source = before ++ shown ++ after ∧
    error.span.start = before.utf8ByteSize ∧ error.span.stop = (before ++ shown).utf8ByteSize ∧
    line.number = before.toList.count '\n' + 1
  ordered : error.span.start ≤ error.span.stop
  inside : error.span.stop ≤ source.utf8ByteSize
  number : error.span.line = line.number
  shownBy : error.ShownBy line shown

theorem Source.firstRefused_of_read {source : String} {error : ReadError}
    (refused : Design.read source = .error error) :
    ∃ line ∈ Source.lines source, Source.FirstRefused source line error := by
  obtain ⟨earlier, line, later, final, shape, accepted, last⟩ :=
    Scope.readLines_eq_error (Design.readLines_of_error refused)
  obtain ⟨before, rest, cut, rfl⟩ := lines_eq_append_cons shape
  refine ⟨line, by simp [shape], String.ofList before, String.ofList rest, final.reverse, later,
    ?_, shape, ?_, ?_⟩
  · rw [← String.ofList_append, ← cut, String.ofList_toList]
  · rw [Design.read_eq, accepted]
    rfl
  · rwa [List.reverse_reverse]

/-- A text that stands in a source cuts it at boundaries of characters. -/
theorem Source.Shown.cut {source shown : String} {span : Span}
    (stands : Source.Shown source.toList shown.toList span) :
    ∃ before after, source = before ++ shown ++ after ∧ span.start = before.utf8ByteSize ∧
      span.stop = (before ++ shown).utf8ByteSize ∧ span.line = before.toList.count '\n' + 1 := by
  obtain ⟨before, after, whole, rfl⟩ := stands
  refine ⟨String.ofList before, String.ofList after, ?_, ?_, ?_, ?_⟩
  · rw [← String.ofList_toList (s := source), whole, String.ofList_append, String.ofList_append,
      String.ofList_toList]
  · exact (byteLength_ofList before).symm
  · rw [String.utf8ByteSize_append, byteLength_ofList, ← byteLength_toList]
    rfl
  · rw [String.toList_ofList]
    rfl

theorem Source.Shown.points {source shown : String} {line : Line} {error : ReadError}
    (stands : Source.Shown source.toList shown.toList error.span)
    (number : error.span.line = line.number) (shownBy : error.ShownBy line shown) :
    error.Points source line shown := by
  obtain ⟨ordered, inside, -, -⟩ := stands.bounds
  rw [byteLength_toList] at inside
  obtain ⟨before, after, whole, start, stop, place⟩ := stands.cut
  exact ⟨⟨before, after, whole, start, stop, by rw [← number, place]⟩, ordered, inside, number,
    shownBy⟩

/-- What a line of a short source blames stands in the source. -/
theorem Line.Blames.points {source : String} {line : Line} {error : ReadError}
    (blames : line.Blames error) (few : Source.byteLength source.toList + 1 < narrowBound)
    (member : line ∈ Source.exactLines source) : ∃ shown, error.Points source line shown := by
  cases blames with
  | @token token cause inside tells =>
      obtain ⟨stands, number⟩ := Source.shown_of_mem_exactLines member inside
      exact ⟨token.text, stands.points number (Or.inl ⟨token, inside, rfl, rfl, tells⟩)⟩
  | missing expected =>
      obtain ⟨stands, number⟩ := Source.shown_endSpan few member
      have last := List.getLast?_eq_some_getLast (Source.tokens_ne_nil_of_mem_exactLines member)
      refine ⟨"", Source.Shown.points stands number (Or.inr ⟨expected, _, rfl, last, rfl, ?_, ?_⟩)⟩
      · rw [Line.endSpan, last]
      · rw [Line.endSpan, last]

/--
Reading a source of at most two gigabytes leaves no range.  An error belongs to the first line that
is refused, and points at a token of it, or at its end for want of a token; texts and line ids of
the error are those that stand there.
-/
theorem read_error_points {source : String} (short : source.utf8ByteSize ≤ 2 ^ 31) :
    Machine.read source = (Design.read source).mapError Stop.error ∧
    (Source.pieces source.toList).length < narrowBound ∧
    (∀ line ∈ Source.lines source, line.number < narrowBound ∧
      line.checkedEnd = .ok line.endSpan ∧ ∀ token ∈ line.tokens, token.span.column < narrowBound) ∧
    ∀ error, Design.read source = .error error →
      ∃ line shown, Source.FirstRefused source line error ∧ error.Points source line shown := by
  have below : source.utf8ByteSize + 1 < narrowBound :=
    Nat.lt_of_le_of_lt (Nat.succ_le_succ short) (by decide)
  have few : Source.byteLength source.toList + 1 < narrowBound := by
    rwa [Source.byteLength_toList]
  refine ⟨Machine.read_eq below, Source.length_pieces_lt few, ?_, ?_⟩
  · intro line member
    have ends := (Machine.gives_checkedEnd member).eq_ok (Nat.not_le.mpr below)
    rw [Source.lines_eq_exactLines few] at member
    obtain ⟨number, columns⟩ := Source.places_lt few member
    exact ⟨number, ends, columns⟩
  · intro error refused
    obtain ⟨line, member, first⟩ := Source.firstRefused_of_read refused
    rw [Source.lines_eq_exactLines few] at member
    obtain ⟨_, _, _, _, -, -, -, last⟩ := id first
    obtain ⟨shown, points⟩ := (Scope.blames_of_readLine last).points few member
    exact ⟨line, shown, first, points⟩

/-- A bad condition that names a sort, behind characters of two bytes. -/
def Sample.refusedSource : String :=
  "; ü\n1 sort bitvec 1\n2 state 1 ü\n\t3 bad 1 ü ; no value\n4 input 1\n"

/-- The sample is refused on its fourth line, at the third word. -/
theorem read_error_points_refused :
    Sample.refusedSource.utf8ByteSize ≤ 2 ^ 31 ∧
      Design.read Sample.refusedSource = .error ⟨.notAValue 1, ⟨41, 42, 4, 8⟩⟩ ∧
      ∃ line shown, Source.FirstRefused Sample.refusedSource line ⟨.notAValue 1, ⟨41, 42, 4, 8⟩⟩ ∧
        ReadError.Points ⟨.notAValue 1, ⟨41, 42, 4, 8⟩⟩ Sample.refusedSource line shown := by
  have short : Sample.refusedSource.utf8ByteSize ≤ 2 ^ 31 := by decide
  have refused : Design.read Sample.refusedSource = .error ⟨.notAValue 1, ⟨41, 42, 4, 8⟩⟩ := by
    decide +kernel
  exact ⟨short, refused, (read_error_points short).2.2.2 _ refused⟩

end BoundedCheck
