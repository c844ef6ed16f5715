import Mathlib
import BoundedCheck.Proofs.Machine
import BoundedCheck.Proofs.Parallel

/-!
# Reading on a machine

The machine counts lines and columns with 32 bits, adds widths with 64 and computes constants with
128, and stops where a sum leaves its range.  Its reader is the reader of designs, run with this
arithmetic.  It comes to the same designs and to the same errors; only the places in a source of four
gigabytes can stop it.
-/

namespace BoundedCheck.Machine

/-! ## Places -/

/-- The place that follows some others, which are counted with 32 bits. -/
def ordinal (before : Nat) : Except Fault Nat :=
  narrow (before % narrowBound + 1)

/-- A token on a line with a number, in the column that follows the characters before it. -/
def place (number : Nat) (t : Token) : Except Fault Token := do
  let column ← ordinal (t.span.column - 1)
  return { t with span := { t.span with line := number, column := column } }

/-- The lines of consecutive pieces.  Pieces without a word have a number too. -/
def linesFrom (before start : Nat) : List (List Char) → Except Fault (List Line)
  | [] => return []
  | piece :: rest => do
    let number ← ordinal before
    let tokens ← (Source.tokens (before + 1) start piece).mapM (place number)
    let later ← linesFrom (before + 1) (start + Source.byteLength piece) rest
    return if tokens.isEmpty then later else ⟨number, tokens⟩ :: later

/-- The lines of a text that hold at least one word. -/
def lines (source : String) : Except Fault (List Line) :=
  linesFrom 0 0 (Source.pieces source.toList)

/-! ## Widths -/

/-- A sum of 64 bits. -/
def wideSum (a b : Nat) : Except Fault Nat :=
  if a + b < wideBound then .ok (a + b) else .error .overflow

/-- The width rules of an operation.  Three operations have sums in their rules. -/
def rules (scope : Scope) (operation : Operation) : Except Fault (List WidthRule) :=
  let result := operation.sort?.bind scope.sortWidth?
  match operation with
  | .uext _ operand extra _ => do
    let extended ← (scope.valueWidth? operand).mapM fun width => wideSum width extra
    return [.equal .resultSort result extended]
  | .slice _ operand lowBit width => do
    let upper ← difference (← wideSum lowBit width) 1
    return [.inside upper (scope.valueWidth? operand), .equal .resultSort result (some width)]
  | .binary .concat _ left right => do
    let widths := (scope.valueWidth? left).bind fun l => (scope.valueWidth? right).map (l, ·)
    let joined ← widths.mapM fun both => wideSum both.1 both.2
    return [.equal .resultSort result joined]
  | _ => .ok (scope.rules operation)

/-! ## The reader -/

/-- The value of a constant, or why it is refused. -/
def constant (digits : Radix) (width : Nat) (text : String) :
    Except Fault (Except Constant.Refusal Nat) :=
  match Constant.checked width text digits with
  | .ok value => .ok (.ok value)
  | .error (.error refusal) => .ok (.error refusal)
  | .error (.fault fault) => .error fault

/-- Every sum and difference stops where it leaves its range. -/
instance : Arithmetic (Stop ReadError) where
  refusal := .error
  lines source := (lines source).mapError .fault
  lineEnd line := line.checkedEnd.mapError .fault
  constant digits width text := (constant digits width text).mapError .fault
  difference upper lower := (difference upper lower).mapError .fault
  rules scope operation := (rules scope operation).mapError .fault

/-- The design that a text describes. -/
def read (source : String) : Except (Stop ReadError) Design :=
  Arithmetic.read (Stop ReadError) source

/-! ## Places that fit -/

/-- A computation gives a value, or leaves its range under a condition. -/
def Gives {α : Type} (large : Prop) (result : Except Fault α) (value : α) : Prop :=
  result = .ok value ∨ result = .error .overflow ∧ large

namespace Gives

variable {α β : Type} {large : Prop} {result : Except Fault α} {value : α}

theorem pure (value : α) : Gives large (Pure.pure value) value :=
  Or.inl rfl

theorem bind {next : α → Except Fault β} {final : β} (first : Gives large result value)
    (second : Gives large (next value) final) : Gives large (result >>= next) final := by
  rcases first with rfl | ⟨rfl, holds⟩
  · exact second
  · exact Or.inr ⟨rfl, holds⟩

theorem eq_ok (gives : Gives large result value) (small : ¬ large) : result = .ok value :=
  gives.resolve_right fun stopped => small stopped.2

theorem mono {other : Prop} (weaker : large → other) (gives : Gives large result value) :
    Gives other result value :=
  gives.imp_right fun stopped => ⟨stopped.1, weaker stopped.2⟩

theorem mapM {f : α → Except Fault β} {g : α → β} {entries : List α}
    (each : ∀ a ∈ entries, Gives large (f a) (g a)) :
    Gives large (entries.mapM f) (entries.map g) := by
  induction entries with
  | nil => exact Or.inl rfl
  | cons a rest ih =>
      obtain ⟨here, others⟩ := List.forall_mem_cons.mp each
      rw [List.mapM_cons]
      exact here.bind ((ih others).bind (Gives.pure _))

end Gives

theorem gives_ordinal (before : Nat) :
    Gives (narrowBound ≤ before + 1) (ordinal before) ((before + 1) % narrowBound) := by
  unfold ordinal narrow narrowBound
  split
  · refine Or.inl (congrArg Except.ok ?_)
    omega
  · refine Or.inr ⟨rfl, ?_⟩
    omega

example : ordinal 4294967295 = .error .overflow := rfl

theorem gives_place (number : Nat) {t : Token} (positive : 1 ≤ t.span.column) :
    Gives (narrowBound ≤ t.span.column) (place number t)
      { t with span := { t.span with line := number, column := t.span.column % narrowBound } } := by
  have column := gives_ordinal (t.span.column - 1)
  rw [Nat.sub_add_cancel positive] at column
  exact column.bind (Gives.pure _)

/--
The lines of pieces are counted like those of the exact scanner, up to 32 bits.  Counting stops only
where there are too many pieces, or a token stands too far from the start of its line.
-/
theorem gives_linesFrom {large : Prop} {before start : Nat} {cuts : List (List Char)}
    (many : narrowBound ≤ before + cuts.length → large)
    (far : ∀ line ∈ Source.linesFrom (before + 1) start cuts, ∀ t ∈ line.tokens,
      1 ≤ t.span.column ∧ (narrowBound ≤ t.span.column → large)) :
    Gives large (linesFrom before start cuts)
      ((Source.linesFrom (before + 1) start cuts).map Line.wrapped) := by
  induction cuts generalizing before start with
  | nil => exact Gives.pure _
  | cons piece rest ih =>
      rw [List.length_cons] at many
      have number : Gives large (ordinal before) ((before + 1) % narrowBound) :=
        (gives_ordinal before).mono fun beyond => many (by omega)
      have placed : ∀ t ∈ Source.tokens (before + 1) start piece,
          t.span.line = before + 1 ∧ 1 ≤ t.span.column ∧
            (narrowBound ≤ t.span.column → large) := by
        intro t inside
        refine ⟨Source.line_of_mem_wordsFrom inside, ?_⟩
        refine far ⟨before + 1, Source.tokens (before + 1) start piece⟩ ?_ t inside
        cases words : Source.tokens (before + 1) start piece with
        | nil =>
            rw [words] at inside
            exact absurd inside List.not_mem_nil
        | cons first others => simp [Source.linesFrom, words]
      have tokens : Gives large
          ((Source.tokens (before + 1) start piece).mapM (place ((before + 1) % narrowBound)))
          ((Source.tokens (before + 1) start piece).map
            fun t => { t with span := t.span.wrapped }) := by
        refine Gives.mapM fun t inside => ?_
        obtain ⟨line, positive, beyond⟩ := placed t inside
        rw [Span.wrapped, line]
        exact (gives_place _ positive).mono beyond
      have later : Gives large (linesFrom (before + 1) (start + Source.byteLength piece) rest)
          ((Source.linesFrom (before + 2) (start + Source.byteLength piece) rest).map
            Line.wrapped) := by
        refine ih (fun beyond => many (by omega)) fun line member => far line ?_
        rw [Source.linesFrom_cons]
        exact List.mem_append_right _ member
      have shape : (Source.linesFrom (before + 1) start (piece :: rest)).map Line.wrapped =
          (let tokens := (Source.tokens (before + 1) start piece).map
            fun t => { t with span := t.span.wrapped }
          let later := (Source.linesFrom (before + 2) (start + Source.byteLength piece) rest).map
            Line.wrapped
          if tokens.isEmpty then later
          else ⟨(before + 1) % narrowBound, tokens⟩ :: later) := by
        cases words : Source.tokens (before + 1) start piece with
        | nil => simp [Source.linesFrom, words]
        | cons first others => simp [Source.linesFrom, words, Line.wrapped]
      rw [linesFrom, shape]
      exact number.bind (tokens.bind (later.bind (Gives.pure _)))

/-- The lines of a source are found, unless it has four gigabytes. -/
theorem gives_lines (source : String) :
    Gives (narrowBound ≤ source.utf8ByteSize + 1) (lines source) (Source.lines source) := by
  have bytes := Source.length_le_byteLength source.toList
  rw [← Source.byteLength_toList]
  refine gives_linesFrom (fun many => ?_) fun line member t inside => ?_
  · have cuts := Source.length_pieces_le source.toList
    omega
  · obtain ⟨shown, -⟩ := Source.shown_of_mem_exactLines member inside
    refine ⟨?_, fun far => Nat.le_trans far shown.bounds.2.2.2⟩
    obtain ⟨before, after, -, place⟩ := shown
    rw [place]
    exact Nat.le_add_left _ _

/-- The end of a line is found, unless its source has four gigabytes. -/
theorem gives_checkedEnd {source : String} {line : Line} (member : line ∈ Source.lines source) :
    Gives (narrowBound ≤ source.utf8ByteSize + 1) line.checkedEnd line.endSpan := by
  obtain ⟨counted, listed, rfl⟩ := List.mem_map.mp member
  have last := List.getLast?_eq_some_getLast (Source.tokens_ne_nil_of_mem_exactLines listed)
  generalize counted.tokens.getLast (Source.tokens_ne_nil_of_mem_exactLines listed) = t at last
  have shown := Source.shown_behind listed (List.mem_of_getLast? last)
  have wrappedLast : counted.wrapped.tokens.getLast? = some { t with span := t.span.wrapped } := by
    rw [Line.wrapped, List.getLast?_map, last]
    rfl
  rw [Line.checkedEnd, Line.endSpan, wrappedLast]
  simp only
  by_cases fits : Line.columnAfter { t with span := t.span.wrapped } < narrowBound
  · rw [narrow_eq_ok fits, Nat.mod_eq_of_lt fits]
    exact Or.inl rfl
  · rw [narrow_eq_error (Nat.not_lt.mp fits)]
    refine Or.inr ⟨rfl, ?_⟩
    have column : t.span.column + t.text.length ≤ source.utf8ByteSize + 1 := by
      rw [← Source.byteLength_toList]
      exact shown.bounds.2.2.2
    have start := Nat.mod_le t.span.column narrowBound
    have length := Nat.mod_le t.text.length narrowBound
    simp only [Line.columnAfter, Span.wrapped] at fits
    omega

/-! ## Widths that fit -/

theorem wideSum_eq_ok {a b : Nat} (smallA : a < narrowBound) (smallB : b < narrowBound) :
    wideSum a b = .ok (a + b) := by
  refine if_pos ?_
  unfold narrowBound at smallA smallB
  unfold wideBound
  omega

theorem lt_of_valueWidth? {scope : Scope} (wellFormed : Design.WellFormed scope.reverse)
    {lid width : Nat} (known : scope.valueWidth? lid = some width) : width < narrowBound := by
  obtain ⟨operation, sort, -, -, -, declared⟩ := Scope.hasWidth_of_valueWidth? known
  obtain ⟨earlier, -, formed⟩ := wellFormed.of_mem declared
  exact formed.literals.2

/-- The sums in the rules of an operation that was read have 64 bits. -/
theorem rules_eq_ok {scope : Scope} (wellFormed : Design.WellFormed scope.reverse)
    {operation : Operation} (literals : operation.LiteralsFit scope.reverse) :
    rules scope operation = .ok (scope.rules operation) := by
  cases operation with
  | uext s operand extra name =>
      simp only [rules, Scope.rules]
      cases known : scope.valueWidth? operand with
      | none => rfl
      | some width =>
          simp only [Option.mapM_some, wideSum_eq_ok (lt_of_valueWidth? wellFormed known) literals]
          rfl
  | slice s operand lowBit width =>
      obtain ⟨positive, small, inside⟩ := literals
      have sum : wideSum lowBit width = .ok (lowBit + width) := by
        refine if_pos ?_
        unfold narrowBound at inside
        unfold wideBound
        omega
      have upper : difference (lowBit + width) 1 = .ok (lowBit + width - 1) := if_pos (by omega)
      simp only [rules, Scope.rules, sum, upper, bind, Except.bind]
      rfl
  | binary op s left right =>
      cases op with
      | concat =>
          simp only [rules, Scope.rules, Scope.binaryRules]
          cases knownLeft : scope.valueWidth? left with
          | none => rfl
          | some l =>
              cases knownRight : scope.valueWidth? right with
              | none => rfl
              | some r =>
                  simp only [Option.bind_some, Option.map_some, Option.mapM_some,
                    wideSum_eq_ok (lt_of_valueWidth? wellFormed knownLeft)
                      (lt_of_valueWidth? wellFormed knownRight)]
                  rfl
      | _ => rfl
  | _ => rfl

/-! ## Designs that are read -/

theorem constant_eq_ok (digits : Radix) (width : Nat) (text : String) :
    constant digits width text = .ok (Constant.read digits width text) := by
  rw [constant, Constant.checked_eq]
  cases Constant.read digits width text with
  | ok value => rfl
  | error refusal => rfl

theorem faithful : Arithmetic.Faithful (Stop ReadError) where
  constant digits width text := by
    simp only [Arithmetic.constant, constant_eq_ok]
    rfl
  difference ordered := by
    simp only [Arithmetic.difference, difference, if_pos ordered]
    rfl
  rules wellFormed admissible := by
    simp only [Arithmetic.rules, rules_eq_ok wellFormed admissible.literals]
    rfl

/-- Where an error is found the machine stops with it, or with a fault if the source is large. -/
def Reports (large : Prop) (stop : Stop ReadError) (error : ReadError) : Prop :=
  stop = .error error ∨ stop = .fault .overflow ∧ large

theorem alike_of_mem_lines {source : String} {line : Line} (member : line ∈ Source.lines source) :
    Line.Alike (Reports (narrowBound ≤ source.utf8ByteSize + 1)) Eq line line where
  tokens := List.forall₂_same.mpr fun _ _ => ⟨rfl, rfl⟩
  sort := rfl
  keyword := rfl
  refusal same := by
    subst same
    exact Or.inl rfl
  missing expected := by
    rcases gives_checkedEnd member with found | ⟨found, large⟩
    · refine ⟨_, ?_, Or.inl rfl⟩
      simp only [Reader.word, Arithmetic.lineEnd, found]
      rfl
    · refine ⟨_, ?_, Or.inr ⟨rfl, large⟩⟩
      simp only [Reader.word, Arithmetic.lineEnd, found]
      rfl

/-- The machine gives the design or the error of a source, or has too many places to count. -/
def Agrees (source : String) : Prop :=
  read source = (Design.read source).mapError Stop.error ∨
    read source = .error (.fault .overflow) ∧ narrowBound ≤ source.utf8ByteSize + 1

theorem read_agrees (source : String) : Agrees source := by
  rcases gives_lines source with found | ⟨found, large⟩
  · have empty : Design.WellFormed (List.reverse ([] : Scope)) := .nil
    have alike : List.Forall₂ (Line.Alike (Reports (narrowBound ≤ source.utf8ByteSize + 1)) Eq)
        (Source.lines source) (Source.lines source) :=
      List.forall₂_same.mpr fun line member => alike_of_mem_lines member
    have outcomes := Arithmetic.readLines_parallel faithful alike
      (fun line member => Source.isWord_of_mem_lines member) empty
    simp only [Agrees, read, Arithmetic.read, Arithmetic.lines, found, Except.mapError,
      Design.read_eq]
    generalize Arithmetic.readLines (Stop ReadError) [] (Source.lines source) = left at outcomes ⊢
    generalize Scope.readLines [] (Source.lines source) = right at outcomes ⊢
    cases outcomes with
    | ok same =>
        cases same
        exact Or.inl rfl
    | error reports =>
        rcases reports with rfl | ⟨rfl, large⟩
        · exact Or.inl rfl
        · exact Or.inr ⟨rfl, large⟩
  · refine Or.inr ⟨?_, large⟩
    simp only [read, Arithmetic.read, Arithmetic.lines, found]
    rfl

/-- Nothing leaves its range in a source of less than four gigabytes. -/
theorem read_eq {source : String} (short : source.utf8ByteSize + 1 < narrowBound) :
    read source = (Design.read source).mapError Stop.error := by
  rcases read_agrees source with agrees | ⟨-, large⟩
  · exact agrees
  · exact absurd large (Nat.not_le.mpr short)

end BoundedCheck.Machine
