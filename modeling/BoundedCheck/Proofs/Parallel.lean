import Mathlib
import BoundedCheck.Proofs.Reading

/-!
# Two readings side by side

Lines with the same words are read alike, by any arithmetic that computes what the plain one does:
both readings give the same instructions, or both stop.  What the places of the words and the errors
have to do with each other is left open, so that one walk through the reader serves every pair of
readings.
-/

namespace BoundedCheck

/-- Outcomes of two computations: related results, or related errors. -/
inductive Outcomes {ε δ α β : Type} (errors : ε → δ → Prop) (related : α → β → Prop) :
    Except ε α → Except δ β → Prop where
  | ok {a : α} {b : β} : related a b → Outcomes errors related (.ok a) (.ok b)
  | error {stop : ε} {failure : δ} : errors stop failure →
      Outcomes errors related (.error stop) (.error failure)

/-- An arithmetic that computes what the plain one does where a reading needs it. -/
structure Arithmetic.Faithful (ε : Type) [Arithmetic ε] : Prop where
  constant (digits : Radix) (width : Nat) (text : String) :
    Arithmetic.constant (ε := ε) digits width text = .ok (Constant.read digits width text)
  difference {upper lower : Nat} : lower ≤ upper →
    Arithmetic.difference (ε := ε) upper lower = .ok (upper - lower)
  rules {scope : Scope} {operation : Operation} : Design.WellFormed scope.reverse →
    Reader.Admissible scope.reverse operation →
    Arithmetic.rules (ε := ε) scope operation = .ok (scope.rules operation)

theorem Arithmetic.Faithful.plain : Arithmetic.Faithful ReadError :=
  ⟨fun _ _ _ => rfl, fun _ => rfl, fun _ _ => rfl⟩

/-- Two tokens with one text, in related places. -/
structure Token.Alike (spans : Span → Span → Prop) (first second : Token) : Prop where
  text : first.text = second.text
  span : spans first.span second.span

/-- Two lines with the same words, whose refusals are related. -/
structure Line.Alike {ε : Type} [Arithmetic ε] (errors : ε → ReadError → Prop)
    (spans : Span → Span → Prop) (first second : Line) : Prop where
  tokens : List.Forall₂ (Token.Alike spans) first.tokens second.tokens
  sort : spans (Reader.sortSpan first) (Reader.sortSpan second)
  keyword : spans (Reader.keywordSpan first) (Reader.keywordSpan second)
  refusal {cause : Cause} {span other : Span} : spans span other →
    errors (Arithmetic.refusal ⟨cause, span⟩) ⟨cause, other⟩
  missing (expected : Expectation) : ∃ stop, Reader.word (ε := ε) first expected [] = .error stop ∧
    errors stop ⟨.missingArgument expected, second.endSpan⟩

namespace Reader

variable {ε α β γ δ : Type} {errors : ε → ReadError → Prop} {spans : Span → Span → Prop}

/-- Two readers that do the same with the same words. -/
def Parallel (errors : ε → ReadError → Prop) (spans : Span → Span → Prop)
    (related : α → β → Prop) (first : Reader ε α) (second : Reader ReadError β) : Prop :=
  ∀ tokens others, List.Forall₂ (Token.Alike spans) tokens others →
    Outcomes errors (fun a b => related a.1 b.1 ∧ List.Forall₂ (Token.Alike spans) a.2 b.2)
      (first tokens) (second others)

namespace Parallel

variable {related : α → β → Prop} {results : γ → δ → Prop}

theorem pure {a : α} {b : β} (holds : related a b) :
    Parallel errors spans related (Pure.pure a) (Pure.pure b) :=
  fun _ _ same => .ok ⟨holds, same⟩

theorem bind {first : Reader ε α} {second : Reader ReadError β} {next : α → Reader ε γ}
    {follow : β → Reader ReadError δ} (start : Parallel errors spans related first second)
    (further : ∀ a b, related a b → Parallel errors spans results (next a) (follow b)) :
    Parallel errors spans results (first >>= next) (second >>= follow) := by
  intro tokens others same
  have outcomes := start tokens others same
  simp only [Bind.bind, StateT.bind, Except.bind]
  generalize first tokens = left at outcomes ⊢
  generalize second others = right at outcomes ⊢
  cases outcomes with
  | ok holds => exact further _ _ holds.1 _ _ holds.2
  | error failed => exact .error failed

end Parallel

/-! ## Words and numbers -/

section Lines

variable [Arithmetic ε] {scope : Scope} {first second : Line} {token other : Token}
  (alike : Line.Alike errors spans first second)
include alike

theorem parallel_refuse {related : α → β → Prop} (cause : Cause) {span place : Span}
    (same : spans span place) :
    Parallel errors spans related (refuse cause span) (refuse cause place) :=
  fun _ _ _ => .error (alike.refusal same)

theorem parallel_word (expected : Expectation) :
    Parallel errors spans (Token.Alike spans) (word first expected) (word second expected) := by
  intro tokens others same
  cases same with
  | nil =>
      obtain ⟨stop, stops, failed⟩ := alike.missing expected
      rw [stops]
      exact .error failed
  | cons token rest => exact .ok ⟨token, rest⟩

theorem parallel_symbol : Parallel (ε := ε) errors spans Eq symbol symbol := by
  intro tokens others same
  cases same with
  | nil => exact .ok ⟨rfl, .nil⟩
  | cons name rest =>
      cases rest with
      | nil => exact .ok ⟨congrArg some name.text, .nil⟩
      | cons extra more =>
          simp only [symbol, extra.text]
          exact .error (alike.refusal extra.span)

theorem parallel_number (bound : Nat) (same : Token.Alike spans token other) :
    Parallel (ε := ε) errors spans Eq (number bound token) (number bound other) := by
  unfold number
  rw [same.text]
  split
  · exact Parallel.pure rfl
  · exact parallel_refuse alike _ same.span

theorem parallel_lid (same : Token.Alike spans token other) :
    Parallel (ε := ε) errors spans Eq (lid token) (lid other) := by
  unfold lid
  rw [same.text]
  split
  · exact Parallel.pure rfl
  · exact parallel_refuse alike _ same.span

theorem parallel_constant (faithful : Arithmetic.Faithful ε) (digits : Radix) (width : Nat)
    (same : Token.Alike spans token other) :
    Parallel (ε := ε) errors spans Eq (constant digits width token)
      (constant digits width other) := by
  have computed : constant (ε := ε) digits width token =
      judge width token (Constant.read digits width token.text) := by
    rw [constant, faithful.constant]
    rfl
  rw [computed, constant_eq, same.text]
  cases Constant.read digits width other.text with
  | ok value => exact Parallel.pure rfl
  | error refusal =>
      cases refusal with
      | invalid =>
          simp only [judge, same.text]
          exact parallel_refuse alike _ same.span
      | overflow =>
          simp only [judge, same.text]
          exact parallel_refuse alike _ same.span

/-! ## References -/

theorem parallel_reference (scope : Scope) (same : Token.Alike spans token other) :
    Parallel (ε := ε) errors spans Eq (reference scope token) (reference scope other) := by
  unfold reference
  rw [same.text]
  split
  · exact parallel_refuse alike _ same.span
  · apply (parallel_lid alike same).bind
    rintro target _ rfl
    split
    · exact Parallel.pure rfl
    · exact parallel_refuse alike _ same.span

/-- Tokens that name an instruction, of which the same choice is made. -/
theorem parallel_named {expected : Expectation} {choose : Token → Instruction → Reader ε α}
    {follow : Token → Instruction → Reader ReadError α}
    (chosen : ∀ token other target, Token.Alike spans token other →
      Parallel errors spans Eq (choose token target) (follow other target)) :
    Parallel errors spans Eq
      (word first expected >>= fun token => reference scope token >>= choose token)
      (word second expected >>= fun token => reference scope token >>= follow token) := by
  apply (parallel_word alike expected).bind
  intro token other same
  apply (parallel_reference alike scope same).bind
  rintro target _ rfl
  exact chosen token other target same

theorem parallel_sortRef (scope : Scope) :
    Parallel errors spans Eq (sortRef scope first) (sortRef scope second) := by
  refine parallel_named alike fun token other target same => ?_
  split
  · exact Parallel.pure rfl
  · exact parallel_refuse alike _ same.span

theorem parallel_stateRef (scope : Scope) :
    Parallel errors spans Eq (stateRef scope first) (stateRef scope second) := by
  refine parallel_named alike fun token other target same => ?_
  split
  · exact Parallel.pure rfl
  · exact parallel_refuse alike _ same.span

theorem parallel_operand (scope : Scope) :
    Parallel errors spans Eq (operand scope first) (operand scope second) := by
  refine parallel_named alike fun token other target same => ?_
  split
  · exact Parallel.pure rfl
  · exact parallel_refuse alike _ same.span

/-! ## Lines -/

theorem parallel_sortKind (scope : Scope) :
    Parallel errors spans Eq (sortKind scope first) (sortKind scope second) := by
  apply (parallel_word alike _).bind
  intro tag twin same
  rw [same.text]
  split
  · apply (parallel_word alike _).bind
    intro token other sameWidth
    apply (parallel_number alike narrowBound sameWidth).bind
    rintro width _ rfl
    split
    · exact parallel_refuse alike _ sameWidth.span
    · exact Parallel.pure rfl
  · split
    · apply (parallel_sortRef alike scope).bind
      rintro index _ rfl
      apply (parallel_sortRef alike scope).bind
      rintro element _ rfl
      exact Parallel.pure rfl
    · exact parallel_refuse alike _ same.span

theorem parallel_sliceBits (faithful : Arithmetic.Faithful ε) :
    Parallel errors spans Eq (sliceBits first) (sliceBits second) := by
  apply (parallel_word alike _).bind
  intro token other same
  apply (parallel_number alike narrowBound same).bind
  rintro upper _ rfl
  apply (parallel_word alike _).bind
  intro lowerToken lowerOther sameLower
  apply (parallel_number alike narrowBound sameLower).bind
  rintro lower _ rfl
  split
  · exact parallel_refuse alike _ same.span
  · rename_i ordered
    have computed : Parallel (ε := ε) errors spans Eq (compute (Arithmetic.difference upper lower))
        (compute (Arithmetic.difference upper lower)) := by
      rw [faithful.difference (Nat.not_lt.mp ordered)]
      exact Parallel.pure rfl
    apply computed.bind
    rintro above _ rfl
    split
    · exact Parallel.pure rfl
    · exact parallel_refuse alike _ same.span

theorem parallel_operation (faithful : Arithmetic.Faithful ε) (scope : Scope) (keyword : Keyword) :
    Parallel errors spans Eq (operation scope first keyword) (operation scope second keyword) := by
  have ends (result : Option String → Operation) :
      Parallel (ε := ε) errors spans Eq (do let name ← symbol; pure (result name))
        (do let name ← symbol; pure (result name)) := by
    apply (parallel_symbol alike).bind
    rintro name _ rfl
    exact Parallel.pure rfl
  cases keyword with
  | sort =>
      apply (parallel_sortKind alike scope).bind
      rintro kind _ rfl
      exact ends _
  | input | state | zero | one | ones =>
      apply (parallel_sortRef alike scope).bind
      rintro sort _ rfl
      exact ends _
  | init | next =>
      apply (parallel_sortRef alike scope).bind
      rintro sort _ rfl
      apply (parallel_stateRef alike scope).bind
      rintro state _ rfl
      apply (parallel_operand alike scope).bind
      rintro value _ rfl
      exact ends _
  | constraint | bad | output =>
      apply (parallel_operand alike scope).bind
      rintro value _ rfl
      exact ends _
  | const digits =>
      apply (parallel_sortRef alike scope).bind
      rintro sort _ rfl
      split
      · exact parallel_refuse alike _ alike.sort
      · rename_i width isBitVec
        apply (parallel_word alike _).bind
        intro token other same
        apply (parallel_constant alike faithful digits width same).bind
        rintro value _ rfl
        exact ends _
  | not =>
      apply (parallel_sortRef alike scope).bind
      rintro sort _ rfl
      apply (parallel_operand alike scope).bind
      rintro value _ rfl
      exact ends _
  | binary op =>
      apply (parallel_sortRef alike scope).bind
      rintro sort _ rfl
      apply (parallel_operand alike scope).bind
      rintro left _ rfl
      apply (parallel_operand alike scope).bind
      rintro right _ rfl
      exact ends _
  | ite =>
      apply (parallel_sortRef alike scope).bind
      rintro sort _ rfl
      apply (parallel_operand alike scope).bind
      rintro condition _ rfl
      apply (parallel_operand alike scope).bind
      rintro onTrue _ rfl
      apply (parallel_operand alike scope).bind
      rintro onFalse _ rfl
      exact ends _
  | uext =>
      apply (parallel_sortRef alike scope).bind
      rintro sort _ rfl
      apply (parallel_operand alike scope).bind
      rintro value _ rfl
      apply (parallel_word alike _).bind
      intro token other same
      apply (parallel_number alike narrowBound same).bind
      rintro extra _ rfl
      exact ends _
  | slice =>
      apply (parallel_sortRef alike scope).bind
      rintro sort _ rfl
      apply (parallel_operand alike scope).bind
      rintro value _ rfl
      apply (parallel_sliceBits alike faithful).bind
      rintro bits _ rfl
      exact ends _

theorem parallel_freshLid (scope : Scope) :
    Parallel errors spans Eq (freshLid scope first) (freshLid scope second) := by
  apply (parallel_word alike _).bind
  intro token other same
  apply (parallel_lid alike same).bind
  rintro value _ rfl
  split
  · exact parallel_refuse alike _ same.span
  · split
    · exact parallel_refuse alike _ same.span
    · exact Parallel.pure rfl

theorem parallel_keyword : Parallel errors spans Eq (keyword first) (keyword second) := by
  apply (parallel_word alike _).bind
  intro token other same
  rw [same.text]
  split
  · exact Parallel.pure rfl
  · exact parallel_refuse alike _ same.span

/-- The words of a line give one instruction, or are refused on both sides. -/
theorem parallel_instruction (faithful : Arithmetic.Faithful ε) (scope : Scope) :
    Parallel errors spans Eq (Reader.instruction scope first)
      (Reader.instruction scope second) := by
  apply (parallel_freshLid alike scope).bind
  rintro lid _ rfl
  apply (parallel_keyword alike).bind
  rintro keyword _ rfl
  apply (parallel_operation alike faithful scope keyword).bind
  rintro operation _ rfl
  exact Parallel.pure rfl

end Lines

end Reader

/-! ## Designs -/

namespace Arithmetic

variable {ε : Type} [Arithmetic ε] {errors : ε → ReadError → Prop} {spans : Span → Span → Prop}

theorem readLine_parallel (faithful : Faithful ε) {scope : Scope}
    (wellFormed : Design.WellFormed scope.reverse) {first second : Line}
    (alike : Line.Alike errors spans first second)
    (words : ∀ t ∈ second.tokens, IsWord t.text) :
    Outcomes errors Eq (readLine ε scope first) (scope.readLine second) := by
  have outcomes := Reader.parallel_instruction alike faithful scope _ _ alike.tokens
  cases run : Reader.instruction (ε := ReadError) scope second second.tokens with
  | error error =>
      rw [run] at outcomes
      rw [Scope.readLine_of_error run, readLine]
      generalize Reader.instruction (ε := ε) scope first first.tokens = left at outcomes ⊢
      cases outcomes with
      | error failed => exact .error failed
  | ok outcome =>
      obtain ⟨instruction, rest⟩ := outcome
      obtain ⟨acceptable, -⟩ := Reader.ensures_instruction wellFormed second _ _ _ words run
      rw [run] at outcomes
      rw [Scope.readLine_of_ok run, readLine]
      generalize Reader.instruction (ε := ε) scope first first.tokens = left at outcomes ⊢
      cases outcomes with
      | @ok a b same =>
          obtain ⟨candidate, left⟩ := a
          obtain ⟨rfl, -⟩ := same
          simp only [faithful.rules wellFormed acceptable.admissible, Scope.mismatch?]
          cases (scope.rules candidate.operation).findSome? WidthRule.mismatch? with
          | none => exact .ok rfl
          | some mismatch => exact .error (alike.refusal alike.keyword)

/-- Lines that are alike are read alike, each in the scope of those before it. -/
theorem readLines_parallel (faithful : Faithful ε) {firsts seconds : List Line}
    (alike : List.Forall₂ (Line.Alike errors spans) firsts seconds)
    (words : ∀ line ∈ seconds, ∀ t ∈ line.tokens, IsWord t.text) {scope : Scope}
    (wellFormed : Design.WellFormed scope.reverse) :
    Outcomes errors Eq (readLines ε scope firsts) (scope.readLines seconds) := by
  induction alike generalizing scope with
  | nil => exact .ok rfl
  | @cons first second firsts seconds here _ ih =>
      obtain ⟨own, others⟩ := List.forall_mem_cons.mp words
      have outcomes := readLine_parallel faithful wellFormed here own
      rw [Scope.readLines_cons, readLines]
      cases read : scope.readLine second with
      | error error =>
          rw [read] at outcomes
          generalize readLine ε scope first = left at outcomes ⊢
          cases outcomes with
          | error failed => exact .error failed
      | ok instruction =>
          have formed := Scope.wellFormed_of_readLine wellFormed own read
          rw [read] at outcomes
          generalize readLine ε scope first = left at outcomes ⊢
          cases outcomes with
          | ok same =>
              cases same
              apply ih others
              rw [List.reverse_cons]
              exact .snoc wellFormed formed

end Arithmetic

end BoundedCheck
