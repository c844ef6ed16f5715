import Mathlib
import BoundedCheck.Design.Reader
import BoundedCheck.Proofs.Widths
import BoundedCheck.Proofs.Words

/-!
# What the reader accepts

A design that was read is well formed.  The words of a source hold no blank and no semicolon; the
arguments of a line resolve in the scope of the lines before it; a line without mismatch has agreeing
widths.
-/

namespace BoundedCheck

/-! ## Words of a source -/

/-- A text that is one word of a line. -/
def IsWord (text : String) : Prop :=
  text ≠ "" ∧ ∀ c ∈ text.toList, Text.isBlank c = false ∧ c ≠ ';'

namespace Source

/-- The characters of a word. -/
def Plain (chars : List Char) : Prop :=
  ∀ c ∈ chars, Text.isBlank c = false ∧ c ≠ ';'

theorem isWord_token {line start column : Nat} {word : List Char} (nonempty : word ≠ [])
    (plain : Plain word) : IsWord (token line start column word.reverse).text := by
  constructor
  · intro empty
    have same : (String.ofList word.reverse).toList = [] := by
      rw [show String.ofList word.reverse = "" from empty]
      rfl
    rw [String.toList_ofList] at same
    exact nonempty (List.reverse_eq_nil_iff.mp same)
  · intro c member
    rw [token, String.toList_ofList] at member
    exact plain c (List.mem_reverse.mp member)

/-- All words of a text without semicolons are plain. -/
theorem isWord_of_mem_wordsFrom {line start column : Nat} {word text : List Char}
    (plain : Plain word) (noComment : ∀ c ∈ text, c ≠ ';') {t : Token}
    (member : t ∈ wordsFrom line start column word text) : IsWord t.text := by
  induction text generalizing start column word with
  | nil =>
      unfold wordsFrom at member
      split at member
      · exact absurd member List.not_mem_nil
      · rename_i nonempty
        rw [List.mem_singleton.mp member]
        exact isWord_token (fun empty => nonempty (by simp [empty])) plain
  | cons c rest ih =>
      have restPlain : ∀ c ∈ rest, c ≠ ';' :=
        fun other inside => noComment other (List.mem_cons_of_mem _ inside)
      have nothing : Plain [] := fun c inside => absurd inside List.not_mem_nil
      unfold wordsFrom at member
      split at member
      · split at member
        · exact ih nothing restPlain member
        · rename_i nonempty
          rcases List.mem_cons.mp member with here | later
          · rw [here]
            exact isWord_token (fun empty => nonempty (by simp [empty])) plain
          · exact ih nothing restPlain later
      · rename_i notBlank
        apply ih _ restPlain member
        intro other inside
        rcases List.mem_cons.mp inside with here | later
        · rw [here]
          exact ⟨by simpa using notBlank, noComment c List.mem_cons_self⟩
        · exact plain other later

theorem isWord_of_mem_tokens {line start : Nat} {piece : List Char} {t : Token}
    (member : t ∈ tokens line start piece) : IsWord t.text := by
  apply isWord_of_mem_wordsFrom _ _ member
  · exact fun c inside => absurd inside List.not_mem_nil
  · intro c inside
    simpa using List.mem_takeWhile_imp inside

theorem isWord_of_mem_linesFrom {number start : Nat} {pieces : List (List Char)} {line : Line}
    (member : line ∈ linesFrom number start pieces) : ∀ t ∈ line.tokens, IsWord t.text := by
  induction pieces generalizing number start with
  | nil => exact absurd member List.not_mem_nil
  | cons piece rest ih =>
      unfold linesFrom at member
      split at member
      · exact ih member
      · rename_i first others words
        rcases List.mem_cons.mp member with here | later
        · rw [here]
          intro t inside
          rw [← words] at inside
          exact isWord_of_mem_tokens inside
        · exact ih later

/-- Every token of a source is a word. -/
theorem isWord_of_mem_lines {source : String} {line : Line} (member : line ∈ lines source) :
    ∀ t ∈ line.tokens, IsWord t.text := by
  obtain ⟨exactly, inside, rfl⟩ := List.mem_map.mp member
  intro t listed
  obtain ⟨token, placed, rfl⟩ := List.mem_map.mp listed
  exact isWord_of_mem_linesFrom inside token placed

end Source

/-! ## Readers -/

namespace Reader

/-- What a reader gives has a property, and it leaves words only, as long as it is given words. -/
def Ensures {α : Type} (reader : Reader ReadError α) (property : α → Prop) : Prop :=
  ∀ tokens a rest, (∀ t ∈ tokens, IsWord t.text) → reader tokens = .ok (a, rest) →
    property a ∧ ∀ t ∈ rest, IsWord t.text

namespace Ensures

variable {α β : Type} {property : α → Prop} {result : β → Prop}

theorem pure {a : α} (holds : property a) : Ensures (Pure.pure a) property := by
  intro tokens b rest words run
  cases run
  exact ⟨holds, words⟩

theorem refuse (cause : Cause) (span : Span) : Ensures (Reader.refuse cause span) property := by
  intro tokens a rest _ run
  cases run

/-- What the first reader ensures is known to the second. -/
theorem bind {reader : Reader ReadError α} {next : α → Reader ReadError β}
    (first : Ensures reader property) (second : ∀ a, property a → Ensures (next a) result) :
    Ensures (reader >>= next) result := by
  intro tokens b rest words run
  cases step : reader tokens with
  | error failure => simp [Bind.bind, StateT.bind, Except.bind, step] at run
  | ok outcome =>
      obtain ⟨a, middle⟩ := outcome
      obtain ⟨holds, middleWords⟩ := first tokens a middle words step
      apply second a holds middle b rest middleWords
      simpa [Bind.bind, StateT.bind, Except.bind, step] using run

end Ensures

theorem ensures_word (line : Line) (expected : Expectation) :
    Ensures (word line expected) fun token => IsWord token.text := by
  intro tokens a rest words run
  cases tokens with
  | nil => cases run
  | cons token others =>
      cases run
      exact ⟨words a List.mem_cons_self, fun t inside => words t (List.mem_cons_of_mem _ inside)⟩

theorem ensures_symbol : Ensures symbol fun name => ∀ text, name = some text → IsWord text := by
  intro tokens a rest words run
  have nothing : ∀ t ∈ ([] : List Token), IsWord t.text := by simp
  match tokens with
  | [] =>
      cases run
      exact ⟨by simp, nothing⟩
  | [name] =>
      cases run
      refine ⟨?_, nothing⟩
      intro text same
      cases same
      exact words name List.mem_cons_self
  | _ :: _ :: _ => cases run

theorem ensures_number (bound : Nat) (token : Token) :
    Ensures (number bound token) fun value => value < bound := by
  unfold number
  split
  · rename_i value read
    apply Ensures.pure
    have small := (Option.filter_eq_some_iff.mp read).2
    simpa using small
  · exact Ensures.refuse _ _

theorem ensures_lid (token : Token) :
    Ensures (lid token) fun value => 0 < value ∧ value < wideBound := by
  unfold lid
  split
  · rename_i value read
    apply Ensures.pure
    obtain ⟨small, positive⟩ := Option.filter_eq_some_iff.mp read
    have below := (Option.filter_eq_some_iff.mp small).2
    exact ⟨by simpa using positive, by simpa using below⟩
  · exact Ensures.refuse _ _

/-! ## References -/

variable {scope : Scope}

theorem mem_of_find {lid : Nat} {instruction : Instruction}
    (found : scope.find lid = some instruction) : instruction ∈ scope ∧ instruction.lid = lid :=
  ⟨List.mem_of_find?_eq_some found, by simpa using List.find?_some found⟩

theorem ensures_reference (scope : Scope) (token : Token) :
    Ensures (reference scope token) fun instruction => instruction ∈ scope := by
  unfold reference
  split
  · exact Ensures.refuse _ _
  · apply (ensures_lid token).bind
    intro target _
    split
    · rename_i instruction found
      exact Ensures.pure (mem_of_find found).1
    · exact Ensures.refuse _ _

theorem ensures_sortRef (scope : Scope) (line : Line) :
    Ensures (sortRef scope line) fun sort => ⟨sort.1, .sort sort.2⟩ ∈ scope := by
  apply (ensures_word line _).bind
  intro token _
  apply (ensures_reference scope token).bind
  intro target member
  split
  · rename_i kind isSort
    apply Ensures.pure
    rw [← isSort]
    exact member
  · exact Ensures.refuse _ _

theorem ensures_stateRef (scope : Scope) (line : Line) :
    Ensures (stateRef scope line) fun state => ∃ sort name, ⟨state, .state sort name⟩ ∈ scope := by
  apply (ensures_word line _).bind
  intro token _
  apply (ensures_reference scope token).bind
  intro target member
  obtain ⟨lid, operation⟩ := target
  cases operation with
  | state sort name => exact Ensures.pure ⟨sort, name, member⟩
  | _ => exact Ensures.refuse _ _

theorem ensures_operand (scope : Scope) (line : Line) :
    Ensures (operand scope line) fun lid =>
      ∃ operation, ⟨lid, operation⟩ ∈ scope ∧ operation.isValue = true := by
  apply (ensures_word line _).bind
  intro token _
  apply (ensures_reference scope token).bind
  intro target member
  split
  · rename_i isValue
    exact Ensures.pure ⟨target.operation, member, isValue⟩
  · exact Ensures.refuse _ _

/-! ## Arguments -/

theorem fit_lt {width value result : Nat} (fits : Constant.fit width value = .ok result) :
    result < Word.bound width := by
  unfold Constant.fit at fits
  split at fits
  · rename_i small
    cases fits
    exact small
  · cases fits

theorem read_lt {digits : Radix} {width value : Nat} {text : String}
    (read : Constant.read digits width text = .ok value) : value < Word.bound width := by
  unfold Constant.read at read
  cases digits with
  | binary =>
      simp only [Constant.readBinary] at read
      split at read
      · cases read
      · split at read
        · exact fit_lt read
        · cases read
  | hexadecimal =>
      simp only [Constant.readHexadecimal] at read
      split at read
      · exact fit_lt read
      · cases read
  | decimal =>
      simp only [Constant.readDecimal] at read
      split at read
      · unfold Constant.ofInteger at read
        split at read
        · exact fit_lt read
        · split at read
          · cases read
          · split at read
            · exact fit_lt read
            · cases read
      · cases read

theorem ensures_constant (digits : Radix) (width : Nat) (token : Token) :
    Ensures (constant digits width token) fun value => value < Word.bound width := by
  rw [constant_eq, judge.eq_def]
  split
  · rename_i value read
    exact Ensures.pure (read_lt read)
  · exact Ensures.refuse _ _
  · exact Ensures.refuse _ _

theorem ensures_sliceBits (line : Line) :
    Ensures (sliceBits line) fun bits =>
      0 < bits.2 ∧ bits.2 < narrowBound ∧ bits.1 + bits.2 - 1 < narrowBound := by
  apply (ensures_word line _).bind
  intro token _
  apply (ensures_number narrowBound token).bind
  intro upper upperSmall
  apply (ensures_word line _).bind
  intro lowerToken _
  apply (ensures_number narrowBound lowerToken).bind
  intro lower lowerSmall
  split
  · exact Ensures.refuse _ _
  · rw [difference_bind]
    split
    · apply Ensures.pure
      simp only
      omega
    · exact Ensures.refuse _ _

/-- An operation whose references, literals and symbol are in order, apart from widths. -/
structure Admissible (earlier : Design) (operation : Operation) : Prop where
  resolved : operation.Resolved earlier
  literals : operation.LiteralsFit earlier
  symbol : operation.SymbolFits

theorem symbolFits_of_none {operation : Operation} (unnamed : operation.name? = none) :
    operation.SymbolFits := by
  intro name given
  rw [unnamed] at given
  cases given

theorem ensures_sortKind (scope : Scope) (line : Line) :
    Ensures (sortKind scope line) fun kind => Admissible scope.reverse (.sort kind) := by
  apply (ensures_word line _).bind
  intro tag _
  split
  · apply (ensures_word line _).bind
    intro token _
    apply (ensures_number narrowBound token).bind
    intro width small
    split
    · exact Ensures.refuse _ _
    · rename_i positive
      apply Ensures.pure
      refine ⟨⟨?_, ?_, ?_⟩, ⟨Nat.pos_of_ne_zero positive, small⟩, symbolFits_of_none rfl⟩
      · simp [Operation.sortReferences, Operation.sort?]
      · simp [Operation.target?]
      · simp [Operation.operands]
  · split
    · apply (ensures_sortRef scope line).bind
      intro index indexDeclared
      apply (ensures_sortRef scope line).bind
      intro element elementDeclared
      apply Ensures.pure
      refine ⟨⟨?_, ?_, ?_⟩, trivial, symbolFits_of_none rfl⟩
      · simp only [Operation.sortReferences, List.mem_cons, List.not_mem_nil, or_false]
        rintro sort (rfl | rfl)
        · exact ⟨index.2, List.mem_reverse.mpr indexDeclared⟩
        · exact ⟨element.2, List.mem_reverse.mpr elementDeclared⟩
      · simp [Operation.target?]
      · simp [Operation.operands]
    · exact Ensures.refuse _ _

/-- The scope declares what the references of an operation need. -/
theorem resolved_of_scope {operation : Operation}
    (sorts : ∀ sort ∈ operation.sortReferences, ∃ kind, ⟨sort, .sort kind⟩ ∈ scope)
    (target : ∀ state, operation.target? = some state →
      ∃ sort name, ⟨state, .state sort name⟩ ∈ scope)
    (operands : ∀ lid ∈ operation.operands,
      ∃ value, ⟨lid, value⟩ ∈ scope ∧ value.isValue = true) :
    operation.Resolved scope.reverse where
  sorts := by
    intro sort member
    obtain ⟨kind, declared⟩ := sorts sort member
    exact ⟨kind, List.mem_reverse.mpr declared⟩
  target := by
    intro state isTarget
    obtain ⟨sort, name, declared⟩ := target state isTarget
    exact ⟨sort, name, List.mem_reverse.mpr declared⟩
  operands := by
    intro lid member
    obtain ⟨value, declared, isValue⟩ := operands lid member
    exact ⟨value, List.mem_reverse.mpr declared, isValue⟩

/-- The operations that refer to values only. -/
theorem admissible_of_value {operation : Operation} {value : Nat}
    (declared : ∃ found, ⟨value, found⟩ ∈ scope ∧ found.isValue = true)
    (references : operation.sortReferences = []) (noTarget : operation.target? = none)
    (operands : operation.operands = [value]) (literals : operation.LiteralsFit scope.reverse)
    (symbol : operation.SymbolFits) : Admissible scope.reverse operation := by
  refine ⟨resolved_of_scope ?_ ?_ ?_, literals, symbol⟩
  · simp [references]
  · simp [noTarget]
  · rw [operands]
    intro other member
    rw [List.mem_singleton.mp member]
    exact declared

/-- The operations that refer to a sort and to values. -/
theorem admissible_of_operands {operation : Operation} {sort : Nat × SortKind}
    (declared : ⟨sort.1, .sort sort.2⟩ ∈ scope) (references : operation.sortReferences = [sort.1])
    (noTarget : operation.target? = none)
    (operands : ∀ lid ∈ operation.operands,
      ∃ value, ⟨lid, value⟩ ∈ scope ∧ value.isValue = true)
    (literals : operation.LiteralsFit scope.reverse) (symbol : operation.SymbolFits) :
    Admissible scope.reverse operation := by
  refine ⟨resolved_of_scope ?_ ?_ operands, literals, symbol⟩
  · rw [references]
    intro other member
    rw [List.mem_singleton.mp member]
    exact ⟨sort.2, declared⟩
  · simp [noTarget]

/-- The operations that refer to a sort only. -/
theorem admissible_of_sort {operation : Operation} {sort : Nat × SortKind}
    (declared : ⟨sort.1, .sort sort.2⟩ ∈ scope) (references : operation.sortReferences = [sort.1])
    (noTarget : operation.target? = none) (noOperands : operation.operands = [])
    (literals : operation.LiteralsFit scope.reverse) (symbol : operation.SymbolFits) :
    Admissible scope.reverse operation := by
  exact admissible_of_operands declared references noTarget (by simp [noOperands]) literals symbol

/-- The operations that give a state a value. -/
theorem admissible_of_target {operation : Operation} {sort : Nat × SortKind} {state value : Nat}
    (declared : ⟨sort.1, .sort sort.2⟩ ∈ scope) (references : operation.sortReferences = [sort.1])
    (isState : ∃ sort name, ⟨state, .state sort name⟩ ∈ scope)
    (target : operation.target? = some state)
    (isValue : ∃ found, ⟨value, found⟩ ∈ scope ∧ found.isValue = true)
    (operands : operation.operands = [state, value])
    (literals : operation.LiteralsFit scope.reverse) (symbol : operation.SymbolFits) :
    Admissible scope.reverse operation := by
  obtain ⟨stateSort, stateName, stateDeclared⟩ := isState
  refine ⟨resolved_of_scope ?_ ?_ ?_, literals, symbol⟩
  · rw [references]
    intro other member
    rw [List.mem_singleton.mp member]
    exact ⟨sort.2, declared⟩
  · rw [target]
    rintro other same
    cases same
    exact ⟨stateSort, stateName, stateDeclared⟩
  · rw [operands]
    intro other member
    simp only [List.mem_cons, List.not_mem_nil, or_false] at member
    rcases member with rfl | rfl
    · exact ⟨_, stateDeclared, rfl⟩
    · exact isValue

/-- The arguments of every keyword give an admissible operation. -/
theorem ensures_operation (scope : Scope) (line : Line) (keyword : Keyword) :
    Ensures (operation scope line keyword) (Admissible scope.reverse) := by
  cases keyword with
  | sort =>
      apply (ensures_sortKind scope line).bind
      intro kind admissible
      exact ensures_symbol.bind fun _ _ => Ensures.pure admissible
  | input | state =>
      apply (ensures_sortRef scope line).bind
      intro sort declared
      exact ensures_symbol.bind fun _ symbol =>
        Ensures.pure (admissible_of_sort declared rfl rfl rfl trivial symbol)
  | zero | one | ones =>
      apply (ensures_sortRef scope line).bind
      intro sort declared
      exact ensures_symbol.bind fun _ _ => Ensures.pure
        (admissible_of_sort declared rfl rfl rfl trivial (symbolFits_of_none rfl))
  | init | next =>
      apply (ensures_sortRef scope line).bind
      intro sort declared
      apply (ensures_stateRef scope line).bind
      intro state isState
      apply (ensures_operand scope line).bind
      intro value isValue
      exact ensures_symbol.bind fun _ _ => Ensures.pure
        (admissible_of_target declared rfl isState rfl isValue rfl trivial (symbolFits_of_none rfl))
  | constraint | bad | output =>
      apply (ensures_operand scope line).bind
      intro value isValue
      exact ensures_symbol.bind fun _ symbol =>
        Ensures.pure (admissible_of_value isValue rfl rfl rfl trivial symbol)
  | const digits =>
      apply (ensures_sortRef scope line).bind
      intro sort declared
      split
      · exact Ensures.refuse _ _
      · rename_i width isBitVec
        apply (ensures_word line _).bind
        intro token _
        apply (ensures_constant digits width token).bind
        intro value small
        have literals : (Operation.const sort.1 value).LiteralsFit scope.reverse := by
          refine ⟨Nat.lt_of_lt_of_le small (Word.bound_le width), width, ?_, ?_⟩
          · rw [isBitVec] at declared
            exact List.mem_reverse.mpr declared
          · rw [Word.bound_eq, Nat.one_shiftLeft] at small
            rw [Nat.one_shiftLeft]
            exact Nat.lt_of_lt_of_le small
              (Nat.pow_le_pow_right (by decide) (Nat.min_le_left _ _))
        exact ensures_symbol.bind fun _ _ => Ensures.pure
          (admissible_of_sort declared rfl rfl rfl literals (symbolFits_of_none rfl))
  | not =>
      apply (ensures_sortRef scope line).bind
      intro sort declared
      apply (ensures_operand scope line).bind
      intro value isValue
      exact ensures_symbol.bind fun _ _ => Ensures.pure
        (admissible_of_operands declared rfl rfl (by simpa [Operation.operands] using isValue)
          trivial (symbolFits_of_none rfl))
  | binary op =>
      apply (ensures_sortRef scope line).bind
      intro sort declared
      apply (ensures_operand scope line).bind
      intro left leftValue
      apply (ensures_operand scope line).bind
      intro right rightValue
      exact ensures_symbol.bind fun _ _ => Ensures.pure
        (admissible_of_operands declared rfl rfl
          (by simpa [Operation.operands] using ⟨leftValue, rightValue⟩)
          trivial (symbolFits_of_none rfl))
  | ite =>
      apply (ensures_sortRef scope line).bind
      intro sort declared
      apply (ensures_operand scope line).bind
      intro condition conditionValue
      apply (ensures_operand scope line).bind
      intro onTrue trueValue
      apply (ensures_operand scope line).bind
      intro onFalse falseValue
      exact ensures_symbol.bind fun _ _ => Ensures.pure
        (admissible_of_operands declared rfl rfl
          (by simpa [Operation.operands] using ⟨conditionValue, trueValue, falseValue⟩)
          trivial (symbolFits_of_none rfl))
  | uext =>
      apply (ensures_sortRef scope line).bind
      intro sort declared
      apply (ensures_operand scope line).bind
      intro value isValue
      apply (ensures_word line _).bind
      intro token _
      apply (ensures_number narrowBound token).bind
      intro extra small
      exact ensures_symbol.bind fun _ symbol => Ensures.pure
        (admissible_of_operands declared rfl rfl (by simpa [Operation.operands] using isValue)
          small symbol)
  | slice =>
      apply (ensures_sortRef scope line).bind
      intro sort declared
      apply (ensures_operand scope line).bind
      intro value isValue
      apply (ensures_sliceBits line).bind
      intro bits inRange
      exact ensures_symbol.bind fun _ _ => Ensures.pure
        (admissible_of_operands declared rfl rfl (by simpa [Operation.operands] using isValue)
          inRange (symbolFits_of_none rfl))

/-! ## Lines -/

/-- The last line id of a scope is the greatest. -/
theorem lid_le_lastLid (wellFormed : Design.WellFormed scope.reverse) {instruction : Instruction}
    (member : instruction ∈ scope) : instruction.lid ≤ scope.lastLid := by
  cases scope with
  | nil => exact absurd member List.not_mem_nil
  | cons newest older =>
      rw [List.reverse_cons] at wellFormed
      rcases List.mem_cons.mp member with rfl | earlier
      · exact Nat.le_refl _
      · have last := (Design.WellFormed.snoc_iff.mp wellFormed).2
        exact Nat.le_of_lt (last.increasing instruction (List.mem_reverse.mpr earlier))

theorem ensures_freshLid (wellFormed : Design.WellFormed scope.reverse) (line : Line) :
    Ensures (freshLid scope line) fun value =>
      0 < value ∧ value < wideBound ∧ ∀ other ∈ scope.reverse, other.lid < value := by
  apply (ensures_word line _).bind
  intro token _
  apply (ensures_lid token).bind
  rintro value ⟨positive, small⟩
  split
  · exact Ensures.refuse _ _
  · split
    · exact Ensures.refuse _ _
    · rename_i greater
      apply Ensures.pure
      refine ⟨positive, small, fun other member => ?_⟩
      have below := lid_le_lastLid wellFormed (List.mem_reverse.mp member)
      omega

/-- What an instruction has before its widths are checked. -/
structure Acceptable (earlier : Design) (instruction : Instruction) : Prop where
  positive : 0 < instruction.lid
  inRange : instruction.lid < wideBound
  increasing : ∀ other ∈ earlier, other.lid < instruction.lid
  admissible : Admissible earlier instruction.operation

theorem ensures_instruction (wellFormed : Design.WellFormed scope.reverse) (line : Line) :
    Ensures (Reader.instruction scope line) (Acceptable scope.reverse) := by
  apply (ensures_freshLid wellFormed line).bind
  rintro lid ⟨positive, small, increasing⟩
  have anyKeyword : Ensures (keyword line) fun _ => True := by
    apply (ensures_word line _).bind
    intro token _
    split
    · exact Ensures.pure trivial
    · exact Ensures.refuse _ _
  apply anyKeyword.bind
  intro keyword _
  apply (ensures_operation scope line keyword).bind
  intro operation admissible
  exact Ensures.pure ⟨positive, small, increasing, admissible⟩

end Reader

/-! ## Widths -/

namespace Scope

variable {scope : Scope}

/-- In a scope a line id is found if it is declared. -/
theorem find_of_mem (wellFormed : Design.WellFormed scope.reverse) {instruction : Instruction}
    (member : instruction ∈ scope.reverse) : scope.find instruction.lid = some instruction := by
  cases found : scope.find instruction.lid with
  | none =>
      have missing := List.find?_eq_none.mp found instruction (List.mem_reverse.mp member)
      simp at missing
  | some other =>
      obtain ⟨inside, same⟩ := Reader.mem_of_find found
      rw [wellFormed.unique (List.mem_reverse.mpr inside) member same]

theorem sortWidth?_of_declares (wellFormed : Design.WellFormed scope.reverse) {lid width : Nat}
    (declared : Design.DeclaresWidth scope.reverse lid width) :
    scope.sortWidth? lid = some width := by
  have found := find_of_mem wellFormed declared
  simp only [sortWidth?] at found ⊢
  rw [found]
  rfl

theorem valueWidth?_of_hasWidth (wellFormed : Design.WellFormed scope.reverse) {lid width : Nat}
    (declared : Design.HasWidth scope.reverse lid width) :
    scope.valueWidth? lid = some width := by
  obtain ⟨operation, sort, member, isValue, sorted, sortDeclared⟩ := declared
  have found := find_of_mem wellFormed member
  simp only [valueWidth?] at found ⊢
  rw [found]
  simp [isValue, sorted, sortWidth?_of_declares wellFormed sortDeclared]

theorem declaresWidth_of_sortWidth? {lid width : Nat} (known : scope.sortWidth? lid = some width) :
    Design.DeclaresWidth scope.reverse lid width := by
  unfold sortWidth? at known
  split at known
  · rename_i found kind shape
    obtain ⟨member, same⟩ := Reader.mem_of_find shape
    cases kind with
    | bitVec declared =>
        cases known
        cases same
        exact List.mem_reverse.mpr member
    | array index element => cases known
  · cases known

theorem hasWidth_of_valueWidth? {lid width : Nat} (known : scope.valueWidth? lid = some width) :
    Design.HasWidth scope.reverse lid width := by
  unfold valueWidth? at known
  split at known
  · rename_i instruction found
    obtain ⟨member, rfl⟩ := Reader.mem_of_find found
    split at known
    · rename_i isValue
      obtain ⟨sort, sorted, sortKnown⟩ := Option.bind_eq_some_iff.mp known
      exact ⟨instruction.operation, sort, List.mem_reverse.mpr member, isValue, sorted,
        declaresWidth_of_sortWidth? sortKnown⟩
    · cases known
  · cases known

theorem equal_of_rule {role : Role} {actual expected : Option Nat} {a e : Nat}
    (rule : (WidthRule.equal role actual expected).mismatch? = none) (first : actual = some a)
    (second : expected = some e) : a = e := by
  subst first second
  by_contra differ
  simp [WidthRule.mismatch?, differ] at rule

theorem inside_of_rule {upper width : Nat} {operandWidth : Option Nat}
    (rule : (WidthRule.inside upper operandWidth).mismatch? = none)
    (known : operandWidth = some width) : upper < width := by
  subst known
  by_contra beyond
  simp [WidthRule.mismatch?, beyond] at rule

theorem binary_widthsAgree (wellFormed : Design.WellFormed scope.reverse) {op : BinaryOp}
    {s left right : Nat}
    (rules : ∀ rule ∈ scope.rules (.binary op s left right), rule.mismatch? = none) :
    (Operation.binary op s left right).WidthsAgree scope.reverse := by
  have sortKnown {lid width : Nat} (declared : Design.DeclaresWidth scope.reverse lid width) :=
    sortWidth?_of_declares wellFormed declared
  have valueKnown {lid width : Nat} (declared : Design.HasWidth scope.reverse lid width) :=
    valueWidth?_of_hasWidth wellFormed declared
  cases op with
  | concat =>
      simp only [Scope.rules, binaryRules, Operation.sort?, Option.bind_some, List.mem_singleton,
        forall_eq] at rules
      intro l r result leftKnown rightKnown declared
      refine equal_of_rule rules (sortKnown declared) ?_
      rw [valueKnown leftKnown, valueKnown rightKnown]
      rfl
  | implies | iff =>
      simp only [Scope.rules, binaryRules, Operation.sort?, Option.bind_some, List.mem_cons,
        List.not_mem_nil, or_false, forall_eq_or_imp, forall_eq] at rules
      refine ⟨fun width known => ?_, fun width known => ?_, fun result declared => ?_⟩
      · exact equal_of_rule rules.1 (valueKnown known) rfl
      · exact equal_of_rule rules.2.1 (valueKnown known) rfl
      · exact equal_of_rule rules.2.2 (sortKnown declared) rfl
  | eq | neq | ugt | sgt | ugte | sgte | ult | slt | ulte | slte =>
      simp only [Scope.rules, binaryRules, Operation.sort?, Option.bind_some, List.mem_cons,
        List.not_mem_nil, or_false, forall_eq_or_imp, forall_eq] at rules
      refine ⟨fun l r leftKnown rightKnown => ?_, fun result declared => ?_⟩
      · exact equal_of_rule rules.1 (valueKnown rightKnown) (valueKnown leftKnown)
      · exact equal_of_rule rules.2 (sortKnown declared) rfl
  | add | sub | mul | sdiv | udiv | smod | sll | srl | sra | and | or | xor =>
      simp only [Scope.rules, binaryRules, Operation.sort?, Option.bind_some, List.mem_cons,
        List.not_mem_nil, or_false, forall_eq_or_imp, forall_eq] at rules
      refine ⟨fun l r leftKnown rightKnown => ?_, fun l result leftKnown declared => ?_⟩
      · exact equal_of_rule rules.1 (valueKnown rightKnown) (valueKnown leftKnown)
      · exact equal_of_rule rules.2 (sortKnown declared) (valueKnown leftKnown)

/-- An operation without mismatch has agreeing widths. -/
theorem widthsAgree_of_mismatch? (wellFormed : Design.WellFormed scope.reverse)
    {operation : Operation} (literals : operation.LiteralsFit scope.reverse)
    (clean : scope.mismatch? operation = none) :
    operation.WidthsAgree scope.reverse := by
  have rules : ∀ rule ∈ scope.rules operation, rule.mismatch? = none :=
    List.findSome?_eq_none_iff.mp clean
  have sortKnown {lid width : Nat} (declared : Design.DeclaresWidth scope.reverse lid width) :=
    sortWidth?_of_declares wellFormed declared
  have valueKnown {lid width : Nat} (declared : Design.HasWidth scope.reverse lid width) :=
    valueWidth?_of_hasWidth wellFormed declared
  cases operation with
  | init s target value | next s target value =>
      simp only [Scope.rules, Operation.sort?, Option.bind_some, List.mem_cons, List.not_mem_nil,
        or_false, forall_eq_or_imp, forall_eq] at rules
      intro result declared
      refine ⟨fun width known => ?_, fun width known => ?_⟩
      · exact equal_of_rule rules.1 (valueKnown known) (sortKnown declared)
      · exact equal_of_rule rules.2 (valueKnown known) (sortKnown declared)
  | constraint condition name | bad condition name =>
      simp only [Scope.rules, List.mem_singleton, forall_eq] at rules
      intro width known
      exact equal_of_rule rules (valueKnown known) rfl
  | not s operand =>
      simp only [Scope.rules, Operation.sort?, Option.bind_some, List.mem_singleton,
        forall_eq] at rules
      intro result width declared known
      exact equal_of_rule rules (valueKnown known) (sortKnown declared)
  | ite s condition onTrue onFalse =>
      simp only [Scope.rules, Operation.sort?, Option.bind_some, List.mem_cons, List.not_mem_nil,
        or_false, forall_eq_or_imp, forall_eq] at rules
      refine ⟨fun width known => equal_of_rule rules.1 (valueKnown known) rfl, ?_⟩
      intro result declared
      refine ⟨fun width known => ?_, fun width known => ?_⟩
      · exact equal_of_rule rules.2.1 (valueKnown known) (sortKnown declared)
      · exact equal_of_rule rules.2.2 (valueKnown known) (sortKnown declared)
  | uext s operand extra name =>
      simp only [Scope.rules, Operation.sort?, Option.bind_some, List.mem_singleton,
        forall_eq] at rules
      intro result width declared known
      exact equal_of_rule rules (sortKnown declared) (by rw [valueKnown known, Option.map_some])
  | slice s operand lowBit bits =>
      simp only [Scope.rules, Operation.sort?, Option.bind_some, List.mem_cons, List.not_mem_nil,
        or_false, forall_eq_or_imp, forall_eq] at rules
      refine ⟨fun width known => ?_, fun result declared => ?_⟩
      · have below := inside_of_rule rules.1 (valueKnown known)
        have positive := literals.1
        omega
      · exact equal_of_rule rules.2 (sortKnown declared) rfl
  | binary op s left right => exact binary_widthsAgree wellFormed rules
  | sort kind | input s name | state s name | output value name | const s value | zero s | one s
  | ones s => trivial

/-! ## Designs -/

theorem wellFormed_of_readLine (wellFormed : Design.WellFormed scope.reverse) {line : Line}
    (words : ∀ t ∈ line.tokens, IsWord t.text) {instruction : Instruction}
    (accepted : scope.readLine line = .ok instruction) :
    instruction.WellFormed scope.reverse := by
  obtain ⟨rest, run, clean⟩ := readLine_eq_ok accepted
  obtain ⟨acceptable, -⟩ := Reader.ensures_instruction wellFormed line _ _ _ words run
  exact ⟨acceptable.positive, acceptable.inRange, acceptable.increasing,
    acceptable.admissible.resolved, acceptable.admissible.literals, acceptable.admissible.symbol,
    widthsAgree_of_mismatch? wellFormed acceptable.admissible.literals clean⟩

theorem wellFormed_of_readLines {lines : List Line} (wellFormed : Design.WellFormed scope.reverse)
    (words : ∀ line ∈ lines, ∀ t ∈ line.tokens, IsWord t.text) {final : Scope}
    (accepted : scope.readLines lines = .ok final) : Design.WellFormed final.reverse := by
  induction lines generalizing scope with
  | nil =>
      cases accepted
      exact wellFormed
  | cons line rest ih =>
      obtain ⟨instruction, read, later⟩ := readLines_cons_eq_ok accepted
      have formed := wellFormed_of_readLine wellFormed (words line List.mem_cons_self) read
      apply ih _ (fun other member => words other (List.mem_cons_of_mem _ member)) later
      rw [List.reverse_cons]
      exact .snoc wellFormed formed

end Scope

/-- Only well-formed designs are read. -/
theorem Design.wellFormed_of_read {source : String} {design : Design}
    (accepted : Design.read source = .ok design) : design.WellFormed := by
  have empty : WellFormed (List.reverse ([] : Scope)) := .nil
  have wellFormed := Scope.wellFormed_of_readLines empty
    (fun _ member => Source.isWord_of_mem_lines member) (readLines_of_ok accepted)
  rwa [List.reverse_reverse] at wellFormed

/--
In a design that was read the line ids increase, and every instruction refers to earlier ones of the
right kind, has literals in their ranges, one word as its symbol, and agreeing widths.
-/
theorem Design.wellSorted_of_read {source : String} {design : Design}
    (accepted : Design.read source = .ok design) :
    design.Pairwise (fun first second => first.lid < second.lid) ∧
      ∀ before instruction after, design = before ++ instruction :: after →
        0 < instruction.lid ∧ instruction.lid < wideBound ∧
          instruction.operation.Resolved before ∧ instruction.operation.LiteralsFit before ∧
          instruction.operation.SymbolFits ∧ instruction.operation.WidthsAgree before := by
  have wellFormed := Design.wellFormed_of_read accepted
  refine ⟨wellFormed.sorted, ?_⟩
  rintro before instruction after rfl
  have formed := wellFormed.at_place
  exact ⟨formed.positive, formed.inRange, formed.resolved, formed.literals, formed.symbol,
    formed.widths⟩

namespace Sample

/-- Arguments of every kind: an array, a slice, constants in two notations and beyond 64 bits. -/
def mixedSource : String :=
  "1 sort bitvec 8 ; bytes\n\n2  sort bitvec 4\n3 sort array 1 2 memory\n4 input 1 x\n5 state 3 mem\n" ++
  "6 slice 2 4 6 3\n7 consth 1 fF\n8 constd 2 -1\n9 uext 1 6 4 wide\n10 init 3 5 5\n" ++
  "11 sort bitvec 100\n12 constd 11 +18446744073709551615\n"

def mixed : Design :=
  [⟨1, .sort (.bitVec 8)⟩, ⟨2, .sort (.bitVec 4)⟩, ⟨3, .sort (.array 1 2)⟩,
    ⟨4, .input 1 (some "x")⟩, ⟨5, .state 3 (some "mem")⟩, ⟨6, .slice 2 4 3 4⟩, ⟨7, .const 1 255⟩,
    ⟨8, .const 2 15⟩, ⟨9, .uext 1 6 4 (some "wide")⟩, ⟨10, .init 3 5 5⟩,
    ⟨11, .sort (.bitVec 100)⟩, ⟨12, .const 11 18446744073709551615⟩]

theorem read_mixedSource : Design.read mixedSource = .ok mixed := by decide +kernel

end Sample

/-- The slice of the sample lies inside its operand, and its sort has its width. -/
theorem Design.wellSorted_of_read_mixed :
    Design.read Sample.mixedSource = .ok Sample.mixed ∧
      (Operation.slice 2 4 3 4).WidthsAgree (Sample.mixed.take 5) := by
  refine ⟨Sample.read_mixedSource, ?_⟩
  obtain ⟨-, holds⟩ := Design.wellSorted_of_read Sample.read_mixedSource
  exact (holds (Sample.mixed.take 5) ⟨6, .slice 2 4 3 4⟩ (Sample.mixed.drop 6) rfl).2.2.2.2.2

end BoundedCheck
