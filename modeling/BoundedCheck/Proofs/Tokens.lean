import Mathlib
import BoundedCheck.Proofs.MachineReading

/-!
# Tokens of a source

A source is made of blanks, comments and words.  The scanner gives a token for each word, where the
word stands, and nothing for the rest: a character belongs to a token exactly when it is not blank
and its line has no semicolon up to it.
-/

namespace BoundedCheck

namespace Source

/-! ## Comments and boundaries -/

/-- A semicolon stands behind the last line feed of a text. -/
def Commented (before : List Char) : Prop :=
  ';' ∈ before.reverse.takeWhile (· != '\n')

/-- A character that belongs to a word: it is not blank, and no comment has started. -/
def Significant (before : List Char) (c : Char) : Prop :=
  Text.isBlank c = false ∧ c ≠ ';' ∧ ¬ Commented before

/-- A word can start behind a text. -/
structure Open (before : List Char) : Prop where
  blank : ∀ c, before.getLast? = some c → Text.isBlank c = true
  uncommented : ¬ Commented before

/-- A word can end before a text. -/
def Ends (after : List Char) : Prop :=
  ∀ c, after.head? = some c → Text.isBlank c = true ∨ c = ';'

theorem commented_append (before : List Char) {more : List Char} (noBreak : '\n' ∉ more) :
    Commented (before ++ more) ↔ Commented before ∨ ';' ∈ more := by
  rw [Commented, takeWhile_reverse_append before noBreak, List.mem_append, List.mem_reverse,
    or_comm]
  rfl

theorem not_commented_break (before : List Char) : ¬ Commented (before ++ ['\n']) := by
  simp [Commented]

theorem Whole.open {before : List Char} (whole : Whole before) : Open before := by
  rcases whole with rfl | ⟨body, rfl⟩
  · exact ⟨by simp, by simp [Commented]⟩
  · refine ⟨?_, not_commented_break body⟩
    intro c last
    rw [List.getLast?_concat] at last
    cases last
    exact Text.isBlank_newline

/-- A blank of the same line lets the next word start. -/
theorem Open.blank_append {before gap : List Char} (starts : Open before) {c : Char}
    (isBlank : Text.isBlank c = true) (noBreak : '\n' ∉ gap ++ [c]) (noComment : ';' ∉ gap ++ [c]) :
    Open (before ++ (gap ++ [c])) := by
  constructor
  · intro d last
    rw [← List.append_assoc, List.getLast?_concat] at last
    cases last
    exact isBlank
  · rw [commented_append before noBreak]
    exact not_or.mpr ⟨starts.uncommented, noComment⟩

namespace Plain

variable {word : List Char}

theorem nil : Plain [] :=
  fun _ member => absurd member List.not_mem_nil

theorem noBreak (plain : Plain word) : '\n' ∉ word := by
  intro member
  have visible := (plain _ member).1
  rw [Text.isBlank_newline] at visible
  cases visible

theorem noComment (plain : Plain word) : ';' ∉ word :=
  fun member => (plain _ member).2 rfl

theorem cons {c : Char} (visible : Text.isBlank c = false) (other : c ≠ ';') (plain : Plain word) :
    Plain (c :: word) :=
  List.forall_mem_cons.mpr ⟨⟨visible, other⟩, plain⟩

theorem reverse (plain : Plain word) : Plain word.reverse :=
  fun c member => plain c (List.mem_reverse.mp member)

end Plain

/-! ## What a source is made of -/

/--
The parts of a text that stands behind another, with a token for each word.  A word goes on as long
as it can, and a comment up to the end of its line.
-/
inductive Scanned : List Char → List Char → List Token → Prop where
  | done {before : List Char} : Scanned before [] []
  | blank {before rest : List Char} {c : Char} {tokens : List Token} : Text.isBlank c = true →
      Scanned (before ++ [c]) rest tokens → Scanned before (c :: rest) tokens
  | word {before word rest : List Char} {tokens : List Token} : word ≠ [] → Plain word →
      Open before → Ends rest → Scanned (before ++ word) rest tokens →
      Scanned before (word ++ rest) (⟨String.ofList word, spanAfter before word⟩ :: tokens)
  | comment {before body rest : List Char} {tokens : List Token} : '\n' ∉ body →
      (∀ c, rest.head? = some c → c = '\n') → Scanned (before ++ ';' :: body) rest tokens →
      Scanned before (';' :: body ++ rest) tokens

/-- The place behind a part of a line. -/
theorem wordsFrom_behind (before : List Char) {gap : List Char} (noBreak : '\n' ∉ gap)
    (word text : List Char) :
    wordsFrom ((before ++ gap).count '\n' + 1) (byteLength (before ++ gap))
        (lastLineLength (before ++ gap) + 1) word text =
      wordsFrom (before.count '\n' + 1) (byteLength before + byteLength gap)
        (lastLineLength before + 1 + gap.length) word text := by
  rw [List.count_append, List.count_eq_zero.mpr noBreak, byteLength_append,
    lastLineLength_append before noBreak, Nat.add_zero, Nat.add_right_comm]

/--
The words of a text without comments and line feeds.  `before` is the source up to the word under
way.
-/
theorem scanned_wordsFrom {before word text after : List Char} {more : List Token}
    (plain : Plain word) (noBreak : '\n' ∉ text) (noComment : ';' ∉ text) (starts : Open before)
    (ends : Ends after) (later : Scanned (before ++ word.reverse ++ text) after more) :
    Scanned before (word.reverse ++ text ++ after)
      (wordsFrom (before.count '\n' + 1) (byteLength before) (lastLineLength before + 1) word text ++
        more) := by
  -- The word under way grows with each visible character; at a blank `before` moves behind it.
  induction text generalizing before word with
  | nil =>
      rw [List.append_nil] at later
      rw [List.append_nil]
      unfold wordsFrom
      split
      · rename_i empty
        rw [List.isEmpty_iff.mp empty] at later ⊢
        simpa using later
      · rename_i nonempty
        exact .word (by simpa using nonempty) plain.reverse starts ends later
  | cons c rest ih =>
      obtain ⟨sameLine, restBreak⟩ := not_or.mp (fun same => noBreak (List.mem_cons.mpr same))
      obtain ⟨other, restComment⟩ := not_or.mp (fun same => noComment (List.mem_cons.mpr same))
      unfold wordsFrom
      split
      · rename_i isBlank
        have gapBreak : '\n' ∉ word.reverse ++ [c] := by
          rw [List.mem_append, List.mem_singleton, not_or]
          exact ⟨plain.reverse.noBreak, sameLine⟩
        have gapComment : ';' ∉ word.reverse ++ [c] := by
          rw [List.mem_append, List.mem_singleton, not_or]
          exact ⟨plain.reverse.noComment, other⟩
        have follows := ih Plain.nil restBreak restComment
          (starts.blank_append isBlank gapBreak gapComment) (by simpa using later)
        rw [wordsFrom_behind before gapBreak, byteLength_append, byteLength_reverse,
          List.length_append, List.length_reverse] at follows
        split
        · rename_i empty
          rw [List.isEmpty_iff.mp empty] at follows ⊢
          exact .blank isBlank (by simpa [byteLength_nil, byteLength_cons] using follows)
        · rename_i nonempty
          have parts : word.reverse ++ c :: rest ++ after =
              word.reverse ++ (c :: (rest ++ after)) := by simp
          rw [parts]
          refine .word (by simpa using nonempty) plain.reverse starts ?_ (.blank isBlank ?_)
          · intro d first
            cases first
            exact Or.inl isBlank
          · simpa [byteLength_nil, byteLength_cons, Nat.add_assoc] using follows
      · rename_i visible
        have joined : Plain (c :: word) :=
          Plain.cons (by simpa using visible) (fun same => other same.symm) plain
        have follows := ih joined restBreak restComment starts (by simpa using later)
        simpa using follows

/-- The tokens of a line, its end apart. -/
theorem scanned_tokens {before body after : List Char} {more : List Token} (whole : Whole before)
    (noBreak : '\n' ∉ body) (ends : ∀ c, after.head? = some c → c = '\n')
    (later : Scanned (before ++ body) after more) :
    Scanned before (body ++ after)
      (tokens (before.count '\n' + 1) (byteLength before) body ++ more) := by
  have rejoined : code body ++ body.dropWhile (· != ';') = body := List.takeWhile_append_dropWhile
  have codeBreak : '\n' ∉ code body := fun member => noBreak (List.takeWhile_subset _ member)
  have codeComment : ';' ∉ code body := by
    intro member
    simpa using List.mem_takeWhile_imp member
  have words {rest : List Char} (restEnds : Ends rest)
      (restLater : Scanned (before ++ code body) rest more) :
      Scanned before (code body ++ rest)
        (tokens (before.count '\n' + 1) (byteLength before) body ++ more) := by
    have scanned := scanned_wordsFrom Plain.nil codeBreak codeComment whole.open restEnds
      (by simpa using restLater)
    rw [whole.lastLineLength] at scanned
    exact scanned
  cases comment : body.dropWhile (· != ';') with
  | nil =>
      rw [comment, List.append_nil] at rejoined
      rw [← rejoined] at later
      have breaks : Ends after := fun c first => Or.inl (ends c first ▸ Text.isBlank_newline)
      simpa only [rejoined] using words breaks later
  | cons c rest =>
      have isComment : c = ';' := by
        simpa [comment] using List.head?_dropWhile_not (· != ';') body
      rw [comment, isComment] at rejoined
      have restBreak : '\n' ∉ rest := fun member => noBreak (rejoined ▸ by simp [member])
      rw [← rejoined, ← List.append_assoc] at later
      have starts : Ends (';' :: rest ++ after) := by
        intro d first
        cases first
        exact Or.inr rfl
      have scanned := words starts (.comment restBreak ends later)
      simpa only [← List.append_assoc, rejoined] using scanned

/-- A blank behind a text adds no word. -/
theorem wordsFrom_concat_blank {line start column : Nat} {word text : List Char} {c : Char}
    (isBlank : Text.isBlank c = true) :
    wordsFrom line start column word (text ++ [c]) = wordsFrom line start column word text := by
  induction text generalizing start column word with
  | nil => simp [wordsFrom, isBlank]
  | cons d rest ih => simp only [List.cons_append, wordsFrom, ih]

theorem tokens_concat_break (line start : Nat) (body : List Char) :
    tokens line start (body ++ ['\n']) = tokens line start body := by
  unfold tokens code
  by_cases plain : ∀ c ∈ body, (c != ';') = true
  · rw [List.takeWhile_append_of_pos plain, List.takeWhile_eq_self_iff.mpr plain]
    exact wordsFrom_concat_blank Text.isBlank_newline
  · rw [List.takeWhile_append, if_neg]
    intro full
    exact plain (List.takeWhile_eq_self_iff.mp (List.takeWhile_prefix _ |>.eq_of_length full))

theorem flatMap_tokens_linesFrom (number start : Nat) (piece : List Char)
    (rest : List (List Char)) :
    (linesFrom number start (piece :: rest)).flatMap Line.tokens = tokens number start piece ++
      (linesFrom (number + 1) (start + byteLength piece) rest).flatMap Line.tokens := by
  cases words : tokens number start piece <;> simp [linesFrom, words]

/-- The tokens of pieces that stand behind whole lines. -/
theorem scanned_linesFrom {cuts : List (List Char)} (cut : Cut cuts) {before : List Char}
    (whole : Whole before) :
    Scanned before cuts.flatten
      ((linesFrom (before.count '\n' + 1) (byteLength before) cuts).flatMap Line.tokens) := by
  induction cut generalizing before with
  | nil => exact .done
  | @last body _ noBreak =>
      have scanned := scanned_tokens whole noBreak (by simp) .done
      rw [flatMap_tokens_linesFrom, List.flatten_singleton]
      simpa [linesFrom] using scanned
  | @line body rest noBreak _ ih =>
      have further : Whole (before ++ (body ++ ['\n'])) := whole.append (Or.inr ⟨body, rfl⟩)
      have lines : (before ++ (body ++ ['\n'])).count '\n' = before.count '\n' + 1 := by
        rw [List.count_append, List.count_append, List.count_eq_zero.mpr noBreak,
          List.count_singleton_self]
      have follows := ih further
      rw [lines, byteLength_append] at follows
      rw [flatMap_tokens_linesFrom, tokens_concat_break, List.flatten_cons, List.append_assoc]
      apply scanned_tokens whole noBreak (by simp)
      exact .blank Text.isBlank_newline (by simpa using follows)

/-- The tokens of a source are those of its parts. -/
theorem scanned_exactLines (source : String) :
    Scanned [] source.toList ((exactLines source).flatMap Line.tokens) := by
  have scanned := scanned_linesFrom (cut_pieces source.toList) (Or.inl rfl)
  rwa [flatten_pieces] at scanned

/-! ## Where tokens stand -/

/-- A token stands between two parts of a source, as long a word as the source has there. -/
structure Placed (source : List Char) (t : Token) (before after : List Char) : Prop where
  whole : source = before ++ t.text.toList ++ after
  span : t.span = spanAfter before t.text.toList
  word : IsWord t.text
  starts : Open before
  ends : Ends after

theorem Scanned.placed {before text : List Char} {tokens : List Token}
    (scanned : Scanned before text tokens) {t : Token} (member : t ∈ tokens) :
    ∃ gap after, Placed (before ++ text) t (before ++ gap) after := by
  induction scanned with
  | done => exact absurd member List.not_mem_nil
  | @blank before rest c tokens _ _ ih =>
      obtain ⟨gap, after, placed⟩ := ih member
      exact ⟨c :: gap, after, by simpa using placed⟩
  | @word before word rest tokens nonempty plain starts ends _ ih =>
      rcases List.mem_cons.mp member with rfl | later
      · refine ⟨[], rest, ?_, ?_, ⟨?_, ?_⟩, by simpa using starts, ends⟩
        · simp
        · simp
        · simpa using nonempty
        · rwa [String.toList_ofList]
      · obtain ⟨gap, after, placed⟩ := ih later
        exact ⟨word ++ gap, after, by simpa using placed⟩
  | @comment before body rest tokens _ _ _ ih =>
      obtain ⟨gap, after, placed⟩ := ih member
      exact ⟨';' :: body ++ gap, after, by simpa using placed⟩

/-- Tokens come one after the other. -/
theorem Scanned.ordered {before text : List Char} {tokens : List Token}
    (scanned : Scanned before text tokens) :
    tokens.Pairwise fun first second => first.span.stop ≤ second.span.start := by
  induction scanned with
  | done => exact List.Pairwise.nil
  | blank _ _ ih => exact ih
  | @word before word rest tokens _ _ _ _ later ih =>
      refine List.Pairwise.cons ?_ ih
      intro t member
      obtain ⟨gap, after, placed⟩ := later.placed member
      rw [placed.span]
      simp only [spanAfter, byteLength_append]
      omega
  | comment _ _ _ ih => exact ih

/-! ## What tokens cover -/

/-- The bytes of a character that stands behind a text lie in a token. -/
def Covers (before : List Char) (c : Char) (t : Token) : Prop :=
  t.span.start ≤ byteLength before ∧ byteLength before + c.utf8Size ≤ t.span.stop

/-- A character of two texts stands in the first or in the second. -/
theorem cut_append {front back before after : List Char} {c : Char}
    (cut : front ++ back = before ++ c :: after) :
    (∃ more, front = before ++ c :: more) ∨
      ∃ more, before = front ++ more ∧ back = more ++ c :: after := by
  rcases List.append_eq_append_iff.mp cut with ⟨more, rfl, rest⟩ | ⟨more, rfl, rest⟩
  · exact Or.inr ⟨more, rfl, rest⟩
  · cases more with
    | nil => exact Or.inr ⟨[], by simp, by simpa using rest.symm⟩
    | cons d more =>
        obtain ⟨rfl, -⟩ := List.cons.inj rest
        exact Or.inl ⟨more, rfl⟩

/-- Every character that belongs to a word lies in a token. -/
theorem Scanned.covered {before text : List Char} {tokens : List Token}
    (scanned : Scanned before text tokens) {front back : List Char} {c : Char}
    (cut : text = front ++ c :: back) (significant : Significant (before ++ front) c) :
    ∃ t ∈ tokens, Covers (before ++ front) c t := by
  induction scanned generalizing front with
  | done => simp at cut
  | @blank before rest d tokens isBlank _ ih =>
      cases front with
      | nil =>
          obtain ⟨rfl, -⟩ := List.cons.inj cut
          rw [significant.1] at isBlank
          cases isBlank
      | cons e front =>
          obtain ⟨rfl, remaining⟩ := List.cons.inj cut
          simpa using ih remaining (by simpa using significant)
  | @word before word rest tokens _ _ _ _ _ ih =>
      rcases cut_append cut with ⟨more, rfl⟩ | ⟨more, rfl, remaining⟩
      · refine ⟨_, List.mem_cons_self, ?_, ?_⟩
        · simp [spanAfter, byteLength_append]
        · simp only [spanAfter, byteLength_append, byteLength_cons]
          omega
      · obtain ⟨t, member, covers⟩ := ih remaining (by simpa using significant)
        exact ⟨t, List.mem_cons_of_mem _ member, by simpa using covers⟩
  | @comment before body rest tokens noBreak _ _ ih =>
      rcases cut_append cut with ⟨more, inside⟩ | ⟨more, rfl, remaining⟩
      · exfalso
        cases front with
        | nil =>
            obtain ⟨same, -⟩ := List.cons.inj inside
            exact significant.2.1 same.symm
        | cons d front =>
            obtain ⟨rfl, rfl⟩ := List.cons.inj inside
            have inLine : '\n' ∉ ';' :: front := by
              intro member
              rcases List.mem_cons.mp member with same | later
              · exact absurd same (by decide)
              · exact noBreak (List.mem_append_left _ later)
            exact significant.2.2 ((commented_append before inLine).mpr (Or.inr List.mem_cons_self))
      · simpa using ih remaining (by simpa using significant)

/-- A character in a token belongs to a word, on the line of the token. -/
theorem Placed.significant {source before after : List Char} {t : Token}
    (placed : Placed source t before after) {front back : List Char} {c : Char}
    (cut : source = front ++ c :: back) (covers : Covers front c t) :
    Significant front c ∧ front.count '\n' + 1 = t.span.line := by
  obtain ⟨starts, stops⟩ := covers
  have positive := c.utf8Size_pos
  rw [placed.span] at starts stops ⊢
  simp only [spanAfter] at starts stops ⊢
  have whole := placed.whole
  rw [cut, List.append_assoc] at whole
  rcases cut_append whole.symm with ⟨more, rfl⟩ | ⟨more, rfl, remaining⟩
  · rw [byteLength_append, byteLength_cons] at starts
    omega
  · rcases cut_append remaining with ⟨rest, inside⟩ | ⟨rest, rfl, -⟩
    · have plain : Plain (more ++ c :: rest) := inside ▸ placed.word.2
      have front : Plain more := fun d member => plain d (List.mem_append_left _ member)
      obtain ⟨visible, other⟩ := plain c (by simp)
      refine ⟨⟨visible, other, ?_⟩, ?_⟩
      · rw [commented_append before front.noBreak]
        exact not_or.mpr ⟨placed.starts.uncommented, front.noComment⟩
      · rw [List.count_append, List.count_eq_zero.mpr front.noBreak, Nat.add_zero]
    · rw [byteLength_append, byteLength_append] at stops
      omega

/-- A word has a first character, which it covers. -/
theorem Placed.first {source before after : List Char} {t : Token}
    (placed : Placed source t before after) :
    ∃ c back, source = before ++ c :: back ∧ Covers before c t := by
  have span := placed.span
  cases shape : t.text.toList with
  | nil => exact absurd (String.toList_eq_nil_iff.mp shape) placed.word.1
  | cons c rest =>
      refine ⟨c, rest ++ after, by rw [placed.whole, shape]; simp, ?_, ?_⟩
      · rw [span]
        exact Nat.le_refl _
      · rw [span, shape]
        simp only [spanAfter, byteLength_cons]
        omega

/-- Tokens that come one after the other have no character in common. -/
theorem covers_unique {tokens : List Token}
    (ordered : tokens.Pairwise fun first second => first.span.stop ≤ second.span.start)
    {before : List Char} {c : Char} {first second : Token} (inFirst : first ∈ tokens)
    (inSecond : second ∈ tokens) (firstCovers : Covers before c first)
    (secondCovers : Covers before c second) : first = second := by
  induction tokens with
  | nil => exact absurd inFirst List.not_mem_nil
  | cons t rest ih =>
      obtain ⟨behind, remaining⟩ := List.pairwise_cons.mp ordered
      have apart {other : Token} (member : other ∈ rest) (own : Covers before c t) :
          ¬ Covers before c other := by
        intro covers
        have positive := c.utf8Size_pos
        have follows := behind other member
        obtain ⟨-, stops⟩ := own
        obtain ⟨starts, -⟩ := covers
        omega
      rcases List.mem_cons.mp inFirst with rfl | firstLater
      · rcases List.mem_cons.mp inSecond with rfl | secondLater
        · rfl
        · exact absurd secondCovers (apart secondLater firstCovers)
      · rcases List.mem_cons.mp inSecond with rfl | secondLater
        · exact absurd firstCovers (apart firstLater secondCovers)
        · exact ih remaining firstLater secondLater

/-! ## Lines of a source -/

theorem increasing_linesFrom (number start : Nat) (cuts : List (List Char)) :
    (linesFrom number start cuts).Pairwise (fun first second => first.number < second.number) ∧
      ∀ line ∈ linesFrom number start cuts, number ≤ line.number := by
  induction cuts generalizing number start with
  | nil => exact ⟨List.Pairwise.nil, fun _ member => absurd member List.not_mem_nil⟩
  | cons piece rest ih =>
      obtain ⟨increasing, later⟩ := ih (number + 1) (start + byteLength piece)
      unfold linesFrom
      split
      · exact ⟨increasing, fun line member => Nat.le_of_succ_le (later line member)⟩
      · refine ⟨List.Pairwise.cons later increasing, ?_⟩
        intro line member
        rcases List.mem_cons.mp member with rfl | inside
        · exact Nat.le_refl _
        · exact Nat.le_of_succ_le (later line inside)

/-- Lines hold the words of a source: all of them, once, where they stand, and nothing else. -/
structure Tokenised (source : List Char) (lines : List Line) : Prop where
  increasing : lines.Pairwise fun first second => first.number < second.number
  listed : ∀ number, (∃ line ∈ lines, line.number = number) ↔
    ∃ before c after, source = before ++ c :: after ∧ Significant before c ∧
      before.count '\n' + 1 = number
  nonempty : ∀ line ∈ lines, line.tokens ≠ []
  placed : ∀ line ∈ lines, ∀ t ∈ line.tokens, t.span.line = line.number ∧
    ∃ before after, Placed source t before after
  ordered : (lines.flatMap Line.tokens).Pairwise fun first second =>
    first.span.stop ≤ second.span.start
  covered : ∀ before c after, source = before ++ c :: after →
    (Significant before c ↔ ∃! t, t ∈ lines.flatMap Line.tokens ∧ Covers before c t)

theorem placed_of_mem_exactLines {source : String} {line : Line}
    (member : line ∈ exactLines source) {t : Token} (inside : t ∈ line.tokens) :
    ∃ before after, Placed source.toList t before after := by
  obtain ⟨gap, after, placed⟩ :=
    (scanned_exactLines source).placed (List.mem_flatMap.mpr ⟨line, member, inside⟩)
  exact ⟨[] ++ gap, after, placed⟩

/-- The number of a line is that of a source line with a word on it. -/
theorem listed_iff {source : String} {number : Nat} :
    (∃ line ∈ exactLines source, line.number = number) ↔
      ∃ before c after, source.toList = before ++ c :: after ∧ Significant before c ∧
        before.count '\n' + 1 = number := by
  constructor
  · rintro ⟨line, member, rfl⟩
    obtain ⟨t, inside⟩ := List.exists_mem_of_ne_nil _ (tokens_ne_nil_of_mem_exactLines member)
    obtain ⟨before, after, placed⟩ := placed_of_mem_exactLines member inside
    obtain ⟨c, back, cut, covers⟩ := placed.first
    obtain ⟨significant, place⟩ := placed.significant cut covers
    rw [(shown_of_mem_exactLines member inside).2] at place
    exact ⟨before, c, back, cut, significant, place⟩
  · rintro ⟨before, c, after, cut, significant, rfl⟩
    obtain ⟨t, found, covers⟩ := (scanned_exactLines source).covered cut significant
    obtain ⟨line, member, inside⟩ := List.mem_flatMap.mp found
    obtain ⟨front, back, placed⟩ := placed_of_mem_exactLines member inside
    obtain ⟨-, place⟩ := placed.significant cut covers
    exact ⟨line, member, by rw [place, (shown_of_mem_exactLines member inside).2]⟩

/-- A character belongs to a word exactly when one token has it. -/
theorem significant_iff {source : String} {before after : List Char} {c : Char}
    (cut : source.toList = before ++ c :: after) :
    Significant before c ↔
      ∃! t, t ∈ (exactLines source).flatMap Line.tokens ∧ Covers before c t := by
  have scanned := scanned_exactLines source
  constructor
  · intro significant
    obtain ⟨t, member, covers⟩ := scanned.covered cut significant
    refine ⟨t, ⟨member, covers⟩, ?_⟩
    rintro other ⟨otherMember, otherCovers⟩
    exact covers_unique scanned.ordered otherMember member otherCovers covers
  · rintro ⟨t, ⟨member, covers⟩, -⟩
    obtain ⟨gap, rest, placed⟩ := scanned.placed member
    exact (placed.significant cut covers).1

theorem tokenised_exactLines (source : String) : Tokenised source.toList (exactLines source) where
  increasing := (increasing_linesFrom 1 0 (pieces source.toList)).1
  listed _ := listed_iff
  nonempty _ member := tokens_ne_nil_of_mem_exactLines member
  placed _ member _ inside :=
    ⟨(shown_of_mem_exactLines member inside).2, placed_of_mem_exactLines member inside⟩
  ordered := (scanned_exactLines source).ordered
  covered _ _ _ cut := significant_iff cut

/--
The lines of a source of at most two gigabytes hold exactly its words.  Line numbers and columns
leave no range.
-/
theorem lines_tokenised {source : String} (short : source.utf8ByteSize ≤ 2 ^ 31) :
    Tokenised source.toList (lines source) ∧ Machine.lines source = .ok (lines source) ∧
      (pieces source.toList).length < narrowBound ∧
      ∀ line ∈ lines source, line.number < narrowBound ∧
        ∀ t ∈ line.tokens, t.span.column < narrowBound := by
  have below : source.utf8ByteSize + 1 < narrowBound :=
    Nat.lt_of_le_of_lt (Nat.succ_le_succ short) (by decide)
  have few : byteLength source.toList + 1 < narrowBound := by rwa [byteLength_toList]
  refine ⟨?_, (Machine.gives_lines source).eq_ok (Nat.not_le.mpr below), length_pieces_lt few, ?_⟩
  · rw [lines_eq_exactLines few]
    exact tokenised_exactLines source
  · rw [lines_eq_exactLines few]
    exact fun line member => places_lt few member

end Source

/-- Comments right behind words, blanks of one and of three bytes, an empty line, no last line feed. -/
def Sample.spacedSource : String :=
  "; ü\n1\tsort;x y\r\n\n\u3000üü\u2003b\r\n2 input"

theorem Source.lines_tokenised_spaced :
    Sample.spacedSource.utf8ByteSize ≤ 2 ^ 31 ∧
      Source.lines Sample.spacedSource =
        [⟨2, [⟨"1", ⟨5, 6, 2, 1⟩⟩, ⟨"sort", ⟨7, 11, 2, 3⟩⟩]⟩,
          ⟨4, [⟨"üü", ⟨21, 25, 4, 2⟩⟩, ⟨"b", ⟨28, 29, 4, 5⟩⟩]⟩,
          ⟨5, [⟨"2", ⟨31, 32, 5, 1⟩⟩, ⟨"input", ⟨33, 38, 5, 3⟩⟩]⟩] ∧
      Source.Tokenised Sample.spacedSource.toList (Source.lines Sample.spacedSource) := by
  have short : Sample.spacedSource.utf8ByteSize ≤ 2 ^ 31 := by decide
  exact ⟨short, by decide +kernel, (Source.lines_tokenised short).1⟩

end BoundedCheck
