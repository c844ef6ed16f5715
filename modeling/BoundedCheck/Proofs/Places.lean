import Mathlib
import BoundedCheck.Proofs.Scanning

/-!
# Places in a source

The span of a token says where its text stands: how many bytes and line feeds come before it, and
how many characters its line has up to there.  A line that was found cuts the source in three: the
lines before it, its own piece, and the rest.
-/

namespace BoundedCheck.Source

/-! ## Lengths -/

theorem byteLength_nil : byteLength [] = 0 := rfl

theorem byteLength_cons (c : Char) (text : List Char) :
    byteLength (c :: text) = c.utf8Size + byteLength text := rfl

theorem byteLength_append (text more : List Char) :
    byteLength (text ++ more) = byteLength text + byteLength more := by
  induction text with
  | nil => simp [byteLength]
  | cons c rest ih => rw [List.cons_append, byteLength_cons, byteLength_cons, ih, Nat.add_assoc]

theorem byteLength_reverse (text : List Char) : byteLength text.reverse = byteLength text := by
  induction text with
  | nil => rfl
  | cons c rest ih =>
      rw [List.reverse_cons, byteLength_append, ih, byteLength_cons, byteLength_cons, Nat.add_comm]
      rfl

theorem length_le_byteLength (text : List Char) : text.length ≤ byteLength text := by
  induction text with
  | nil => exact Nat.zero_le _
  | cons c rest ih =>
      have positive := c.utf8Size_pos
      rw [List.length_cons, byteLength_cons]
      omega

theorem byteLength_ofList (text : List Char) :
    (String.ofList text).utf8ByteSize = byteLength text := by
  induction text with
  | nil => rfl
  | cons c rest ih =>
      rw [String.ofList_cons, String.utf8ByteSize_append, String.utf8ByteSize_singleton, ih,
        byteLength_cons]

theorem byteLength_toList (text : String) : byteLength text.toList = text.utf8ByteSize := by
  rw [← byteLength_ofList, String.ofList_toList]

/-- The number of characters after the last line feed. -/
def lastLineLength (text : List Char) : Nat :=
  (text.reverse.takeWhile (· != '\n')).length

/-- A text that breaks no line continues the last one. -/
theorem takeWhile_reverse_append (text : List Char) {more : List Char} (noBreak : '\n' ∉ more) :
    (text ++ more).reverse.takeWhile (· != '\n') =
      more.reverse ++ text.reverse.takeWhile (· != '\n') := by
  have plain : ∀ c ∈ more.reverse, (c != '\n') = true := by
    intro c member
    refine bne_iff_ne.mpr ?_
    rintro rfl
    exact noBreak (List.mem_reverse.mp member)
  rw [List.reverse_append, List.takeWhile_append_of_pos plain]

theorem lastLineLength_append (text : List Char) {more : List Char} (noBreak : '\n' ∉ more) :
    lastLineLength (text ++ more) = lastLineLength text + more.length := by
  rw [lastLineLength, takeWhile_reverse_append text noBreak, List.length_append,
    List.length_reverse, Nat.add_comm]
  rfl

theorem lastLineLength_break (text : List Char) : lastLineLength (text ++ ['\n']) = 0 := by
  simp [lastLineLength]

theorem lastLineLength_le (text : List Char) : lastLineLength text ≤ text.length := by
  have fewer := (List.takeWhile_sublist (l := text.reverse) (· != '\n')).length_le
  rwa [List.length_reverse] at fewer

/-! ## Spans -/

/-- The span of a text that stands behind another. -/
def spanAfter (before text : List Char) : Span where
  start := byteLength before
  stop := byteLength before + byteLength text
  line := before.count '\n' + 1
  column := lastLineLength before + 1

/-- A text stands in a source where a span says. -/
def Shown (source text : List Char) (span : Span) : Prop :=
  ∃ before after, source = before ++ text ++ after ∧ span = spanAfter before text

/-- What a span says lies within the source. -/
theorem Shown.bounds {source text : List Char} {span : Span} (shown : Shown source text span) :
    span.start ≤ span.stop ∧ span.stop ≤ byteLength source ∧ span.line ≤ byteLength source + 1 ∧
      span.column ≤ byteLength source + 1 := by
  obtain ⟨before, after, rfl, rfl⟩ := shown
  have lines : before.count '\n' ≤ before.length := List.count_le_length
  have column := lastLineLength_le before
  have bytes := length_le_byteLength before
  simp only [spanAfter, byteLength_append]
  omega

/-- The place right behind a text that breaks no line. -/
theorem Shown.behind {source text : List Char} {span : Span} (shown : Shown source text span)
    (noBreak : '\n' ∉ text) :
    Shown source [] ⟨span.stop, span.stop, span.line, span.column + text.length⟩ := by
  obtain ⟨before, after, rfl, rfl⟩ := shown
  refine ⟨before ++ text, after, by simp, ?_⟩
  simp only [spanAfter, byteLength_append, List.count_append, List.count_eq_zero.mpr noBreak,
    lastLineLength_append before noBreak, byteLength_nil, Span.mk.injEq, true_and]
  omega

/-! ## Words -/

theorem shown_token (before word after : List Char) :
    Shown (before ++ word ++ after)
      (token (before.count '\n' + 1) (byteLength before) (lastLineLength before + 1) word).text.toList
      (token (before.count '\n' + 1) (byteLength before) (lastLineLength before + 1) word).span :=
  ⟨before, after, by rw [token, String.toList_ofList], by rw [token, String.toList_ofList]; rfl⟩

/--
The words of a text stand where their spans say, if the text breaks no line but at its end.  `before`
is the source up to the word under way.
-/
theorem shown_of_mem_wordsFrom {before word text after : List Char} (plain : '\n' ∉ word)
    (single : '\n' ∉ text.dropLast) {t : Token}
    (member : t ∈ wordsFrom (before.count '\n' + 1) (byteLength before) (lastLineLength before + 1)
      word text) : Shown (before ++ word.reverse ++ text ++ after) t.text.toList t.span := by
  induction text generalizing before word with
  | nil =>
      unfold wordsFrom at member
      split at member
      · exact absurd member List.not_mem_nil
      · rw [List.mem_singleton.mp member, List.append_assoc]
        exact shown_token _ _ _
  | cons c rest ih =>
      have later : '\n' ∉ rest.dropLast := by
        intro inside
        cases rest with
        | nil => exact absurd inside List.not_mem_nil
        | cons d more => exact single (List.mem_cons_of_mem _ inside)
      -- A line feed is the last character, so no word starts behind it.
      have next {gap : List Char} (noBreak : '\n' ∉ gap)
          (found : t ∈ wordsFrom (before.count '\n' + 1)
            (byteLength before + byteLength gap + c.utf8Size)
            (lastLineLength before + 1 + gap.length + 1) [] rest) :
          Shown (before ++ gap ++ c :: rest ++ after) t.text.toList t.span := by
        cases rest with
        | nil => exact absurd found List.not_mem_nil
        | cons d more =>
            have inLine : '\n' ∉ gap ++ [c] := by
              rw [List.mem_append, List.mem_singleton, not_or]
              exact ⟨noBreak, fun same => single (same ▸ List.mem_cons_self)⟩
            have lines : (before ++ (gap ++ [c])).count '\n' = before.count '\n' := by
              rw [List.count_append, List.count_eq_zero.mpr inLine, Nat.add_zero]
            have start : byteLength (before ++ (gap ++ [c])) =
                byteLength before + byteLength gap + c.utf8Size := by
              rw [byteLength_append, byteLength_append, ← Nat.add_assoc]
              rfl
            have column : lastLineLength (before ++ (gap ++ [c])) + 1 =
                lastLineLength before + 1 + gap.length + 1 := by
              rw [lastLineLength_append before inLine, List.length_append, List.length_singleton]
              omega
            have moved : Shown (before ++ (gap ++ [c]) ++ [] ++ d :: more ++ after)
                t.text.toList t.span := by
              apply ih List.not_mem_nil later
              rw [lines, start, column]
              exact found
            simpa using moved
      unfold wordsFrom at member
      split at member
      · split at member
        · rename_i empty
          rw [List.isEmpty_iff.mp empty]
          exact next List.not_mem_nil (by simpa [byteLength_nil] using member)
        · rcases List.mem_cons.mp member with here | found
          · rw [here, List.append_assoc]
            exact shown_token _ _ _
          · have reversed : '\n' ∉ word.reverse := by rwa [List.mem_reverse]
            apply next reversed
            rw [byteLength_reverse, List.length_reverse]
            exact found
      · rename_i notBlank
        have joined : '\n' ∉ c :: word := by
          rw [List.mem_cons, not_or]
          refine ⟨?_, plain⟩
          rintro rfl
          exact notBlank Text.isBlank_newline
        have moved := ih joined later member
        simpa using moved

theorem line_of_mem_wordsFrom {line start column : Nat} {word text : List Char} {t : Token}
    (member : t ∈ wordsFrom line start column word text) : t.span.line = line := by
  induction text generalizing start column word with
  | nil =>
      unfold wordsFrom at member
      split at member
      · exact absurd member List.not_mem_nil
      · rw [List.mem_singleton.mp member]
        rfl
  | cons c rest ih =>
      unfold wordsFrom at member
      split at member
      · split at member
        · exact ih member
        · rcases List.mem_cons.mp member with here | later
          · rw [here]
            rfl
          · exact ih later
      · exact ih member

/-! ## Pieces -/

/-- How a text is cut: every piece but the last ends in its only line feed. -/
inductive Cut : List (List Char) → Prop where
  | nil : Cut []
  | last {body : List Char} : body ≠ [] → '\n' ∉ body → Cut [body]
  | line {body : List Char} {rest : List (List Char)} : '\n' ∉ body → Cut rest →
      Cut ((body ++ ['\n']) :: rest)

theorem cut_cutFrom {piece : List Char} (plain : '\n' ∉ piece) (text : List Char) :
    Cut (cutFrom piece text) := by
  induction text generalizing piece with
  | nil =>
      unfold cutFrom
      split
      · exact .nil
      · rename_i nonempty
        exact .last (by simpa using nonempty) (by rwa [List.mem_reverse])
  | cons c rest ih =>
      unfold cutFrom
      split
      · rename_i breaks
        rw [breaks, List.reverse_cons]
        exact .line (by rwa [List.mem_reverse]) (ih List.not_mem_nil)
      · rename_i different
        apply ih
        rw [List.mem_cons, not_or]
        exact ⟨fun same => different same.symm, plain⟩

theorem flatten_cutFrom (piece text : List Char) :
    (cutFrom piece text).flatten = piece.reverse ++ text := by
  induction text generalizing piece with
  | nil =>
      unfold cutFrom
      split
      · rename_i empty
        simp [List.isEmpty_iff.mp empty]
      · simp
  | cons c rest ih =>
      unfold cutFrom
      split
      · rw [List.flatten_cons, ih]
        simp
      · rw [ih]
        simp

theorem cut_pieces (text : List Char) : Cut (pieces text) :=
  cut_cutFrom List.not_mem_nil text

theorem flatten_pieces (text : List Char) : (pieces text).flatten = text :=
  flatten_cutFrom [] text

/-- What breaks no line is one piece. -/
theorem cutFrom_last {piece text : List Char} (noBreak : '\n' ∉ text)
    (nonempty : piece.reverse ++ text ≠ []) : cutFrom piece text = [piece.reverse ++ text] := by
  induction text generalizing piece with
  | nil =>
      unfold cutFrom
      rw [if_neg (by simpa using nonempty), List.append_nil]
  | cons c rest ih =>
      obtain ⟨different, later⟩ := not_or.mp (fun same => noBreak (List.mem_cons.mpr same))
      rw [cutFrom, if_neg (fun same => different same.symm), ih later (by simp), List.reverse_cons,
        List.append_assoc, List.singleton_append]

/-- Whole lines: nothing stands behind the last line feed. -/
def Whole (text : List Char) : Prop :=
  text = [] ∨ ∃ body, text = body ++ ['\n']

theorem Whole.append {text more : List Char} (first : Whole text) (second : Whole more) :
    Whole (text ++ more) := by
  rcases second with rfl | ⟨body, rfl⟩
  · rwa [List.append_nil]
  · exact Or.inr ⟨text ++ body, by rw [List.append_assoc]⟩

theorem Whole.lastLineLength {text : List Char} (whole : Whole text) : lastLineLength text = 0 := by
  rcases whole with rfl | ⟨body, rfl⟩
  · rfl
  · exact lastLineLength_break body

namespace Cut

/-- A piece that others follow is a line. -/
theorem head {first : List Char} {rest : List (List Char)} (cut : Cut (first :: rest))
    (followed : rest ≠ []) : ∃ body, first = body ++ ['\n'] ∧ '\n' ∉ body ∧ Cut rest := by
  cases cut with
  | last => exact absurd rfl followed
  | @line body _ noBreak later => exact ⟨body, rfl, noBreak, later⟩

/-- Pieces are what their text is cut into. -/
theorem pieces_flatten {cuts : List (List Char)} (cut : Cut cuts) : pieces cuts.flatten = cuts := by
  induction cut with
  | nil => rfl
  | @last body nonempty noBreak =>
      rw [List.flatten_singleton]
      exact cutFrom_last noBreak nonempty
  | @line body rest noBreak _ ih =>
      unfold pieces at ih ⊢
      rw [List.flatten_cons, List.append_assoc, List.singleton_append, cutFrom_line noBreak, ih]
      rfl

/-- Before a piece stand whole lines only, and it breaks no line but at its end. -/
theorem before {front back : List (List Char)} {piece : List Char}
    (cut : Cut (front ++ piece :: back)) :
    Cut front ∧ front.flatten.count '\n' = front.length ∧ Whole front.flatten ∧
      '\n' ∉ piece.dropLast := by
  induction front with
  | nil =>
      refine ⟨.nil, rfl, Or.inl rfl, ?_⟩
      cases cut with
      | last _ noBreak => exact fun inside => noBreak (List.mem_of_mem_dropLast inside)
      | line noBreak _ => rwa [List.dropLast_concat]
  | cons first more ih =>
      obtain ⟨body, rfl, noBreak, later⟩ := cut.head (by simp)
      obtain ⟨cutMore, breaks, whole, single⟩ := ih later
      refine ⟨.line noBreak cutMore, ?_, Whole.append (Or.inr ⟨body, rfl⟩) whole, single⟩
      rw [List.flatten_cons, List.count_append, List.count_append, List.count_eq_zero.mpr noBreak,
        breaks, List.count_singleton_self, List.length_cons]
      omega

end Cut

theorem length_pieces_le (text : List Char) : (pieces text).length ≤ text.length := by
  have cut := cut_pieces text
  have whole := flatten_pieces text
  generalize pieces text = cuts at cut whole
  subst whole
  induction cut with
  | nil => exact Nat.le_refl _
  | @last body nonempty _ =>
      rw [List.flatten_singleton]
      exact List.length_pos_of_ne_nil nonempty
  | line _ _ ih =>
      rw [List.flatten_cons, List.length_append, List.length_append, List.length_cons,
        List.length_singleton]
      omega

/-! ## Lines -/

theorem linesFrom_cons (number start : Nat) (piece : List Char) (rest : List (List Char)) :
    linesFrom number start (piece :: rest) =
      linesFrom number start [piece] ++ linesFrom (number + 1) (start + byteLength piece) rest := by
  cases words : tokens number start piece <;> simp [linesFrom, words]

/-- The line of a piece, and the pieces before it. -/
theorem linesFrom_eq_append_cons {number start : Nat} {cuts : List (List Char)}
    {earlier later : List Line} {line : Line}
    (shape : linesFrom number start cuts = earlier ++ line :: later) :
    ∃ front piece back, cuts = front ++ piece :: back ∧ linesFrom number start front = earlier ∧
      line.number = number + front.length ∧ line.tokens ≠ [] ∧
      line.tokens = tokens line.number (start + byteLength front.flatten) piece := by
  induction cuts generalizing number start earlier with
  | nil => simp [linesFrom] at shape
  | cons piece rest ih =>
      have deeper {more : List Line}
          (shape : linesFrom (number + 1) (start + byteLength piece) rest = more ++ line :: later) :
          ∃ front found back, piece :: rest = front ++ found :: back ∧
            linesFrom number start front = linesFrom number start [piece] ++ more ∧
            line.number = number + front.length ∧ line.tokens ≠ [] ∧
            line.tokens = tokens line.number (start + byteLength front.flatten) found := by
        obtain ⟨front, found, back, rfl, before, place, nonempty, words⟩ := ih shape
        refine ⟨piece :: front, found, back, rfl, ?_, ?_, nonempty, ?_⟩
        · rw [linesFrom_cons, before]
        · rw [place, List.length_cons]
          omega
        · rw [words, List.flatten_cons, byteLength_append, Nat.add_assoc]
      cases words : tokens number start piece with
      | nil =>
          have none : linesFrom number start [piece] = [] := by simp [linesFrom, words]
          rw [linesFrom_cons, none] at shape
          rw [none] at deeper
          exact deeper shape
      | cons first others =>
          have own : linesFrom number start [piece] = [⟨number, first :: others⟩] := by
            simp [linesFrom, words]
          rw [linesFrom_cons, own] at shape
          rw [own] at deeper
          cases earlier with
          | nil =>
              obtain ⟨rfl, -⟩ := List.cons.inj shape
              exact ⟨[], piece, rest, rfl, rfl, rfl, by simp, words.symm⟩
          | cons top more =>
              obtain ⟨rfl, remaining⟩ := List.cons.inj shape
              exact deeper remaining

/-- A line cuts the source: it is the line of a piece that follows the text of the lines before it. -/
theorem exactLines_eq_append_cons {source : String} {earlier later : List Line} {line : Line}
    (shape : exactLines source = earlier ++ line :: later) :
    ∃ before piece after, source.toList = before ++ piece ++ after ∧ Whole before ∧
      '\n' ∉ piece.dropLast ∧ exactLines (String.ofList before) = earlier ∧
      line.number = before.count '\n' + 1 ∧ line.tokens ≠ [] ∧
      line.tokens = tokens line.number (byteLength before) piece := by
  obtain ⟨front, piece, back, cuts, before, place, nonempty, tokens⟩ :=
    linesFrom_eq_append_cons shape
  have cut := cut_pieces source.toList
  rw [cuts] at cut
  obtain ⟨cutFront, breaks, whole, single⟩ := cut.before
  refine ⟨front.flatten, piece, back.flatten, ?_, whole, single, ?_, ?_, nonempty, ?_⟩
  · rw [← flatten_pieces source.toList, cuts, List.flatten_append, List.flatten_cons,
      List.append_assoc]
  · rw [exactLines, String.toList_ofList, cutFront.pieces_flatten, before]
  · rw [place, breaks, Nat.add_comm]
  · rw [tokens, Nat.zero_add]

theorem not_mem_dropLast_of_append {c : Char} {text more : List Char}
    (absent : c ∉ (text ++ more).dropLast) : c ∉ text.dropLast := by
  cases more with
  | nil => rwa [List.append_nil] at absent
  | cons d rest =>
      rw [List.dropLast_append_of_ne_nil (by simp)] at absent
      intro inside
      exact absent (List.mem_append_left _ (List.mem_of_mem_dropLast inside))

/-- The tokens of a line stand in the source where their spans say. -/
theorem shown_of_mem_exactLines {source : String} {line : Line} (member : line ∈ exactLines source)
    {t : Token} (inside : t ∈ line.tokens) :
    Shown source.toList t.text.toList t.span ∧ t.span.line = line.number := by
  obtain ⟨earlier, later, shape⟩ := List.append_of_mem member
  obtain ⟨before, piece, after, cut, whole, single, -, number, -, words⟩ :=
    exactLines_eq_append_cons shape
  rw [words, tokens] at inside
  refine ⟨?_, line_of_mem_wordsFrom inside⟩
  have placed : t ∈ wordsFrom (before.count '\n' + 1) (byteLength before)
      (lastLineLength before + 1) [] (code piece) := by
    rw [whole.lastLineLength, ← number]
    exact inside
  have rejoined : code piece ++ piece.dropWhile (· != ';') = piece := List.takeWhile_append_dropWhile
  rw [← rejoined] at single cut
  have shown : Shown (before ++ [].reverse ++ code piece ++ (piece.dropWhile (· != ';') ++ after))
      t.text.toList t.span :=
    shown_of_mem_wordsFrom List.not_mem_nil (not_mem_dropLast_of_append single) placed
  rw [cut]
  simpa using shown

theorem tokens_ne_nil_of_mem_exactLines {source : String} {line : Line}
    (member : line ∈ exactLines source) : line.tokens ≠ [] := by
  obtain ⟨earlier, later, shape⟩ := List.append_of_mem member
  obtain ⟨-, -, -, -, -, -, -, -, nonempty, -⟩ := exactLines_eq_append_cons shape
  exact nonempty

theorem not_mem_of_mem_exactLines {source : String} {line : Line}
    (member : line ∈ exactLines source) {t : Token} (inside : t ∈ line.tokens) :
    '\n' ∉ t.text.toList := by
  intro breaks
  have plain := ((isWord_of_mem_linesFrom member t inside).2 _ breaks).1
  rw [Text.isBlank_newline] at plain
  cases plain

/-- The place right behind a token stands in the source. -/
theorem shown_behind {source : String} {line : Line} (member : line ∈ exactLines source)
    {t : Token} (inside : t ∈ line.tokens) :
    Shown source.toList []
      ⟨t.span.stop, t.span.stop, line.number, t.span.column + t.text.length⟩ := by
  obtain ⟨shown, number⟩ := shown_of_mem_exactLines member inside
  rw [← number, ← String.length_toList]
  exact shown.behind (not_mem_of_mem_exactLines member inside)

/-! ## Places of 32 bits -/

theorem length_pieces_lt {source : String} (few : byteLength source.toList + 1 < narrowBound) :
    (pieces source.toList).length < narrowBound := by
  have cuts := length_pieces_le source.toList
  have bytes := length_le_byteLength source.toList
  omega

/-- The lines and columns of a short source have 32 bits. -/
theorem places_lt {source : String} (few : byteLength source.toList + 1 < narrowBound)
    {line : Line} (member : line ∈ exactLines source) :
    line.number < narrowBound ∧ ∀ t ∈ line.tokens, t.span.column < narrowBound := by
  constructor
  · obtain ⟨t, inside⟩ := List.exists_mem_of_ne_nil _ (tokens_ne_nil_of_mem_exactLines member)
    obtain ⟨-, -, lines, -⟩ := (shown_behind member inside).bounds
    exact Nat.lt_of_le_of_lt lines few
  · intro t inside
    obtain ⟨-, -, -, column⟩ := (shown_of_mem_exactLines member inside).1.bounds
    exact Nat.lt_of_le_of_lt column few

theorem wrapped_of_mem_exactLines {source : String}
    (few : byteLength source.toList + 1 < narrowBound) {line : Line}
    (member : line ∈ exactLines source) : line.wrapped = line := by
  obtain ⟨number, columns⟩ := places_lt few member
  have places : ∀ t ∈ line.tokens, ({ t with span := t.span.wrapped } : Token) = t := by
    intro t inside
    have sameLine := (shown_of_mem_exactLines member inside).2
    rw [Span.wrapped, Nat.mod_eq_of_lt (sameLine ▸ number), Nat.mod_eq_of_lt (columns t inside)]
  rw [Line.wrapped, Nat.mod_eq_of_lt number, List.map_congr_left places, List.map_id']

/-- The lines before a line are those of the text before it. -/
theorem lines_eq_append_cons {source : String} {earlier later : List Line} {line : Line}
    (shape : lines source = earlier ++ line :: later) :
    ∃ before after, source.toList = before ++ after ∧ lines (String.ofList before) = earlier := by
  obtain ⟨front, back, counted, rfl, rest⟩ := List.map_eq_append_iff.mp shape
  obtain ⟨own, others, rfl, -⟩ := List.map_eq_cons_iff.mp rest
  obtain ⟨before, piece, after, cut, -, -, same, -⟩ := exactLines_eq_append_cons counted
  exact ⟨before, piece ++ after, by rw [cut, List.append_assoc], by rw [lines, same]⟩

/-- The places in a short source are counted exactly. -/
theorem lines_eq_exactLines {source : String} (few : byteLength source.toList + 1 < narrowBound) :
    lines source = exactLines source := by
  rw [lines, List.map_congr_left fun line member => wrapped_of_mem_exactLines few member,
    List.map_id']

/-- The end of a line is the place right behind its last token. -/
theorem shown_endSpan {source : String} (few : byteLength source.toList + 1 < narrowBound)
    {line : Line} (member : line ∈ exactLines source) :
    Shown source.toList [] line.endSpan ∧ line.endSpan.line = line.number := by
  have last := List.getLast?_eq_some_getLast (tokens_ne_nil_of_mem_exactLines member)
  generalize line.tokens.getLast (tokens_ne_nil_of_mem_exactLines member) = token at last
  have shown := shown_behind member (List.mem_of_getLast? last)
  have column : token.span.column + token.text.length ≤ byteLength source.toList + 1 :=
    shown.bounds.2.2.2
  have ends : line.endSpan =
      ⟨token.span.stop, token.span.stop, line.number, token.span.column + token.text.length⟩ := by
    rw [Line.endSpan, last]
    simp only [Line.columnAfter]
    rw [Nat.mod_eq_of_lt (show token.text.length < narrowBound by omega),
      Nat.mod_eq_of_lt (Nat.lt_of_le_of_lt column few)]
  rw [ends]
  exact ⟨shown, rfl⟩

end BoundedCheck.Source
