import Mathlib
import BoundedCheck.Proofs.MachineReading

/-!
# Layout

Reading looks at the texts of tokens and at the lines they stand on, never at their places.  Two
sources with the same words on their lines give the same design, or errors that differ in the place
that shows them.
-/

namespace BoundedCheck

/-- The texts of the tokens of each line. -/
def Source.words (source : String) : List (List String) :=
  (Source.lines source).map (·.tokens.map Token.text)

/-- Errors with one cause. -/
def ReadError.SameCause (first second : ReadError) : Prop :=
  first.cause = second.cause

theorem Line.alike_of_texts {first second : Line}
    (same : first.tokens.map Token.text = second.tokens.map Token.text) :
    Line.Alike ReadError.SameCause (fun _ _ => True) first second where
  tokens := by
    rw [← List.forall₂_eq_eq_eq, List.forall₂_map_left_iff, List.forall₂_map_right_iff] at same
    exact same.imp fun _ _ text => ⟨text, trivial⟩
  sort := trivial
  keyword := trivial
  refusal _ := rfl
  missing _ := ⟨_, rfl, rfl⟩

theorem Source.alike_of_words {first second : String}
    (same : Source.words first = Source.words second) :
    List.Forall₂ (Line.Alike ReadError.SameCause fun _ _ => True) (Source.lines first)
      (Source.lines second) := by
  unfold Source.words at same
  rw [← List.forall₂_eq_eq_eq, List.forall₂_map_left_iff, List.forall₂_map_right_iff] at same
  exact same.imp fun _ _ texts => Line.alike_of_texts texts

/--
Sources with the same words on their lines are read alike, whatever their blanks, comments and line
numbers: both give the same design, or both are refused with the same cause.  So it is on the machine,
while it can count the places.
-/
theorem Design.read_layout {first second : String}
    (same : Source.words first = Source.words second) :
    (Design.read first).mapError ReadError.cause =
        (Design.read second).mapError ReadError.cause ∧
      Machine.Agrees first ∧ Machine.Agrees second := by
  refine ⟨?_, Machine.read_agrees _, Machine.read_agrees _⟩
  have empty : Design.WellFormed (List.reverse ([] : Scope)) := .nil
  have outcomes := Arithmetic.readLines_parallel .plain (Source.alike_of_words same)
    (fun line member => Source.isWord_of_mem_lines member) empty
  rw [Design.read_eq, Design.read_eq, Scope.readLines]
  generalize Arithmetic.readLines ReadError [] (Source.lines first) = left at outcomes ⊢
  generalize Scope.readLines [] (Source.lines second) = right at outcomes ⊢
  cases outcomes with
  | ok equal =>
      cases equal
      rfl
  | error cause => exact congrArg Except.error cause

namespace Sample

/-- A line id is used twice. -/
def plainLayout : String :=
  "1 sort bitvec 1\n2 input 1 x\n2 state 1\n"

/-- The same words with comments, empty lines and other blanks. -/
def otherLayout : String :=
  ";ü\n\n 1\tsort  bitvec 1;bits\r\n;\n2 input\u30001 x ; x\n\n   2 state 1"

end Sample

/-- The samples are refused for one cause, in different places. -/
theorem Design.read_layout_duplicate :
    Source.words Sample.plainLayout = Source.words Sample.otherLayout ∧
      Design.read Sample.plainLayout = .error ⟨.duplicateLid 2, ⟨28, 29, 3, 1⟩⟩ ∧
      Design.read Sample.otherLayout = .error ⟨.duplicateLid 2, ⟨53, 54, 7, 4⟩⟩ ∧
      (Design.read Sample.plainLayout).mapError ReadError.cause =
        (Design.read Sample.otherLayout).mapError ReadError.cause := by
  have same : Source.words Sample.plainLayout = Source.words Sample.otherLayout := by
    decide +kernel
  exact ⟨same, by decide +kernel, by decide +kernel, (Design.read_layout same).1⟩

end BoundedCheck
