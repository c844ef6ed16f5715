import Mathlib
import BoundedCheck.Design.Run
import BoundedCheck.Design.WellFormed
import BoundedCheck.Word

/-!
# Widths in well-formed designs

In a well-formed design a line id names one instruction.  If all sorts are words, every value has
a width, and the width rules become equations between the widths of a design.
-/

namespace BoundedCheck

namespace Design.WellFormed

/-- The last instruction and those before it. -/
theorem snoc_iff {earlier : Design} {instruction : Instruction} :
    WellFormed (earlier ++ [instruction]) ↔
      WellFormed earlier ∧ instruction.WellFormed earlier := by
  constructor
  · intro wellFormed
    generalize whole : earlier ++ [instruction] = design at wellFormed
    cases wellFormed with
    | nil => simp at whole
    | snoc others last =>
        obtain ⟨same, single⟩ := List.append_inj' whole rfl
        cases single
        rw [same]
        exact ⟨others, last⟩
  · rintro ⟨others, last⟩
    exact .snoc others last

theorem of_append {design rest : Design} (wellFormed : WellFormed (design ++ rest)) :
    WellFormed design := by
  induction rest using List.reverseRecOn with
  | nil => simpa using wellFormed
  | append_singleton rest last ih =>
      rw [← List.append_assoc] at wellFormed
      exact ih (snoc_iff.mp wellFormed).1

/-- Each instruction may stand after those before it. -/
theorem at_place {before after : Design} {instruction : Instruction}
    (wellFormed : WellFormed (before ++ instruction :: after)) : instruction.WellFormed before := by
  rw [List.append_cons] at wellFormed
  exact (snoc_iff.mp wellFormed.of_append).2

theorem of_mem {design : Design} (wellFormed : WellFormed design) {instruction : Instruction}
    (member : instruction ∈ design) :
    ∃ earlier, earlier ⊆ design ∧ instruction.WellFormed earlier := by
  obtain ⟨before, after, rfl⟩ := List.append_of_mem member
  exact ⟨before, List.subset_append_left _ _, wellFormed.at_place⟩

/-- Line ids increase. -/
theorem sorted {design : Design} (wellFormed : WellFormed design) :
    design.Pairwise fun first second => first.lid < second.lid := by
  induction wellFormed with
  | nil => exact .nil
  | snoc _ last ih =>
      rw [List.pairwise_append]
      refine ⟨ih, List.pairwise_singleton _ _, ?_⟩
      intro other member same isLast
      rw [List.mem_singleton.mp isLast]
      exact last.increasing other member

/-- A line id names one instruction only. -/
theorem unique {design : Design} (wellFormed : WellFormed design) {first second : Instruction}
    (firstMember : first ∈ design) (secondMember : second ∈ design)
    (same : first.lid = second.lid) : first = second := by
  have distinct : (design.map Instruction.lid).Nodup := by
    rw [List.Nodup, List.pairwise_map]
    exact wellFormed.sorted.imp fun smaller => Nat.ne_of_lt smaller
  exact List.inj_on_of_nodup_map distinct firstMember secondMember same

end Design.WellFormed

/-! ## Widths -/

theorem findSome?_eq_of_unique {α β : Type} {f : α → Option β} {list : List α} {a : α} {b : β}
    (member : a ∈ list) (value : f a = some b)
    (unique : ∀ x ∈ list, ∀ c, f x = some c → c = b) : list.findSome? f = some b := by
  cases found : list.findSome? f with
  | none =>
      have missing := List.findSome?_eq_none_iff.mp found a member
      rw [value] at missing
      cases missing
  | some c =>
      obtain ⟨x, inside, here⟩ := List.exists_of_findSome?_eq_some found
      rw [unique x inside c here]

/-- All sorts of a design are words. -/
def Design.Words (design : Design) : Prop :=
  ∀ lid kind, ⟨lid, .sort kind⟩ ∈ design → ∃ width, kind = .bitVec width ∧ width ≤ Word.maxWidth

/-- Whether the unrolling can evaluate an operation. -/
def Operation.isSupported : Operation → Bool
  | .init _ _ _ | .ones _ => false
  | _ => true

/-- Designs that the unrolling supports: all sorts are words, and nothing is initialised. -/
structure Design.Supported (design : Design) : Prop where
  sorts : ∀ lid kind, ⟨lid, .sort kind⟩ ∈ design →
    ∃ width, kind = .bitVec width ∧ width ≤ Word.maxWidth
  noInit : ∀ lid sort state value, ⟨lid, .init sort state value⟩ ∉ design
  noOnes : ∀ lid sort, ⟨lid, .ones sort⟩ ∉ design

/-- Every operation of a supported design can be evaluated. -/
theorem Design.Supported.isSupported {design : Design} (supported : design.Supported)
    {instruction : Instruction} (member : instruction ∈ design) :
    instruction.operation.isSupported = true := by
  obtain ⟨lid, operation⟩ := instruction
  cases operation with
  | init sort state value => exact absurd member (supported.noInit lid sort state value)
  | ones sort => exact absurd member (supported.noOnes lid sort)
  | _ => rfl

theorem Operation.sort?_of_isValue {operation : Operation} (isValue : operation.isValue = true) :
    ∃ sort, operation.sort? = some sort := by
  cases operation <;> simp [Operation.isValue] at isValue <;> exact ⟨_, rfl⟩

theorem Operation.mem_sortReferences {operation : Operation} {sort : Nat}
    (declared : operation.sort? = some sort) : sort ∈ operation.sortReferences := by
  cases operation with
  | sort kind => simp [Operation.sort?] at declared
  | _ => simp [Operation.sortReferences, declared]

namespace Design

variable {design earlier : Design}

theorem sortWidth_eq (wellFormed : design.WellFormed) {lid width : Nat}
    (declared : design.DeclaresWidth lid width) : design.sortWidth lid = width := by
  unfold sortWidth
  rw [findSome?_eq_of_unique declared (b := width) (by simp [SortKind.width?]), Option.getD_some]
  intro other member found value
  split at value
  · split at value
    · rename_i kind isSort same
      have equal := wellFormed.unique member declared same
      rw [equal] at isSort
      cases isSort
      simpa [SortKind.width?] using value.symm
    · cases value
  · cases value

theorem valueWidth_eq (wellFormed : design.WellFormed) {lid sort : Nat} {operation : Operation}
    (member : ⟨lid, operation⟩ ∈ design) (sorted : operation.sort? = some sort) :
    design.valueWidth lid = design.sortWidth sort := by
  unfold valueWidth
  rw [findSome?_eq_of_unique member (b := design.sortWidth sort) (by simp [sorted]),
    Option.getD_some]
  intro other inside found value
  split at value
  · rename_i same
    rw [wellFormed.unique inside member same, sorted] at value
    simpa using value.symm
  · cases value

theorem DeclaresSort.mono {lid : Nat} (declared : earlier.DeclaresSort lid)
    (inside : earlier ⊆ design) : design.DeclaresSort lid := by
  obtain ⟨kind, member⟩ := declared
  exact ⟨kind, inside member⟩

/-- The sort of a value is declared before the value. -/
theorem DeclaresValue.sorted (wellFormed : design.WellFormed) (inside : earlier ⊆ design)
    (closed : earlier.WellFormed) {lid : Nat} (declared : earlier.DeclaresValue lid) :
    ∃ operation sort, ⟨lid, operation⟩ ∈ earlier ∧ operation.isValue = true ∧
      operation.sort? = some sort ∧ earlier.DeclaresSort sort ∧
      design.valueWidth lid = design.sortWidth sort := by
  obtain ⟨operation, member, isValue⟩ := declared
  obtain ⟨sort, sorted⟩ := Operation.sort?_of_isValue isValue
  obtain ⟨before, among, formed⟩ := closed.of_mem member
  refine ⟨operation, sort, member, isValue, sorted, ?_, ?_⟩
  · exact (formed.resolved.sorts sort (Operation.mem_sortReferences sorted)).mono among
  · exact valueWidth_eq wellFormed (inside member) sorted

section Words

variable (wellFormed : design.WellFormed) (words : design.Words) (inside : earlier ⊆ design)

include wellFormed words inside

/-- A sort that is declared has the width that the design gives it. -/
theorem DeclaresSort.declaresWidth {lid : Nat} (declared : earlier.DeclaresSort lid) :
    earlier.DeclaresWidth lid (design.sortWidth lid) := by
  obtain ⟨kind, member⟩ := declared
  obtain ⟨width, rfl, -⟩ := words lid kind (inside member)
  rw [sortWidth_eq wellFormed (inside member)]
  exact member

theorem DeclaresSort.le {lid : Nat} (declared : earlier.DeclaresSort lid) :
    design.sortWidth lid ≤ Word.maxWidth := by
  obtain ⟨kind, member⟩ := declared
  obtain ⟨width, rfl, fits⟩ := words lid kind (inside member)
  rwa [sortWidth_eq wellFormed (inside member)]

theorem DeclaresValue.hasWidth (closed : earlier.WellFormed) {lid : Nat}
    (declared : earlier.DeclaresValue lid) : earlier.HasWidth lid (design.valueWidth lid) := by
  obtain ⟨operation, sort, member, isValue, sorted, sortDeclared, width⟩ :=
    declared.sorted wellFormed inside closed
  rw [width]
  exact ⟨operation, sort, member, isValue, sorted,
    sortDeclared.declaresWidth wellFormed words inside⟩

theorem DeclaresValue.le (closed : earlier.WellFormed) {lid : Nat}
    (declared : earlier.DeclaresValue lid) : design.valueWidth lid ≤ Word.maxWidth := by
  obtain ⟨-, sort, -, -, -, sortDeclared, width⟩ :=
    declared.sorted wellFormed inside closed
  rw [width]
  exact sortDeclared.le wellFormed words inside

end Words

end Design

end BoundedCheck
