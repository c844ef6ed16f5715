import Mathlib
import BoundedCheck.Proofs.Faults

/-!
# Outcomes of a check

The design decides how a check can end: with the refusal of its first unsupported sort or operation,
or else with a verdict or a query that has more free bits than the limit allows.  A machine comes to
the same, as long as the variables that the check makes can be counted.
-/

namespace BoundedCheck

open Enumerator

/-- Slices of a well-formed design end at positions of 32 bits. -/
theorem Design.WellFormed.narrowSlices {design : Design} (wellFormed : design.WellFormed) :
    design.NarrowSlices := by
  rintro ⟨lid, operation⟩ member
  obtain ⟨earlier, -, formed⟩ := wellFormed.of_mem member
  have literals := formed.literals
  cases operation with
  | slice s operand lowBit width =>
      obtain ⟨positive, small, inside⟩ := literals
      exact ⟨small, by rwa [Nat.max_eq_left positive]⟩
  | _ => trivial

/-- The variables of a check have few bits, so that only the limit can stop its queries. -/
theorem Engine.bmc_eq_error {design : Design} (wellFormed : design.WellFormed)
    (supported : design.Supported) {limit depth : Nat}
    (few : (endState (bmc depth (fresh limit design))).variableBits < narrowBound)
    {stop : Stop CheckError} {later : Engine Enumerator BitSort Nat}
    (ran : bmc depth (fresh limit design) = .error stop later) :
    ∃ bits, min limit 63 < bits ∧
      stop = .error (.solver (.searchSpaceTooLarge bits (min limit 63))) := by
  have large := explore_eq_error wellFormed supported (Or.inl ⟨rfl, rfl⟩) (.fresh limit design)
    (explore_of_bmc_error ran)
  have smooth := (calm_bmc wellFormed.narrowSlices (sound_fresh limit design) depth).smooth few
  rw [ran] at smooth
  rcases large with rfl | exceeds
  · cases smooth
  · exact exceeds

/-- Every check of a supported design ends with a verdict or with a query that is too large. -/
theorem check_of_supported {design : Design} (wellFormed : design.WellFormed)
    (supported : design.Supported) {settings : Settings}
    (exhaustive : settings.solver = .exhaustive)
    (few : (endState (Engine.bmc settings.depth
      (Engine.fresh settings.freeBitLimit design))).variableBits < narrowBound) :
    check settings design = .ok (.safe settings.depth) ∨
      (∃ step bad model, 0 < step ∧ step ≤ settings.depth ∧
        check settings design = .ok (.violated step bad model)) ∨
      ∃ bits, min settings.freeBitLimit 63 < bits ∧ check settings design =
        .error (.error (.solver (.searchSpaceTooLarge bits (min settings.freeBitLimit 63)))) := by
  cases ran : Engine.bmc settings.depth (Engine.fresh settings.freeBitLimit design) with
  | ok verdict engine =>
      rcases Engine.bmc_eq_ok wellFormed ran with ⟨rfl, -⟩ | ⟨step, below, bad, model, rfl, -⟩
      · exact Or.inl (check_of_ok exhaustive ran)
      · exact Or.inr (Or.inl ⟨step + 1, bad, model, Nat.succ_pos step, below,
          check_of_ok exhaustive ran⟩)
  | error stop engine =>
      obtain ⟨bits, many, rfl⟩ := Engine.bmc_eq_error wellFormed supported few ran
      exact Or.inr (Or.inr ⟨bits, many, check_of_error exhaustive ran⟩)

/-- A supported design without a bad condition is safe. -/
theorem check_of_harmless {design : Design} (wellFormed : design.WellFormed)
    (supported : design.Supported) {settings : Settings}
    (exhaustive : settings.solver = .exhaustive)
    (harmless : ∀ lid condition name, ⟨lid, .bad condition name⟩ ∉ design) :
    check settings design = .ok (.safe settings.depth) := by
  have nothing : design.conditions Operation.bad? = [] := by
    apply List.eq_nil_iff_forall_not_mem.mpr
    rintro ⟨lid, condition⟩ member
    obtain ⟨name, isBad⟩ := Design.mem_bads.mp member
    exact harmless lid condition name isBad
  obtain ⟨later, explored⟩ := Engine.explore_of_no_bads wellFormed supported nothing
    (Or.inl ⟨rfl, rfl⟩ : Engine.Ready design settings.freeBitLimit 0 _)
  exact check_of_ok exhaustive (CheckM.bind_of_ok explored)

/--
The outcome of a check is determined by the design.  A design with an unsupported sort or operation is
refused for the first one, sorts before operations.  Every other check ends with a verdict, or with a
query that has more free bits than the limit; it is safe if there is no bad condition.  If the
variables that the check makes have less than 2^32 bits together, nothing leaves its range.
-/
theorem check_outcome {source : String} {design : Design}
    (accepted : Design.read source = .ok design) {settings : Settings}
    (exhaustive : settings.solver = .exhaustive) :
    (0 < settings.depth → ∀ error, design.refusal? = some error →
      check settings design = .error (.error error)) ∧
    ((endState (Engine.bmc settings.depth
        (Engine.fresh settings.freeBitLimit design))).variableBits < narrowBound →
      Machine.check settings design = check settings design ∧
      (design.refusal? = none →
        check settings design = .ok (.safe settings.depth) ∨
        (∃ step bad model, 0 < step ∧ step ≤ settings.depth ∧
          check settings design = .ok (.violated step bad model)) ∨
        ∃ bits, min settings.freeBitLimit 63 < bits ∧ check settings design =
          .error (.error (.solver (.searchSpaceTooLarge bits (min settings.freeBitLimit 63)))))) ∧
    (design.refusal? = none → (∀ lid condition name, ⟨lid, .bad condition name⟩ ∉ design) →
      check settings design = .ok (.safe settings.depth)) := by
  have wellFormed := Design.wellFormed_of_read accepted
  refine ⟨fun positive error refused => ?_, fun few => ⟨?_, fun supported => ?_⟩,
    fun supported harmless => ?_⟩
  · obtain ⟨remaining, depth⟩ := Nat.exists_eq_succ_of_ne_zero (Nat.ne_of_gt positive)
    obtain ⟨later, stopped⟩ :=
      Engine.bmc_of_refusal? wellFormed refused settings.freeBitLimit remaining
    exact check_of_error exhaustive (by rw [depth, stopped])
  · exact Machine.check_eq wellFormed.narrowSlices few
  · exact check_of_supported wellFormed (Design.supported_of_refusal? supported) exhaustive few
  · exact check_of_harmless wellFormed (Design.supported_of_refusal? supported) exhaustive harmless

namespace Sample

/-- A bit that may be set at every step, and must not be. -/
def bitSource : String :=
  "1 sort bitvec 1\n2 input 1 flag\n3 bad 2\n"

def bit : Design :=
  [⟨1, .sort (.bitVec 1)⟩, ⟨2, .input 1 (some "flag")⟩, ⟨3, .bad 2 none⟩]

end Sample

/--
The bit is found set at the first of 2^32 steps, so that one variable is made; the mixed sample is
refused for its array, which comes before the `init` and the wide sort.
-/
theorem check_outcome_bit :
    let settings : Settings := { depth := 2 ^ 32, solver := .exhaustive }
    Design.read Sample.bitSource = .ok Sample.bit ∧ Sample.bit.refusal? = none ∧
      (endState (Engine.bmc settings.depth
        (Engine.fresh settings.freeBitLimit Sample.bit))).variableBits = 1 ∧
      check settings Sample.bit = .ok (.violated 1 3 "0 1 flag_1\n") ∧
      Machine.check settings Sample.bit = .ok (.violated 1 3 "0 1 flag_1\n") ∧
      Design.read Sample.mixedSource = .ok Sample.mixed ∧
      check settings Sample.mixed = .error (.error (.unsupportedSort 3 1 2)) := by
  intro settings
  have accepted : Design.read Sample.bitSource = .ok Sample.bit := by decide +kernel
  have made : (endState (Engine.bmc settings.depth
      (Engine.fresh settings.freeBitLimit Sample.bit))).variableBits = 1 := by decide +kernel
  have ran : check settings Sample.bit = .ok (.violated 1 3 "0 1 flag_1\n") := by decide +kernel
  have refused : Sample.mixed.refusal? = some (.unsupportedSort 3 1 2) := by decide
  have few : (endState (Engine.bmc settings.depth
      (Engine.fresh settings.freeBitLimit Sample.bit))).variableBits < narrowBound := by
    rw [made]
    decide
  have exhaustive : settings.solver = .exhaustive := rfl
  obtain ⟨machine, -⟩ := (check_outcome accepted exhaustive).2.1 few
  exact ⟨accepted, by decide, made, ran, machine.trans ran, Sample.read_mixedSource,
    (check_outcome Sample.read_mixedSource exhaustive).1 (by decide) _ refused⟩

end BoundedCheck
