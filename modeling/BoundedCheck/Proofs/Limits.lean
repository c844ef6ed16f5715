import Mathlib
import BoundedCheck.Proofs.Coupling

/-!
# Limits of a search

The limit on the number of free bits is looked at when a query is decided, and nowhere else.  A check
with a larger limit takes the same course up to the first query that the smaller one refuses, and it
refuses that query too if it cannot decide it.
-/

namespace BoundedCheck

open Enumerator

/-! ## Solvers that differ in their limits -/

namespace Enumerator

/-- Two solvers differ in their limits only, and that of the second is the given one. -/
def Raised (larger : Nat) (s t : Enumerator) : Prop :=
  s.freeBitLimit ≤ larger ∧ t = { s with freeBitLimit := larger }

variable {larger : Nat} {s t : Enumerator}

/-- A change that neither reads nor writes the limit. -/
theorem Raised.map (raised : Raised larger s t) (change : Enumerator → Enumerator)
    (blind : ∀ s limit,
      change { s with freeBitLimit := limit } = { change s with freeBitLimit := limit })
    (kept : ∀ s, (change s).freeBitLimit = s.freeBitLimit) :
    Raised larger (change s) (change t) := by
  obtain ⟨le, rfl⟩ := raised
  exact ⟨by rwa [kept], blind s larger⟩

theorem coupling_raised (larger : Nat) : Coupling Eq (Raised larger) where
  terms := by
    rintro s _ ⟨-, rfl⟩
    rfl
  flag := by
    rintro s _ ⟨-, rfl⟩
    rfl
  grow terms overflow raised :=
    raised.map (fun s => { s with terms := terms, overflow := overflow }) (fun _ _ => rfl)
      fun _ => rfl
  makeVariable := by
    rintro name _ sort rfl s _ ⟨le, rfl⟩
    exact .ok ⟨le, rfl⟩ rfl

theorem Raised.pop (raised : Raised larger s t) : Raised larger s.pop t.pop := by
  refine raised.map Enumerator.pop ?_ ?_
  · intro s limit
    obtain ⟨own, terms, overflow, vars, assertions, marks, assumptions, model⟩ := s
    cases marks <;> rfl
  · intro s
    unfold Enumerator.pop
    split <;> rfl

theorem Raised.pose (raised : Raised larger s t) (constraints : List Nat) (condition : Nat) :
    Raised larger (pose constraints condition s) (pose constraints condition t) := by
  refine raised.map (BoundedCheck.pose constraints condition) ?_ ?_
  · intro s limit
    simp only [BoundedCheck.pose, foldl_assume]
    rfl
  · intro s
    simp only [BoundedCheck.pose, foldl_assume]
    rfl

/-! ### Queries -/

/--
A query has the same answer with a larger limit, unless it is refused; then the same number of bits is
refused again if it is still too large.
-/
theorem solve_of_larger (le : s.freeBitLimit ≤ larger) (roots : List Nat) :
    ({ s with freeBitLimit := larger } : Enumerator).solve roots = s.solve roots ∨
      ∃ bits, s.solve roots = .error (.error (.searchSpaceTooLarge bits s.limit)) ∧
        (min larger 63 < bits → ({ s with freeBitLimit := larger } : Enumerator).solve roots =
          .error (.error (.searchSpaceTooLarge bits (min larger 63)))) := by
  have wider : s.limit ≤ min larger 63 := min_le_min_right 63 le
  have same (order : List Nat) :
      ({ s with freeBitLimit := larger } : Enumerator).freeVariables order =
        s.freeVariables order := rfl
  unfold solve
  simp only [same]
  cases s.overflow with
  | some width => exact Or.inl rfl
  | none =>
      simp only
      by_cases immense : narrowBound ≤ freeBits (s.freeVariables (cone s.terms roots))
      · left
        rw [if_pos immense, if_pos immense]
      simp only [if_neg immense]
      by_cases refused : s.limit < freeBits (s.freeVariables (cone s.terms roots))
      · right
        refine ⟨_, if_pos refused, fun still => ?_⟩
        exact if_pos still
      · left
        have fits : ¬ min larger 63 < freeBits (s.freeVariables (cone s.terms roots)) :=
          Nat.not_lt.mpr ((Nat.not_lt.mp refused).trans wider)
        rw [if_neg refused]
        exact if_neg fits

/-- With a larger limit a query is answered as before, or it was refused. -/
theorem checkSat_of_larger (raised : Raised larger s t) :
    Lockstep (Raised larger) (fun a b _ _ => a = b) (checkSat s) (checkSat t) ∨
      ∃ bits later, checkSat s = .error (.error (.searchSpaceTooLarge bits s.limit)) later ∧
        (min larger 63 < bits → ∃ later',
          checkSat t = .error (.error (.searchSpaceTooLarge bits (min larger 63))) later') := by
  obtain ⟨le, rfl⟩ := raised
  have roots : ({ s with freeBitLimit := larger } : Enumerator).roots = s.roots := rfl
  unfold checkSat
  simp only [roots]
  rcases solve_of_larger le s.roots with same | ⟨bits, refused, again⟩
  · left
    rw [same]
    cases s.solve s.roots with
    | error stop => exact .error ⟨le, rfl⟩
    | ok found =>
        cases found with
        | none => exact .ok ⟨le, rfl⟩ rfl
        | some assignment => exact .ok ⟨le, rfl⟩ rfl
  · right
    refine ⟨bits, _, by rw [refused], fun still => ⟨_, by rw [again still]⟩⟩

theorem coupled_getModel (larger : Nat) : Coupled (Raised larger) getModel getModel := by
  rintro s _ ⟨le, rfl⟩
  obtain ⟨own, terms, overflow, vars, assertions, marks, assumptions, model⟩ := s
  cases model with
  | none => exact .error ⟨le, rfl⟩
  | some assignment => exact .ok ⟨le, rfl⟩ rfl

end Enumerator

/-! ## Checks with more room -/

/-- The refusal of a query with too many free bits. -/
def tooLarge (bits limit : Nat) : Stop CheckError :=
  .error (.solver (.searchSpaceTooLarge bits limit))

/--
Two runs, the second with a given limit: they end alike, or the first refuses a query, and the second
refuses as many bits if these are too many for it.
-/
inductive Roomier {σ α : Type} (larger : Nat) (S : σ → σ → Prop) :
    EStateM.Result (Stop CheckError) σ α → EStateM.Result (Stop CheckError) σ α → Prop where
  | ok {a : α} {s t : σ} : S s t → Roomier larger S (.ok a s) (.ok a t)
  | error {stop : Stop CheckError} {s t : σ} : S s t →
      Roomier larger S (.error stop s) (.error stop t)
  | refused {bits limit : Nat} {s : σ} {right : EStateM.Result (Stop CheckError) σ α} :
      (min larger 63 < bits → ∃ limit' t, right = .error (tooLarge bits limit') t) →
      Roomier larger S (.error (tooLarge bits limit) s) right

namespace Roomier

variable {σ α β : Type} {larger : Nat} {S : σ → σ → Prop}

theorem of_lockstep {left right : EStateM.Result (Stop CheckError) σ α}
    (lockstep : Lockstep S (fun a b _ _ => a = b) left right) : Roomier larger S left right := by
  cases lockstep with
  | ok related same =>
      subst same
      exact .ok related
  | error related => exact .error related

theorem bind {first first' : CheckM σ α} {next next' : α → CheckM σ β} {s t : σ}
    (roomier : Roomier larger S (first s) (first' t))
    (rest : ∀ a s t, S s t → Roomier larger S (next a s) (next' a t)) :
    Roomier larger S ((first >>= next) s) ((first' >>= next') t) := by
  simp only [Bind.bind, EStateM.bind]
  generalize first s = left at roomier
  generalize first' t = right at roomier
  cases roomier with
  | ok related => exact rest _ _ _ related
  | error related => exact .error related
  | refused again =>
      refine .refused fun still => ?_
      obtain ⟨limit', last, rfl⟩ := again still
      exact ⟨limit', last, rfl⟩

end Roomier

variable {larger : Nat} {s t : Enumerator}

theorem roomier_query (raised : Raised larger s t) (constraints : List Nat) (condition : Nat) :
    Roomier larger (Raised larger) (query constraints condition s)
      (query constraints condition t) := by
  simp only [query, Backend.checkSat]
  rcases checkSat_of_larger (raised.pose constraints condition) with
    asked | ⟨bits, last, refused, again⟩
  · generalize checkSat (pose constraints condition s) = left at asked
    generalize checkSat (pose constraints condition t) = right at asked
    cases asked with
    | @error stop s t related =>
        cases stop with
        | fault fault => exact .error related
        | error error =>
            cases error with
            | unknown reason => exact .ok related.pop
            | _ => exact .error related.pop
    | @ok found _ s t related same =>
        subst same
        cases found with
        | false => exact .ok related.pop
        | true =>
            have shown := coupled_getModel larger s t related
            simp only [Backend.getModel]
            generalize getModel s = left at shown
            generalize getModel t = right at shown
            cases shown with
            | ok related same =>
                subst same
                exact .ok related.pop
            | @error stop _ _ related =>
                cases stop with
                | fault fault => exact .error related
                | error error => exact .error related.pop
  · rw [refused]
    refine .refused fun still => ?_
    obtain ⟨last', posed⟩ := again still
    rw [posed]
    exact ⟨_, _, rfl⟩

theorem roomier_queryAll (step : Nat) (constraints : List Nat) (conditions : List (Nat × Nat))
    (raised : Raised larger s t) :
    Roomier larger (Raised larger) (queryAll step constraints conditions s)
      (queryAll step constraints conditions t) := by
  induction conditions generalizing s t with
  | nil => exact .ok raised
  | cons entry rest ih =>
      refine (roomier_query raised constraints entry.2).bind ?_
      intro answer s t raised
      cases answer with
      | unreachable => exact ih raised
      | reachable model => exact .ok raised
      | undecided reason => exact .ok raised

namespace Engine

variable {engine other : Engine Enumerator BitSort Nat}

theorem roomier_askLast (step : Nat) (beside : Beside (Raised larger) engine other) :
    Roomier larger (Beside (Raised larger)) (askLast step engine) (askLast step other) := by
  obtain ⟨solver, raised, rfl⟩ := beside
  have asked := roomier_queryAll step engine.allConstraints engine.lastBads raised
  have constraints :
      ({ engine with solver := solver } : Engine Enumerator BitSort Nat).allConstraints =
        engine.allConstraints := rfl
  have bads : ({ engine with solver := solver } : Engine Enumerator BitSort Nat).lastBads =
      engine.lastBads := rfl
  unfold askLast
  rw [constraints, bads]
  generalize queryAll step _ _ engine.solver = left at asked
  generalize queryAll step _ _ solver = right at asked
  cases asked with
  | ok raised => exact .ok ⟨_, raised, rfl⟩
  | error raised => exact .error ⟨_, raised, rfl⟩
  | refused again =>
      refine .refused fun still => ?_
      obtain ⟨limit', last, rfl⟩ := again still
      exact ⟨limit', _, rfl⟩

theorem roomier_explore (depth : Nat) (beside : Beside (Raised larger) engine other) :
    Roomier larger (Beside (Raised larger)) (explore depth engine) (explore depth other) := by
  induction depth generalizing engine other with
  | zero => exact .ok beside
  | succ depth ih =>
      refine (Roomier.of_lockstep
        (beside_execute (coupling_raised larger) engine other beside)).bind ?_
      intro step unrolled unrolled' beside
      refine (roomier_askLast step beside).bind ?_
      intro found asked asked' beside
      cases found with
      | none => exact ih beside
      | some verdict => exact .ok beside

theorem roomier_bmc (depth : Nat) (beside : Beside (Raised larger) engine other) :
    Roomier larger (Beside (Raised larger)) (bmc depth engine) (bmc depth other) := by
  refine (roomier_explore depth beside).bind ?_
  intro found explored explored' beside
  cases found with
  | none => exact .ok beside
  | some verdict => exact .ok beside

end Engine

/--
A larger limit changes no answer.  A check that does not refuse a query for its size has the same
verdict, with the same model, or the same error under every larger limit.  One that refuses a number
of bits refuses the same number under every larger limit that is still below it.
-/
theorem check_of_larger_limit (settings : Settings) (design : Design) {larger : Nat}
    (le : settings.freeBitLimit ≤ larger) :
    ((∀ bits limit, check settings design ≠ .error (tooLarge bits limit)) →
        check { settings with freeBitLimit := larger } design = check settings design) ∧
      ∀ bits limit, check settings design = .error (tooLarge bits limit) → min larger 63 < bits →
        ∃ limit', check { settings with freeBitLimit := larger } design =
          .error (tooLarge bits limit') := by
  have ran := Engine.roomier_bmc settings.depth
    (⟨_, ⟨le, rfl⟩, rfl⟩ : Engine.Beside (Raised larger)
      (Engine.fresh settings.freeBitLimit design) (Engine.fresh larger design))
  unfold check
  simp only
  generalize Engine.bmc settings.depth (Engine.fresh settings.freeBitLimit design) = left at ran
  generalize Engine.bmc settings.depth (Engine.fresh larger design) = right at ran
  cases settings.solver with
  | z3 => exact ⟨fun _ => rfl, fun bits limit unavailable => by cases unavailable⟩
  | exhaustive =>
      cases ran with
      | ok _ => exact ⟨fun _ => rfl, fun bits limit refused => by cases refused⟩
      | error _ => exact ⟨fun _ => rfl, fun bits limit refused _ => ⟨limit, refused⟩⟩
      | refused again =>
          refine ⟨fun answered => absurd rfl (answered _ _), ?_⟩
          intro bits limit refused still
          cases refused
          obtain ⟨limit', last, rfl⟩ := again still
          exact ⟨limit', rfl⟩

/-- The second query of the sample is refused with five bits or less, and answered with more. -/
theorem check_of_larger_limit_sample :
    let settings (limit : Nat) : Settings :=
      { depth := 2, solver := .exhaustive, freeBitLimit := limit }
    let verdict := Verdict.violated 1 11 "0 01 s_1\n1 00 state6_1\n2 00 x_1\n3 00 state6_2\n"
    check (settings 4) Sample.design = .error (tooLarge 6 4) ∧
      (∃ limit, check (settings 5) Sample.design = .error (tooLarge 6 limit)) ∧
      check (settings 6) Sample.design = .ok verdict ∧
      check (settings 64) Sample.design = .ok verdict := by
  intro settings verdict
  have refused : check (settings 4) Sample.design = .error (tooLarge 6 4) := by decide +kernel
  have answered : check (settings 6) Sample.design = .ok verdict := by decide +kernel
  have never (bits limit : Nat) :
      check (settings 6) Sample.design ≠ .error (tooLarge bits limit) := by
    simp [answered]
  have again := (check_of_larger_limit (settings 4) Sample.design (by decide : 4 ≤ 5)).2
  have still := (check_of_larger_limit (settings 6) Sample.design (by decide : 6 ≤ 64)).1
  exact ⟨refused, again 6 4 refused (by decide), answered, (still never).trans answered⟩

end BoundedCheck
