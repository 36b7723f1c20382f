import Mathlib.Order.Basic

/-!
Runs of a transition system whose step function answers `none` where an event is not
enabled, and the invariant rule for runs whose steps all meet a condition.
-/
namespace Starter.Lib.Runs
universe u v
variable {S : Type u} {E : Type v}

/-- The state after the events, when each of them is enabled in its turn. -/
def run (step : S → E → Option S) : S → List E → Option S
  | s, [] => some s
  | s, e :: es => (step s e).bind fun next => run step next es

/-- Every event of the run meets the condition in the state it happens in. -/
def Meets (step : S → E → Option S) (cond : S → E → Prop) : S → List E → Prop
  | _, [] => True
  | s, e :: es => cond s e ∧ ∀ next, step s e = some next → Meets step cond next es

/-- The state holds the property, and so does every one that the run comes to. -/
def Always (step : S → E → Option S) (P : S → Prop) : S → List E → Prop
  | s, [] => P s
  | s, e :: es => P s ∧ ∀ next, step s e = some next → Always step P next es

theorem always_first {step : S → E → Option S} {P : S → Prop} {s : S} {es : List E} (always : Always step P s es) :
    P s := by
  cases es with
  | nil => exact always
  | cons _ _ => exact always.1

theorem always_last {step : S → E → Option S} {P : S → Prop} {s last : S} {es : List E} (always : Always step P s es)
    (done : run step s es = some last) : P last := by
  induction es generalizing s with
  | nil =>
    cases done
    exact always
  | cons e es ih =>
    simp only [run,Option.bind_eq_some_iff] at done
    obtain ⟨next,stepped,rest⟩ := done
    exact ih (always.2 next stepped) rest

theorem run_cons {step : S → E → Option S} {s last : S} {e : E} {es : List E} :
    run step s (e :: es) = some last ↔ ∃ next, step s e = some next ∧ run step next es = some last := by
  simp [run, Option.bind_eq_some_iff]

theorem run_append {step : S → E → Option S} {s : S} {es fs : List E} :
    run step s (es ++ fs) = (run step s es).bind fun mid => run step mid fs := by
  induction es generalizing s with
  | nil => rfl
  | cons e es ih =>
    simp only [List.cons_append, run]
    cases step s e with
    | none => rfl
    | some next => exact ih

/-- On a given run a condition that can be decided can be checked. -/
instance decidableMeets {step : S → E → Option S} {cond : S → E → Prop} [∀ s e, Decidable (cond s e)] :
    ∀ (s : S) (es : List E), Decidable (Meets step cond s es)
  | _, [] => .isTrue trivial
  | s, e :: es =>
    match stepped : step s e with
    | none => decidable_of_iff (cond s e) (by simp [Meets,stepped])
    | some next =>
      have := @decidableMeets step cond _ next es
      decidable_of_iff (cond s e ∧ Meets step cond next es) (by simp [Meets,stepped])

/-- The invariant rule: what every step that meets the condition preserves holds after
    every run whose steps meet it. -/
theorem run_invariant {step : S → E → Option S} {cond : S → E → Prop} {I : S → Prop}
    (keeps : ∀ s e next, I s → cond s e → step s e = some next → I next) :
    ∀ (es : List E) (s last : S), I s → Meets step cond s es → run step s es = some last → I last := by
  intro es
  induction es with
  | nil =>
    intro s last holds _ done
    cases done
    exact holds
  | cons e es ih =>
    intro s last holds meets done
    obtain ⟨next,stepped,rest⟩ := run_cons.mp done
    exact ih next last (keeps s e next holds meets.1 stepped) (meets.2 next stepped) rest

theorem meets_mono {step : S → E → Option S} {cond weaker : S → E → Prop} (implies : ∀ s e, cond s e → weaker s e)
    {s : S} {es : List E} (meets : Meets step cond s es) : Meets step weaker s es := by
  induction es generalizing s with
  | nil => trivial
  | cons e es ih => exact ⟨implies s e meets.1,fun next stepped => ih (meets.2 next stepped)⟩

theorem meets_congr {step : S → E → Option S} {cond other : S → E → Prop} (same : ∀ s e, cond s e ↔ other s e)
    {s : S} {es : List E} : Meets step cond s es ↔ Meets step other s es :=
  ⟨meets_mono fun s e => (same s e).mp,meets_mono fun s e => (same s e).mpr⟩

/-- What a run meets it meets at each of its events. -/
theorem meets_at {step : S → E → Option S} {cond : S → E → Prop} {s mid : S} {es rest : List E} {e : E}
    (meets : Meets step cond s (es ++ e :: rest)) (done : run step s es = some mid) : cond mid e := by
  induction es generalizing s with
  | nil =>
    cases done
    exact meets.1
  | cons first es ih =>
    obtain ⟨next,stepped,later⟩ := run_cons.mp done
    exact ih (meets.2 next stepped) later

theorem meets_true {step : S → E → Option S} (s : S) (es : List E) : Meets step (fun _ _ => True) s es := by
  induction es generalizing s with
  | nil => trivial
  | cons e es ih => exact ⟨trivial,fun next _ => ih next⟩

/-- The same where every step preserves it. -/
theorem run_preserves {step : S → E → Option S} {I : S → Prop} (keeps : ∀ s e next, I s → step s e = some next → I next)
    (es : List E) (s last : S) (holds : I s) (done : run step s es = some last) : I last :=
  run_invariant (fun s e next holds _ => keeps s e next holds) es s last holds (meets_true s es) done

theorem always_mono {step : S → E → Option S} {P Q : S → Prop} (implies : ∀ s, P s → Q s) {s : S} {es : List E}
    (always : Always step P s es) : Always step Q s es := by
  induction es generalizing s with
  | nil => exact implies s always
  | cons e es ih => exact ⟨implies s always.1,fun next stepped => ih (always.2 next stepped)⟩

/-- What every step keeps holds all along a run. -/
theorem always_of_step {step : S → E → Option S} {I : S → Prop} (keeps : ∀ s e next, I s → step s e = some next → I next)
    {s : S} (holds : I s) (es : List E) : Always step I s es := by
  induction es generalizing s with
  | nil => exact holds
  | cons e es ih => exact ⟨holds,fun next stepped => ih (keeps s e next holds stepped)⟩

/-- What a step keeps where a property holds may be used wherever the property does. -/
theorem always_and {step : S → E → Option S} {I P : S → Prop}
    (keeps : ∀ s e next, I s → P s → step s e = some next → I next)
    {s : S} {es : List E} (holds : I s) (always : Always step P s es) : Always step (fun s => I s ∧ P s) s es := by
  induction es generalizing s with
  | nil => exact ⟨holds,always⟩
  | cons e es ih =>
    exact ⟨⟨holds,always.1⟩,fun next stepped => ih (keeps s e next holds always.1 stepped) (always.2 next stepped)⟩

/-- Along a run that is admitted a property that a step keeps exactly when it meets a condition
    holds exactly when all the steps meet it. An event that is not enabled meets it. -/
theorem always_iff_meets_where {step : S → E → Option S} {P : S → Prop} {cond admits : S → E → Prop}
    (disabled : ∀ s e, P s → step s e = none → cond s e)
    (each : ∀ s e next, P s → admits s e → step s e = some next → (P next ↔ cond s e)) {s : S} (holds : P s) {es : List E}
    (admitted : Meets step admits s es) : Always step P s es ↔ Meets step cond s es := by
  induction es generalizing s with
  | nil => exact ⟨fun _ => trivial,fun _ => holds⟩
  | cons e es ih =>
    obtain ⟨now,later⟩ := admitted
    constructor
    · intro always
      have after : ∀ next, step s e = some next → P next := fun next stepped => always_first (always.2 next stepped)
      refine ⟨?_,fun next stepped => (ih (after next stepped) (later next stepped)).mp (always.2 next stepped)⟩
      cases stepped : step s e with
      | none => exact disabled s e holds stepped
      | some next => exact (each s e next holds now stepped).mp (after next stepped)
    · intro meets
      refine ⟨holds,fun next stepped => ?_⟩
      exact (ih ((each s e next holds now stepped).mpr meets.1) (later next stepped)).mpr (meets.2 next stepped)

/-- A property that a step keeps exactly when it meets a condition holds all along a run
    exactly when all its steps meet it. An event that is not enabled meets it. -/
theorem always_iff_meets {step : S → E → Option S} {P : S → Prop} {cond : S → E → Prop}
    (disabled : ∀ s e, P s → step s e = none → cond s e)
    (each : ∀ s e next, P s → step s e = some next → (P next ↔ cond s e)) {s : S} (holds : P s) (es : List E) :
    Always step P s es ↔ Meets step cond s es :=
  always_iff_meets_where disabled (fun s e next holds _ => each s e next holds) holds (meets_true s es)

end Starter.Lib.Runs
