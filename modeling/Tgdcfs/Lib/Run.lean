import Mathlib.Data.Option.Basic

/-!
# Guarded runs of a labelled step function

A system is given by `step : σ → α → Option σ`: the label resolves every
choice that the environment or the scheduler makes, and `none` means that the
labelled step is not enabled.  `run` executes a finite list of labels, and
`Guarded` restricts attention to the runs whose steps all meet a condition in
the state they are taken from.  Safety results are instances of
`run_invariant`.
-/

namespace Tgdcfs.Lib

variable {σ α : Type*}

/-- Execute a list of labelled steps from left to right. -/
def run (step : σ → α → Option σ) : σ → List α → Option σ
  | state, [] => some state
  | state, label :: labels =>
      (step state label).bind fun next => run step next labels

/-- Every step taken by the run satisfies `guard` in its source state. -/
def Guarded (step : σ → α → Option σ) (guard : σ → α → Prop) :
    σ → List α → Prop
  | _, [] => True
  | state, label :: labels =>
      guard state label ∧
        ∀ next, step state label = some next →
          Guarded step guard next labels

/-- `finish` is reached from `start` by some finite run. -/
def Reachable (step : σ → α → Option σ) (start finish : σ) : Prop :=
  ∃ labels, run step start labels = some finish

/-- `finish` is reached from `start` by a run whose steps meet `guard`. -/
def ReachableWithin (step : σ → α → Option σ) (guard : σ → α → Prop)
    (start finish : σ) : Prop :=
  ∃ labels, Guarded step guard start labels ∧
    run step start labels = some finish

variable {step : σ → α → Option σ} {guard : σ → α → Prop} {start : σ}
  {labels : List α}

theorem Guarded.mono {weaker : σ → α → Prop}
    (implied : ∀ state label, guard state label → weaker state label)
    (guarded : Guarded step guard start labels) :
    Guarded step weaker start labels := by
  induction labels generalizing start with
  | nil => trivial
  | cons label labels induction =>
      exact ⟨implied start label guarded.1, fun next taken =>
        induction (guarded.2 next taken)⟩

theorem Guarded.of_append {later : List α}
    (guarded : Guarded step guard start (labels ++ later)) :
    Guarded step guard start labels := by
  induction labels generalizing start with
  | nil => trivial
  | cons label labels induction =>
      exact ⟨guarded.1, fun next taken => induction (guarded.2 next taken)⟩

theorem Guarded.and {other : σ → α → Prop}
    (left : Guarded step guard start labels)
    (right : Guarded step other start labels) :
    Guarded step (fun state label => guard state label ∧ other state label)
      start labels := by
  induction labels generalizing start with
  | nil => trivial
  | cons label labels induction =>
      refine ⟨⟨left.1, right.1⟩, fun next taken => ?_⟩
      exact induction (left.2 next taken) (right.2 next taken)

theorem Guarded.with_mem (guarded : Guarded step guard start labels) :
    Guarded step (fun state label => guard state label ∧ label ∈ labels)
      start labels := by
  induction labels generalizing start with
  | nil => trivial
  | cons label labels induction =>
      refine ⟨⟨guarded.1, List.mem_cons_self⟩, fun next taken => ?_⟩
      apply (induction (guarded.2 next taken)).mono
      intro state later held
      exact ⟨held.1, List.mem_cons_of_mem _ held.2⟩

instance decideGuarded [∀ state label, Decidable (guard state label)] :
    ∀ (start : σ) (labels : List α),
      Decidable (Guarded step guard start labels)
  | _, [] => .isTrue trivial
  | state, label :: labels =>
      match taken : step state label with
      | none => decidable_of_iff (guard state label) (by simp [Guarded, taken])
      | some next =>
          have := decideGuarded next labels
          decidable_of_iff
            (guard state label ∧ Guarded step guard next labels)
            (by simp [Guarded, taken])

variable {finish : σ}

theorem run_cons_eq_some {state : σ} {label : α}
    (finished : run step state (label :: labels) = some finish) :
    ∃ next, step state label = some next ∧
      run step next labels = some finish := by
  simpa [run, Option.bind_eq_some_iff] using finished

/-- An invariant of every guarded step is an invariant of guarded runs. -/
theorem run_invariant {invariant : σ → Prop}
    (preserved : ∀ state label next, invariant state → guard state label →
      step state label = some next → invariant next)
    (initial : invariant start) (guarded : Guarded step guard start labels)
    (finished : run step start labels = some finish) : invariant finish := by
  induction labels generalizing start with
  | nil =>
      simp only [run, Option.some.injEq] at finished
      exact finished ▸ initial
  | cons label labels induction =>
      obtain ⟨next, taken, rest⟩ := run_cons_eq_some finished
      obtain ⟨allowed, later⟩ := guarded
      exact induction (preserved start label next initial allowed taken)
        (later next taken) rest

theorem guarded_of_forall (always : ∀ state label, guard state label)
    (start : σ) (labels : List α) : Guarded step guard start labels := by
  induction labels generalizing start with
  | nil => trivial
  | cons label labels induction =>
      exact ⟨always start label, fun next _ => induction next⟩

/-- The unguarded form: what every step keeps, every reachable state has. -/
theorem Reachable.invariant {invariant : σ → Prop}
    (reachable : Reachable step start finish)
    (preserved : ∀ state label next, invariant state →
      step state label = some next → invariant next)
    (initial : invariant start) : invariant finish := by
  obtain ⟨labels, finished⟩ := reachable
  have guarded : Guarded step (fun _ _ => True) start labels :=
    guarded_of_forall (fun _ _ => trivial) start labels
  exact run_invariant
    (fun state label next holds _ taken =>
      preserved state label next holds taken) initial guarded finished

theorem ReachableWithin.invariant {invariant : σ → Prop}
    (reachable : ReachableWithin step guard start finish)
    (preserved : ∀ state label next, invariant state → guard state label →
      step state label = some next → invariant next)
    (initial : invariant start) : invariant finish := by
  obtain ⟨labels, guarded, finished⟩ := reachable
  exact run_invariant preserved initial guarded finished

/-- A measure that every counted step lowers bounds how many of them a run
takes. -/
theorem run_count_le {invariant : σ → Prop} {measure : σ → Nat}
    {counted : α → Bool}
    (lowered : ∀ state label next, invariant state → guard state label →
      step state label = some next →
        invariant next ∧
          measure next + (if counted label then 1 else 0) ≤ measure state)
    (initial : invariant start) (guarded : Guarded step guard start labels)
    (finished : run step start labels = some finish) :
    (labels.filter counted).length + measure finish ≤ measure start := by
  induction labels generalizing start with
  | nil =>
      simp only [run, Option.some.injEq] at finished
      simp [finished]
  | cons label labels induction =>
      obtain ⟨next, taken, rest⟩ := run_cons_eq_some finished
      obtain ⟨allowed, later⟩ := guarded
      obtain ⟨kept, lower⟩ := lowered start label next initial allowed taken
      have bound := induction kept (later next taken) rest
      rw [List.filter_cons]
      split at lower
      · rename_i counts
        rw [if_pos counts, List.length_cons]
        omega
      · rename_i free
        rw [if_neg free]
        omega

/-- However the steps are scheduled, a run that goes on while it can reaches
`goal`. -/
inductive Inevitably (step : σ → α → Option σ) (goal : σ → Prop) :
    σ → Prop where
  | now {state : σ} (reached : goal state) : Inevitably step goal state
  | later {state : σ}
      (enabled : ∃ label next, step state label = some next)
      (every : ∀ label next, step state label = some next →
        Inevitably step goal next) : Inevitably step goal state

/-- Steps that lower a well-founded measure and do not get stuck before the
goal reach it. -/
theorem Inevitably.of_measure {β : Type*} {goal invariant : σ → Prop}
    {less : β → β → Prop} (measure : σ → β) (wellFounded : WellFounded less)
    (lowered : ∀ state label next, invariant state →
      step state label = some next →
        invariant next ∧ less (measure next) (measure state))
    (progress : ∀ state, invariant state → ¬goal state →
      ∃ label next, step state label = some next) (initial : invariant start) :
    Inevitably step goal start := by
  generalize bound : measure start = value
  induction value using wellFounded.induction generalizing start with
  | h value induction =>
      by_cases reached : goal start
      · exact .now reached
      · apply Inevitably.later
        · exact progress start initial reached
        · intro label next taken
          obtain ⟨kept, lower⟩ := lowered start label next initial taken
          exact induction (measure next) (bound ▸ lower) kept rfl

end Tgdcfs.Lib
