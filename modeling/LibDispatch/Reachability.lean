import Mathlib.Data.List.Basic

namespace LibDispatch

/-!
# Reachable states and interleaved activities

The vocabulary shared by every transition system of this development.  A
system is a set of initial states and a step relation; an invariant that holds
initially and survives one step holds in every reachable state.
-/

/-- States reachable from an initial state by finitely many steps. -/
inductive Reachable
    {State : Type}
    (initial : State → Prop)
    (step : State → State → Prop) :
    State → Prop where
  | start
      {state : State}
      (isInitial : initial state) :
      Reachable initial step state
  | next
      {state after : State}
      (earlier : Reachable initial step state)
      (last : step state after) :
      Reachable initial step after

variable {State : Type} {initial : State → Prop}
  {step : State → State → Prop} {state : State}

namespace Reachable

/-- An inductive invariant holds in every reachable state. -/
theorem invariant
    {Invariant : State → Prop}
    (holdsInitially :
      ∀ {state}, initial state → Invariant state)
    (preserved :
      ∀ {state after},
        Invariant state →
        step state after →
        Invariant after)
    (reachable : Reachable initial step state) :
    Invariant state := by
  induction reachable with
  | start isInitial =>
    exact holdsInitially isInitial
  | next earlier last inductionHypothesis =>
    exact preserved inductionHypothesis last

/-- What can be reached by some steps can be reached by more. -/
theorem mono
    {moreSteps : State → State → Prop}
    (implies :
      ∀ {state after},
        step state after → moreSteps state after)
    (reachable : Reachable initial step state) :
    Reachable initial moreSteps state := by
  induction reachable with
  | start isInitial =>
    exact .start isInitial
  | next earlier last inductionHypothesis =>
    exact .next inductionHypothesis (implies last)

end Reachable

/-- A run that takes a step as long as there is one. -/
def RunsOn
    (step : State → State → Prop)
    (run : Nat → State) : Prop :=
  ∀ n, step (run n) (run (n + 1)) ∨
    (∀ after, ¬ step (run n) after) ∧ run (n + 1) = run n

/-- A run whose steps all lower a measure has come to its end after as many
steps, whichever they are. -/
theorem RunsOn.ends
    {run : Nat → State}
    {Invariant : State → Prop}
    {measure : State → Nat}
    (runs : RunsOn step run)
    (preserved :
      ∀ {state after},
        Invariant state →
        step state after →
        Invariant after ∧ measure after < measure state)
    (holds : Invariant (run 0)) :
    Invariant (run (measure (run 0))) ∧
      ∀ after, ¬ step (run (measure (run 0))) after := by
  have kept (n : Nat) :
      Invariant (run n) ∧
        ((∀ after, ¬ step (run n) after) ∨
          measure (run n) + n ≤ measure (run 0)) := by
    induction n with
    | zero =>
      exact ⟨holds, .inr (Nat.le_refl _)⟩
    | succ n inductionHypothesis =>
      obtain ⟨invariant, left⟩ := inductionHypothesis
      rcases runs n with goesOn | ⟨stuck, same⟩
      · obtain ⟨kept, lower⟩ := preserved invariant goesOn
        have bounded := left.resolve_left fun stuck => stuck _ goesOn
        exact ⟨kept, .inr (by omega)⟩
      · rw [same]
        exact ⟨invariant, .inl stuck⟩
  obtain ⟨invariant, stuck | bounded⟩ := kept (measure (run 0))
  · exact ⟨invariant, stuck⟩
  · refine ⟨invariant, fun after goesOn => ?_⟩
    have lower := (preserved invariant goesOn).2
    omega

/-- The state after some events of a system whose steps are a function, if each
could happen. -/
def afterEvents
    {Event : Type}
    (next : State → Event → Option State)
    (state : State) :
    List Event → Option State
  | [] => some state
  | event :: rest =>
    (next state event).bind fun after =>
      afterEvents next after rest

/-- What some events lead to is reachable. -/
theorem Reachable.afterEvents
    {Event : Type}
    {next : State → Event → Option State}
    (steps :
      ∀ {state event following},
        next state event = some following → step state following)
    {following : State}
    (reached : Reachable initial step state)
    {events : List Event}
    (runs : LibDispatch.afterEvents next state events = some following) :
    Reachable initial step following := by
  induction events generalizing state with
  | nil =>
    exact Option.some.inj runs ▸ reached
  | cons event rest inductionHypothesis =>
    obtain ⟨middle, happens, after⟩ := Option.bind_eq_some_iff.mp runs
    exact inductionHypothesis (reached.next (steps happens)) after

end LibDispatch
