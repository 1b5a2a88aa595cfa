import LibDispatch.OnceInvariant
import Mathlib.Algebra.Order.BigOperators.Group.Finset

namespace LibDispatch.Once

/-!
# What callers of `dispatch_once_f` may rely on

The initializer is called at most once in every run.  It is called at all
because each step of a call, unless the environment makes it fail or wakes it up
for no reason, brings the calls closer to their returns, and some call can
always take a step.
-/

variable {Call : Type} {callers : Callers Call} {state : State Call}
variable {self : UInt32} {stage : Stage}

/-- A call whose next step nothing delays. -/
def Enabled
    (callers : Callers Call)
    (state : State Call)
    (call : Call) : Prop :=
  (state.stage call = .initializing → state.Alone callers call) ∧
    ∃ outcome,
      advance (callers.tid call) state.once .proceed (state.stage call) =
        some outcome

/-- A call in progress can take a step unless it is asleep. -/
theorem exists_advance
    (self : UInt32)
    (once : UInt64)
    (active : stage.Active)
    (awake : stage ≠ .asleep) :
    ∃ outcome, advance self once .proceed stage = some outcome := by
  cases stage with
  | idle => exact absurd rfl active.1
  | returned => exact absurd rfl active.2
  | asleep => exact absurd rfl awake
  | invoking | initializing | waitLoading => exact ⟨_, rfl⟩
  | loading | entering | finishing | broadcasting _ | waitSwapping _
  | waitChecking _ _ | parking _ =>
    simp only [advance]
    split <;> exact ⟨_, rfl⟩

variable {call : Call}

/-- While an initializer runs, it has been called once. -/
theorem Phase.invocations_of_initializing
    (phase : Phase callers state)
    (initializing : state.stage call = .initializing) :
    state.invocations = 1 := by
  cases phase with
  | unlocked word invocations completions early =>
    have callEarly := early call
    rw [initializing] at callEarly
    exact callEarly.elim
  | owned owner waiters word owning waiting =>
    by_cases owns : call = owner
    · rw [← owns, initializing] at owning
      exact owning.1
    · have callWaiting := waiting call owns
      rw [initializing] at callWaiting
      exact callWaiting.elim
  | done word invocations completions late broadcaster =>
    exact invocations

/-- The owner of the gate can go on, or a call nested in its initializer can. -/
theorem Phase.exists_enabled_of_owned
    {owner : Call}
    {waiters : Bool}
    (owning : (state.stage owner).Owning state.invocations state.completions)
    (waiting :
      ∀ call, call ≠ owner →
        (state.stage call).Waiting
          (callers.tid owner) (callers.tid call) waiters) :
    ∃ call, Enabled callers state call := by
  by_cases alone : state.Alone callers owner
  · exact ⟨owner, fun _ => alone,
      exists_advance _ _ owning.active.1 owning.active.2⟩
  · simp only [State.Alone, not_forall, not_not] at alone
    obtain ⟨inner, different, sameThread, active⟩ := alone
    have innerWaiting := waiting inner different
    refine ⟨inner, ?_, exists_advance _ _ active ?_⟩
    · intro initializing
      rw [initializing] at innerWaiting
      exact innerWaiting.elim
    · intro asleep
      rw [asleep] at innerWaiting
      exact innerWaiting.2 sameThread.symm

/-- When no call can go on, none is in progress. -/
theorem Phase.settled
    (phase : Phase callers state)
    (stuck : ∀ call, ¬ Enabled callers state call)
    {made : Call}
    (wasMade : state.stage made ≠ .idle) :
    state.invocations = 1 ∧
      ∀ call, state.stage call = .idle ∨ state.stage call = .returned := by
  cases phase with
  | unlocked word invocations completions early =>
    have madeEarly := early made
    refine absurd ⟨?_, exists_advance _ _ ⟨wasMade, ?_⟩ ?_⟩ (stuck made) <;>
      · intro stage
        rw [stage] at madeEarly
        exact madeEarly.elim
  | owned owner waiters word owning waiting =>
    obtain ⟨call, enabled⟩ := exists_enabled_of_owned owning waiting
    exact absurd enabled (stuck call)
  | done word invocations completions late broadcaster =>
    refine ⟨invocations, ?_⟩
    have notInitializing : ∀ call, state.stage call ≠ .initializing := by
      intro call initializing
      have callLate := late call
      rw [initializing] at callLate
      exact callLate
    have goesOn :
        ∀ call, (state.stage call).Active →
          state.stage call ≠ .asleep → Enabled callers state call := by
      intro call active awake
      exact ⟨fun initializing => absurd initializing (notInitializing call),
        exists_advance _ _ active awake⟩
    intro call
    by_contra unfinished
    have active : (state.stage call).Active := not_or.mp unfinished
    by_cases asleep : state.stage call = .asleep
    · obtain ⟨waker, broadcasting⟩ := broadcaster call asleep
      refine stuck waker (goesOn waker ⟨?_, ?_⟩ ?_) <;>
        · intro stage
          rw [stage] at broadcasting
          exact broadcasting
    · exact stuck call (goesOn call active asleep)

/-! ## Progress -/

/-- What a call knows about the word that it is about to compare. -/
def Stage.Tracks (once : UInt64) : Stage → Prop
  | .waitSwapping old =>
    old ≠ onceDone ∧
      (once = old ∨ once = onceDone ∨ once ||| waitersBit.toUInt64 = once)
  | .parking new => once.toUInt32 = new.toUInt32 ∨ once = onceDone
  | _ => True

theorem Phase.tracks
    (phase : Phase callers state)
    (call : Call) :
    (state.stage call).Tracks state.once := by
  cases phase with
  | unlocked word invocations completions early =>
    have callEarly := early call
    cases stage : state.stage call <;> rw [stage] at callEarly <;> trivial
  | owned owner waiters word owning waiting =>
    by_cases owns : call = owner
    · rw [← owns] at owning
      cases stage : state.stage call <;> rw [stage] at owning <;> trivial
    · have callWaiting := waiting call owns
      cases stage : state.stage call <;> rw [stage] at callWaiting <;>
        try trivial
      · refine ⟨?_, ?_⟩
        · rw [callWaiting]
          exact gateWord_ne_onceDone (callers.valid owner).2 false
        · rw [word, gateWord_or_waitersBit, callWaiting]
          cases waiters
          · exact .inl rfl
          · exact .inr (.inr rfl)
      · rw [word, callWaiting.1, callWaiting.2.1]
        exact .inl rfl
  | done word invocations completions late broadcaster =>
    have callLate := late call
    cases stage : state.stage call <;> rw [stage] at callLate <;> try trivial
    · obtain ⟨owner, valid, -, rfl⟩ := callLate
      exact ⟨gateWord_ne_onceDone valid false, .inr (.inl word)⟩
    · exact .inr word

/-- The steps that a call has left at most, before and after the word is
done. -/
def Stage.stepsLeft (done : Bool) : Stage → Nat
  | .idle | .returned => 0
  | .asleep | .broadcasting _ => 1
  | .parking _ | .finishing => 2
  | .waitChecking _ _ | .initializing => 3
  | .invoking => 4
  | .waitSwapping _ => if done then 1 else 4
  | .waitLoading => if done then 1 else 5
  | .entering => if done then 2 else 6
  | .loading => if done then 1 else 7

theorem stepsLeft_waitAttempt
    (once : UInt64)
    (stage : Stage)
    (less : if once = onceDone then 0 < stage.stepsLeft true
      else 3 < stage.stepsLeft false ∧
        (once ||| waitersBit.toUInt64 = once ∨ 4 < stage.stepsLeft false)) :
    (waitAttempt once).stepsLeft (once = onceDone) <
      stage.stepsLeft (once = onceDone) := by
  by_cases done : once = onceDone
  · simpa [waitAttempt, done, Stage.stepsLeft] using less
  · simp only [waitAttempt, done, decide_false, if_false] at less ⊢
    split_ifs with set
    · exact less.1
    · exact less.2.resolve_left set

variable {outcome : Outcome}

/-- A step of a call brings it closer to its return, unless it crashes. -/
theorem stepsLeft_advance
    {once : UInt64}
    (tracks : stage.Tracks once)
    (acts : advance self once .proceed stage = some outcome) :
    outcome.effect = .crash ∨
      outcome.stage.stepsLeft (outcome.once = onceDone) <
        stage.stepsLeft (once = onceDone) := by
  cases stage with
  | idle | returned | asleep => cases acts
  | invoking | initializing =>
    cases acts
    exact .inr (by simp [Stage.stepsLeft])
  | loading | finishing =>
    simp only [advance] at acts
    split_ifs at acts with compared <;> cases acts <;>
      exact .inr (by simp [Stage.stepsLeft, compared])
  | entering =>
    simp only [advance] at acts
    split_ifs at acts with compared <;> cases acts
    · have notDone : onceUnlocked ≠ onceDone := by decide
      exact .inr (by simp [Stage.stepsLeft, compared, notDone])
    · exact .inr (by simp only [Stage.stepsLeft]; split_ifs <;> decide)
  | broadcasting old =>
    simp only [advance] at acts
    split_ifs at acts <;> cases acts
    · exact .inr (by simp [Stage.stepsLeft])
    · exact .inl rfl
  | waitLoading =>
    cases acts
    refine .inr (stepsLeft_waitAttempt once _ ?_)
    split_ifs <;> simp [Stage.stepsLeft]
  | waitSwapping old =>
    simp only [advance, true_and] at acts
    obtain ⟨notDone, same | isDone | set⟩ := tracks
    · rw [if_pos same] at acts
      cases acts
      exact .inr (by simp [Stage.stepsLeft, same, notDone])
    · have changed : ¬ once = old := fun same => notDone (same ▸ isDone)
      rw [if_neg changed] at acts
      cases acts
      refine .inr (stepsLeft_waitAttempt once _ ?_)
      simp [isDone, Stage.stepsLeft]
    · split_ifs at acts with same <;> cases acts
      · exact .inr (by simp [Stage.stepsLeft, same, notDone])
      · refine .inr (stepsLeft_waitAttempt once _ ?_)
        split_ifs <;> simp [Stage.stepsLeft, set]
  | waitChecking old new =>
    simp only [advance] at acts
    split_ifs at acts <;> cases acts
    · exact .inl rfl
    · exact .inr (by simp [Stage.stepsLeft])
  | parking new =>
    simp only [advance] at acts
    split_ifs at acts with found <;> cases acts
    · exact .inr (by simp [Stage.stepsLeft])
    · exact .inr (by simp [Stage.stepsLeft, tracks.resolve_left found])

/-- The word stays done, and only a broadcast wakes up the sleepers. -/
theorem once_of_advance
    {once : UInt64}
    (acts : advance self once .proceed stage = some outcome) :
    (once = onceDone → outcome.once = onceDone) ∧
      (outcome.effect = .wakeAll →
        stage.Broadcasting ∧ outcome.once = once) ∧
      (outcome.effect = .crash → outcome.once = once) := by
  cases stage with
  | idle | returned | asleep => cases acts
  | invoking | initializing | waitLoading =>
    cases acts
    simp
  | broadcasting old =>
    simp only [advance] at acts
    split_ifs at acts <;> cases acts <;> simp [Stage.Broadcasting]
  | entering =>
    simp only [advance] at acts
    split_ifs at acts with unlocked <;> cases acts
    · rw [unlocked]
      simp [show onceUnlocked ≠ onceDone by decide]
    · simp
  | waitSwapping old =>
    simp only [advance] at acts
    split_ifs at acts with swapped <;> cases acts
    · rw [swapped.2]
      simp only [reduceCtorEq, false_implies, and_true]
      rintro rfl
      decide
    · simp
  | loading | finishing | waitChecking _ _ | parking _ =>
    simp only [advance] at acts
    split_ifs at acts <;> cases acts <;> simp

theorem Phase.done_of_broadcasting
    (phase : Phase callers state)
    (broadcasting : (state.stage call).Broadcasting) :
    state.once = onceDone := by
  cases stage : state.stage call <;> rw [stage] at broadcasting <;>
    try exact broadcasting.elim
  cases phase with
  | unlocked word invocations completions early =>
    have callEarly := early call
    rw [stage] at callEarly
    exact callEarly.elim
  | owned owner waiters word owning waiting =>
    by_cases owns : call = owner
    · rw [← owns, stage] at owning
      exact owning.elim
    · have callWaiting := waiting call owns
      rw [stage] at callWaiting
      exact callWaiting.elim
  | done word invocations completions late broadcaster => exact word

theorem Stage.stepsLeft_woken (stage : Stage) :
    stage.woken.stepsLeft true = stage.stepsLeft true := by
  cases stage <;> rfl

theorem Stage.stepsLeft_le
    {done nowDone : Bool}
    (grown : done = true → nowDone = true)
    (stage : Stage) :
    stage.stepsLeft nowDone ≤ stage.stepsLeft done := by
  cases done <;> cases nowDone <;>
    first | exact Nat.le_refl _ | exact absurd (grown rfl) (by decide) |
      (cases stage <;> simp [Stage.stepsLeft])

variable [DecidableEq Call]

/-- The stages that are left, after a step of one call. -/
theorem stepsLeft_apply_stage
    (wakes : outcome.effect = .wakeAll → outcome.once = onceDone)
    (other : Call) :
    ((state.apply call outcome).stage other).stepsLeft
        (outcome.once = onceDone) =
      (Function.update state.stage call outcome.stage other).stepsLeft
        (outcome.once = onceDone) := by
  rcases outcome with ⟨once, stage, effect⟩
  cases effect with
  | wakeAll =>
    obtain rfl : once = onceDone := wakes rfl
    exact Stage.stepsLeft_woken _
  | quiet | invoke | complete | crash => rfl

theorem apply_once
    (call : Call)
    (outcome : Outcome) :
    (state.apply call outcome).once = outcome.once := by
  rcases outcome with ⟨once, stage, effect⟩
  cases effect <;> rfl

variable [Fintype Call]

/-- The steps that all calls have left at most; a crash is one more. -/
def State.stepsLeft (state : State Call) : Nat :=
  ∑ call, (state.stage call).stepsLeft (state.once = onceDone) +
    if state.crashed then 0 else 1

theorem Phase.stepsLeft_apply
    (phase : Phase callers state)
    (running : state.crashed = false)
    (acts :
      advance (callers.tid call) state.once .proceed (state.stage call) =
        some outcome) :
    (state.apply call outcome).stepsLeft < state.stepsLeft := by
  obtain ⟨staysDone, wakes, crashes⟩ := once_of_advance acts
  have wakesDone (wakeAll : outcome.effect = .wakeAll) :
      outcome.once = onceDone := by
    obtain ⟨broadcasting, same⟩ := wakes wakeAll
    rw [same, phase.done_of_broadcasting broadcasting]
  rcases stepsLeft_advance (phase.tracks call) acts with crash | lower
  · have stays := apply_of_crash state crash (stage_of_crash acts crash).1
    have crashed : (state.apply call outcome).crashed = true := by
      simp [State.apply, crash]
    simp [State.stepsLeft, stays, apply_once, crashes crash, crashed, running]
  · have moved (other : Call) :
        ((state.apply call outcome).stage other).stepsLeft
            (outcome.once = onceDone) ≤
          (state.stage other).stepsLeft (state.once = onceDone) := by
      rw [stepsLeft_apply_stage wakesDone]
      by_cases same : other = call
      · rw [same, Function.update_self]
        exact lower.le
      · rw [Function.update_of_ne same]
        exact Stage.stepsLeft_le (by simpa using staysDone) _
    have fewer : ∑ other, ((state.apply call outcome).stage other).stepsLeft
          (outcome.once = onceDone) <
        ∑ other, (state.stage other).stepsLeft (state.once = onceDone) := by
      refine Finset.sum_lt_sum (fun other _ => moved other)
        ⟨call, Finset.mem_univ call, ?_⟩
      rw [stepsLeft_apply_stage wakesDone, Function.update_self]
      exact lower
    simp only [State.stepsLeft, apply_once, running, Bool.false_eq_true,
      if_false]
    split_ifs <;> omega

/-- A call takes a step that the environment does not disturb. -/
def Proceeds
    (callers : Callers Call)
    (state after : State Call) : Prop :=
  state.crashed = false ∧
    ∃ call outcome,
      (state.stage call = .initializing → state.Alone callers call) ∧
      advance (callers.tid call) state.once .proceed (state.stage call) =
        some outcome ∧
      after = state.apply call outcome

/-- What `dispatch_once_f` guarantees in a state. -/
structure Guarantees
    (callers : Callers Call)
    (state : State Call) : Prop where
  /-- The initializer is not called twice. -/
  atMostOnce : state.invocations ≤ 1
  /-- No call returns before the initializer has completed. -/
  completed :
    ∀ call, state.stage call = .returned →
      state.invocations = 1 ∧ state.completions = 1
  /-- If a call is made, the initializer is called: after so many steps of any
  calls, undisturbed, all of them have returned, or the process has crashed. -/
  ends :
    ∀ made, state.stage made ≠ .idle →
      ∀ run, run 0 = state → RunsOn (Proceeds callers) run →
        (run state.stepsLeft).invocations = 1 ∧
          ((run state.stepsLeft).crashed = true ∨
            ∀ call, (run state.stepsLeft).stage call = .idle ∨
              (run state.stepsLeft).stage call = .returned)
  /-- No call is asleep once the broadcast is over. -/
  awake :
    state.once = onceDone → (∀ call, ¬ (state.stage call).Broadcasting) →
      ∀ call, state.stage call ≠ .asleep
  /-- A crash is the client's doing, in its only run of the initializer. -/
  crash :
    state.crashed = true → state.invocations = 1 ∧ Recursive callers state

omit [Fintype Call] in
theorem Proceeds.made
    {after : State Call}
    (proceeds : Proceeds callers state after)
    {made : Call}
    (wasMade : state.stage made ≠ .idle) :
    after.stage made ≠ .idle := by
  obtain ⟨-, call, outcome, -, acts, rfl⟩ := proceeds
  have moved : outcome.stage ≠ .idle := by
    intro isIdle
    cases stage : state.stage call <;> rw [stage] at acts <;>
      simp only [advance, waitAttempt] at acts <;>
      (try split_ifs at acts) <;> cases acts <;> cases isIdle
  have updated :
      Function.update state.stage call outcome.stage made ≠ .idle :=
    @forall_update _ _ _ state.stage
      (fun other stage => other = made → stage ≠ .idle) call
      (fun other _ same => same ▸ wasMade) (fun _ => moved) made rfl
  rcases apply_stage state call outcome made with kept | woken
  · rwa [kept]
  · rw [woken]
    generalize Function.update state.stage call outcome.stage made = stage
      at updated
    cases stage <;> first | exact absurd rfl updated | simp [Stage.woken]

/-- A call that was made leads to the end of all calls. -/
theorem Invariant.ends
    (invariant : Invariant callers state)
    {made : Call}
    (wasMade : state.stage made ≠ .idle)
    {run : Nat → State Call}
    (starts : run 0 = state)
    (runs : RunsOn (Proceeds callers) run) :
    (run state.stepsLeft).invocations = 1 ∧
      ((run state.stepsLeft).crashed = true ∨
        ∀ call, (run state.stepsLeft).stage call = .idle ∨
          (run state.stepsLeft).stage call = .returned) := by
  have lowers {before after : State Call}
      (holds : Invariant callers before ∧ before.stage made ≠ .idle)
      (proceeds : Proceeds callers before after) :
      (Invariant callers after ∧ after.stage made ≠ .idle) ∧
        after.stepsLeft < before.stepsLeft := by
    have stillMade := proceeds.made holds.2
    obtain ⟨running, call, outcome, unnested, acts, rfl⟩ := proceeds
    exact ⟨⟨holds.1.step (.advance running unnested acts), stillMade⟩,
      holds.1.phase.stepsLeft_apply running acts⟩
  have ending := runs.ends lowers (starts.symm ▸ ⟨invariant, wasMade⟩)
  rw [starts] at ending
  obtain ⟨⟨ended, stillMade⟩, stuck⟩ := ending
  cases crashed : (run state.stepsLeft).crashed with
  | true =>
    obtain ⟨outer, _, _, _, initializing, _⟩ := ended.crash crashed
    exact ⟨ended.phase.invocations_of_initializing initializing, .inl rfl⟩
  | false =>
    have settled := ended.phase.settled (fun call enabled => by
      obtain ⟨unnested, outcome, acts⟩ := enabled
      exact stuck _ ⟨crashed, call, outcome, unnested, acts, rfl⟩) stillMade
    exact ⟨settled.1, .inr settled.2⟩

/-- `dispatch_once_f` keeps its guarantees in every reachable state. -/
theorem reachable_guarantees
    {callers : Callers Call}
    {state : State Call}
    (reachable : Reachable Initial (Step callers) state) :
    Guarantees callers state := by
  have invariant : Invariant callers state :=
    reachable.invariant Invariant.initial Invariant.step
  have phase := invariant.phase
  exact {
    atMostOnce := by
      cases phase with
      | unlocked _ _ _ _ | done _ _ _ _ _ => omega
      | owned owner waiters word owning waiting =>
        cases stage : state.stage owner <;> rw [stage] at owning <;>
          first | exact owning.elim | exact owning.1.trans_le (by decide)
    completed := by
      intro call returned
      cases phase with
      | unlocked word invocations completions early =>
        have callEarly := early call
        rw [returned] at callEarly
        exact callEarly.elim
      | owned owner waiters word owning waiting =>
        by_cases owns : call = owner
        · rw [← owns, returned] at owning
          exact owning.elim
        · have callWaiting := waiting call owns
          rw [returned] at callWaiting
          exact callWaiting.elim
      | done word invocations completions late broadcaster =>
        exact ⟨invocations, completions⟩
    ends := fun _ made _ starts runs => invariant.ends made starts runs
    awake := by
      intro done silent sleeper asleep
      cases phase with
      | unlocked word invocations completions early =>
        have sleeperEarly := early sleeper
        rw [asleep] at sleeperEarly
        exact sleeperEarly
      | owned owner waiters word owning waiting =>
        exact gateWord_ne_onceDone (callers.valid owner).2 waiters
          (word.symm.trans done)
      | done word invocations completions late broadcaster =>
        obtain ⟨waker, broadcasting⟩ := broadcaster sleeper asleep
        exact silent waker broadcasting
    crash := by
      intro crashed
      obtain ⟨outer, inner, different, sameThread, initializing, active⟩ :=
        invariant.crash crashed
      exact ⟨phase.invocations_of_initializing initializing,
        outer, inner, different, sameThread, initializing, active⟩
  }

/-- Two threads that make one call each. -/
def twoCallers : Callers Bool where
  tid := fun call => if call then 7 else 9
  valid := fun call => by cases call <;> decide

/-- The step of a call that does not initialize. -/
theorem two_next
    {state : State Bool}
    (reachable : Reachable Initial (Step twoCallers) state)
    (call : Bool)
    (running : state.crashed = false)
    (unnested : state.stage call ≠ .initializing)
    (acts :
      advance (twoCallers.tid call) state.once .proceed (state.stage call) =
        some outcome) :
    Reachable Initial (Step twoCallers) (state.apply call outcome) :=
  reachable.next (.advance running (absurd · unnested) acts)

/-- One call runs the initializer, and the other one sleeps. -/
theorem oneSleeps_guarantees :
    ∃ state : State Bool,
      Reachable Initial (Step twoCallers) state ∧
        state.stage true = .initializing ∧ state.stage false = .asleep ∧
        Guarantees twoCallers state := by
  have initial :
      Reachable Initial (Step twoCallers)
        ⟨onceUnlocked, fun _ => .idle, 0, 0, false⟩ :=
    .start ⟨rfl, fun _ => rfl, rfl, rfl, rfl⟩
  have called := initial.next (@Step.call _ _ twoCallers _ true .loading rfl
    rfl (fun _ _ active => absurd rfl active.1) (.inl rfl))
  have loaded := two_next called true rfl (by decide) rfl
  have entered := two_next loaded true rfl (by decide) rfl
  have invoked := two_next entered true rfl (by decide) rfl
  have calledToo := invoked.next (@Step.call _ _ twoCallers _ false .entering
    rfl rfl (by
      intro other same
      cases other <;> revert same <;> decide) (.inr rfl))
  have waits := two_next calledToo false rfl (by decide) rfl
  have loads := two_next waits false rfl (by decide) rfl
  have swaps := two_next loads false rfl (by decide) rfl
  have checks := two_next swaps false rfl (by decide) rfl
  have parks := two_next checks false rfl (by decide) rfl
  exact ⟨_, parks, rfl, rfl, reachable_guarantees parks⟩

end LibDispatch.Once
