import LibDispatch.Once

namespace LibDispatch.Once

/-!
# The initializer runs once

The gate passes through three phases: unlocked, owned by one call, and done.
`Phase` says what every call can be doing in each of them; one step of any call
keeps it.  The point of the protocol is the change from the second phase to the
third: the owner learns from the word it swaps out whether anyone can be asleep.
-/

variable {Call : Type} [DecidableEq Call]

/-- The stages before a call has tried to enter the gate. -/
def Stage.Early : Stage → Prop
  | .idle | .loading | .entering => True
  | _ => False

/-- The stages of the call that owns the gate, with the two counters. -/
def Stage.Owning : Stage → Nat → Nat → Prop
  | .invoking, invocations, completions => invocations = 0 ∧ completions = 0
  | .initializing, invocations, completions =>
    invocations = 1 ∧ completions = 0
  | .finishing, invocations, completions => invocations = 1 ∧ completions = 1
  | _, _, _ => False

/-- The stages of another call of the thread `self`, while the thread `owner`
owns the gate. -/
def Stage.Waiting (owner self : UInt32) (waiters : Bool) : Stage → Prop
  | .idle | .loading | .entering | .waitLoading => True
  | .waitSwapping old => old = gateWord owner false
  | .waitChecking old new =>
    waiters = true ∧ (∃ earlier, old = gateWord owner earlier) ∧
      new = gateWord owner true
  | .parking new =>
    waiters = true ∧ new = gateWord owner true ∧ owner ≠ self
  | .asleep => waiters = true ∧ owner ≠ self
  | _ => False

/-- The stages of a call of the thread `self` after the initializer has
returned. -/
def Stage.Late (self : UInt32) : Stage → Prop
  | .idle | .loading | .entering | .waitLoading | .asleep | .returned => True
  | .broadcasting old => ∃ waiters, old = gateWord self waiters
  | .waitSwapping old =>
    ∃ owner : UInt32, owner.toNat < 2 ^ 30 ∧ owner ≠ self ∧
      old = gateWord owner false
  | .waitChecking old new =>
    ∃ owner : UInt32, owner.toNat < 2 ^ 30 ∧ owner ≠ self ∧
      (∃ earlier, old = gateWord owner earlier) ∧ new = gateWord owner true
  | .parking new =>
    ∃ owner : UInt32, owner.toNat < 2 ^ 30 ∧ new = gateWord owner true
  | _ => False

variable {self : UInt32} {stage : Stage}

theorem Stage.Early.waiting
    {owner : UInt32}
    {waiters : Bool}
    (early : stage.Early) :
    stage.Waiting owner self waiters := by
  cases stage with
  | idle | loading | entering => trivial
  | _ => exact early.elim

/-- A call whose next step wakes up every sleeper. -/
def Stage.Broadcasting : Stage → Prop
  | .broadcasting _ => True
  | _ => False

/-- The three phases of the gate. -/
inductive Phase
    (callers : Callers Call)
    (state : State Call) : Prop where
  | unlocked
      (word : state.once = onceUnlocked)
      (invocations : state.invocations = 0)
      (completions : state.completions = 0)
      (early : ∀ call, (state.stage call).Early)
  | owned
      (owner : Call)
      (waiters : Bool)
      (word : state.once = gateWord (callers.tid owner) waiters)
      (owning :
        (state.stage owner).Owning state.invocations state.completions)
      (waiting :
        ∀ call, call ≠ owner →
          (state.stage call).Waiting
            (callers.tid owner) (callers.tid call) waiters)
  | done
      (word : state.once = onceDone)
      (invocations : state.invocations = 1)
      (completions : state.completions = 1)
      (late : ∀ call, (state.stage call).Late (callers.tid call))
      (broadcaster :
        ∀ call, state.stage call = .asleep →
          ∃ other, (state.stage other).Broadcasting)

/-- Calls of one thread are nested in an initializer. -/
def Nested
    (callers : Callers Call)
    (state : State Call) : Prop :=
  ∀ first second, first ≠ second →
    callers.tid first = callers.tid second →
    (state.stage first).Active → (state.stage second).Active →
    state.stage first = .initializing ∨ state.stage second = .initializing

/-! ## One step of a call -/

/-- A property of all stages, after one call has moved. -/
theorem forall_update
    {stages : Call → Stage}
    {Holds : Call → Stage → Prop}
    {moved : Call}
    (held : ∀ call, call ≠ moved → Holds call (stages call))
    (movedHolds : Holds moved stage)
    (call : Call) :
    Holds call (Function.update stages moved stage call) := by
  by_cases same : call = moved
  · rw [same, Function.update_self]
    exact movedHolds
  · rw [Function.update_of_ne same]
    exact held call same

/-- What a call can do while the gate is unlocked: only the compare-and-swap
changes the phase. -/
theorem Phase.advance_unlocked
    {callers : Callers Call}
    {state : State Call}
    {call : Call}
    {choice : Choice}
    {outcome : Outcome}
    (word : state.once = onceUnlocked)
    (invocations : state.invocations = 0)
    (completions : state.completions = 0)
    (early : ∀ call, (state.stage call).Early)
    (acts :
      Once.advance (callers.tid call) state.once choice (state.stage call) =
        some outcome) :
    Phase callers (state.apply call outcome) := by
  have callEarly := early call
  rw [word] at acts
  generalize state.stage call = stage at acts callEarly
  cases stage with
  | loading =>
    cases acts
    refine .unlocked rfl invocations completions ?_
    exact forall_update (fun other _ => early other) trivial
  | entering =>
    cases acts
    refine .owned call false rfl ?_ ?_
    · simp [State.apply, State.move, Stage.Owning, invocations, completions]
    · intro other different
      simp only [State.apply, State.move,
        Function.update_of_ne different]
      exact (early other).waiting
  | idle =>
    cases acts
  | _ => exact callEarly.elim

theorem Stage.Waiting.setWaiters
    {owner : UInt32}
    {waiters : Bool}
    (waiting : stage.Waiting owner self waiters) :
    stage.Waiting owner self true := by
  cases stage with
  | waitChecking _ _ | parking _ | asleep => exact ⟨rfl, waiting.2⟩
  | _ => exact waiting

/-- The iteration of the waiting loop that finds the gate owned. -/
theorem waiting_waitAttempt
    {owner : UInt32}
    (valid : owner.toNat < 2 ^ 30)
    (self : UInt32)
    (waiters : Bool) :
    (waitAttempt (gateWord owner waiters)).Waiting owner self waiters := by
  rw [waitAttempt, if_neg (gateWord_ne_onceDone valid waiters),
    gateWord_or_waitersBit]
  cases waiters with
  | true =>
    rw [if_pos rfl]
    exact ⟨rfl, ⟨true, rfl⟩, rfl⟩
  | false =>
    rw [if_neg (gateWord_true_ne_false valid)]
    rfl

theorem Stage.Owning.active
    {invocations completions : Nat}
    (owning : stage.Owning invocations completions) :
    stage.Active ∧ stage ≠ .asleep := by
  cases stage with
  | invoking | initializing | finishing => decide
  | _ => exact owning.elim

variable {after : State Call}

section Owned

variable
  {callers : Callers Call}
  {state : State Call}
  {owner call : Call}
  {waiters : Bool}
  {choice : Choice}
  {outcome : Outcome}
  (owning : (state.stage owner).Owning state.invocations state.completions)
  (waiting :
    ∀ call, call ≠ owner →
      (state.stage call).Waiting
        (callers.tid owner) (callers.tid call) waiters)

include owning waiting

/-- A call that waits moves to another stage of waiting. -/
theorem Phase.owned_move
    (different : call ≠ owner)
    {nowWaiters : Bool}
    (word : after.once = gateWord (callers.tid owner) nowWaiters)
    (grown : waiters = true → nowWaiters = true)
    (stages : after.stage = Function.update state.stage call stage)
    (invocations : after.invocations = state.invocations)
    (completions : after.completions = state.completions)
    (moved :
      stage.Waiting (callers.tid owner) (callers.tid call) nowWaiters) :
    Phase callers after := by
  refine .owned owner nowWaiters word ?_ ?_
  · rw [stages, Function.update_of_ne different.symm, invocations, completions]
    exact owning
  · rw [stages]
    intro other otherDifferent
    by_cases same : other = call
    · rw [same, Function.update_self]
      exact moved
    · rw [Function.update_of_ne same]
      have before := waiting other otherDifferent
      cases nowWaiters with
      | true => exact before.setWaiters
      | false =>
        have unset : waiters = false := by
          cases waiters with
          | true => exact (grown rfl).symm
          | false => rfl
        rw [← unset]
        exact before

/-- What a waiting call can do while the gate is owned. -/
theorem Phase.advance_waiting
    (word : state.once = gateWord (callers.tid owner) waiters)
    (different : call ≠ owner)
    (acts :
      Once.advance (callers.tid call) state.once choice (state.stage call) =
        some outcome) :
    Phase callers (state.apply call outcome) := by
  have valid := (callers.valid owner).2
  have callWaiting := waiting call different
  have moves
      (next : Stage)
      (moved : next.Waiting (callers.tid owner) (callers.tid call) waiters) :
      Phase callers
        (state.apply call
          ⟨gateWord (callers.tid owner) waiters, next, .quiet⟩) :=
    owned_move owning waiting different rfl id rfl rfl rfl moved
  rw [word] at acts
  generalize state.stage call = stage at acts callWaiting
  cases stage with
  | idle | returned =>
    cases acts
  | loading =>
    rw [Once.advance,
      if_neg (gateWord_ne_onceDone valid waiters)] at acts
    cases acts
    exact moves _ trivial
  | entering =>
    rw [Once.advance,
      if_neg (gateWord_ne_onceUnlocked (callers.valid owner) waiters)] at acts
    cases acts
    exact moves _ trivial
  | waitLoading =>
    cases acts
    exact moves _ (waiting_waitAttempt valid _ waiters)
  | waitSwapping old =>
    rw [Once.advance] at acts
    split at acts
    · cases acts
      rw [callWaiting, gateWord_or_waitersBit]
      exact owned_move owning waiting different rfl (fun _ => rfl) rfl rfl
        rfl ⟨rfl, ⟨false, rfl⟩, rfl⟩
    · cases acts
      exact moves _ (waiting_waitAttempt valid _ waiters)
  | waitChecking old new =>
    rw [Once.advance] at acts
    obtain ⟨set, ⟨earlier, read⟩, swapped⟩ := callWaiting
    split at acts
    · cases acts
      exact owned_move owning waiting different rfl id rfl rfl rfl
        ⟨set, ⟨earlier, read⟩, swapped⟩
    · next unlocked =>
        cases acts
        refine moves _ ⟨set, swapped, ?_⟩
        intro recursive
        rw [read] at unlocked
        exact unlocked ((lockIsLockedBy_gateWord_iff valid
          (callers.valid call).2 earlier).mpr recursive)
  | parking new =>
    rw [Once.advance] at acts
    split at acts
    · cases acts
      exact moves _ ⟨callWaiting.1, callWaiting.2.2⟩
    · cases acts
      exact moves _ trivial
  | asleep =>
    cases choice with
    | proceed => cases acts
    | spurious =>
      cases acts
      exact moves _ trivial
  | _ => exact callWaiting.elim

omit owning waiting in
/-- A waiting call of another thread goes on after the initializer has
returned. -/
theorem Stage.Waiting.late
    {ownerTid : UInt32}
    (valid : ownerTid.toNat < 2 ^ 30)
    (waiting : stage.Waiting ownerTid self waiters)
    (otherThread : stage.Active → ownerTid ≠ self) :
    stage.Late self := by
  cases stage with
  | waitSwapping _ =>
    exact ⟨ownerTid, valid, otherThread ⟨by rintro ⟨⟩, by rintro ⟨⟩⟩,
      waiting⟩
  | waitChecking _ _ =>
    exact ⟨ownerTid, valid, otherThread ⟨by rintro ⟨⟩, by rintro ⟨⟩⟩,
      waiting.2⟩
  | parking new => exact ⟨ownerTid, valid, waiting.2.1⟩
  | idle | loading | entering | waitLoading | asleep => trivial
  | _ => exact waiting.elim

/--
What the owner can do.  When it swaps the word for done, a sleeper has left the
waiters bit in the word, so that the owner goes on to wake it up.
-/
theorem Phase.advance_owner
    (nested : Nested callers state)
    (word : state.once = gateWord (callers.tid owner) waiters)
    (acts :
      Once.advance (callers.tid owner) state.once choice (state.stage owner) =
        some outcome) :
    Phase callers (state.apply owner outcome) := by
  have valid := (callers.valid owner).2
  have goesOn
      {next : Stage}
      {after : State Call}
      (word : after.once = gateWord (callers.tid owner) waiters)
      (stages : after.stage = Function.update state.stage owner next)
      (owning : next.Owning after.invocations after.completions) :
      Phase callers after := by
    refine .owned owner waiters word ?_ ?_
    · rwa [stages, Function.update_self]
    · intro other different
      rw [stages, Function.update_of_ne different]
      exact waiting other different
  cases stage : state.stage owner with
  | invoking =>
    rw [stage] at acts owning
    cases acts
    exact goesOn word rfl ⟨congrArg (· + 1) owning.1, owning.2⟩
  | initializing =>
    rw [stage] at acts owning
    cases acts
    exact goesOn word rfl ⟨owning.1, congrArg (· + 1) owning.2⟩
  | finishing =>
    have othersLate :
        ∀ other, other ≠ owner →
          (state.stage other).Late (callers.tid other) := by
      intro other different
      refine (waiting other different).late valid ?_
      intro active sameThread
      have oneInitializes :=
        nested other owner different sameThread.symm active
          (by rw [stage]; decide)
      rw [stage] at oneInitializes
      have otherWaiting := waiting other different
      rcases oneInitializes with initializing | finishing
      · rw [initializing] at otherWaiting
        exact otherWaiting
      · cases finishing
    rw [stage] at acts owning
    rw [word, Once.advance] at acts
    split at acts
    · next unseen =>
        cases acts
        have unset := (toUInt32_gateWord_eq_iff valid waiters).mp unseen
        refine .done rfl owning.1 owning.2 ?_ ?_
        · exact forall_update othersLate trivial
        · intro sleeper asleep
          by_cases same : sleeper = owner
          · simp [State.apply, State.move, same] at asleep
          · simp only [State.apply, State.move,
              Function.update_of_ne same] at asleep
            have sleeping := waiting sleeper same
            rw [asleep, unset] at sleeping
            cases sleeping.1
    · cases acts
      refine .done rfl owning.1 owning.2 ?_ ?_
      · exact forall_update othersLate ⟨waiters, rfl⟩
      · intro _ _
        refine ⟨owner, ?_⟩
        simp only [State.apply, State.move, Function.update_self]
        trivial
  | _ =>
    rw [stage] at owning
    exact owning.elim

end Owned

theorem Stage.Late.woken
    (late : stage.Late self) :
    stage.woken.Late self := by
  cases stage <;> exact late

theorem Stage.woken_ne_asleep
    (stage : Stage) :
    stage.woken ≠ .asleep := by
  cases stage <;> rintro ⟨⟩

section Done

variable
  {callers : Callers Call}
  {state : State Call}
  {call : Call}
  {choice : Choice}
  {outcome : Outcome}
  (invocations : state.invocations = 1)
  (completions : state.completions = 1)
  (late : ∀ call, (state.stage call).Late (callers.tid call))
  (broadcaster :
    ∀ call, state.stage call = .asleep →
      ∃ other, (state.stage other).Broadcasting)

include invocations completions late broadcaster

/-- A call that does not broadcast moves on after the initialisation. -/
theorem Phase.done_move
    (quiet : ¬ (state.stage call).Broadcasting)
    (word : after.once = onceDone)
    (stages : after.stage = Function.update state.stage call stage)
    (sameInvocations : after.invocations = state.invocations)
    (sameCompletions : after.completions = state.completions)
    (moved : stage.Late (callers.tid call))
    (awake : stage ≠ .asleep) :
    Phase callers after := by
  refine .done word (sameInvocations.trans invocations)
    (sameCompletions.trans completions) ?_ ?_
  · rw [stages]
    exact forall_update (fun other _ => late other) moved
  · rw [stages]
    intro sleeper asleep
    by_cases same : sleeper = call
    · rw [same, Function.update_self] at asleep
      exact absurd asleep awake
    · rw [Function.update_of_ne same] at asleep
      obtain ⟨waker, broadcasting⟩ := broadcaster sleeper asleep
      refine ⟨waker, ?_⟩
      have wakerDifferent : waker ≠ call := by
        intro sameCall
        rw [sameCall] at broadcasting
        exact quiet broadcasting
      rw [Function.update_of_ne wakerDifferent]
      exact broadcasting

/-- What a call can do after the initialisation; the broadcast leaves no
sleeper. -/
theorem Phase.advance_done
    (word : state.once = onceDone)
    (acts :
      Once.advance (callers.tid call) state.once choice (state.stage call) =
        some outcome) :
    Phase callers (state.apply call outcome) := by
  have callLate := late call
  rw [word] at acts
  have moves
      (next : Stage)
      (quiet : ¬ (state.stage call).Broadcasting)
      (moved : next.Late (callers.tid call))
      (awake : next ≠ .asleep) :
      Phase callers (state.apply call ⟨onceDone, next, .quiet⟩) :=
    done_move invocations completions late broadcaster quiet rfl rfl rfl rfl
      moved awake
  generalize state.stage call = place at acts callLate moves
  cases place with
  | idle | returned =>
    cases acts
  | loading | entering | waitLoading =>
    cases acts
    exact moves _ id trivial (by rintro ⟨⟩)
  | waitSwapping old =>
    obtain ⟨owner, valid, _, read⟩ := callLate
    have changed : ¬ (choice = .proceed ∧ onceDone = old) := by
      intro unchanged
      rw [read] at unchanged
      exact gateWord_ne_onceDone valid false unchanged.2.symm
    rw [Once.advance, if_neg changed] at acts
    cases acts
    exact moves _ id trivial (by rintro ⟨⟩)
  | waitChecking old new =>
    obtain ⟨owner, valid, otherThread, ⟨earlier, read⟩, swapped⟩ := callLate
    have unlocked :
        ¬ lockIsLockedBy old.toUInt32 (callers.tid call) = true := by
      rw [read, lockIsLockedBy_gateWord_iff valid (callers.valid call).2]
      exact otherThread
    rw [Once.advance, if_neg unlocked] at acts
    cases acts
    exact moves _ id ⟨owner, valid, swapped⟩ (by rintro ⟨⟩)
  | parking new =>
    obtain ⟨owner, valid, swapped⟩ := callLate
    have changed : ¬ onceDone.toUInt32 = new.toUInt32 := by
      rw [swapped]
      exact toUInt32_onceDone_ne valid true
    rw [Once.advance, if_neg changed] at acts
    cases acts
    exact moves _ id trivial (by rintro ⟨⟩)
  | asleep =>
    cases choice with
    | proceed => cases acts
    | spurious =>
      cases acts
      exact moves _ id trivial (by rintro ⟨⟩)
  | broadcasting old =>
    obtain ⟨waiters, swapped⟩ := callLate
    have valid := (callers.valid call).2
    have locked : lockIsLockedBy old.toUInt32 (callers.tid call) = true := by
      rw [swapped, lockIsLockedBy_gateWord_iff valid valid]
    rw [Once.advance, if_pos locked] at acts
    cases acts
    refine .done rfl invocations completions ?_ ?_
    · intro other
      exact (forall_update (fun other _ => late other)
        (show Stage.returned.Late (callers.tid call) from trivial)
        other).woken
    · intro sleeper asleep
      exact absurd asleep (Stage.woken_ne_asleep _)
  | _ => exact callLate.elim

end Done

variable {callers : Callers Call}

/-- One step of any call keeps the phases. -/
theorem Phase.step
    {state : State Call}
    (phase : Phase callers state)
    (nested : Nested callers state)
    (step : Step callers state after) :
    Phase callers after := by
  cases step with
  | @call call entry running fresh free entry_eq =>
    have entered :
        ∀ {Holds : Stage → Prop}, Holds .loading → Holds .entering →
          Holds entry := by
      intro Holds loading entering
      rcases entry_eq with rfl | rfl
      · exact loading
      · exact entering
    cases phase with
    | unlocked word invocations completions early =>
      refine .unlocked word invocations completions ?_
      exact forall_update (fun other _ => early other)
        (entered trivial trivial)
    | owned owner waiters word owning waiting =>
      have different : call ≠ owner := by
        rintro rfl
        rw [fresh] at owning
        exact owning
      exact owned_move owning waiting different word id rfl rfl rfl
        (entered trivial trivial)
    | done word invocations completions late broadcaster =>
      have quiet : ¬ (state.stage call).Broadcasting := by
        rw [fresh]
        exact id
      have awake : entry ≠ .asleep := by
        rcases entry_eq with rfl | rfl <;> rintro ⟨⟩
      exact done_move invocations completions late broadcaster quiet
        word rfl rfl rfl (entered trivial trivial) awake
  | @advance call choice outcome running unnested acts =>
    cases phase with
    | unlocked word invocations completions early =>
      exact advance_unlocked word invocations completions early acts
    | owned owner waiters word owning waiting =>
      by_cases owns : call = owner
      · subst owns
        exact advance_owner owning waiting nested word acts
      · exact advance_waiting owning waiting word owns acts
    | done word invocations completions late broadcaster =>
      exact advance_done invocations completions late broadcaster word acts

/-! ## Calls of one thread -/

/-- Only a call in progress takes a step. -/
theorem active_of_advance
    {once : UInt64}
    {choice : Choice}
    {outcome : Outcome}
    (acts : advance self once choice stage = some outcome) :
    stage.Active := by
  constructor
  · rintro rfl
    cases acts
  · rintro rfl
    cases acts

variable {other : Call}

variable (state : State Call)

/-- The stage of a call after a step of any. -/
theorem apply_stage
    (call : Call)
    (outcome : Outcome)
    (other : Call) :
    (state.apply call outcome).stage other =
        Function.update state.stage call outcome.stage other ∨
      (state.apply call outcome).stage other =
        (Function.update state.stage call outcome.stage other).woken := by
  rcases outcome with ⟨once, stage, effect⟩
  cases effect with
  | wakeAll => exact .inr rfl
  | quiet | invoke | complete | crash => exact .inl rfl

/-- The stage of a call after a step of another one. -/
theorem apply_stage_of_ne
    {call : Call}
    (different : other ≠ call)
    (outcome : Outcome) :
    (state.apply call outcome).stage other = state.stage other ∨
      (state.apply call outcome).stage other = (state.stage other).woken := by
  have moved := apply_stage state call outcome other
  rwa [Function.update_of_ne different] at moved

/-- A step of another call does not end a call, or start it. -/
theorem apply_active_iff
    {call : Call}
    (different : other ≠ call)
    (outcome : Outcome) :
    ((state.apply call outcome).stage other).Active ↔
      (state.stage other).Active := by
  rcases apply_stage_of_ne state different outcome with same | woken
  · rw [same]
  · rw [woken]
    cases state.stage other <;> simp [Stage.woken, Stage.Active]

theorem apply_initializing
    {call : Call}
    (different : other ≠ call)
    (outcome : Outcome)
    (initializing : state.stage other = .initializing) :
    (state.apply call outcome).stage other = .initializing := by
  rcases apply_stage_of_ne state different outcome with same | woken
  · rw [same, initializing]
  · rw [woken, initializing]
    rfl

section

variable {state : State Call}

omit [DecidableEq Call] in
/-- A call that makes a step while another call of its thread is in progress is
nested in the other's initializer. -/
theorem initializing_of_advance
    (nested : Nested callers state)
    {call : Call}
    {choice : Choice}
    {outcome : Outcome}
    (unnested : state.stage call = .initializing → state.Alone callers call)
    (acts :
      advance (callers.tid call) state.once choice (state.stage call) =
        some outcome)
    (different : other ≠ call)
    (sameThread : callers.tid other = callers.tid call)
    (active : (state.stage other).Active) :
    state.stage other = .initializing := by
  rcases nested other call different sameThread active
    (active_of_advance acts) with initializing | callInitializing
  · exact initializing
  · exact absurd active (unnested callInitializing other different sameThread)

theorem Nested.step
    (nested : Nested callers state)
    (step : Step callers state after) :
    Nested callers after := by
  cases step with
  | @call call entry running fresh free entry_eq =>
    intro first second different sameThread firstActive secondActive
    simp only [State.move] at firstActive secondActive ⊢
    by_cases firstCall : first = call
    · subst firstCall
      rw [Function.update_of_ne different.symm] at secondActive ⊢
      exact .inr (free second sameThread.symm secondActive)
    · rw [Function.update_of_ne firstCall] at firstActive ⊢
      by_cases secondCall : second = call
      · subst secondCall
        exact .inl (free first sameThread firstActive)
      · rw [Function.update_of_ne secondCall] at secondActive ⊢
        exact nested first second different sameThread firstActive
          secondActive
  | @advance call choice outcome running unnested acts =>
    intro first second different sameThread firstActive secondActive
    by_cases firstCall : first = call
    · subst firstCall
      have before := (apply_active_iff state different.symm outcome).mp
        secondActive
      exact .inr (apply_initializing state different.symm outcome
        (initializing_of_advance nested unnested acts different.symm
          sameThread.symm before))
    · have firstBefore := (apply_active_iff state firstCall outcome).mp
        firstActive
      by_cases secondCall : second = call
      · subst secondCall
        exact .inl (apply_initializing state firstCall outcome
          (initializing_of_advance nested unnested acts firstCall
            sameThread firstBefore))
      · have secondBefore := (apply_active_iff state secondCall outcome).mp
          secondActive
        rcases nested first second different sameThread firstBefore
          secondBefore with initializing | initializing
        · exact .inl (apply_initializing state firstCall outcome
            initializing)
        · exact .inr (apply_initializing state secondCall outcome
            initializing)

/-- An initializer has called `dispatch_once_f` on its own predicate. -/
def Recursive
    (callers : Callers Call)
    (state : State Call) : Prop :=
  ∃ outer inner, inner ≠ outer ∧ callers.tid inner = callers.tid outer ∧
    state.stage outer = .initializing ∧ (state.stage inner).Active

/-- The two places where the process can crash. -/
theorem stage_of_crash
    {once : UInt64}
    {choice : Choice}
    {outcome : Outcome}
    (acts : advance self once choice stage = some outcome)
    (crash : outcome.effect = .crash) :
    outcome.stage = stage ∧
      ((∃ old, stage = .broadcasting old ∧
          ¬ lockIsLockedBy old.toUInt32 self = true) ∨
        ∃ old new, stage = .waitChecking old new ∧
          lockIsLockedBy old.toUInt32 self = true) := by
  cases stage with
  | broadcasting old =>
    simp only [advance] at acts
    split at acts
    · cases acts
      cases crash
    · next unlocked =>
        cases acts
        exact ⟨rfl, .inl ⟨old, rfl, unlocked⟩⟩
  | waitChecking old new =>
    simp only [advance] at acts
    split at acts
    · next locked =>
        cases acts
        exact ⟨rfl, .inr ⟨old, new, rfl, locked⟩⟩
    · cases acts
      cases crash
  | idle | returned => cases acts
  | invoking | initializing | waitLoading =>
    cases acts
    cases crash
  | loading | entering | finishing | waitSwapping _ | parking _ =>
    simp only [advance] at acts
    split at acts <;>
      · cases acts
        cases crash
  | asleep =>
    cases choice with
    | proceed => cases acts
    | spurious =>
      cases acts
      cases crash

omit [DecidableEq Call] in
/-- The process crashes only on a recursive call. -/
theorem Phase.recursive_of_crash
    (phase : Phase callers state)
    (nested : Nested callers state)
    {call : Call}
    {choice : Choice}
    {outcome : Outcome}
    (acts :
      Once.advance (callers.tid call) state.once choice (state.stage call) =
        some outcome)
    (crash : outcome.effect = .crash) :
    Recursive callers state := by
  have callValid := (callers.valid call).2
  have active := active_of_advance acts
  obtain ⟨_, place⟩ := stage_of_crash acts crash
  cases phase with
  | unlocked word invocations completions early =>
    have callEarly := early call
    rcases place with ⟨old, stage, _⟩ | ⟨old, new, stage, _⟩
    · rw [stage] at callEarly
      exact callEarly.elim
    · rw [stage] at callEarly
      exact callEarly.elim
  | owned owner waiters word owning waiting =>
    have ownerValid := (callers.valid owner).2
    have different : call ≠ owner := by
      rintro rfl
      rcases place with ⟨old, stage, _⟩ | ⟨old, new, stage, _⟩
      · rw [stage] at owning
        exact owning
      · rw [stage] at owning
        exact owning
    have callWaiting := waiting call different
    rcases place with ⟨old, stage, _⟩ | ⟨old, new, stage, locked⟩
    · rw [stage] at callWaiting
      exact callWaiting.elim
    · rw [stage] at callWaiting
      obtain ⟨_, ⟨earlier, read⟩, _⟩ := callWaiting
      rw [read, lockIsLockedBy_gateWord_iff ownerValid callValid] at locked
      refine ⟨owner, call, different, locked.symm, ?_, active⟩
      rcases nested call owner different locked.symm active owning.active.1
        with callInitializing | initializing
      · rw [stage] at callInitializing
        cases callInitializing
      · exact initializing
  | done word invocations completions late broadcaster =>
    have callLate := late call
    rcases place with ⟨old, stage, unlocked⟩ | ⟨old, new, stage, locked⟩
    · rw [stage] at callLate
      obtain ⟨waiters, swapped⟩ := callLate
      rw [swapped, lockIsLockedBy_gateWord_iff callValid callValid]
        at unlocked
      exact absurd rfl unlocked
    · rw [stage] at callLate
      obtain ⟨owner, valid, otherThread, ⟨earlier, read⟩, _⟩ := callLate
      rw [read, lockIsLockedBy_gateWord_iff valid callValid] at locked
      exact absurd locked otherThread

/-! ## Whole runs -/

/-- What holds in every reachable state. -/
structure Invariant
    (callers : Callers Call)
    (state : State Call) : Prop where
  phase : Phase callers state
  nested : Nested callers state
  crash : state.crashed = true → Recursive callers state

omit [DecidableEq Call] in
theorem Invariant.initial
    (initial : Initial state) :
    Invariant callers state := by
  obtain ⟨word, idle, invocations, completions, running⟩ := initial
  refine {
    phase := .unlocked word invocations completions ?early
    nested := ?nested
    crash := ?crash
  }
  case early =>
    intro call
    rw [idle call]
    trivial
  case nested =>
    intro first _ _ _ firstActive _
    exact absurd (idle first) firstActive.1
  case crash =>
    intro crashed
    rw [running] at crashed
    cases crashed

/-- A step that crashes leaves every call where it is. -/
theorem apply_of_crash
    (state : State Call)
    {call : Call}
    {outcome : Outcome}
    (crash : outcome.effect = .crash)
    (stays : outcome.stage = state.stage call) :
    (state.apply call outcome).stage = state.stage := by
  simp only [State.apply, crash, State.move, stays, Function.update_eq_self]

theorem crashed_apply
    (state : State Call)
    (call : Call)
    (outcome : Outcome)
    (running : state.crashed = false)
    (crashed : (state.apply call outcome).crashed = true) :
    outcome.effect = .crash := by
  rcases outcome with ⟨once, stage, effect⟩
  cases effect with
  | crash => rfl
  | quiet | invoke | complete | wakeAll =>
    simp only [State.apply, State.move, running, Bool.false_eq_true]
      at crashed

theorem Invariant.step
    (invariant : Invariant callers state)
    (step : Step callers state after) :
    Invariant callers after where
  phase := invariant.phase.step invariant.nested step
  nested := invariant.nested.step step
  crash := by
    intro crashed
    cases step with
    | @call call entry running fresh free entry_eq =>
      simp only [State.move, running, Bool.false_eq_true] at crashed
    | @advance call choice outcome running unnested acts =>
      have crash := crashed_apply state call outcome running crashed
      have stays := (stage_of_crash acts crash).1
      have recursive :=
        invariant.phase.recursive_of_crash invariant.nested acts crash
      simp only [Recursive, apply_of_crash state crash stays]
      exact recursive

end

end LibDispatch.Once
