import LibDispatch.GroupState
import LibDispatch.Semaphore

namespace LibDispatch.Group

/-!
# Dispatch groups

`dispatch_group_enter`, `dispatch_group_leave`, `_dispatch_group_notify`,
`_dispatch_group_wake` and `dispatch_group_wait` of `src/semaphore.c`.  Every
atomic access to `dg_state`, to the notify list and to the reference count, and
every call of the kernel, is one step.  The history of the calls is kept next
to the group, so that a statement can speak of what happened between the start
of a call and a later state.
-/

open Semaphore (Timeout)

/-- What is remembered of the state in which a call starts: how often the count
had been brought to zero, and whether it is zero. -/
structure Moment where
  zeros : Nat
  idle : Bool
  deriving Repr, DecidableEq

/-- A continuation passed to `dispatch_group_notify`, with the state in which
that call started. -/
structure Continuation where
  id : Nat
  began : Moment
  deriving Repr, DecidableEq

/-- A wait in `_dispatch_group_wait_slow`: the generation it waits on, how often
the count had been brought to zero when it read it, and its timeout. -/
structure Waiter where
  gen : UInt32
  zeros : Nat
  timeout : Timeout
  began : Moment
  deriving Repr, DecidableEq

/-- Where a call stands. -/
inductive Call where
  | enter
  /-- The count went from zero to one: the group is retained. -/
  | enterRetain
  | leave
  /-- The loop of the leave that brought the count to zero. -/
  | leaveLoop (oldState : UInt64)
  | wake (dgState : UInt64) (needsRelease : Bool)
  /-- `os_mpsc_capture_snapshot` reads the head. -/
  | captureHead (dgState : UInt64) (needsRelease : Bool)
  /-- `os_mpsc_capture_snapshot` exchanges the tail. -/
  | captureTail (dgState : UInt64) (needsRelease : Bool)
  | submit
      (dgState : UInt64)
      (needsRelease : Bool)
      (snapshot : List Continuation)
  | wakeAddress (dgState : UInt64) (refs : Nat)
  | release (refs : Nat)
  /-- `os_mpsc_push_update_tail`. -/
  | notify (continuation : Continuation)
  /-- The notify list was empty: the group is retained. -/
  | notifyRetain (continuation : Continuation)
  /-- `os_mpsc_push_update_prev`. -/
  | notifyLink (continuation : Continuation) (wasEmpty : Bool)
  | notifyMark
  | wait (timeout : Timeout) (began : Moment)
  /-- `_dispatch_wait_on_address`. -/
  | waitOnAddress (waiter : Waiter)
  /-- The thread sleeps since the given number of wake-ups. -/
  | sleeping (waiter : Waiter) (wakes : Nat)
  /-- `_dispatch_wait_on_address` has returned. -/
  | waitCheck (waiter : Waiter) (timedOut : Bool)
  deriving Repr, DecidableEq

/-- A call of one thread. -/
structure Activity where
  tid : UInt32
  call : Call
  deriving Repr, DecidableEq

/-- A continuation submitted to its queue, after the count had been brought to
zero the given number of times. -/
structure Submission where
  continuation : Continuation
  zeros : Nat
  deriving Repr, DecidableEq

/-- A wait that has returned, after the count had been brought to zero the given
number of times. -/
structure Return where
  began : Moment
  zeros : Nat
  timedOut : Bool
  deriving Repr, DecidableEq

/-- A group, the calls in progress and the history of the calls. -/
structure State where
  dgState : UInt64
  /-- The continuations pushed on `dg_notify` and not captured. -/
  notifyList : List Continuation
  /-- The continuations whose predecessor, or the head, points to them. -/
  linked : List Continuation
  /-- `do_ref_cnt`. -/
  references : Int
  /-- How often `_dispatch_wake_by_address` has been called. -/
  wakes : Nat
  activities : List Activity
  crashed : Bool
  /-- Enters and leaves that have taken effect. -/
  enters : Nat
  leaves : Nat
  /-- Leaves that have been called. -/
  leaveCalls : Nat
  /-- The threads whose leave brought the count to zero. -/
  closers : List UInt32
  /-- The continuations passed to `dispatch_group_notify`. -/
  notified : List Continuation
  submitted : List Submission
  returned : List Return

variable (state : State)

/-- The number of times the count has been brought to zero. -/
def State.zeros : Nat :=
  state.closers.length

/-- The outstanding count: enters minus leaves. -/
def State.count : Nat :=
  state.enters - state.leaves

/-- What a call that starts now remembers. -/
def State.moment : Moment :=
  ⟨state.zeros, state.count = 0⟩

/-- The count was zero when the call started or has been brought to zero
since. -/
def Moment.ZeroSince (began : Moment) (zeros : Nat) : Prop :=
  began.idle = true ∨ began.zeros < zeros

instance (began : Moment) (zeros : Nat) : Decidable (began.ZeroSince zeros) :=
  inferInstanceAs (Decidable (_ ∨ _))

/-- `_dispatch_group_create_with_count`, with the references held by others. -/
def create (others : Int) (count : UInt32) : State where
  dgState := (-count * valueInterval.toUInt32).toUInt64
  notifyList := []
  linked := []
  references := others + if count = 0 then 0 else 1
  wakes := 0
  activities := []
  crashed := false
  enters := count.toNat
  leaves := 0
  leaveCalls := 0
  closers := []
  notified := []
  submitted := []
  returned := []

/-- What the environment decides: whether the thread proceeds, or its timeout
has passed. -/
inductive Choice where
  | proceed
  | giveUp
  deriving Repr, DecidableEq

/-- `dispatch_group_enter`, up to the retain. -/
def State.enter : State × Option Call :=
  let oldValue := state.dgState &&& valueMask
  let entered :=
    { state with
      dgState := enterWord state.dgState
      enters := state.enters + 1 }
  if oldValue = 0 then
    (entered, some .enterRetain)
  else if oldValue = valueMax then
    ({ entered with crashed := true }, none)
  else
    (entered, none)

/-- The atomic addition of `dispatch_group_leave`. -/
def State.leave (tid : UInt32) : State × Option Call :=
  let oldValue := state.dgState &&& valueMask
  let left :=
    { state with
      dgState := leaveWord state.dgState
      leaves := state.leaves + 1 }
  if oldValue = value1 then
    ({ left with closers := state.closers ++ [tid] },
      some (.leaveLoop (leaveWord state.dgState)))
  else if oldValue = 0 then
    ({ left with crashed := true }, none)
  else
    (left, none)

/-- One round of the loop of `dispatch_group_leave`. -/
def State.leaveLoop (oldState : UInt64) : State × Option Call :=
  let newState := clearWord oldState
  if oldState = newState then
    (state, some (.wake oldState true))
  else if state.dgState = oldState then
    ({ state with dgState := newState }, some (.wake oldState true))
  else
    (state, some (.leaveLoop state.dgState))

/-- `_dispatch_group_wake`, up to the first access to the notify list. -/
def State.wake
    (dgState : UInt64)
    (needsRelease : Bool) : State × Option Call :=
  if dgState &&& hasNotifs ≠ 0 then
    (state, some (.captureHead dgState needsRelease))
  else
    (state, some (.wakeAddress dgState needsRelease.toNat))

/-- `os_mpsc_capture_snapshot` waits for a head and clears it. -/
def State.captureHead
    (dgState : UInt64)
    (needsRelease : Bool) : Option (State × Option Call) :=
  match state.notifyList with
  | [] => none
  | first :: _ =>
    if first ∈ state.linked then
      some (state, some (.captureTail dgState needsRelease))
    else
      none

/-- `os_mpsc_capture_snapshot` exchanges the tail with NULL. -/
def State.captureTail
    (dgState : UInt64)
    (needsRelease : Bool) : State × Option Call :=
  ({ state with notifyList := [] },
    some (.submit dgState needsRelease state.notifyList))

/-- `os_mpsc_pop_snapshot_head` waits for the successor, then the continuation is
submitted. -/
def State.submit
    (dgState : UInt64)
    (needsRelease : Bool) :
    List Continuation → Option (State × Option Call)
  | [] => none
  | [continuation] =>
    some ({ state with
      submitted := state.submitted ++ [⟨continuation, state.zeros⟩] },
      some (.wakeAddress dgState (needsRelease.toNat + 1)))
  | continuation :: next :: rest =>
    if next ∈ state.linked then
      some ({ state with
        submitted := state.submitted ++ [⟨continuation, state.zeros⟩] },
        some (.submit dgState needsRelease (next :: rest)))
    else
      none

/-- The sleeping threads are woken. -/
def State.wakeAddress
    (dgState : UInt64)
    (refs : Nat) : State × Option Call :=
  if dgState &&& hasWaiters ≠ 0 then
    ({ state with wakes := state.wakes + 1 }, some (.release refs))
  else
    (state, some (.release refs))

/-- `os_mpsc_push_update_tail`. -/
def State.notify (continuation : Continuation) : State × Option Call :=
  ({ state with notifyList := state.notifyList ++ [continuation] },
    some (if state.notifyList = [] then
      .notifyRetain continuation
    else
      .notifyLink continuation false))

/-- The loop of `_dispatch_group_notify` that sets `HAS_NOTIFS`, or finds the
group idle. -/
def State.notifyMark : State × Option Call :=
  let newState := state.dgState ||| hasNotifs
  if state.dgState.toUInt32 = 0 then
    (state, some (.wake newState false))
  else
    ({ state with dgState := newState }, none)

/-- A wait returns. -/
def State.return
    (began : Moment)
    (timedOut : Bool) : State :=
  { state with
    returned := state.returned ++ [⟨began, state.zeros, timedOut⟩] }

/-- `dispatch_group_wait`, up to `_dispatch_group_wait_slow`. -/
def State.wait
    (timeout : Timeout)
    (began : Moment) : State × Option Call :=
  if state.dgState &&& valueMask = 0 then
    (state.return began false, none)
  else if timeout = .now then
    (state.return began true, none)
  else
    let newState := state.dgState ||| hasWaiters
    ({ state with dgState := newState },
      some (.waitOnAddress
        ⟨stateGen newState, state.zeros, timeout, began⟩))

/-- `_dispatch_wait_on_address`: the thread sleeps if the generation is still the
one it waits on. -/
def State.waitOnAddress
    (waiter : Waiter) : Choice → Option (State × Option Call)
  | .proceed =>
    if stateGen state.dgState = waiter.gen then
      some (state, some (.sleeping waiter state.wakes))
    else
      some (state, some (.waitCheck waiter false))
  | .giveUp =>
    if waiter.timeout = .forever then
      none
    else
      some (state, some (.waitCheck waiter true))

/-- A sleeping thread wakes up, for a call of `_dispatch_wake_by_address` or
without one, or its timeout passes. -/
def State.sleeping (waiter : Waiter) : Choice → Option (State × Option Call)
  | .proceed => some (state, some (.waitCheck waiter false))
  | .giveUp =>
    if waiter.timeout = .forever then
      none
    else
      some (state, some (.waitCheck waiter true))

/-- The rest of one round of `_dispatch_group_wait_slow`. -/
def State.waitCheck
    (waiter : Waiter)
    (timedOut : Bool) : State × Option Call :=
  if waiter.gen ≠ stateGen state.dgState then
    (state.return waiter.began false, none)
  else if timedOut then
    (state.return waiter.began true, none)
  else
    (state, some (.waitOnAddress waiter))

/-- One step of a call; none while it waits for another thread. -/
def State.advance
    (tid : UInt32)
    (choice : Choice) : Call → Option (State × Option Call)
  | .enter => some state.enter
  | .enterRetain =>
    some ({ state with references := state.references + 1 }, none)
  | .leave => some (state.leave tid)
  | .leaveLoop oldState => some (state.leaveLoop oldState)
  | .wake dgState needsRelease => some (state.wake dgState needsRelease)
  | .captureHead dgState needsRelease =>
    state.captureHead dgState needsRelease
  | .captureTail dgState needsRelease =>
    some (state.captureTail dgState needsRelease)
  | .submit dgState needsRelease snapshot =>
    state.submit dgState needsRelease snapshot
  | .wakeAddress dgState refs => some (state.wakeAddress dgState refs)
  | .release refs =>
    some ({ state with references := state.references - refs }, none)
  | .notify continuation => some (state.notify continuation)
  | .notifyRetain continuation =>
    some ({ state with references := state.references + 1 },
      some (.notifyLink continuation true))
  | .notifyLink continuation wasEmpty =>
    some ({ state with linked := continuation :: state.linked },
      if wasEmpty then some .notifyMark else none)
  | .notifyMark => some state.notifyMark
  | .wait timeout began => some (state.wait timeout began)
  | .waitOnAddress waiter => state.waitOnAddress waiter choice
  | .sleeping waiter _ => state.sleeping waiter choice
  | .waitCheck waiter timedOut => some (state.waitCheck waiter timedOut)

/-- The calls a client makes. -/
inductive Request where
  | enter
  | leave
  | notify (id : Nat)
  | wait (timeout : Timeout)
  deriving Repr, DecidableEq

/-- A call starts.  Leaves are balanced: each has an enter before it.  Every call
of notify has a continuation of its own. -/
def State.request (state : State) : Request → Option (State × Call)
  | .enter => some (state, .enter)
  | .leave =>
    if state.leaveCalls < state.enters then
      some ({ state with leaveCalls := state.leaveCalls + 1 }, .leave)
    else
      none
  | .notify id =>
    if id ∈ state.notified.map Continuation.id then
      none
    else
      some ({ state with
        notified := state.notified ++ [⟨id, state.moment⟩] },
        .notify ⟨id, state.moment⟩)
  | .wait timeout => some (state, .wait timeout state.moment)

/-- A thread begins a call, or the call of a thread takes a step. -/
inductive Step : State → State → Prop where
  | begin
      {state after : State}
      (tid : UInt32)
      (request : Request)
      (call : Call)
      (running : state.crashed = false)
      (outside : ∀ activity ∈ state.activities, activity.tid ≠ tid)
      (accepted : state.request request = some (after, call)) :
      Step state
        { after with activities := ⟨tid, call⟩ :: state.activities }
  | advance
      {state after : State}
      (earlier later : List Activity)
      (activity : Activity)
      (choice : Choice)
      (continued : Option Call)
      (running : state.crashed = false)
      (scheduled : state.activities = earlier ++ activity :: later)
      (accepted : state.advance activity.tid choice activity.call =
        some (after, continued)) :
      Step state
        { after with
          activities := earlier ++
            ((continued.map (Activity.mk activity.tid)).toList ++ later) }

/-- The process has not crashed before a step. -/
theorem Step.running
    {state after : State}
    (stepped : Step state after) :
    state.crashed = false := by
  cases stepped with
  | «begin» _ _ _ running => exact running
  | advance _ _ _ _ _ running => exact running

/-- A call that starts counts the leaves called and may pass a new continuation
to notify. -/
theorem State.request_cases
    {state after : State}
    {request : Request}
    {call : Call}
    (accepted : state.request request = some (after, call)) :
    ∃ leaveCalls notified,
      after =
          { state with leaveCalls := leaveCalls, notified := notified } ∧
        (call = .enter ∨ call = .leave ∨
          (∃ continuation, call = .notify continuation) ∨
          ∃ timeout, call = .wait timeout state.moment) ∧
        (notified = state.notified ∨
          ∃ id, id ∉ state.notified.map Continuation.id ∧
            notified = state.notified ++ [⟨id, state.moment⟩]) := by
  cases request with
  | enter =>
    cases accepted
    exact ⟨_, _, rfl, .inl rfl, .inl rfl⟩
  | leave =>
    simp only [State.request, Option.ite_none_right_eq_some,
      Option.some.injEq] at accepted
    obtain ⟨-, accepted⟩ := accepted
    cases accepted
    exact ⟨_, _, rfl, .inr (.inl rfl), .inl rfl⟩
  | notify id =>
    simp only [State.request, Option.ite_none_left_eq_some,
      Option.some.injEq] at accepted
    obtain ⟨fresh, accepted⟩ := accepted
    cases accepted
    exact ⟨_, _, rfl, .inr (.inr (.inl ⟨_, rfl⟩)), .inr ⟨id, fresh, rfl⟩⟩
  | wait timeout =>
    cases accepted
    exact ⟨_, _, rfl, .inr (.inr (.inr ⟨timeout, rfl⟩)), .inl rfl⟩

/-! ## The steps of a wait -/

section Waiting

variable {state after : State} {continued : Option Call} {waiter : Waiter}

/-- A thread that is to sleep sleeps, or goes on to the check. -/
theorem State.waitOnAddress_cases
    {choice : Choice}
    (accepted :
      state.waitOnAddress waiter choice = some (after, continued)) :
    after = state ∧
      (stateGen state.dgState = waiter.gen ∧
          continued = some (.sleeping waiter state.wakes) ∨
        ∃ timedOut, continued = some (.waitCheck waiter timedOut)) := by
  cases choice with
  | proceed =>
    simp only [State.waitOnAddress] at accepted
    split at accepted
    · rename_i same
      cases accepted
      exact ⟨rfl, .inl ⟨same, rfl⟩⟩
    · cases accepted
      exact ⟨rfl, .inr ⟨false, rfl⟩⟩
  | giveUp =>
    simp only [State.waitOnAddress, Option.ite_none_left_eq_some,
      Option.some.injEq] at accepted
    obtain ⟨-, accepted⟩ := accepted
    cases accepted
    exact ⟨rfl, .inr ⟨true, rfl⟩⟩

/-- A sleeping thread goes on to the check. -/
theorem State.sleeping_cases
    {choice : Choice}
    (accepted : state.sleeping waiter choice = some (after, continued)) :
    after = state ∧
      ∃ timedOut, continued = some (.waitCheck waiter timedOut) := by
  cases choice with
  | proceed =>
    cases accepted
    exact ⟨rfl, false, rfl⟩
  | giveUp =>
    simp only [State.sleeping, Option.ite_none_left_eq_some,
      Option.some.injEq] at accepted
    obtain ⟨-, accepted⟩ := accepted
    cases accepted
    exact ⟨rfl, true, rfl⟩

/-- A wait returns 0 only for a generation that has changed. -/
theorem State.waitCheck_cases
    {timedOut : Bool}
    (finished : state.waitCheck waiter timedOut = (after, continued)) :
    (∃ result,
        after = state.return waiter.began result ∧ continued = none ∧
          (result = false → waiter.gen ≠ stateGen state.dgState)) ∨
      after = state ∧ continued = some (.waitOnAddress waiter) := by
  unfold State.waitCheck at finished
  split at finished
  · rename_i changed
    cases finished
    exact .inl ⟨false, rfl, rfl, fun _ => changed⟩
  · split at finished
    · cases finished
      exact .inl ⟨true, rfl, rfl, nofun⟩
    · cases finished
      exact .inr ⟨rfl, rfl⟩

/-- A wait returns 0 at once only for an idle group, and sets the flag only for
a group that is not idle. -/
theorem State.wait_cases
    {timeout : Timeout}
    {began : Moment}
    (finished : state.wait timeout began = (after, continued)) :
    (∃ result,
        after = state.return began result ∧ continued = none ∧
          (result = false → (bits state.dgState).count = 0)) ∨
      (bits state.dgState).count ≠ 0 ∧
        after = { state with dgState := state.dgState ||| hasWaiters } ∧
        continued = some (.waitOnAddress
          ⟨stateGen (state.dgState ||| hasWaiters), state.zeros, timeout,
            began⟩) := by
  unfold State.wait at finished
  by_cases isZero : (bits state.dgState).count = 0
  · simp only [if_pos ((value_eq_zero_iff _).mpr isZero)] at finished
    cases finished
    exact .inl ⟨false, rfl, rfl, fun _ => isZero⟩
  · have notZero : ¬ state.dgState &&& valueMask = 0 :=
      isZero ∘ (value_eq_zero_iff _).mp
    simp only [if_neg notZero] at finished
    split at finished
    · cases finished
      exact .inl ⟨true, rfl, rfl, nofun⟩
    · cases finished
      exact .inr ⟨isZero, rfl, rfl⟩

end Waiting

section Draining

variable {state after : State} {continued : Option Call}
  {dgState : UInt64} {needsRelease : Bool}

/-- The head is captured of a list that has one. -/
theorem State.captureHead_cases
    (accepted :
      state.captureHead dgState needsRelease = some (after, continued)) :
    after = state ∧
      continued = some (.captureTail dgState needsRelease) := by
  unfold State.captureHead at accepted
  split at accepted
  · cases accepted
  · simp only [Option.ite_none_right_eq_some, Option.some.injEq] at accepted
    obtain ⟨-, accepted⟩ := accepted
    cases accepted
    exact ⟨rfl, rfl⟩

/-- The first continuation of a snapshot is submitted; the last one is followed
by the wake-up. -/
theorem State.submit_cases
    {snapshot : List Continuation}
    (accepted : state.submit dgState needsRelease snapshot =
      some (after, continued)) :
    ∃ continuation rest,
      snapshot = continuation :: rest ∧
        after = { state with
          submitted := state.submitted ++ [⟨continuation, state.zeros⟩] } ∧
        (rest = [] ∧ continued =
            some (.wakeAddress dgState (needsRelease.toNat + 1)) ∨
          continued = some (.submit dgState needsRelease rest)) := by
  match snapshot with
  | [] =>
    cases accepted
  | [continuation] =>
    cases accepted
    exact ⟨_, _, rfl, rfl, .inl ⟨rfl, rfl⟩⟩
  | continuation :: next :: rest =>
    simp only [State.submit, Option.ite_none_right_eq_some,
      Option.some.injEq] at accepted
    obtain ⟨-, accepted⟩ := accepted
    cases accepted
    exact ⟨_, _, rfl, rfl, .inr rfl⟩

end Draining

/-- The states in which a group is created, by `dispatch_group_create` or
`_dispatch_group_create_and_enter`, with the given references of others. -/
def Created (others : Int) (state : State) : Prop :=
  state = create others 0 ∨ state = create others 1

/-! ## Schedules -/

/-- What a scheduler does next: it starts a call on a thread, or lets the call
of a thread take a step. -/
inductive Event where
  | begins (tid : UInt32) (request : Request)
  | runs (tid : UInt32) (choice : Choice)

/-- A thread makes a call and takes some steps of it. -/
def makes (tid : UInt32) (request : Request) (steps : Nat) : List Event :=
  .begins tid request :: List.replicate steps (.runs tid .proceed)

/-- The state after an event, if it can happen. -/
def State.next (state : State) : Event → Option State
  | .begins tid request =>
    if state.crashed = false ∧
        ∀ activity ∈ state.activities, activity.tid ≠ tid then
      (state.request request).map fun accepted =>
        { accepted.1 with
          activities := ⟨tid, accepted.2⟩ :: state.activities }
    else
      none
  | .runs tid choice =>
    match state.crashed, state.activities.dropWhile (·.tid ≠ tid) with
    | false, activity :: later =>
      (state.advance activity.tid choice activity.call).map fun accepted =>
        { accepted.1 with
          activities := state.activities.takeWhile (·.tid ≠ tid) ++
            ((accepted.2.map (Activity.mk activity.tid)).toList ++ later) }
    | _, _ => none

theorem State.next_steps
    {state after : State}
    {event : Event}
    (happens : state.next event = some after) :
    Step state after := by
  cases event with
  | begins tid request =>
    simp only [State.next] at happens
    split_ifs at happens with legal
    obtain ⟨accepted, called, rfl⟩ := Option.map_eq_some_iff.mp happens
    exact .begin tid request accepted.2 legal.1 legal.2 called
  | runs tid choice =>
    simp only [State.next] at happens
    split at happens
    · rename_i activity later running scheduled
      obtain ⟨accepted, advanced, rfl⟩ := Option.map_eq_some_iff.mp happens
      refine .advance _ later activity choice accepted.2 running ?_ advanced
      rw [← scheduled, List.takeWhile_append_dropWhile]
    · cases happens

/-- A schedule of a group that is created with one enter. -/
theorem State.reachable_of_schedule
    {step : State → State → Prop}
    {next : State → Event → Option State}
    {state : State}
    {events : List Event}
    (runs : afterEvents next (create 1 1) events = some state)
    (steps : ∀ state event after,
      next state event = some after → step state after) :
    Reachable (Created 1) step state := by
  have start : Reachable (Created 1) step (create 1 1) := .start (.inr rfl)
  refine Reachable.afterEvents ?_ start runs
  intro state event after
  exact steps state event after

end LibDispatch.Group
