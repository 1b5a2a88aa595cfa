import LibDispatch.ActivitySum
import LibDispatch.QueueState
import LibDispatch.Reachability

namespace LibDispatch.Suspension

open QueueState

/-!
# Suspending, resuming and activating an object

`_dispatch_lane_suspend`, `_dispatch_lane_resume` and their slow paths of
`src/queue.c`.  Every compare-and-swap loop on `dq_state` is one step, as is
every access to the side count and to the side lock.
-/

/-- What is fixed when an object is created. -/
structure Config where
  isSource : Bool
  width : UInt16
  widthInRange : width.toNat < 0x1000
  createdInactive : Bool
  /-- The role bits of the initial state. -/
  role : UInt64
  /-- References that have nothing to do with suspension. -/
  otherReferences : Int

/-! ## Updates of the state word -/

/-- The update of `_dispatch_lane_suspend`; without one the slow path is
taken. -/
def suspendUpdate (oldState : UInt64) : Option UInt64 :=
  addOverflow oldState suspendInterval

/-- What `_dispatch_lane_suspend_slow` takes out of the state word. -/
def suspendSlowDelta (sideSuspendCnt : UInt32) : UInt64 :=
  let delta := suspendHalf.toUInt64 * suspendInterval
  let delta := delta - suspendInterval
  if sideSuspendCnt = 0 then delta - hasSideSuspendCntBit else delta

/-- What `_dispatch_lane_resume_slow` puts back into the state word, unless
there is nothing on the side. -/
def resumeSlowDelta (sideSuspendCnt : UInt32) : Option UInt64 :=
  let delta := suspendHalf.toUInt64 * suspendInterval
  let delta := delta - suspendInterval
  if sideSuspendCnt = 0 then none
  else if sideSuspendCnt = suspendHalf then some (delta - hasSideSuspendCntBit)
  else some delta

/-- The update of `_dispatch_lane_resume` for an activation; an active object
is left alone. -/
def activateUpdate (oldState : UInt64) : Option UInt64 :=
  if oldState &&& suspendBitsMask = needsActivationBit + inactiveBit then
    some (oldState - inactiveBit - needsActivationBit + suspendInterval)
  else if isInactive oldState then
    some (oldState - inactiveBit)
  else
    none

/-- What the compare-and-swap loop of a resume comes to. -/
inductive ResumeUpdate where
  | store (newState : UInt64)
  | slow
  | overResume
  deriving Repr, DecidableEq

variable (config : Config)

/-- What a resume stores once it has taken a suspend count away. -/
def resumeFinish
    (tid : UInt32)
    (newState : UInt64) : UInt64 :=
  if !isRunnable newState then
    newState ||| dirty
  else if drainLocked newState then
    newState ||| dirty
  else if !config.isSource && (hasPendingBarrier newState ||
      newState + pendingBarrierWidth config.width < widthFullBit) then
    (newState &&& drainPreservedBitsMask) |||
      (lockValueFromTid tid ||| widthFullBit ||| inBarrier)
  else
    (newState &&& ~~~drainUnlockMask) &&& ~~~maxQosMask

/-- The update of `_dispatch_lane_resume` for a resume. -/
def resumeUpdate
    (tid : UInt32)
    (oldState : UInt64) : ResumeUpdate :=
  if oldState &&& suspendBitsMask = suspendInterval + needsActivationBit then
    .store (oldState - needsActivationBit)
  else if config.isSource &&
      oldState &&& suspendBitsMask == needsActivationBit + inactiveBit then
    .store (oldState - inactiveBit - needsActivationBit + suspendInterval)
  else
    match subOverflow oldState suspendInterval with
    | none =>
      if hasSideSuspendCnt oldState then .slow else .overResume
    | some newState => .store (resumeFinish config tid newState)

/-! ## Calls -/

/-- Where a call stands.  A resume made on behalf of the activation finalizer
is marked as such. -/
inductive Call where
  | suspend
  | suspendRetain
  | suspendSlowLock
  | suspendSlowReadSide
  | suspendSlowTransfer (delta : UInt64)
  | suspendSlowCount
  | suspendSlowUnlock (retry : Bool)
  | resume (finalizing : Bool)
  | resumeSlowLock (finalizing : Bool)
  | resumeSlowReadSide (finalizing : Bool)
  | resumeSlowTransfer (finalizing : Bool) (delta : UInt64)
  | resumeSlowCount
  | resumeSlowRetry (finalizing : Bool)
  | resumeSlowUnlock
  | activate
  | resumeActivate
  | finalizer
  | release2
  | wakeup (barrierComplete : Bool)
  deriving Repr, DecidableEq

/-- What a caller asks for. -/
inductive Request where
  | suspend
  | resume
  | activate
  deriving Repr, DecidableEq

/-- What a call has been asked for and has not done yet. -/
def Call.pending : Call → Option Request
  | suspend | suspendSlowLock | suspendSlowReadSide => some .suspend
  | suspendSlowTransfer _ | suspendSlowUnlock true => some .suspend
  | resume false | resumeSlowLock false => some .resume
  | resumeSlowReadSide false | resumeSlowTransfer false _ => some .resume
  | resumeSlowRetry false => some .resume
  | activate => some .activate
  | _ => none

/-- A call of one thread. -/
structure Activity where
  tid : UInt32
  call : Call
  deriving Repr, DecidableEq

/-- The reasons for which the library stops the process. -/
inductive Crash where
  | overResume
  | overResumeInactive
  | tooManySuspends
  | invalidSuspensionState
  deriving Repr, DecidableEq

/-- The circumstances under which the right to run the finalizer was given. -/
structure Grant where
  activated : Bool
  outstanding : Int
  deriving Repr, DecidableEq

/-- An object, the calls in progress and the history of the calls. -/
structure State where
  dqState : UInt64
  sideSuspendCnt : UInt32
  sidelock : Bool
  references : Int
  activities : List Activity
  crash : Option Crash
  /-- Calls that have begun. -/
  calls : Request → Nat
  /-- Suspends and resumes that have taken effect. -/
  suspends : Nat
  resumes : Nat
  /-- Activations, and resumes that stood for one. -/
  activations : Nat
  standIns : Nat
  /-- Some call has asked for the activation. -/
  activated : Bool
  grants : List Grant
  finalizerRuns : Nat

/-- A new object. -/
def State.initial : State where
  dqState :=
    if config.createdInactive then
      (initValue config.width ||| (inactiveBit + needsActivationBit)) |||
        (config.role &&& roleMask)
    else
      initValue config.width ||| (config.role &&& roleMask)
  sideSuspendCnt := 0
  sidelock := false
  references :=
    config.otherReferences + if config.createdInactive then 2 else 0
  activities := []
  crash := none
  calls := fun _ => 0
  suspends := 0
  resumes := 0
  activations := 0
  standIns := 0
  activated := false
  grants := []
  finalizerRuns := 0

variable (state : State)

/-- The suspensions that have not been resumed. -/
def State.outstanding : Int :=
  state.suspends - state.resumes

/-- What `_dispatch_lane_resume` does once it has stored a new state. -/
def afterResume
    (activating : Bool)
    (oldState newState : UInt64) : Except Crash (Option Call) :=
  if (oldState ^^^ newState) &&& needsActivationBit != 0 then
    .ok (some .resumeActivate)
  else if activating then
    if isSuspended newState then .ok none else .error .invalidSuspensionState
  else if isSuspended newState then
    .ok none
  else if (oldState ^^^ newState) &&& inBarrier != 0 then
    .ok (some (.wakeup true))
  else if isRunnable newState then
    .ok (some (.wakeup false))
  else
    .ok (some .release2)

/-- The state after an update of `_dispatch_lane_resume`. -/
def State.finishResume
    (activating : Bool)
    (newState : UInt64) : State × Option Call :=
  match afterResume activating state.dqState newState with
  | .error crash => ({ state with dqState := newState, crash := some crash }, none)
  | .ok (some .resumeActivate) =>
    ({ state with
      dqState := newState
      grants := state.grants ++ [⟨state.activated, state.outstanding⟩] },
      some .resumeActivate)
  | .ok next => ({ state with dqState := newState }, next)

/-- A resume that takes effect; the finalizer's own resume gives back the count
that the activation took. -/
def State.countResume (finalizing : Bool) : State :=
  { state with resumes := state.resumes + if finalizing then 0 else 1 }

/-- A source that has never been activated, for which a resume stands for an
activation. -/
def resumeActivates (dqState : UInt64) : Bool :=
  config.isSource &&
    dqState &&& suspendBitsMask == needsActivationBit + inactiveBit

/-- `_dispatch_lane_suspend`. -/
def State.suspend : State × Option Call :=
  match suspendUpdate state.dqState with
  | none => (state, some .suspendSlowLock)
  | some newState =>
    ({ state with dqState := newState, suspends := state.suspends + 1 },
      if isSuspended state.dqState then none else some .suspendRetain)

/-- The update of `_dispatch_lane_suspend_slow`. -/
def State.suspendSlowTransfer (delta : UInt64) : State × Option Call :=
  match subOverflow state.dqState delta with
  | none => (state, some (.suspendSlowUnlock true))
  | some newState =>
    ({ state with dqState := newState, suspends := state.suspends + 1 },
      some .suspendSlowCount)

/-- The end of `_dispatch_lane_suspend_slow`. -/
def State.suspendSlowCount : State × Option Call :=
  match addOverflow32 state.sideSuspendCnt suspendHalf with
  | none =>
    ({ state with crash := some .tooManySuspends }, some .suspendSlowCount)
  | some sum =>
    ({ state with sideSuspendCnt := sum }, some (.suspendSlowUnlock false))

/-- `_dispatch_lane_resume` without activation. -/
def State.resume
    (tid : UInt32)
    (finalizing : Bool)
    (state : State) : State × Option Call :=
  match resumeUpdate config tid state.dqState with
  | .overResume =>
    ({ state with
      crash := some (if isInactive state.dqState
        then .overResumeInactive else .overResume) },
      some (.resume finalizing))
  | .slow => (state, some (.resumeSlowLock finalizing))
  | .store newState =>
    if resumeActivates config state.dqState then
      { state with
        activated := true
        standIns := state.standIns + 1 }.finishResume false newState
    else
      (state.countResume finalizing).finishResume false newState

/-- What `_dispatch_lane_resume_slow` decides when it reads the side count. -/
def State.resumeSlowReadSide
    (finalizing : Bool)
    (state : State) : Option Call :=
  match resumeSlowDelta state.sideSuspendCnt with
  | none => some (.resumeSlowRetry finalizing)
  | some delta => some (.resumeSlowTransfer finalizing delta)

/-- The update of `_dispatch_lane_resume_slow`. -/
def State.resumeSlowTransfer
    (finalizing : Bool)
    (delta : UInt64)
    (state : State) : State × Option Call :=
  match addOverflow state.dqState delta with
  | none => (state, some (.resumeSlowRetry finalizing))
  | some newState =>
    ({ state.countResume finalizing with dqState := newState },
      some .resumeSlowCount)

/-- `_dispatch_lane_resume` with activation. -/
def State.activate : State × Option Call :=
  let asked :=
    { state with activated := true, activations := state.activations + 1 }
  match activateUpdate state.dqState with
  | none => (asked, none)
  | some newState => asked.finishResume true newState

/-- One step of a call; none while it waits for the side lock. -/
def State.advance
    (state : State)
    (tid : UInt32) : Call → Option (State × Option Call)
  | .suspend => some state.suspend
  | .suspendRetain =>
    some ({ state with references := state.references + 2 }, none)
  | .suspendSlowLock =>
    if state.sidelock then none
    else some ({ state with sidelock := true }, some .suspendSlowReadSide)
  | .suspendSlowReadSide =>
    some (state,
      some (.suspendSlowTransfer (suspendSlowDelta state.sideSuspendCnt)))
  | .suspendSlowTransfer delta => some (state.suspendSlowTransfer delta)
  | .suspendSlowCount => some state.suspendSlowCount
  | .suspendSlowUnlock retry =>
    some ({ state with sidelock := false },
      if retry then some .suspend else none)
  | .resume finalizing => some (state.resume config tid finalizing)
  | .resumeSlowLock finalizing =>
    if state.sidelock then none
    else some ({ state with sidelock := true },
      some (.resumeSlowReadSide finalizing))
  | .resumeSlowReadSide finalizing =>
    some (state, state.resumeSlowReadSide finalizing)
  | .resumeSlowTransfer finalizing delta =>
    some (state.resumeSlowTransfer finalizing delta)
  | .resumeSlowCount =>
    some ({ state with
      sideSuspendCnt := state.sideSuspendCnt - suspendHalf },
      some .resumeSlowUnlock)
  | .resumeSlowRetry finalizing =>
    some ({ state with sidelock := false }, some (.resume finalizing))
  | .resumeSlowUnlock =>
    some ({ state with sidelock := false }, none)
  | .activate => some state.activate
  | .resumeActivate =>
    some ({ state with finalizerRuns := state.finalizerRuns + 1 },
      some .finalizer)
  | .finalizer => some (state, some (.resume true))
  | .release2 =>
    some ({ state with references := state.references - 2 }, none)
  | .wakeup _ =>
    some ({ state with references := state.references - 2 }, none)

/-- A thread begins a call. -/
def State.begin (state : State) (tid : UInt32) (call : Call) : State :=
  { state with
    activities := ⟨tid, call⟩ :: state.activities
    calls := fun request =>
      state.calls request + if call.pending = some request then 1 else 0 }

/-- One step of a call, or of the rest of the library, which does not touch the
suspend bits. -/
inductive Step (config : Config) : State → State → Prop where
  | begin
      {state : State}
      (tid : UInt32)
      (call : Call)
      (running : state.crash = none)
      (isCall : call = .suspend ∨ call = .resume false ∨ call = .activate) :
      Step config state (state.begin tid call)
  | advance
      {state after : State}
      (earlier later : List Activity)
      (activity : Activity)
      (continued : Option Call)
      (running : state.crash = none)
      (scheduled : state.activities = earlier ++ activity :: later)
      (accepted : state.advance config activity.tid activity.call =
        some (after, continued)) :
      Step config state
        { after with
          activities := earlier ++
            ((continued.map (Activity.mk activity.tid)).toList ++ later) }
  | elsewhere
      {state : State}
      (newState : UInt64)
      (running : state.crash = none)
      (sameSuspension :
        newState &&& suspendBitsMask = state.dqState &&& suspendBitsMask) :
      Step config state { state with dqState := newState }

end LibDispatch.Suspension
