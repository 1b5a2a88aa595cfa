import LibDispatch.Reachability
import LibDispatch.WordFields
import Mathlib.Algebra.BigOperators.Group.List.Basic
import Mathlib.Algebra.Order.Ring.Nat

namespace LibDispatch.TimerSource

/-!
# Repeating timer sources

A repeating timer of `src/event/event.c` and the source of `src/source.c` that
delivers its fires.  The manager thread runs the timers that are due; another
thread, which holds the lock of the source, latches the pending fires and calls
the handler.  Each of the two reads and writes the timer and the pending data in
several steps, between which the other one may run.  The configuration is fixed,
and the source is not cancelled.
-/

/-- `struct dispatch_timer_source_s`. -/
structure Timer where
  target : UInt64
  deadline : UInt64
  interval : UInt64
  deriving Repr, DecidableEq

/-- `LONG_MAX`. -/
def longMax : UInt64 := 0x7fffffffffffffff

/-- `INT64_MAX`. -/
def int64Max : UInt64 := 0x7fffffffffffffff

/-- `UINT64_MAX`. -/
def uint64Max : UInt64 := 0xffffffffffffffff

/-- `DISPATCH_TIMER_DISARMED_MARKER`. -/
def disarmedMarker : UInt64 := 1

/-- `_dispatch_timer_unote_compute_missed`. -/
def Timer.computeMissed (timer : Timer) (now prev : UInt64) : Timer × UInt64 :=
  let missed := (now - timer.target) / timer.interval + 1
  let missed := if missed + prev > longMax then longMax - prev else missed
  if timer.interval < int64Max then
    let pushBy := missed * timer.interval
    ({ timer with
        target := timer.target + pushBy
        deadline := timer.deadline + pushBy }, prev + missed)
  else
    ({ timer with target := uint64Max, deadline := uint64Max }, prev + missed)

/-! ## States -/

/-- Where the manager stands in the loop of `_dispatch_timers_run`, with a timer
that is due.  A timer that is pushed has been read before. -/
inductive Run where
  | load (now : UInt64)
  | disarm
  | mark
  | compute (now : UInt64)
  | push (now : UInt64) (timer : Timer)
  | needsRearm (pending : UInt64)
  | arm (pending : UInt64)
  | retire (pending : UInt64)
  | store (pending : UInt64)
  deriving Repr, DecidableEq

/-- Where a thread stands in `_dispatch_source_invoke2`. -/
inductive Stage where
  | start
  | probe
  | latch
  | timerData (prev : UInt64)
  | push (data now : UInt64) (timer : Timer)
  | call (data : UInt64)
  | rearm
  | resume
  deriving Repr, DecidableEq

/-- A call of `_dispatch_source_invoke2`, which is on the manager queue or not
and on the target queue of the source or not. -/
structure Invocation where
  onManager : Bool
  onTarget : Bool
  stage : Stage
  deriving Repr, DecidableEq

/-- A timer and its source.  The lock of the source is held while there is an
invocation.  The values of `ds_data` that the handler has been called with are
recorded. -/
structure State where
  timer : Timer
  pending : UInt64
  armed : Bool
  suspended : Bool
  run : Option Run
  invocation : Option Invocation
  delivered : List UInt64
  deriving Repr, DecidableEq

/-- `_dispatch_timer_unote_needs_rearm`. -/
def State.needsRearm (state : State) : Bool :=
  !state.suspended && decide (state.timer.target < int64Max)

/-- The next step of the manager. -/
def State.advanceRun (state : State) : Run → State × Option Run
  | .load now =>
    (state, some (if state.pending ≠ 0 then .disarm else .compute now))
  | .disarm => ({ state with armed := false }, some .mark)
  | .mark =>
    ({ state with pending := state.pending ||| disarmedMarker }, none)
  | .compute now => (state, some (.push now state.timer))
  | .push now timer =>
    ({ state with timer := (timer.computeMissed now 0).1 },
      some (.needsRearm ((timer.computeMissed now 0).2 <<< 1)))
  | .needsRearm pending =>
    (state, some (if state.needsRearm then .arm pending else .retire pending))
  | .arm pending => ({ state with armed := true }, some (.store pending))
  | .retire pending =>
    ({ state with armed := false },
      some (.store (pending ||| disarmedMarker)))
  | .store pending => ({ state with pending := pending }, none)

/-- The next step of an invocation.  The clock gives some time, and an invocation
that has called the handler may put off the rearming. -/
def State.advanceStage
    (state : State)
    (onManager onTarget : Bool)
    (now : UInt64)
    (putOff : Bool) : Stage → State × Option Stage
  | .start => (state, if state.suspended then none else some .probe)
  | .probe =>
    (state,
      if state.pending ≠ 0 then
        if onTarget then some .latch else none
      else
        some .rearm)
  | .latch =>
    ({ state with pending := 0 },
      some (
        if state.pending &&& disarmedMarker ≠ 0 then
          .timerData state.pending
        else
          .call (state.pending >>> 1)))
  | .timerData prev =>
    (state,
      some (
        if state.timer.target < int64Max ∧ state.timer.target ≤ now then
          .push (prev >>> 1) now state.timer
        else
          .call (prev >>> 1)))
  | .push data now timer =>
    ({ state with timer := (timer.computeMissed now data).1 },
      some (.call (timer.computeMissed now data).2))
  | .call data =>
    ({ state with delivered := state.delivered ++ [data] }, some .rearm)
  | .rearm =>
    (state,
      if state.armed = false ∧ state.timer.target < int64Max ∧
          onManager = true ∧ state.suspended = false ∧ putOff = false then
        some .resume
      else
        none)
  | .resume => ({ state with armed := state.needsRearm }, none)

/-! ## Steps -/

/-- An invocation runs on the manager thread. -/
def State.invokedOnManager (state : State) : Bool :=
  state.invocation.any Invocation.onManager

/-- The count stays in the range of a long, and the next target fits in a
word. -/
def Timer.Fits (timer : Timer) (now prev : UInt64) : Prop :=
  prev.toNat + ((now.toNat - timer.target.toNat) / timer.interval.toNat + 1) <
      2 ^ 63 ∧
    now.toNat + timer.interval.toNat < 2 ^ 64

instance (timer : Timer) (now prev : UInt64) :
    Decidable (timer.Fits now prev) :=
  inferInstanceAs (Decidable (_ ∧ _))

/-- What the manager computes fits. -/
def Run.Fits : Run → Prop
  | .push now timer => timer.Fits now 0
  | _ => True

/-- What an invocation computes fits. -/
def Stage.Fits : Stage → Prop
  | .push data now timer => timer.Fits now data
  | _ => True

/-- The steps of the manager and of the invocations, in any order.  The manager
thread does not run timers while it invokes the source, and only one thread at a
time invokes the source.  The source may be suspended and resumed at any time. -/
inductive Step : State → State → Prop where
  | run
      {state : State}
      (now : UInt64)
      (between : state.run = none)
      (elsewhere : state.invokedOnManager = false)
      (armed : state.armed = true)
      (due : state.timer.target ≤ now) :
      Step state { state with run := some (.load now) }
  | advanceRun
      {state : State}
      {run : Run}
      (running : state.run = some run)
      (fits : run.Fits) :
      Step state
        { (state.advanceRun run).1 with run := (state.advanceRun run).2 }
  | invoke
      {state : State}
      (onManager onTarget : Bool)
      (unlocked : state.invocation = none)
      (between : onManager = true → state.run = none) :
      Step state
        { state with invocation := some ⟨onManager, onTarget, .start⟩ }
  | advanceStage
      {state : State}
      {invocation : Invocation}
      (invoked : state.invocation = some invocation)
      (fits : invocation.stage.Fits)
      (now : UInt64)
      (putOff : Bool) :
      Step state
        { (state.advanceStage invocation.onManager invocation.onTarget now
            putOff invocation.stage).1 with
          invocation :=
            (state.advanceStage invocation.onManager invocation.onTarget now
              putOff invocation.stage).2.map
                fun stage => { invocation with stage := stage } }
  | suspend
      {state : State}
      (suspended : Bool) :
      Step state { state with suspended := suspended }

/-- A timer with the given configuration, before its first fire. -/
structure Configured (timer : Timer) (state : State) : Prop where
  someInterval : 0 < timer.interval.toNat
  finiteInterval : timer.interval < int64Max
  configured : state.timer = timer
  pending : state.pending = 0
  run : state.run = none
  invocation : state.invocation = none
  delivered : state.delivered = []

end LibDispatch.TimerSource
