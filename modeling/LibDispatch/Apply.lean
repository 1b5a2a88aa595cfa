import LibDispatch.Reachability
import LibDispatch.ActivitySum
import Mathlib.Algebra.Order.Ring.Nat
import Mathlib.Data.List.Count
import Mathlib.Data.List.Range

namespace LibDispatch.Apply

/-!
# Parallel loops

`dispatch_apply_f` of `src/apply.c`.  The caller and a number of continuations
share one `dispatch_apply_s`: a counter that hands out the indices, a counter of
the work still to complete, and a counter of the threads that still use the
object.  The thread that completes the last item signals an event on which the
caller waits before it returns; the thread that is last to leave frees the
object.  The continuations point to the work function through `da_dc`, on the
caller's stack.

Every atomic access, both ends of a call of the work function and every call of
the kernel is one step of a participant.
-/

/-! ## The plan of a loop -/

/-- What `dispatch_apply_f` looks at before it starts. -/
structure Request where
  iterations : Nat
  /-- `dtc_apply_nesting` of the enclosing loop, or 0. -/
  nested : Nat
  /-- `_dispatch_qos_max_parallelism`. -/
  parallelism : Nat
  /-- `dq_width`. -/
  width : Nat
  /-- The queue has a target queue. -/
  targets : Bool
  /-- The queue is the current one. -/
  current : Bool
  deriving DecidableEq, Repr

/-- `thr_cnt` of `dispatch_apply_f`. -/
def Request.threads (request : Request) : Nat :=
  let threads :=
    if request.nested = 0 then
      request.parallelism
    else if request.nested < request.parallelism then
      request.parallelism / request.nested
    else
      1
  if request.iterations < threads then request.iterations else threads

/-- The rounds of the loop of `_dispatch_apply_serial` from an index on. -/
def serialFrom (iterations : Nat) : Nat → Nat → List Nat
  | 0, _ => []
  | fuel + 1, index =>
    index ::
      if index + 1 < iterations then
        serialFrom iterations fuel (index + 1)
      else
        []

/-- The indices for which `_dispatch_apply_serial` calls the work function; the
loop tests its condition after the first round. -/
def applySerial (iterations : Nat) : List Nat :=
  serialFrom iterations (iterations + 1) 0

theorem serialFrom_eq_range'
    {iterations : Nat}
    (fuel index : Nat)
    (below : index < iterations)
    (enough : iterations - index ≤ fuel) :
    serialFrom iterations fuel index =
      List.range' index (iterations - index) := by
  induction fuel generalizing index with
  | zero => omega
  | succ fuel inductionHypothesis =>
    have rounds : iterations - index = iterations - (index + 1) + 1 := by
      omega
    rw [serialFrom, rounds, List.range'_succ]
    by_cases more : index + 1 < iterations
    · rw [if_pos more, inductionHypothesis (index + 1) more (by omega)]
    · have last : iterations - (index + 1) = 0 := by
        omega
      rw [if_neg more, last]
      rfl

/-- The serial loop calls the work function once for each index, in order. -/
theorem applySerial_eq_range
    {iterations : Nat}
    (positive : 0 < iterations) :
    applySerial iterations = List.range iterations := by
  rw [applySerial, serialFrom_eq_range' (iterations + 1) 0 positive (by omega),
    List.range_eq_range', Nat.sub_zero]

/-! ## The shared object and its participants -/

/-- The part of a `dispatch_apply_s` that its participants use, and whether the
kernel has a thread asleep on `da_event`. -/
structure Memory where
  /-- `da_iterations`, a `size_t`. -/
  iterations : Nat
  /-- `da_index`, a `size_t`. -/
  index : Nat
  /-- `da_todo`, a `size_t`. -/
  todo : Nat
  /-- `da_thr_cnt`, as an unsigned number. -/
  thrCnt : Nat
  /-- `dte_value` of `da_event`. -/
  event : Nat
  sleeping : Bool
  deriving DecidableEq, Repr

/-- Where a participant stands in `_dispatch_apply_invoke2`. -/
inductive Stage where
  /-- Before the first increment of `da_index`; the continuation of a helper may
  not have been picked up. -/
  | pending
  /-- Before it reads `da_dc`. -/
  | reading (idx : Nat)
  | invoking (idx done : Nat)
  /-- The work function runs. -/
  | working (idx done : Nat)
  | claiming (done : Nat)
  /-- At the subtraction from `da_todo`. -/
  | settling (done : Nat)
  /-- At the increment of `_dispatch_thread_event_signal`. -/
  | signalling
  /-- In `_dispatch_thread_event_signal_slow`. -/
  | waking
  /-- At the decrement of `_dispatch_thread_event_wait`. -/
  | waiting
  /-- In `_dispatch_thread_event_wait_slow`, at the load. -/
  | waitLoading
  | parking
  | asleep
  /-- In `_dispatch_thread_event_destroy`. -/
  | destroying
  /-- At the decrement of `da_thr_cnt`. -/
  | leaving
  | freeing
  | finished
  | crashed
  deriving DecidableEq, Repr

/-- A thread that runs `_dispatch_apply_invoke2`; the caller has the flag
`DISPATCH_APPLY_INVOKE_WAIT`. -/
structure Participant where
  waits : Bool
  stage : Stage
  deriving DecidableEq, Repr

/-- A sleeping thread may wake up for no reason. -/
inductive Choice where
  | proceed
  | spurious
  deriving DecidableEq, Repr

/-- What a step adds to the history of the loop. -/
inductive Effect where
  | quiet
  | invoke (idx : Nat)
  | complete (idx : Nat)
  | signal
  | free
  deriving DecidableEq, Repr

structure Outcome where
  memory : Memory
  stage : Stage
  effect : Effect
  deriving DecidableEq, Repr

/-- `UINT32_MAX`: the event is waited on and not signalled. -/
def eventWaited : Nat := 2 ^ 32 - 1

/-- A 32-bit counter after a decrement. -/
def decremented (value : Nat) : Nat :=
  if value = 0 then 2 ^ 32 - 1 else value - 1

/-- A `size_t` after a subtraction. -/
def subtracted (value less : Nat) : Nat :=
  if less ≤ value then value - less else value + 2 ^ 64 - less

/-- The label `out` of `_dispatch_apply_invoke2`. -/
def out (waits : Bool) : Stage :=
  if waits then .waiting else .leaving

/-- One step of a participant; none when it has finished or sleeps. -/
def advance
    (waits : Bool)
    (memory : Memory)
    (choice : Choice) :
    Stage → Option Outcome
  | .pending =>
    let claimed :=
      { memory with index := (memory.index + 1) % 2 ^ 64 }
    if memory.index ≥ memory.iterations then
      some ⟨claimed, out waits, .quiet⟩
    else
      some ⟨claimed, .reading memory.index, .quiet⟩
  | .reading idx => some ⟨memory, .invoking idx 0, .quiet⟩
  | .invoking idx done => some ⟨memory, .working idx done, .invoke idx⟩
  | .working idx done =>
    some ⟨memory, .claiming ((done + 1) % 2 ^ 64), .complete idx⟩
  | .claiming done =>
    let claimed :=
      { memory with index := (memory.index + 1) % 2 ^ 64 }
    if memory.index < memory.iterations then
      some ⟨claimed, .invoking memory.index done, .quiet⟩
    else
      some ⟨claimed, .settling done, .quiet⟩
  | .settling done =>
    let todo := subtracted memory.todo done
    if todo = 0 then
      some ⟨{ memory with todo := todo }, .signalling, .quiet⟩
    else
      some ⟨{ memory with todo := todo }, out waits, .quiet⟩
  | .signalling =>
    let signalled :=
      { memory with event := (memory.event + 1) % 2 ^ 32 }
    if memory.event = 0 then
      some ⟨signalled, out waits, .signal⟩
    else
      some ⟨signalled, .waking, .signal⟩
  | .waking => some ⟨{ memory with sleeping := false }, out waits, .quiet⟩
  | .waiting =>
    let event := decremented memory.event
    if event = 0 then
      some ⟨{ memory with event := event }, .destroying, .quiet⟩
    else
      some ⟨{ memory with event := event }, .waitLoading, .quiet⟩
  | .waitLoading =>
    if memory.event = 0 then
      some ⟨memory, .destroying, .quiet⟩
    else if memory.event ≠ eventWaited then
      some ⟨memory, .crashed, .quiet⟩
    else
      some ⟨memory, .parking, .quiet⟩
  | .parking =>
    if memory.event = eventWaited then
      some ⟨{ memory with sleeping := true }, .asleep, .quiet⟩
    else
      some ⟨memory, .waitLoading, .quiet⟩
  | .asleep =>
    if memory.sleeping = false ∨ choice = .spurious then
      some ⟨{ memory with sleeping := false }, .waitLoading, .quiet⟩
    else
      none
  | .destroying =>
    if memory.event = 0 then
      some ⟨memory, .leaving, .quiet⟩
    else
      some ⟨memory, .crashed, .quiet⟩
  | .leaving =>
    let thrCnt := decremented memory.thrCnt
    if thrCnt = 0 then
      some ⟨{ memory with thrCnt := thrCnt }, .freeing, .quiet⟩
    else
      some ⟨{ memory with thrCnt := thrCnt }, .finished, .quiet⟩
  | .freeing => some ⟨memory, .finished, .free⟩
  | .finished => none
  | .crashed => none

/-- The history of a loop. -/
structure Log where
  /-- The indices for which the work function was called, latest first. -/
  invoked : List Nat
  /-- Those for which it has returned. -/
  completed : List Nat
  /-- How often the event was signalled. -/
  signals : Nat
  /-- How often the object was freed. -/
  freed : Nat
  deriving DecidableEq, Repr

def Log.record (log : Log) : Effect → Log
  | .quiet => log
  | .invoke idx => { log with invoked := idx :: log.invoked }
  | .complete idx => { log with completed := idx :: log.completed }
  | .signal => { log with signals := log.signals + 1 }
  | .free => { log with freed := log.freed + 1 }

structure State where
  memory : Memory
  participants : List Participant
  log : Log

/-- The state after the next step of the participant at a position; none if it
cannot take one. -/
def State.next
    (choice : Choice)
    (state : State)
    (position : Nat) : Option State := do
  let participant ← state.participants[position]?
  let outcome ←
    advance participant.waits state.memory choice participant.stage
  return {
    memory := outcome.memory
    participants :=
      state.participants.set position
        { participant with stage := outcome.stage }
    log := state.log.record outcome.effect
  }

/-- Some participant takes its next step, in the given way. -/
def StepBy (choice : Choice) (state after : State) : Prop :=
  ∃ position, state.next choice position = some after

def Step (state after : State) : Prop :=
  ∃ choice, StepBy choice state after

/-- A step replaces one participant and leaves the others alone. -/
theorem StepBy.split
    {choice : Choice}
    {state after : State}
    (step : StepBy choice state after) :
    ∃ earlier later participant outcome,
      state.participants = earlier ++ participant :: later ∧
        advance participant.waits state.memory choice participant.stage =
          some outcome ∧
        after =
          { memory := outcome.memory
            participants :=
              earlier ++ { participant with stage := outcome.stage } :: later
            log := state.log.record outcome.effect } := by
  obtain ⟨position, steps⟩ := step
  simp only [State.next, Option.bind_eq_bind, Option.bind_eq_some_iff] at steps
  obtain ⟨participant, found, outcome, acts, same⟩ := steps
  obtain ⟨inside, rfl⟩ := List.getElem?_eq_some_iff.mp found
  refine ⟨state.participants.take position,
    state.participants.drop (position + 1), _, outcome, ?_, acts, ?_⟩
  · rw [← List.drop_eq_getElem_cons inside, List.take_append_drop]
  · rw [List.set_eq_take_append_cons_drop, if_pos inside] at same
    exact (Option.some.inj same).symm

/-- The state in which `_dispatch_apply_f` has pushed its continuations. -/
def start (iterations helpers : Nat) : State where
  memory :=
    { iterations := iterations
      index := 0
      todo := iterations
      thrCnt := helpers + 1
      event := 0
      sleeping := false }
  participants :=
    ⟨true, .pending⟩ :: List.replicate helpers ⟨false, .pending⟩
  log := ⟨[], [], 0, 0⟩

/-- The states of a loop with the given number of helpers. -/
def Started (iterations helpers : Nat) (state : State) : Prop :=
  state = start iterations helpers

end LibDispatch.Apply
