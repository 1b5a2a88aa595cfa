import LibDispatch.Reachability
import Mathlib

namespace LibDispatch.DispatchIo

/-!
# Scheduling of stream operations

A descriptor that is not a disk file has a stream for each direction.  The
operations of a stream wait in two lists and are performed by the stream
handler, which runs as a block of the stream's serial queue or as the handler of
a readiness source.  The source is suspended unless the handler waits for the
descriptor.

Each event below is one block of the stream queue.  What the code reads from
elsewhere is an input of the event: which operations have an error when they are
picked, and what performing an operation returns.
-/

/-- `DISPATCH_IO_STREAM` or `DISPATCH_IO_RANDOM`. -/
inductive ChannelType where
  | stream
  | random
  deriving DecidableEq, Repr

/-- `DISPATCH_OP_COMPLETE` and the other results of the perform function. -/
inductive Result where
  | complete
  | deliver
  | deliverAndComplete
  | completeResume
  | resume
  | err
  | fdErr
  deriving DecidableEq, Repr

/-- What the stream reads of an operation: which one it is, its channel and the
type of the channel. -/
structure StreamOperation where
  id : Nat
  channel : Nat
  type : ChannelType
  deriving DecidableEq, Repr

/-- A `dispatch_stream_s`.  The source is given by its suspend count, and
`handlers` counts the blocks of the stream handler on the queue.  The last two
fields record a call of `dispatch_resume` or `dispatch_suspend` that does not
fit `source_running`, and the crash of a source that is resumed too often. -/
structure Stream where
  streamOps : List StreamOperation
  randomOps : List StreamOperation
  op : Option StreamOperation
  sourceRunning : Bool
  source : Option Nat
  handlers : Nat
  misused : Bool
  crashed : Bool
  deriving DecidableEq, Repr

namespace Stream

/-- `_dispatch_stream_init`. -/
def init : Stream where
  streamOps := []
  randomOps := []
  op := none
  sourceRunning := false
  source := none
  handlers := 0
  misused := false
  crashed := false

variable (stream : Stream)

/-- `_dispatch_stream_operation_avail`. -/
def operationAvail : Bool :=
  !stream.randomOps.isEmpty || !stream.streamOps.isEmpty

/-- `dispatch_async_f` of the stream handler. -/
def schedule : Stream :=
  { stream with handlers := stream.handlers + 1 }

/-- `TAILQ_INSERT_TAIL` into the list of the operation's type. -/
def insertTail (op : StreamOperation) : Stream :=
  match op.type with
  | .stream => { stream with streamOps := stream.streamOps ++ [op] }
  | .random => { stream with randomOps := stream.randomOps ++ [op] }

/-- `_dispatch_stream_enqueue_operation`, for an operation that should be
enqueued. -/
def enqueueOperation (op : StreamOperation) : Stream :=
  let inserted := stream.insertTail op
  if stream.operationAvail then inserted else inserted.schedule

/-- `_dispatch_stream_complete_operation`. -/
def completeOperation (op : StreamOperation) : Stream :=
  { stream with
    streamOps := stream.streamOps.erase op
    randomOps := stream.randomOps.erase op
    op := if stream.op = some op then none else stream.op }

/-- `dispatch_suspend` of the source, which is then not running. -/
def suspendSource : Stream :=
  { stream with
    source := stream.source.map (· + 1)
    misused := stream.misused || !stream.sourceRunning
    sourceRunning := false }

/-- `dispatch_resume` of the source, which is then running.  The source is
created with a suspend count of one. -/
def resumeSource : Stream :=
  { stream with
    source := some (stream.source.getD 1 - 1)
    misused := stream.misused || stream.sourceRunning
    sourceRunning := true
    crashed := stream.crashed || decide (stream.source = some 0) }

/-- The operations of a channel, or all of them. -/
def concerns (channel : Option Nat) (op : StreamOperation) : Bool :=
  match channel with
  | none => true
  | some channel => op.channel == channel

/-- `_dispatch_stream_cleanup_operations`. -/
def cleanupOperations (channel : Option Nat) : Stream :=
  let cleaned :=
    { stream with
      streamOps := stream.streamOps.filter (fun op => !concerns channel op)
      randomOps := stream.randomOps.filter (fun op => !concerns channel op)
      op := stream.op.filter (fun op => !concerns channel op) }
  if cleaned.sourceRunning && !cleaned.operationAvail then
    cleaned.suspendSource
  else
    cleaned

/-- `_dispatch_stream_pick_next_operation`. -/
def pickNextOperation : Option StreamOperation :=
  match stream.op with
  | none => stream.streamOps.head?.or stream.randomOps.head?
  | some op =>
    match op.type with
    | .stream => some op
    | .random =>
      -- the next operation after this one, or the first
      (stream.randomOps.dropWhile (· ≠ op)).tail.head?.or
        stream.randomOps.head?

/-- The loop of the stream handler that picks an operation and completes those
with an error. -/
def pick (fails : StreamOperation → Bool) :
    Nat → Stream → Stream × Option StreamOperation
  | 0, stream => (stream, none)
  | fuel + 1, stream =>
    match stream.pickNextOperation with
    | none => (stream, none)
    | some op =>
      if fails op then
        pick fails fuel (stream.completeOperation op)
      else
        ({ stream with op := some op }, some op)

/-- As many rounds as there are operations, and one that finds none. -/
def rounds : Nat :=
  stream.streamOps.length + stream.randomOps.length + 1

/-- What the stream handler does with the result of performing. -/
def settle (op : StreamOperation) : Result → Stream
  | .deliver =>
    if stream.operationAvail then stream.schedule else stream
  | .complete | .deliverAndComplete =>
    let completed := stream.completeOperation op
    if completed.operationAvail then completed.schedule else completed
  | .completeResume =>
    let completed := stream.completeOperation op
    if completed.operationAvail then completed.resumeSource else completed
  | .resume =>
    if stream.operationAvail then stream.resumeSource else stream
  | .err => stream.cleanupOperations (some op.channel)
  -- the cleanup of the descriptor comes from the barrier queue
  | .fdErr => stream

/-- `_dispatch_stream_handler`. -/
def handler
    (fails : StreamOperation → Bool)
    (result : Result) : Stream :=
  match stream.pick fails stream.rounds with
  | (picked, none) => picked
  | (picked, some op) => picked.settle op result

end Stream

/-- The blocks of the stream queue. -/
inductive StreamEvent where
  /-- An operation that should be enqueued. -/
  | enqueue (op : StreamOperation)
  /-- `_dispatch_stream_queue_handler`. -/
  | queueHandler (fails : StreamOperation → Bool) (result : Result)
  /-- `_dispatch_stream_source_handler`. -/
  | sourceHandler (fails : StreamOperation → Bool) (result : Result)
  /-- The cleanup of a stopped channel or of the descriptor. -/
  | cleanup (channel : Option Nat)

variable (stream : Stream)

/-- The effect of a block, none if it cannot run. -/
def Stream.next : StreamEvent → Option Stream
  | .enqueue op =>
    if stream.crashed ∨ op ∈ stream.streamOps ∨ op ∈ stream.randomOps then
      none
    else
      some (stream.enqueueOperation op)
  | .queueHandler fails result =>
    if stream.crashed ∨ stream.handlers = 0 then
      none
    else
      some ({ stream with
        handlers := stream.handlers - 1 }.handler fails result)
  | .sourceHandler fails result =>
    -- only a source that is not suspended has its handler run
    if stream.crashed ∨ stream.source ≠ some 0 then
      none
    else
      some (stream.suspendSource.handler fails result)
  | .cleanup channel =>
    if stream.crashed then none
    else some (stream.cleanupOperations channel)

/-! ## What scheduling should keep -/

/-- The operations of both lists. -/
def Stream.operations : List StreamOperation :=
  stream.streamOps ++ stream.randomOps

/-- The source is resumed and suspended in turn, at most one handler is
outstanding, and no operation waits without one. -/
structure Scheduled (stream : Stream) : Prop where
  used : stream.misused = false
  sound : stream.crashed = false
  running : stream.sourceRunning = true → stream.source = some 0
  paused :
    stream.sourceRunning = false →
      stream.source = none ∨ stream.source = some 1
  single : stream.handlers + stream.sourceRunning.toNat ≤ 1
  live :
    stream.operations ≠ [] → stream.handlers = 0 →
      stream.sourceRunning = true

/-- The operation that the handler performs has no error of its descriptor, and
if its channel was stopped then no operation of another channel is left. -/
def LeavesNone
    (fails : StreamOperation → Bool)
    (result : Result) : Prop :=
  match stream.pick fails stream.rounds with
  | (_, none) => True
  | (picked, some op) =>
    (result = .err →
      ∀ other ∈ picked.operations, other.channel = op.channel) ∧
    result ≠ .fdErr

/-- The condition on a block: no operation comes to an empty stream whose
handler is still on the queue, and a handler leaves no operation behind. -/
def Orderly : StreamEvent → Prop
  | .enqueue _ => stream.operations = [] → stream.handlers = 0
  | .queueHandler fails result =>
    LeavesNone { stream with handlers := stream.handlers - 1 } fails result
  | .sourceHandler fails result =>
    LeavesNone stream.suspendSource fails result
  | .cleanup _ => True

/-- A step of the stream queue that meets the condition. -/
def OrderlyStep (stream after : Stream) : Prop :=
  ∃ event, Orderly stream event ∧ stream.next event = some after

/-! ## The operation lists -/

namespace Stream

theorem operationAvail_eq_false_iff :
    stream.operationAvail = false ↔ stream.operations = [] := by
  simp [operationAvail, operations, and_comm]

theorem operationAvail_eq_true_iff :
    stream.operationAvail = true ↔ stream.operations ≠ [] := by
  rw [Ne, ← operationAvail_eq_false_iff, Bool.not_eq_false]

end Stream

/-- The lists hold operations of their type, among them the one that the handler
went on with, and the source runs only while there are operations. -/
structure Listed (stream : Stream) : Prop where
  streams : ∀ op ∈ stream.streamOps, op.type = .stream
  randoms : ∀ op ∈ stream.randomOps, op.type = .random
  current : ∀ op, stream.op = some op → op ∈ stream.operations
  awaited : stream.sourceRunning = true → stream.operations ≠ []

variable {stream : Stream} {op : StreamOperation}

namespace Stream

/-- The operation that is picked is in a list. -/
theorem pickNextOperation_mem
    (listed : Listed stream)
    (picks : stream.pickNextOperation = some op) :
    op ∈ stream.operations := by
  unfold pickNextOperation at picks
  split at picks
  · rcases Option.or_eq_some_iff.mp picks with first | ⟨_, first⟩
    · exact List.mem_append_left _ (List.mem_of_mem_head? first)
    · exact List.mem_append_right _ (List.mem_of_mem_head? first)
  · rename_i current isCurrent
    split at picks
    · cases picks
      exact listed.current _ isCurrent
    · apply List.mem_append_right
      rcases Option.or_eq_some_iff.mp picks with next | ⟨_, first⟩
      · have later := List.mem_of_mem_tail (List.mem_of_mem_head? next)
        exact (List.dropWhile_sublist _).mem later
      · exact List.mem_of_mem_head? first

/-- An operation is picked unless there is none. -/
theorem operations_of_pickNextOperation
    (listed : Listed stream)
    (picks : stream.pickNextOperation = none) :
    stream.operations = [] := by
  unfold pickNextOperation at picks
  split at picks
  · obtain ⟨noStream, noRandom⟩ := Option.or_eq_none_iff.mp picks
    rw [operations, List.head?_eq_none_iff.mp noStream,
      List.head?_eq_none_iff.mp noRandom, List.nil_append]
  · rename_i current isCurrent
    split at picks
    · cases picks
    · rename_i isRandom
      -- a random operation is itself in the list that was found empty
      obtain ⟨_, noRandom⟩ := Option.or_eq_none_iff.mp picks
      rcases List.mem_append.mp (listed.current _ isCurrent)
        with member | member
      · cases isRandom.symm.trans (listed.streams _ member)
      · rw [List.head?_eq_none_iff.mp noRandom] at member
        cases member

/-- Completing an operation of the lists makes them shorter. -/
theorem length_operations_completeOperation
    (member : op ∈ stream.operations) :
    (stream.completeOperation op).operations.length <
      stream.operations.length := by
  have streamShorter := @List.length_erase_le _ _ op stream.streamOps
  have randomShorter := @List.length_erase_le _ _ op stream.randomOps
  simp only [operations, completeOperation, List.length_append]
  rcases List.mem_append.mp member with inStream | inRandom
  · have erased := List.length_erase_of_mem inStream
    have nonempty := List.length_pos_of_mem inStream
    omega
  · have erased := List.length_erase_of_mem inRandom
    have nonempty := List.length_pos_of_mem inRandom
    omega

end Stream

/-! ## The loop that picks an operation -/

/-- Nothing is outstanding: no handler is on the queue and the source, if there
is one, is suspended once. -/
structure Idle (stream : Stream) : Prop where
  used : stream.misused = false
  sound : stream.crashed = false
  resting : stream.sourceRunning = false
  suspended : stream.source = none ∨ stream.source = some 1
  unscheduled : stream.handlers = 0
  streams : ∀ op ∈ stream.streamOps, op.type = .stream
  randoms : ∀ op ∈ stream.randomOps, op.type = .random
  current : ∀ op, stream.op = some op → op ∈ stream.operations

namespace Idle

theorem listed {stream : Stream} (idle : Idle stream) : Listed stream where
  streams := idle.streams
  randoms := idle.randoms
  current := idle.current
  awaited runs := absurd (idle.resting.symm.trans runs) Bool.false_ne_true

/-- Completing an operation leaves nothing outstanding. -/
theorem completeOperation
    (idle : Idle stream)
    (op : StreamOperation) :
    Idle (stream.completeOperation op) where
  used := idle.used
  sound := idle.sound
  resting := idle.resting
  suspended := idle.suspended
  unscheduled := idle.unscheduled
  streams other member := idle.streams other (List.mem_of_mem_erase member)
  randoms other member := idle.randoms other (List.mem_of_mem_erase member)
  current other isCurrent := by
    simp only [Stream.completeOperation] at isCurrent
    split at isCurrent
    · cases isCurrent
    · rename_i notDone
      have differs : other ≠ op := by
        rintro rfl
        exact notDone isCurrent
      rcases List.mem_append.mp (idle.current other isCurrent)
        with member | member
      · have stays := (List.mem_erase_of_ne differs).mpr member
        exact List.mem_append_left _ stays
      · have stays := (List.mem_erase_of_ne differs).mpr member
        exact List.mem_append_right _ stays

end Idle

/-- What the loop ends with: an operation of the lists, or empty lists.  Nothing
is outstanding. -/
def Found (outcome : Stream × Option StreamOperation) : Prop :=
  Idle outcome.1 ∧
    match outcome.2 with
    | none => outcome.1.operations = []
    | some op => op ∈ outcome.1.operations

/-- With enough rounds the loop finds an operation if there is one. -/
theorem Idle.pick
    (fails : StreamOperation → Bool)
    {fuel : Nat}
    (idle : Idle stream)
    (enough : stream.operations.length < fuel) :
    Found (stream.pick fails fuel) := by
  -- every round that goes on has completed an operation
  induction fuel generalizing stream with
  | zero => omega
  | succ fuel inductionHypothesis =>
    rw [Stream.pick]
    cases picks : stream.pickNextOperation with
    | none =>
      exact ⟨idle, Stream.operations_of_pickNextOperation idle.listed picks⟩
    | some op =>
      have member := Stream.pickNextOperation_mem idle.listed picks
      by_cases failed : fails op = true
      · simp only [if_pos failed]
        apply inductionHypothesis (idle.completeOperation op)
        have shorter := Stream.length_operations_completeOperation member
        omega
      · simp only [if_neg failed]
        have current : ∀ other, some op = some other →
            other ∈ stream.operations := by
          rintro _ ⟨⟩
          exact member
        exact ⟨{ idle with current := current }, member⟩

/-! ## Settling the result -/

/-- A handler that is put on the queue is then the only one. -/
theorem Idle.schedule
    (idle : Idle stream) :
    Scheduled stream.schedule where
  used := idle.used
  sound := idle.sound
  running runs := absurd (idle.resting.symm.trans runs) Bool.false_ne_true
  paused _ := idle.suspended
  single := by simp [Stream.schedule, idle.unscheduled, idle.resting]
  live _ none := absurd none (Nat.succ_ne_zero _)

/-- A source that is resumed has been created or suspended once. -/
theorem Idle.resumeSource
    (idle : Idle stream) :
    Scheduled stream.resumeSource where
  used := by simp [Stream.resumeSource, idle.used, idle.resting]
  sound := by
    rcases idle.suspended with suspended | suspended <;>
      simp [Stream.resumeSource, idle.sound, suspended]
  running _ := by
    rcases idle.suspended with suspended | suspended <;>
      simp [Stream.resumeSource, suspended]
  paused rests := absurd rests.symm Bool.false_ne_true
  single := by simp [Stream.resumeSource, idle.unscheduled]
  live _ _ := rfl

/-- An idle stream is scheduled just if it has no operations. -/
theorem Idle.scheduled_iff
    (idle : Idle stream) :
    Scheduled stream ↔ stream.operations = [] := by
  constructor
  · intro scheduled
    by_contra waiting
    have runs := scheduled.live waiting idle.unscheduled
    exact absurd (idle.resting.symm.trans runs) Bool.false_ne_true
  · intro empty
    exact {
      used := idle.used
      sound := idle.sound
      running := fun runs =>
        absurd (idle.resting.symm.trans runs) Bool.false_ne_true
      paused := fun _ => idle.suspended
      single := by simp [idle.unscheduled, idle.resting]
      live := fun waiting => absurd empty waiting }

namespace Stream

theorem mem_operations_cleanupOperations
    (stream : Stream)
    (channel : Option Nat)
    (op : StreamOperation) :
    op ∈ (stream.cleanupOperations channel).operations ↔
      op ∈ stream.operations ∧ concerns channel op = false := by
  simp only [cleanupOperations]
  split <;>
    simp [suspendSource, operations, or_and_right]

/-- A cleanup keeps the lists in order, and suspends a source that has nothing
left to wait for. -/
theorem cleanupOperations_listed
    (listed : Listed stream)
    (channel : Option Nat) :
    Listed (stream.cleanupOperations channel) where
  streams op member := by
    apply listed.streams
    simp only [cleanupOperations] at member
    split at member <;> exact List.mem_of_mem_filter member
  randoms op member := by
    apply listed.randoms
    simp only [cleanupOperations] at member
    split at member <;> exact List.mem_of_mem_filter member
  current op isCurrent := by
    have kept :
        stream.op.filter (fun op => !concerns channel op) = some op := by
      simp only [cleanupOperations] at isCurrent
      split at isCurrent <;> exact isCurrent
    obtain ⟨wasCurrent, spared⟩ := Option.filter_eq_some_iff.mp kept
    rw [mem_operations_cleanupOperations]
    exact ⟨listed.current op wasCurrent, by simpa using spared⟩
  awaited runs := by
    simp only [cleanupOperations] at runs ⊢
    split at runs
    · cases runs
    · rename_i notSuspended
      rw [if_neg notSuspended, ← operationAvail_eq_true_iff]
      simp only [Bool.and_eq_true, Bool.not_eq_true', not_and,
        Bool.not_eq_false] at notSuspended
      exact notSuspended runs

end Stream

section

variable (idle : Idle stream)

include idle

/-- A cleanup leaves nothing outstanding. -/
theorem Idle.cleanupOperations
    (channel : Option Nat) :
    Idle (stream.cleanupOperations channel) := by
  have listed := Stream.cleanupOperations_listed idle.listed channel
  have unsuspended :
      stream.cleanupOperations channel =
        { stream with
          streamOps :=
            stream.streamOps.filter (fun op => !Stream.concerns channel op)
          randomOps :=
            stream.randomOps.filter (fun op => !Stream.concerns channel op)
          op := stream.op.filter (fun op => !Stream.concerns channel op) } := by
    simp [Stream.cleanupOperations, idle.resting]
  rw [unsuspended] at listed ⊢
  exact { idle with
    streams := listed.streams
    randoms := listed.randoms
    current := listed.current }

/-- A handler is put on the queue if there are operations for it. -/
theorem Idle.schedule_if_avail :
    Scheduled (if stream.operationAvail then stream.schedule else stream) ∧
      Listed (if stream.operationAvail then stream.schedule else stream) := by
  split
  · exact ⟨idle.schedule, { idle.listed with }⟩
  · rename_i unavailable
    rw [Bool.not_eq_true, Stream.operationAvail_eq_false_iff] at unavailable
    exact ⟨idle.scheduled_iff.mpr unavailable, idle.listed⟩

/-- The source is resumed if there are operations to wait for. -/
theorem Idle.resumeSource_if_avail :
    Scheduled (if stream.operationAvail then stream.resumeSource else stream) ∧
      Listed
        (if stream.operationAvail then stream.resumeSource else stream) := by
  split
  · rename_i available
    rw [Stream.operationAvail_eq_true_iff] at available
    exact ⟨idle.resumeSource,
      idle.streams, idle.randoms, idle.current, fun _ => available⟩
  · rename_i unavailable
    rw [Bool.not_eq_true, Stream.operationAvail_eq_false_iff] at unavailable
    exact ⟨idle.scheduled_iff.mpr unavailable, idle.listed⟩

/-- Any result keeps the lists in order. -/
theorem Idle.settle_listed
    (op : StreamOperation)
    (result : Result) :
    Listed (stream.settle op result) := by
  cases result with
  | deliver => exact idle.schedule_if_avail.2
  | complete | deliverAndComplete =>
    exact (idle.completeOperation op).schedule_if_avail.2
  | completeResume => exact (idle.completeOperation op).resumeSource_if_avail.2
  | resume => exact idle.resumeSource_if_avail.2
  | err => exact (idle.cleanupOperations _).listed
  | fdErr => exact idle.listed

/-- The result is settled as it should be just if it is not an error of the
descriptor, nor one of the channel with operations of another one left. -/
theorem Idle.settle_iff
    (member : op ∈ stream.operations)
    (result : Result) :
    Scheduled (stream.settle op result) ↔
      (result = .err →
        ∀ other ∈ stream.operations, other.channel = op.channel) ∧
      result ≠ .fdErr := by
  cases result with
  | deliver => simpa [Stream.settle] using idle.schedule_if_avail.1
  | complete | deliverAndComplete =>
    simpa [Stream.settle] using
      (idle.completeOperation op).schedule_if_avail.1
  | completeResume =>
    simpa [Stream.settle] using
      (idle.completeOperation op).resumeSource_if_avail.1
  | resume => simpa [Stream.settle] using idle.resumeSource_if_avail.1
  | err =>
    rw [Stream.settle, (idle.cleanupOperations _).scheduled_iff]
    simp [List.eq_nil_iff_forall_not_mem,
      Stream.mem_operations_cleanupOperations, Stream.concerns]
  | fdErr =>
    simp [Stream.settle, idle.scheduled_iff, List.ne_nil_of_mem member]

/-! ## One block of the queue -/

/-- The handler of an idle stream does as it should just if it leaves no
operation behind. -/
theorem Idle.handler_iff
    (fails : StreamOperation → Bool)
    (result : Result) :
    (Scheduled (stream.handler fails result) ↔
      LeavesNone stream fails result) ∧
    Listed (stream.handler fails result) := by
  have enough : stream.operations.length < stream.rounds := by
    simp [Stream.operations, Stream.rounds]
  have found := idle.pick fails enough
  rw [Stream.handler, LeavesNone]
  generalize stream.pick fails stream.rounds = outcome at found ⊢
  obtain ⟨picked, _ | op⟩ := outcome
  · obtain ⟨stillIdle, empty⟩ := found
    simpa [stillIdle.scheduled_iff, stillIdle.listed] using empty
  · obtain ⟨stillIdle, member⟩ := found
    exact ⟨stillIdle.settle_iff member result,
      stillIdle.settle_listed op result⟩

end

/-- A handler block takes the place on the queue that it had. -/
theorem Scheduled.idle_of_queueHandler
    (scheduled : Scheduled stream)
    (listed : Listed stream)
    (queued : stream.handlers ≠ 0) :
    Idle { stream with handlers := stream.handlers - 1 } := by
  have single := scheduled.single
  have resting : stream.sourceRunning = false := by
    cases runs : stream.sourceRunning with
    | false => rfl
    | true =>
      rw [runs, Bool.toNat_true] at single
      omega
  exact {
    used := scheduled.used
    sound := scheduled.sound
    resting := resting
    suspended := scheduled.paused resting
    unscheduled := by
      change stream.handlers - 1 = 0
      omega
    streams := listed.streams
    randoms := listed.randoms
    current := listed.current }

/-- The handler of the source suspends it. -/
theorem Scheduled.idle_of_sourceHandler
    (scheduled : Scheduled stream)
    (listed : Listed stream)
    (resumed : stream.source = some 0) :
    Idle stream.suspendSource := by
  have runs : stream.sourceRunning = true := by
    by_contra rests
    rcases scheduled.paused (Bool.eq_false_of_not_eq_true rests)
      with source | source <;>
    · rw [resumed] at source
      cases source
  have single := scheduled.single
  rw [runs, Bool.toNat_true] at single
  exact {
    used := by simp [Stream.suspendSource, scheduled.used, runs]
    sound := scheduled.sound
    resting := rfl
    suspended := by simp [Stream.suspendSource, resumed]
    unscheduled := by
      change stream.handlers = 0
      omega
    streams := listed.streams
    randoms := listed.randoms
    current := listed.current }

/-- A cleanup suspends the source only if it runs. -/
theorem Scheduled.cleanupOperations
    (scheduled : Scheduled stream)
    (channel : Option Nat) :
    Scheduled (stream.cleanupOperations channel) := by
  have live :
      (stream.cleanupOperations channel).operations ≠ [] →
        stream.operations ≠ [] := by
    intro waiting
    obtain ⟨op, member⟩ := List.exists_mem_of_ne_nil _ waiting
    rw [Stream.mem_operations_cleanupOperations] at member
    exact List.ne_nil_of_mem member.1
  simp only [Stream.cleanupOperations] at live ⊢
  split
  · rename_i suspends
    obtain ⟨runs, unavailable⟩ := Bool.and_eq_true_iff.mp suspends
    rw [Bool.not_eq_true', Stream.operationAvail_eq_false_iff] at unavailable
    have single := scheduled.single
    rw [runs, Bool.toNat_true] at single
    exact {
      used := by simp [Stream.suspendSource, scheduled.used, runs]
      sound := scheduled.sound
      running := fun runsAfter => by cases runsAfter
      paused := fun _ => by simp [Stream.suspendSource, scheduled.running runs]
      single := by
        change stream.handlers + 0 ≤ 1
        omega
      live := fun waiting => absurd unavailable waiting }
  · rename_i suspends
    rw [if_neg suspends] at live
    exact { scheduled with
      live := fun waiting => scheduled.live (live waiting) }

namespace Stream

theorem mem_operations_insertTail
    (stream : Stream)
    (op other : StreamOperation) :
    other ∈ (stream.insertTail op).operations ↔
      other ∈ stream.operations ∨ other = op := by
  unfold insertTail
  split <;>
  · simp only [operations, List.mem_append, List.mem_singleton]
    tauto

/-- A new operation goes to the list of its type. -/
theorem insertTail_listed
    (listed : Listed stream)
    (op : StreamOperation) :
    Listed (stream.insertTail op) where
  streams other member := by
    unfold insertTail at member
    split at member
    · rename_i isStream
      rcases List.mem_append.mp member with earlier | new
      · exact listed.streams other earlier
      · exact List.mem_singleton.mp new ▸ isStream
    · exact listed.streams other member
  randoms other member := by
    unfold insertTail at member
    split at member
    · exact listed.randoms other member
    · rename_i isRandom
      rcases List.mem_append.mp member with earlier | new
      · exact listed.randoms other earlier
      · exact List.mem_singleton.mp new ▸ isRandom
  current other isCurrent := by
    rw [mem_operations_insertTail]
    apply Or.inl
    apply listed.current
    unfold insertTail at isCurrent
    split at isCurrent <;> exact isCurrent
  awaited _ := by
    have member := (mem_operations_insertTail stream op op).mpr (.inr rfl)
    exact List.ne_nil_of_mem member

theorem enqueueOperation_listed
    (listed : Listed stream)
    (op : StreamOperation) :
    Listed (stream.enqueueOperation op) := by
  have inserted := insertTail_listed listed op
  simp only [enqueueOperation]
  split
  · exact inserted
  · exact { inserted with }

/-- Inserting an operation changes only the lists. -/
theorem insertTail_control (stream : Stream) (op : StreamOperation) :
    (stream.insertTail op).misused = stream.misused ∧
      (stream.insertTail op).crashed = stream.crashed ∧
      (stream.insertTail op).source = stream.source ∧
      (stream.insertTail op).sourceRunning = stream.sourceRunning ∧
      (stream.insertTail op).handlers = stream.handlers := by
  unfold insertTail
  split <;> exact ⟨rfl, rfl, rfl, rfl, rfl⟩

end Stream

section

variable (scheduled : Scheduled stream)

include scheduled

/-- An operation that joins others is scheduled with them. -/
theorem Scheduled.insertTail
    (waiting : stream.operations ≠ [])
    (op : StreamOperation) :
    Scheduled (stream.insertTail op) := by
  obtain ⟨misused, crashed, source, sourceRunning, handlers⟩ :=
    stream.insertTail_control op
  constructor
  · rw [misused]
    exact scheduled.used
  · rw [crashed]
    exact scheduled.sound
  · rw [sourceRunning, source]
    exact scheduled.running
  · rw [sourceRunning, source]
    exact scheduled.paused
  · rw [handlers, sourceRunning]
    exact scheduled.single
  · rw [handlers, sourceRunning]
    exact fun _ => scheduled.live waiting

/-- An empty stream without a handler on its queue is idle. -/
theorem Scheduled.idle_of_empty
    (listed : Listed stream)
    (empty : stream.operations = [])
    (unscheduled : stream.handlers = 0) :
    Idle stream := by
  have resting : stream.sourceRunning = false := by
    by_contra runs
    exact listed.awaited (Bool.eq_true_of_not_eq_false runs) empty
  exact {
    used := scheduled.used
    sound := scheduled.sound
    resting := resting
    suspended := scheduled.paused resting
    unscheduled := unscheduled
    streams := listed.streams
    randoms := listed.randoms
    current := listed.current }

/-- A new operation is scheduled as it should just if no handler was on the
queue of an empty stream. -/
theorem Scheduled.enqueueOperation_iff
    (listed : Listed stream)
    (op : StreamOperation) :
    Scheduled (stream.enqueueOperation op) ↔
      (stream.operations = [] → stream.handlers = 0) := by
  obtain ⟨misused, crashed, source, sourceRunning, handlers⟩ :=
    stream.insertTail_control op
  simp only [Stream.enqueueOperation]
  split
  · rename_i available
    rw [Stream.operationAvail_eq_true_iff] at available
    exact iff_of_true (scheduled.insertTail available op)
      (fun empty => absurd empty available)
  · rename_i unavailable
    rw [Bool.not_eq_true, Stream.operationAvail_eq_false_iff] at unavailable
    constructor
    · intro after _
      have single := after.single
      simp only [Stream.schedule, handlers] at single
      omega
    · intro unscheduled
      have idle := scheduled.idle_of_empty listed unavailable
        (unscheduled unavailable)
      have inserted := Stream.insertTail_listed listed op
      have stillIdle : Idle (stream.insertTail op) := {
        used := misused.trans idle.used
        sound := crashed.trans idle.sound
        resting := sourceRunning.trans idle.resting
        suspended := by
          rw [source]
          exact idle.suspended
        unscheduled := handlers.trans idle.unscheduled
        streams := inserted.streams
        randoms := inserted.randoms
        current := inserted.current }
      exact stillIdle.schedule

/-- A block keeps the lists in order, and does as it should just if it meets the
condition. -/
theorem Scheduled.next_iff
    {after : Stream}
    (listed : Listed stream)
    {event : StreamEvent}
    (runs : stream.next event = some after) :
    (Scheduled after ↔ Orderly stream event) ∧ Listed after := by
  cases event with
  | enqueue op =>
    rw [Stream.next] at runs
    split at runs
    · cases runs
    · cases runs
      exact ⟨scheduled.enqueueOperation_iff listed op,
        Stream.enqueueOperation_listed listed op⟩
  | queueHandler fails result =>
    rw [Stream.next] at runs
    split at runs
    · cases runs
    · rename_i queued
      cases runs
      have idle := scheduled.idle_of_queueHandler listed
        (fun none => queued (.inr none))
      exact idle.handler_iff fails result
  | sourceHandler fails result =>
    rw [Stream.next] at runs
    split at runs
    · cases runs
    · rename_i resumed
      cases runs
      have idle := scheduled.idle_of_sourceHandler listed
        (not_not.mp fun suspended => resumed (.inr suspended))
      exact idle.handler_iff fails result
  | cleanup channel =>
    rw [Stream.next] at runs
    split at runs
    · cases runs
    · cases runs
      exact ⟨iff_of_true (scheduled.cleanupOperations channel) trivial,
        Stream.cleanupOperations_listed listed channel⟩

end

/-! ## Every run -/

theorem init_scheduled : Scheduled Stream.init where
  used := rfl
  sound := rfl
  running runs := by cases runs
  paused _ := .inl rfl
  single := Nat.zero_le 1
  live waiting := absurd rfl waiting

theorem init_listed : Listed Stream.init where
  streams _ member := by cases member
  randoms _ member := by cases member
  current _ isCurrent := by cases isCurrent
  awaited runs := by cases runs

/-- After blocks that all meet the condition the stream is scheduled as it
should, and any next block keeps it so just if it meets the condition too. -/
theorem reachable_scheduled_iff
    {stream : Stream}
    (reached : Reachable (· = Stream.init) OrderlyStep stream) :
    Scheduled stream ∧
      ∀ event after, stream.next event = some after →
        (Scheduled after ↔ Orderly stream event) := by
  have kept : Scheduled stream ∧ Listed stream := by
    induction reached with
    | start isInitial =>
      rw [isInitial]
      exact ⟨init_scheduled, init_listed⟩
    | next earlier last inductionHypothesis =>
      obtain ⟨scheduled, listed⟩ := inductionHypothesis
      obtain ⟨event, orderly, runs⟩ := last
      obtain ⟨scheduledAfter, listedAfter⟩ := scheduled.next_iff listed runs
      exact ⟨scheduledAfter.mpr orderly, listedAfter⟩
  obtain ⟨scheduled, listed⟩ := kept
  exact ⟨scheduled, fun event after runs =>
    (scheduled.next_iff listed runs).1⟩

/-- A read of a socket that waits for the descriptor once: the operation is
enqueued, its handler resumes the source, and the handler of the source
completes the operation. -/
theorem oneRead_scheduled :
    ∃ stream,
      afterEvents Stream.next .init
        [.enqueue ⟨1, 1, .stream⟩, .queueHandler (fun _ => false) .resume,
          .sourceHandler (fun _ => false) .complete] = some stream ∧
      Scheduled stream ∧ stream.operations = [] := by
  have start : Reachable (· = Stream.init) OrderlyStep Stream.init :=
    .start rfl
  have enqueued := start.next ⟨.enqueue ⟨1, 1, .stream⟩, fun _ => rfl, rfl⟩
  have waiting := enqueued.next
    ⟨.queueHandler (fun _ => false) .resume,
      ⟨Result.noConfusion, Result.noConfusion⟩, rfl⟩
  have completed := waiting.next
    ⟨.sourceHandler (fun _ => false) .complete,
      ⟨Result.noConfusion, Result.noConfusion⟩, rfl⟩
  exact ⟨_, rfl, (reachable_scheduled_iff completed).1, rfl⟩

/-- A channel is stopped while the handler for its operation is on the queue,
and an operation of another channel is enqueued: two handlers are outstanding.
When both find that the operation has to wait, the source is resumed twice. -/
theorem stoppedChannel_resumesTwice :
    (∃ stream,
      afterEvents Stream.next .init
        [.enqueue ⟨1, 1, .stream⟩, .cleanup (some 1),
          .enqueue ⟨2, 2, .stream⟩] = some stream ∧
      stream.handlers = 2 ∧ ¬ Scheduled stream) ∧
    (∃ stream,
      afterEvents Stream.next .init
        [.enqueue ⟨1, 1, .stream⟩, .cleanup (some 1),
          .enqueue ⟨2, 2, .stream⟩, .queueHandler (fun _ => false) .resume,
          .queueHandler (fun _ => false) .resume] = some stream ∧
      stream.crashed = true) ∧
    (∃ stream,
      afterEvents Stream.next .init
        [.enqueue ⟨1, 1, .stream⟩, .enqueue ⟨2, 2, .stream⟩,
          .queueHandler (fun _ => false) .err] = some stream ∧
      stream.operations = [⟨2, 2, .stream⟩] ∧
      stream.handlers = 0 ∧ stream.sourceRunning = false) := by
  refine ⟨⟨_, rfl, rfl, ?_⟩, ⟨_, rfl, rfl⟩, ⟨_, rfl, rfl, rfl, rfl⟩⟩
  intro scheduled
  exact absurd scheduled.single (by decide)

end LibDispatch.DispatchIo
