import LibDispatch.Reachability
import Mathlib

namespace LibDispatch.DispatchIo

/-!
# Barriers of a descriptor entry

All operations of the channels of one descriptor entry pass through its barrier
queue, a serial queue, where each enters the barrier group; it leaves the group
when it is disposed of.  A barrier suspends the queue from a block that runs on
it and resumes it from a notification of the group.

Operations are performed on the stream and disk queues, where they are retained
and released in many ways.  Here these queues may do so in any order, for as
long as there are references; the last release disposes of the operation.
-/

/-- What has become of an operation. -/
inductive Phase where
  /-- It is not created yet. -/
  | unborn
  /-- The block that enqueues it is on the barrier queue. -/
  | waiting
  /-- It is in the group and is handed to a stream or disk queue. -/
  | entered (references : Nat)
  /-- `_dispatch_operation_dispose` has begun. -/
  | disposing
  /-- Its final handler invocation is submitted, and it has to leave the
  group. -/
  | delivered
  | disposed
  deriving DecidableEq, Repr

namespace Phase

/-- The operation counts in the group. -/
def inside : Phase → Bool
  | entered _ | disposing | delivered => true
  | unborn | waiting | disposed => false

/-- The step that enqueues the operation is still to come. -/
def early : Phase → Bool
  | unborn | waiting => true
  | entered _ | disposing | delivered | disposed => false

end Phase

/-- The blocks of the barrier queue. -/
inductive BarrierTask where
  /-- `_dispatch_operation_enqueue`. -/
  | enqueue (op : Nat)
  /-- The block of `dispatch_io_barrier`. -/
  | barrier (id : Nat)
  /-- The first block of an entry, which has the disk looked up. -/
  | setUp
  /-- Blocks that neither enter the group nor suspend the queue. -/
  | other
  deriving DecidableEq, Repr

/-- A `dispatch_fd_entry_s` with its barrier queue and its barrier group.  The
value of the group is `count`; the blocks of its notifications wait, are
submitted, and run.  The last three fields record what happened. -/
structure Entry where
  queue : List BarrierTask
  suspensions : Nat
  setUps : Nat
  count : Nat
  notifications : List Nat
  submitted : List Nat
  running : List Nat
  operations : Nat → Phase
  finals : List Nat
  history : List BarrierTask
  returned : List Nat

namespace Entry

/-- `_dispatch_fd_entry_create_with_fd` or `_dispatch_fd_entry_create_with_path`,
before any block is submitted. -/
def create : Entry where
  queue := []
  suspensions := 0
  setUps := 0
  count := 0
  notifications := []
  submitted := []
  running := []
  operations := fun _ => .unborn
  finals := []
  history := []
  returned := []

variable (entry : Entry)

def setPhase (op : Nat) (phase : Phase) : Entry :=
  { entry with operations := Function.update entry.operations op phase }

/-- `dispatch_async` on the barrier queue.  Operations and barriers are
numbered, and submitted once. -/
def submit (task : BarrierTask) : Option Entry :=
  match task with
  | .enqueue op =>
    if entry.operations op = .unborn then
      some { entry.setPhase op .waiting with
        queue := entry.queue ++ [.enqueue op] }
    else none
  | .barrier id =>
    if .barrier id ∈ entry.history ++ entry.queue then none
    else some { entry with queue := entry.queue ++ [.barrier id] }
  | .setUp => some { entry with queue := entry.queue ++ [.setUp] }
  | .other => some { entry with queue := entry.queue ++ [.other] }

/-- `_dispatch_operation_enqueue`.  On a closed or stopped channel the handler
is submitted at once and the operation released. -/
def operationEnqueue (op : Nat) (refused : Bool) : Entry :=
  if refused then
    { entry.setPhase op .disposed with finals := entry.finals ++ [op] }
  else
    { entry.setPhase op (.entered 1) with count := entry.count + 1 }

/-- `dispatch_group_notify` with the block of a barrier. -/
def groupNotify (id : Nat) : Entry :=
  if entry.count = 0 then
    { entry with submitted := entry.submitted ++ [id] }
  else
    { entry with notifications := entry.notifications ++ [id] }

/-- The effect of a block of the barrier queue. -/
def perform (refused : Bool) : BarrierTask → Entry
  | .enqueue op => entry.operationEnqueue op refused
  | .barrier id =>
    { entry with suspensions := entry.suspensions + 1 }.groupNotify id
  | .setUp =>
    { entry with
      suspensions := entry.suspensions + 1
      setUps := entry.setUps + 1 }
  | .other => entry

/-- The barrier queue runs its first block unless it is suspended. -/
def runFirst (refused : Bool) : Option Entry :=
  if entry.suspensions = 0 then
    match entry.queue with
    | [] => none
    | task :: rest =>
      some ({ entry with
        queue := rest
        history := entry.history ++ [task] }.perform refused task)
  else none

/-- The lookup of the disk ends and resumes the barrier queue. -/
def finishSetUp : Option Entry :=
  if entry.setUps = 0 then none
  else some { entry with
    setUps := entry.setUps - 1
    suspensions := entry.suspensions - 1 }

/-- A read or write, which needs an operation with references. -/
def systemCall (op : Nat) : Option Entry :=
  match entry.operations op with
  | .entered _ => some entry
  | _ => none

/-- `_dispatch_retain` of an operation. -/
def retain (op : Nat) : Option Entry :=
  match entry.operations op with
  | .entered references => some (entry.setPhase op (.entered (references + 1)))
  | _ => none

/-- `_dispatch_release` of an operation. -/
def release (op : Nat) : Option Entry :=
  match entry.operations op with
  | .entered references =>
    if references ≤ 1 then some (entry.setPhase op .disposing)
    else some (entry.setPhase op (.entered (references - 1)))
  | _ => none

/-- `_dispatch_operation_deliver_data` of a disposal, with `DOP_DONE`. -/
def deliverData (op : Nat) : Option Entry :=
  if entry.operations op = .disposing then
    some { entry.setPhase op .delivered with finals := entry.finals ++ [op] }
  else none

/-- `dispatch_group_leave` of a disposal.  The notifications of a group whose
value becomes zero are submitted. -/
def groupLeave (op : Nat) : Option Entry :=
  if entry.operations op = .delivered then
    let left := { entry.setPhase op .disposed with count := entry.count - 1 }
    some (if left.count = 0 then
      { left with
        submitted := left.submitted ++ left.notifications
        notifications := [] }
    else left)
  else none

/-- The block of a notification begins to run the barrier. -/
def startBarrier (id : Nat) : Option Entry :=
  if id ∈ entry.submitted then
    some { entry with
      submitted := entry.submitted.erase id
      running := entry.running ++ [id] }
  else none

/-- The barrier returns and the barrier queue is resumed. -/
def returnBarrier (id : Nat) : Option Entry :=
  if id ∈ entry.running then
    some { entry with
      running := entry.running.erase id
      returned := entry.returned ++ [id]
      suspensions := entry.suspensions - 1 }
  else none

end Entry

/-- What can happen next. -/
inductive EntryEvent where
  | submit (task : BarrierTask)
  | runFirst (refused : Bool)
  | finishSetUp
  | systemCall (op : Nat)
  | retain (op : Nat)
  | release (op : Nat)
  | deliverData (op : Nat)
  | groupLeave (op : Nat)
  | startBarrier (id : Nat)
  | returnBarrier (id : Nat)
  deriving DecidableEq, Repr

variable (entry : Entry)

/-- The effect of an event, none if it cannot happen. -/
def Entry.next : EntryEvent → Option Entry
  | .submit task => entry.submit task
  | .runFirst refused => entry.runFirst refused
  | .finishSetUp => entry.finishSetUp
  | .systemCall op => entry.systemCall op
  | .retain op => entry.retain op
  | .release op => entry.release op
  | .deliverData op => entry.deliverData op
  | .groupLeave op => entry.groupLeave op
  | .startBarrier id => entry.startBarrier id
  | .returnBarrier id => entry.returnBarrier id

/-- One event of a descriptor entry. -/
def EntryStep (entry after : Entry) : Prop :=
  ∃ event, entry.next event = some after

/-- The order of two blocks among those that the barrier queue ran. -/
def Precedes (first second : BarrierTask) (history : List BarrierTask) : Prop :=
  ∃ earlier between later,
    history = earlier ++ first :: between ++ second :: later

/-! ## The invariant -/

/-- The operations that are enqueued by some blocks. -/
def enqueuedBy (tasks : List BarrierTask) : List Nat :=
  tasks.filterMap fun task =>
    match task with
    | .enqueue op => some op
    | _ => none

/-- The barriers that suspend the queue. -/
def Entry.outstanding : List Nat :=
  entry.notifications ++ entry.submitted ++ entry.running

/-- The operations that the barrier queue has enqueued and that are in the
group. -/
def Entry.insiders : Nat :=
  (enqueuedBy entry.history).countP fun op => (entry.operations op).inside

/-- One barrier at most suspends the queue, and none of its blocks runs until
the group was empty. -/
structure Ordered (entry : Entry) : Prop where
  balanced :
    entry.suspensions = entry.setUps + entry.outstanding.length
  alone : entry.suspensions ≤ 1
  counted : entry.count = entry.insiders
  distinct : (enqueuedBy (entry.history ++ entry.queue)).Nodup
  queued :
    ∀ op ∈ enqueuedBy entry.queue, entry.operations op = .waiting
  past :
    ∀ op ∈ enqueuedBy entry.history, (entry.operations op).early = false
  future :
    ∀ op, (entry.operations op).early = false →
      op ∈ enqueuedBy entry.history
  empty : entry.submitted ++ entry.running ≠ [] → entry.count = 0
  final :
    ∀ op, (entry.operations op = .delivered ∨
      entry.operations op = .disposed) → op ∈ entry.finals
  accounted :
    ∀ id, .barrier id ∈ entry.history →
      id ∈ entry.outstanding ∨ id ∈ entry.returned
  last :
    ∀ earlier id later, entry.history = earlier ++ .barrier id :: later →
      later ≠ [] → id ∈ entry.returned

/-! ## Changing one operation -/

@[simp] theorem enqueuedBy_append (first second : List BarrierTask) :
    enqueuedBy (first ++ second) = enqueuedBy first ++ enqueuedBy second :=
  List.filterMap_append

@[simp] theorem mem_enqueuedBy (tasks : List BarrierTask) (op : Nat) :
    op ∈ enqueuedBy tasks ↔ .enqueue op ∈ tasks := by
  rw [enqueuedBy, List.mem_filterMap]
  constructor
  · rintro ⟨task, member, extracts⟩
    cases task with
    | enqueue other =>
      cases extracts
      exact member
    | barrier | setUp | other => cases extracts
  · intro member
    exact ⟨_, member, rfl⟩

variable {phase : Phase}

/-- In a list without repetitions, one fewer is counted when one of them no
longer counts. -/
theorem countP_update
    {ops : List Nat}
    (distinct : ops.Nodup)
    {op : Nat}
    (member : op ∈ ops)
    {phases : Nat → Phase}
    (inside : (phases op).inside = true)
    (outside : phase.inside = false) :
    (ops.countP fun other =>
        (Function.update phases op phase other).inside) + 1 =
      ops.countP fun other => (phases other).inside := by
  have apart := List.perm_cons_erase member
  rw [apart.countP_eq, apart.countP_eq, List.countP_cons, List.countP_cons]
  simp only [Function.update_self, outside, inside, Bool.false_eq_true,
    if_false, if_true, Nat.add_zero]
  congr 1
  apply List.countP_congr
  intro other remains
  rw [Function.update_of_ne (distinct.mem_erase_iff.mp remains).1]

/-- The phases of the others do not change. -/
theorem Entry.setPhase_operations
    (op other : Nat)
    (phase : Phase) :
    (entry.setPhase op phase).operations other =
      if other = op then phase else entry.operations other :=
  Function.update_apply ..

namespace Ordered

/-- An operation that stays on its side of the group's count and of the step
that enqueues it. -/
theorem setPhase
    {entry : Entry}
    (ordered : Ordered entry)
    {op : Nat}
    (sameInside : phase.inside = (entry.operations op).inside)
    (sameEarly : phase.early = (entry.operations op).early)
    (notQueued : entry.operations op ≠ .waiting)
    (finals : List Nat)
    (final : phase = .delivered ∨ phase = .disposed → op ∈ finals)
    (more : entry.finals ⊆ finals) :
    Ordered { entry.setPhase op phase with finals := finals } := by
  have inside : ∀ other,
      ((entry.setPhase op phase).operations other).inside =
        (entry.operations other).inside := by
    intro other
    rw [entry.setPhase_operations]
    split
    · rename_i same
      rw [same, sameInside]
    · rfl
  have early : ∀ other,
      ((entry.setPhase op phase).operations other).early =
        (entry.operations other).early := by
    intro other
    rw [entry.setPhase_operations]
    split
    · rename_i same
      rw [same, sameEarly]
    · rfl
  refine { ordered with
    counted := ?_, queued := ?_, past := ?_, future := ?_, final := ?_ }
  · simp only [Entry.insiders, inside]
    exact ordered.counted
  · intro other member
    have waits := ordered.queued other member
    have differs : other ≠ op := by
      rintro rfl
      exact notQueued waits
    simp only [entry.setPhase_operations, if_neg differs]
    exact waits
  · intro other member
    rw [early]
    exact ordered.past other member
  · intro other late
    rw [early] at late
    exact ordered.future other late
  · intro other late
    simp only [entry.setPhase_operations] at late
    split at late
    · rename_i same
      exact same ▸ final late
    · exact more (ordered.final other late)

/-- An operation with references keeps them, or is about to be disposed of. -/
theorem setPhase_of_entered
    {entry : Entry}
    (ordered : Ordered entry)
    {op references : Nat}
    (entered : entry.operations op = .entered references)
    (next : (∃ others, phase = .entered others) ∨ phase = .disposing) :
    Ordered (entry.setPhase op phase) := by
  have stays :
      phase.inside = true ∧ phase.early = false ∧
        ¬ (phase = .delivered ∨ phase = .disposed) := by
    rcases next with ⟨others, rfl⟩ | rfl <;> simp [Phase.inside, Phase.early]
  refine ordered.setPhase ?_ ?_ ?_ entry.finals
    (fun isLate => absurd isLate stays.2.2) (List.Subset.refl _)
  · rw [entered, stays.1]
    rfl
  · rw [entered, stays.2.1]
    rfl
  · rw [entered]
    exact Phase.noConfusion

section

variable {entry after : Entry} {op id : Nat} (ordered : Ordered entry)

include ordered

theorem retain
    (happens : entry.retain op = some after) :
    Ordered after := by
  rw [Entry.retain] at happens
  split at happens
  · rename_i references entered
    cases happens
    exact ordered.setPhase_of_entered entered (.inl ⟨_, rfl⟩)
  · cases happens

theorem release
    (happens : entry.release op = some after) :
    Ordered after := by
  rw [Entry.release] at happens
  split at happens
  · rename_i references entered
    split at happens
    · cases happens
      exact ordered.setPhase_of_entered entered (.inr rfl)
    · cases happens
      exact ordered.setPhase_of_entered entered (.inl ⟨_, rfl⟩)
  · cases happens

theorem deliverData
    (happens : entry.deliverData op = some after) :
    Ordered after := by
  rw [Entry.deliverData] at happens
  split at happens
  · rename_i disposing
    cases happens
    refine ordered.setPhase ?_ ?_ ?_ (entry.finals ++ [op]) ?_ ?_
    · rw [disposing]
      rfl
    · rw [disposing]
      rfl
    · rw [disposing]
      exact Phase.noConfusion
    · intro _
      exact List.mem_append_right _ (List.mem_singleton_self op)
    · exact List.subset_append_left _ _
  · cases happens

/-- The operation leaves the group, before its notifications are looked at. -/
theorem disposed
    (delivered : entry.operations op = .delivered) :
    Ordered { entry.setPhase op .disposed with count := entry.count - 1 } := by
  have member : op ∈ enqueuedBy entry.history := by
    apply ordered.future
    rw [delivered]
    rfl
  have distinct : (enqueuedBy entry.history).Nodup := by
    have all := ordered.distinct
    rw [enqueuedBy_append] at all
    exact all.of_append_left
  have fewer :=
    @countP_update .disposed _ distinct _ member entry.operations
      (by rw [delivered]; rfl) rfl
  refine { ordered with
    counted := ?_, queued := ?_, past := ?_, future := ?_, empty := ?_,
    final := ?_ }
  · have counted := ordered.counted
    simp only [Entry.insiders, Entry.setPhase] at counted ⊢
    omega
  · intro other queued
    have waits := ordered.queued other queued
    have differs : other ≠ op := by
      rintro rfl
      cases delivered.symm.trans waits
    simp only [entry.setPhase_operations, if_neg differs]
    exact waits
  · intro other past
    simp only [entry.setPhase_operations]
    split
    · rfl
    · exact ordered.past other past
  · intro other late
    simp only [entry.setPhase_operations] at late
    split at late
    · rename_i same
      exact same ▸ member
    · exact ordered.future other late
  · intro started
    have none := ordered.empty started
    change entry.count - 1 = 0
    omega
  · intro other late
    simp only [entry.setPhase_operations] at late
    split at late
    · rename_i same
      exact same ▸ ordered.final op (.inl delivered)
    · exact ordered.final other late

theorem groupLeave
    (happens : entry.groupLeave op = some after) :
    Ordered after := by
  rw [Entry.groupLeave] at happens
  split at happens
  · rename_i delivered
    have left := ordered.disposed delivered
    cases happens
    split
    · rename_i none
      -- the barrier goes from the notifications to the submitted blocks
      refine { left with
        balanced := ?_, empty := fun _ => none, accounted := ?_ }
      · have balanced := left.balanced
        simp only [Entry.outstanding, List.length_append, List.length_nil]
          at balanced ⊢
        omega
      · intro id member
        have accounted := left.accounted id member
        simp only [Entry.outstanding, List.mem_append, List.not_mem_nil]
          at accounted ⊢
        tauto
    · exact left
  · cases happens

theorem startBarrier
    (happens : entry.startBarrier id = some after) :
    Ordered after := by
  rw [Entry.startBarrier] at happens
  split at happens
  · rename_i member
    cases happens
    refine { ordered with balanced := ?_, empty := ?_, accounted := ?_ }
    · have balanced := ordered.balanced
      have shorter := List.length_erase_of_mem member
      have nonempty := List.length_pos_of_mem member
      simp only [Entry.outstanding, List.length_append, List.length_singleton]
        at balanced ⊢
      omega
    · intro _
      apply ordered.empty
      exact List.append_ne_nil_of_left_ne_nil (List.ne_nil_of_mem member) _
    · intro other task
      rcases ordered.accounted other task with outstanding | returned
      · left
        by_cases same : other = id
        · simp [Entry.outstanding, same]
        · simp only [Entry.outstanding, List.mem_append] at outstanding ⊢
          rw [List.mem_erase_of_ne same]
          tauto
      · exact .inr returned
  · cases happens

theorem returnBarrier
    (happens : entry.returnBarrier id = some after) :
    Ordered after := by
  rw [Entry.returnBarrier] at happens
  split at happens
  · rename_i member
    cases happens
    have balanced := ordered.balanced
    have alone := ordered.alone
    refine { ordered with
      balanced := ?_, alone := ?_, empty := ?_, accounted := ?_, last := ?_ }
    · have shorter := List.length_erase_of_mem member
      have nonempty := List.length_pos_of_mem member
      simp only [Entry.outstanding, List.length_append] at balanced ⊢
      omega
    · change entry.suspensions - 1 ≤ 1
      omega
    · intro _
      apply ordered.empty
      exact List.append_ne_nil_of_right_ne_nil _ (List.ne_nil_of_mem member)
    · intro other task
      rcases ordered.accounted other task with outstanding | returned
      · by_cases same : other = id
        · right
          simp [same]
        · left
          simp only [Entry.outstanding, List.mem_append] at outstanding ⊢
          rw [List.mem_erase_of_ne same]
          exact outstanding
      · exact .inr (List.mem_append_left _ returned)
    · intro earlier other later shape more
      exact List.mem_append_left _ (ordered.last earlier other later shape more)
  · cases happens

theorem finishSetUp
    (happens : entry.finishSetUp = some after) :
    Ordered after := by
  rw [Entry.finishSetUp] at happens
  split at happens
  · cases happens
  · cases happens
    have balanced := ordered.balanced
    have alone := ordered.alone
    refine { ordered with balanced := ?_, alone := ?_ }
    · simp only [Entry.outstanding] at balanced ⊢
      omega
    · change entry.suspensions - 1 ≤ 1
      omega

variable {task : BarrierTask}

/-- A block that enqueues nothing joins the queue. -/
theorem submit_plain
    (plain : enqueuedBy [task] = []) :
    Ordered { entry with queue := entry.queue ++ [task] } := by
  refine { ordered with distinct := ?_, queued := ?_ }
  · have distinct := ordered.distinct
    simpa only [enqueuedBy_append, plain, List.append_nil] using distinct
  · intro op member
    rw [enqueuedBy_append, plain, List.append_nil] at member
    exact ordered.queued op member

theorem submit_enqueue
    (unborn : entry.operations op = .unborn) :
    Ordered { entry.setPhase op .waiting with
      queue := entry.queue ++ [.enqueue op] } := by
  have notQueued : op ∉ enqueuedBy entry.queue := by
    intro member
    cases unborn.symm.trans (ordered.queued op member)
  have notPast : op ∉ enqueuedBy entry.history := by
    intro member
    have late := ordered.past op member
    rw [unborn] at late
    cases late
  have created : Ordered (entry.setPhase op .waiting) := by
    refine ordered.setPhase ?_ ?_ ?_ entry.finals ?_ (List.Subset.refl _)
    · rw [unborn]
      rfl
    · rw [unborn]
      rfl
    · rw [unborn]
      exact Phase.noConfusion
    · rintro (isLate | isLate) <;> cases isLate
  refine { created with distinct := ?_, queued := ?_ }
  · have distinct := ordered.distinct
    change (enqueuedBy (entry.history ++ (entry.queue ++ [.enqueue op]))).Nodup
    rw [← List.append_assoc, enqueuedBy_append]
    refine distinct.append (List.nodup_singleton op) ?_
    intro other earlier new
    obtain rfl := List.mem_singleton.mp new
    rw [enqueuedBy_append] at earlier
    exact (List.mem_append.mp earlier).elim notPast notQueued
  · intro other member
    simp only [entry.setPhase_operations]
    split
    · rfl
    · rename_i differs
      apply ordered.queued
      simpa [differs] using member

theorem submit
    (happens : entry.submit task = some after) :
    Ordered after := by
  cases task with
  | enqueue op =>
    rw [Entry.submit] at happens
    split at happens
    · rename_i unborn
      cases happens
      exact ordered.submit_enqueue unborn
    · cases happens
  | barrier id =>
    rw [Entry.submit] at happens
    split at happens
    · cases happens
    · cases happens
      exact ordered.submit_plain rfl
  | setUp | other =>
    cases happens
    exact ordered.submit_plain rfl

section

variable (resumed : entry.suspensions = 0)

include resumed

/-- A queue that is not suspended has no barrier outstanding. -/
theorem none_outstanding :
    entry.setUps = 0 ∧ entry.notifications = [] ∧ entry.submitted = [] ∧
      entry.running = [] := by
  have balanced := ordered.balanced
  have none : entry.outstanding = [] :=
    List.eq_nil_of_length_eq_zero (by omega)
  obtain ⟨noneWait, noneRuns⟩ := List.append_eq_nil_iff.mp none
  obtain ⟨noneNotified, noneSubmitted⟩ := List.append_eq_nil_iff.mp noneWait
  exact ⟨by omega, noneNotified, noneSubmitted, noneRuns⟩

/-- The barriers that were run have all returned. -/
theorem returned_of_mem
    (member : .barrier id ∈ entry.history) :
    id ∈ entry.returned := by
  refine (ordered.accounted id member).resolve_left ?_
  simp [Entry.outstanding, ordered.none_outstanding resumed]

/-- The first block moves to the history.  The barriers before it have all
returned. -/
theorem history_append
    (task : BarrierTask) :
    ∀ earlier id later,
      entry.history ++ [task] = earlier ++ .barrier id :: later →
        later ≠ [] → id ∈ entry.returned := by
  intro earlier id later shape more
  obtain ⟨shorter, final, rfl⟩ :=
    (List.eq_nil_or_concat' later).resolve_left more
  have same : entry.history = earlier ++ .barrier id :: shorter := by
    have shape' : entry.history ++ [task] =
        (earlier ++ .barrier id :: shorter) ++ [final] := by
      rw [shape]
      simp
    exact (List.append_inj' shape' rfl).1
  refine ordered.returned_of_mem resumed ?_
  rw [same]
  simp

variable {rest : List BarrierTask}

/-- The queue runs a block that enqueues no operation. -/
theorem perform_plain
    (shape : entry.queue = task :: rest)
    (plain : enqueuedBy [task] = [])
    {suspensions setUps : Nat}
    {notifications submitted : List Nat}
    (balanced : suspensions = setUps + (notifications ++ submitted).length)
    (alone : suspensions ≤ 1)
    (empty : submitted ≠ [] → entry.count = 0)
    (accounted :
      ∀ id, task = .barrier id → id ∈ notifications ++ submitted) :
    Ordered { entry with
      queue := rest
      history := entry.history ++ [task]
      suspensions := suspensions
      setUps := setUps
      notifications := notifications
      submitted := submitted } := by
  obtain ⟨-, -, -, noneRuns⟩ := ordered.none_outstanding resumed
  have sameOperations :
      enqueuedBy (entry.history ++ [task]) = enqueuedBy entry.history := by
    rw [enqueuedBy_append, plain, List.append_nil]
  refine {
    balanced := ?_
    alone := alone
    counted := ?_
    distinct := ?_
    queued := ?_
    past := ?_
    future := ?_
    empty := ?_
    final := ordered.final
    accounted := ?_
    last := ordered.history_append resumed task }
  · simpa [Entry.outstanding, noneRuns] using balanced
  · have counted := ordered.counted
    simpa only [Entry.insiders, sameOperations] using counted
  · have distinct := ordered.distinct
    rw [shape] at distinct
    simpa using distinct
  · intro op member
    apply ordered.queued
    rw [shape]
    simp only [mem_enqueuedBy] at member ⊢
    exact List.mem_cons_of_mem _ member
  · intro op member
    rw [sameOperations] at member
    exact ordered.past op member
  · intro op late
    rw [sameOperations]
    exact ordered.future op late
  · intro started
    apply empty
    simpa [noneRuns] using started
  · intro id member
    rcases List.mem_append.mp member with earlier | new
    · exact .inr (ordered.returned_of_mem resumed earlier)
    · left
      have here := accounted id (List.mem_singleton.mp new).symm
      exact List.mem_append_left _ here

/-- An operation that waited comes to its step, in the group or not. -/
theorem enqueued
    (shape : entry.queue = BarrierTask.enqueue op :: rest)
    (phase : Phase)
    (late : phase.early = false)
    {finals : List Nat}
    (final : phase = .delivered ∨ phase = .disposed → op ∈ finals)
    (more : entry.finals ⊆ finals) :
    Ordered { entry.setPhase op phase with
      queue := rest
      history := entry.history ++ [.enqueue op]
      count := entry.count + phase.inside.toNat
      finals := finals } := by
  obtain ⟨-, -, noneSubmitted, noneRuns⟩ := ordered.none_outstanding resumed
  have distinct :
      (enqueuedBy entry.history ++ op :: enqueuedBy rest).Nodup := by
    have all := ordered.distinct
    rwa [shape, enqueuedBy_append] at all
  have notPast : op ∉ enqueuedBy entry.history := by
    intro member
    exact List.disjoint_of_nodup_append distinct member (List.mem_cons_self ..)
  have notNext : op ∉ enqueuedBy rest :=
    (List.nodup_cons.mp distinct.of_append_right).1
  have samePast : ∀ other ∈ enqueuedBy entry.history,
      (entry.setPhase op phase).operations other = entry.operations other := by
    intro other member
    rw [entry.setPhase_operations, if_neg]
    rintro rfl
    exact notPast member
  refine {
    balanced := ordered.balanced
    alone := ordered.alone
    counted := ?_
    distinct := ?_
    queued := ?_
    past := ?_
    future := ?_
    empty := ?_
    final := ?_
    accounted := ?_
    last := ordered.history_append resumed (.enqueue op) }
  · have same :
        ((enqueuedBy entry.history).countP fun other =>
          ((entry.setPhase op phase).operations other).inside) =
        entry.insiders := by
      apply List.countP_congr
      intro other member
      rw [samePast other member]
    have own : ((entry.setPhase op phase).operations op) = phase := by
      rw [entry.setPhase_operations, if_pos rfl]
    have counted := ordered.counted
    change entry.count + phase.inside.toNat =
      ((enqueuedBy (entry.history ++ [.enqueue op])).countP fun other =>
        ((entry.setPhase op phase).operations other).inside)
    rw [enqueuedBy_append, List.countP_append, same, counted]
    change _ = _ + List.countP _ [op]
    rw [List.countP_singleton, own]
    cases phase.inside <;> rfl
  · simpa [enqueuedBy] using distinct
  · intro other member
    have waits : entry.operations other = .waiting := by
      apply ordered.queued
      rw [shape]
      exact List.mem_cons_of_mem _ member
    have differs : other ≠ op := by
      rintro rfl
      exact notNext member
    simp only [entry.setPhase_operations, if_neg differs]
    exact waits
  · intro other member
    simp only [entry.setPhase_operations]
    split
    · exact late
    · rename_i differs
      apply ordered.past
      simpa [differs] using member
  · intro other notEarly
    simp only [entry.setPhase_operations] at notEarly
    split at notEarly
    · rename_i same
      simp [same]
    · have member := ordered.future other notEarly
      rw [enqueuedBy_append]
      exact List.mem_append_left _ member
  · intro started
    simp [Entry.setPhase, noneSubmitted, noneRuns] at started
  · intro other isLate
    simp only [entry.setPhase_operations] at isLate
    split at isLate
    · rename_i same
      exact same ▸ final isLate
    · exact more (ordered.final other isLate)
  · intro id member
    apply ordered.accounted
    simpa using member

/-- The queue runs the block that enqueues an operation. -/
theorem perform_enqueue
    (shape : entry.queue = BarrierTask.enqueue op :: rest)
    (refused : Bool) :
    Ordered ({ entry with
      queue := rest
      history := entry.history ++ [BarrierTask.enqueue op] }.operationEnqueue
        op refused) := by
  cases refused with
  | true =>
    have added : op ∈ entry.finals ++ [op] :=
      List.mem_append_right _ (List.mem_singleton_self op)
    exact ordered.enqueued resumed shape .disposed rfl
      (fun _ => added) (List.subset_append_left _ _)
  | false =>
    refine ordered.enqueued resumed shape (.entered 1) rfl ?_
      (List.Subset.refl _)
    rintro (isLate | isLate) <;> cases isLate

end

theorem runFirst
    {refused : Bool}
    (happens : entry.runFirst refused = some after) :
    Ordered after := by
  rw [Entry.runFirst] at happens
  split at happens
  · rename_i resumed
    obtain ⟨noSetUps, noneNotified, noneSubmitted, -⟩ :=
      ordered.none_outstanding resumed
    split at happens
    · cases happens
    · rename_i task rest shape
      cases happens
      cases task with
      | enqueue op => exact ordered.perform_enqueue resumed shape refused
      | barrier id =>
        rw [Entry.perform, Entry.groupNotify]
        split
        · rename_i isEmpty
          apply ordered.perform_plain resumed shape rfl
          · simp [resumed, noSetUps, noneNotified, noneSubmitted]
          · exact Nat.succ_le_succ resumed.le
          · exact fun _ => isEmpty
          · rintro _ ⟨⟩
            simp
        · apply ordered.perform_plain resumed shape rfl
          · simp [resumed, noSetUps, noneNotified, noneSubmitted]
          · exact Nat.succ_le_succ resumed.le
          · exact fun some => absurd noneSubmitted some
          · rintro _ ⟨⟩
            simp
      | setUp =>
        apply ordered.perform_plain resumed shape rfl
        · simp [resumed, noSetUps, noneNotified, noneSubmitted]
        · exact Nat.succ_le_succ resumed.le
        · exact fun some => absurd noneSubmitted some
        · rintro _ ⟨⟩
      | other =>
        apply ordered.perform_plain resumed shape rfl
        · simp [resumed, noSetUps, noneNotified, noneSubmitted]
        · exact ordered.alone
        · exact fun some => absurd noneSubmitted some
        · rintro _ ⟨⟩
  · cases happens

/-- Every event keeps the invariant. -/
theorem next
    {event : EntryEvent}
    (happens : entry.next event = some after) :
    Ordered after := by
  cases event with
  | submit task => exact ordered.submit happens
  | runFirst refused => exact ordered.runFirst happens
  | finishSetUp => exact ordered.finishSetUp happens
  | systemCall op =>
    rw [Entry.next, Entry.systemCall] at happens
    split at happens
    · exact Option.some.inj happens ▸ ordered
    · cases happens
  | retain op => exact ordered.retain happens
  | release op => exact ordered.release happens
  | deliverData op => exact ordered.deliverData happens
  | groupLeave op => exact ordered.groupLeave happens
  | startBarrier id => exact ordered.startBarrier happens
  | returnBarrier id => exact ordered.returnBarrier happens

end

theorem create : Ordered Entry.create where
  balanced := rfl
  alone := Nat.zero_le 1
  counted := rfl
  distinct := List.nodup_nil
  queued _ member := by cases member
  past _ member := by cases member
  future _ late := by cases late
  empty _ := rfl
  final _ late := by rcases late with late | late <;> cases late
  accounted _ member := by cases member
  last earlier id later shape := by simp [Entry.create] at shape

/-- In every reachable state the queue is in order. -/
theorem of_reachable
    {entry : Entry}
    (reached : Reachable (· = Entry.create) EntryStep entry) :
    Ordered entry := by
  apply Reachable.invariant _ _ reached
  · rintro _ rfl
    exact create
  · rintro before after ordered ⟨event, happens⟩
    exact ordered.next happens

/-- While the block of a barrier is submitted, all operations that had their
step are disposed of. -/
theorem disposed_of_submitted
    {entry : Entry}
    (ordered : Ordered entry)
    {id : Nat}
    (submitted : id ∈ entry.submitted)
    {op : Nat}
    (member : op ∈ enqueuedBy entry.history) :
    entry.operations op = .disposed := by
  have nobody : entry.insiders = 0 := by
    rw [← ordered.counted]
    apply ordered.empty
    exact List.append_ne_nil_of_left_ne_nil (List.ne_nil_of_mem submitted) _
  have outside := List.countP_eq_zero.mp nobody op member
  have late := ordered.past op member
  cases phase : entry.operations op with
  | disposed => rfl
  | unborn | waiting =>
    rw [phase] at late
    cases late
  | entered _ | disposing | delivered =>
    exact absurd (by rw [phase]; rfl) outside

end Ordered

/-! ## What a barrier separates -/

/-- When a barrier starts, the operations whose step on the barrier queue came
before its own are disposed of and their final handler invocations are
submitted.  An operation performs a system call only when the barriers whose
steps came before its own have returned. -/
theorem barrier_separates
    {entry : Entry}
    (reached : Reachable (· = Entry.create) EntryStep entry) :
    (∀ id after, entry.next (.startBarrier id) = some after →
      ∀ op, Precedes (.enqueue op) (.barrier id) entry.history →
        entry.operations op = .disposed ∧ op ∈ entry.finals) ∧
    (∀ op after, entry.next (.systemCall op) = some after →
      ∀ id, Precedes (.barrier id) (.enqueue op) entry.history →
        id ∈ entry.returned) := by
  have ordered := Ordered.of_reachable reached
  constructor
  · rintro id after starts op ⟨earlier, between, later, shape⟩
    have member : op ∈ enqueuedBy entry.history := by
      rw [mem_enqueuedBy, shape]
      simp
    have submitted : id ∈ entry.submitted := by
      by_contra notSubmitted
      rw [Entry.next, Entry.startBarrier, if_neg notSubmitted] at starts
      cases starts
    have disposed := ordered.disposed_of_submitted submitted member
    exact ⟨disposed, ordered.final op (.inr disposed)⟩
  · rintro op after _ id ⟨earlier, between, later, shape⟩
    refine ordered.last earlier id (between ++ .enqueue op :: later) ?_ ?_
    · rw [shape]
      simp
    · simp

/-- One read, a barrier and another read, until the first read is disposed
of. -/
def barrierBetween : List EntryEvent :=
  [.submit (.enqueue 1), .submit (.barrier 7), .submit (.enqueue 2),
    .runFirst false, .runFirst false, .systemCall 1, .release 1,
    .deliverData 1, .groupLeave 1]

/-- The barrier can start then, and the second read performs its system call
after the barrier has returned. -/
theorem barrierBetween_separates :
    (∃ entry after,
      afterEvents Entry.next .create barrierBetween = some entry ∧
      entry.next (.startBarrier 7) = some after ∧
      entry.operations 1 = .disposed ∧ 1 ∈ entry.finals) ∧
    (∃ entry after,
      afterEvents Entry.next .create
        (barrierBetween ++ [.startBarrier 7, .returnBarrier 7,
          .runFirst false]) = some entry ∧
      entry.next (.systemCall 2) = some after ∧ 7 ∈ entry.returned) := by
  constructor
  · obtain ⟨entry, runs, after, starts, history⟩ : ∃ entry,
        afterEvents Entry.next .create barrierBetween = some entry ∧
        ∃ after, entry.next (.startBarrier 7) = some after ∧
          entry.history = [.enqueue 1, .barrier 7] :=
      ⟨_, rfl, _, rfl, rfl⟩
    have reached : Reachable (· = Entry.create) EntryStep entry :=
      .afterEvents (fun happens => ⟨_, happens⟩) (.start rfl) runs
    have separates := (barrier_separates reached).1 7 after starts 1
      ⟨[], [], [], history⟩
    exact ⟨entry, after, runs, starts, separates⟩
  · obtain ⟨entry, runs, after, calls, history⟩ : ∃ entry,
        afterEvents Entry.next .create
          (barrierBetween ++ [.startBarrier 7, .returnBarrier 7,
            .runFirst false]) = some entry ∧
        ∃ after, entry.next (.systemCall 2) = some after ∧
          entry.history = [.enqueue 1, .barrier 7, .enqueue 2] :=
      ⟨_, rfl, _, rfl, rfl⟩
    have reached : Reachable (· = Entry.create) EntryStep entry :=
      .afterEvents (fun happens => ⟨_, happens⟩) (.start rfl) runs
    have separates := (barrier_separates reached).2 2 after calls 7
      ⟨[.enqueue 1], [], [], history⟩
    exact ⟨entry, after, runs, calls, separates⟩

end LibDispatch.DispatchIo
