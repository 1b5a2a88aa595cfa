import LibDispatch.Reachability
import Mathlib.Algebra.Order.Ring.Nat

namespace LibDispatch

/-!
# The heap of timers

`struct dispatch_timer_heap_s` of `src/event/event.c`: two min-heaps of timers,
by target in the even slots and by deadline in the odd ones.  The least timers
are in the structure itself and the others in segments that are allocated as the
heap grows; the last segment ends with links to the earlier ones.

An operation has no result when it follows a pointer that is `NULL`, freed or
not of the type that is expected, when it reads outside a segment, or when it
needs more iterations of a loop than its fuel allows.
-/

/-- The two heaps, `DTH_TARGET_ID` and `DTH_DEADLINE_ID`. -/
inductive HeapId where
  | target
  | deadline
  deriving Repr, DecidableEq

/-- The number of a heap. -/
def HeapId.number : HeapId → Nat
  | .target => 0
  | .deadline => 1

/-- An entry of a segment, which is a timer, a link or zero. -/
inductive Cell (Timer : Type) where
  | null
  | timer (timer : Timer)
  | segment (address : Nat)
  deriving Repr, DecidableEq

/-- What `_dispatch_timer_heap_get_slot` points to. -/
inductive Slot where
  | min (id : HeapId)
  | cell (segment offset : Nat)
  deriving Repr, DecidableEq

/-- `struct dispatch_timer_heap_s`, with the segments in memory and the fields of
the timers that the heap reads and writes: `dt_timer.heap_key`, `dt_heap_entry`
and the two classes of service in `du_priority`. -/
structure TimerHeap (Timer : Type) where
  count : Nat
  segments : Nat
  maxQos : Nat
  needsProgram : Bool
  min : HeapId → Option Timer
  heap : Option Nat
  memory : Nat → Option (List (Cell Timer))
  fresh : Nat
  heapKey : Timer → HeapId → Nat
  heapEntry : Timer → HeapId → Nat
  priorityQos : Timer → Nat
  fallbackQos : Timer → Nat

namespace TimerHeap

/-- A value in a `uint32_t`. -/
def word (value : Nat) : Nat :=
  value % 2 ^ 32

/-- `DTH_INVALID_ID`. -/
def invalidId : Nat := 2 ^ 32 - 1

/-- `DTH_ID_COUNT`. -/
def idCount : Nat := 2

/-- `DISPATCH_HEAP_INIT_SEGMENT_CAPACITY`. -/
def initSegmentCapacity : Nat := 8

/-- `DTH_HEAP_ID`. -/
def heapId (idx : Nat) : HeapId :=
  if idx % idCount = 0 then .target else .deadline

/-- `DTH_IDX_FOR_HEAP_ID`. -/
def idxForHeapId (idx : Nat) (id : HeapId) : Nat :=
  idx / idCount * idCount + id.number

/-- `_dispatch_timer_heap_capacity`. -/
def capacity (segments : Nat) : Nat :=
  if segments = 0 then 2
  else
    let segNo := segments - 1
    word (2 + initSegmentCapacity <<< segNo + 2 ^ 32 - segNo)

/-- `__builtin_clz` of a number that is not zero. -/
def clz (value : Nat) : Nat :=
  31 - value.log2

/-- The segment that holds an offset, from the first bit set in the offset. -/
def segmentNumber (offset : Nat) : Nat :=
  clz (initSegmentCapacity - 1) - clz (offset ||| (initSegmentCapacity - 1))

/-- The size of a segment when it is allocated. -/
def segmentCapacity (segNo : Nat) : Nat :=
  if 0 < segNo then word (initSegmentCapacity <<< (segNo - 1))
  else initSegmentCapacity

section Operations

variable {Timer : Type} [DecidableEq Timer]

/-! ## Segments -/

variable (dth : TimerHeap Timer)

/-- The entry of a segment at an offset. -/
def entryAt (segment offset : Nat) : Option (Cell Timer) :=
  (dth.memory segment).bind fun cells => cells[offset]?

/-- The segment that a link of the last segment points to. -/
def link (offset : Nat) : Option Nat := do
  match dth.entryAt (← dth.heap) offset with
  | some (.segment address) => some address
  | _ => none

/-- `memcpy` of entries of one segment to another. -/
def memcpy
    (destination : List (Cell Timer))
    (destinationOffset : Nat)
    (source : List (Cell Timer))
    (sourceOffset size : Nat) :
    Option (List (Cell Timer)) :=
  if destinationOffset + size ≤ destination.length ∧
      sourceOffset + size ≤ source.length then
    some
      (destination.take destinationOffset ++
        (source.drop sourceOffset).take size ++
        destination.drop (destinationOffset + size))
  else none

/-- A new segment with the links of the last one. -/
def copiedSegment (segNo : Nat) : Option (List (Cell Timer)) :=
  let segCapacity := segmentCapacity segNo
  let zeroed := List.replicate segCapacity .null
  if segNo > 1 then do
    let prevSegNo := segNo - 1
    let prevSegCapacity := segCapacity >>> 1
    memcpy zeroed (segCapacity - prevSegNo)
      (← dth.memory (← dth.heap)) (prevSegCapacity - prevSegNo)
      prevSegNo
  else some zeroed

/-- A new segment with links to all the others. -/
def linkedSegment (segNo : Nat) : Option (List (Cell Timer)) := do
  let cells ← dth.copiedSegment segNo
  if segNo > 0 then
    some (cells.set (segmentCapacity segNo - segNo)
      (.segment (← dth.heap)))
  else some cells

/-- `_dispatch_timer_heap_grow`. -/
def grow : Option (TimerHeap Timer) := do
  let segNo := dth.segments
  let cells ← dth.linkedSegment segNo
  some
    { dth with
      segments := (segNo + 1) % 2 ^ 8
      heap := some dth.fresh
      memory := Function.update dth.memory dth.fresh (some cells)
      fresh := dth.fresh + 1 }

/-- The segment before the last one. -/
def previousSegment (segNo : Nat) : Option (Option Nat) :=
  if segNo > 0 then do
    some (some (← dth.link (segmentCapacity segNo - segNo)))
  else some none

/-- Copy the links of the last segment back to the one before it. -/
def relink
    (segNo : Nat)
    (previous : Option Nat) :
    Option (TimerHeap Timer) :=
  if segNo > 1 then do
    let address ← previous
    let prevSegNo := segNo - 1
    let prevSegCapacity := segmentCapacity segNo >>> 1
    let cells ←
      memcpy (← dth.memory address) (prevSegCapacity - prevSegNo)
        (← dth.memory (← dth.heap))
        (segmentCapacity segNo - prevSegNo) prevSegNo
    some
      { dth with
        memory := Function.update dth.memory address (some cells) }
  else some dth

/-- `_dispatch_timer_heap_shrink`. -/
def shrink : Option (TimerHeap Timer) := do
  let segNo := dth.segments - 1
  let last ← dth.heap
  let previous ← dth.previousSegment segNo
  let relinked ← dth.relink segNo previous
  some
    { relinked with
      segments := segNo
      heap := previous
      memory := Function.update relinked.memory last none }

/-! ## Slots -/

/-- The segment of a number, which is the last one or has a link in it. -/
def segmentAt (segNo : Nat) : Option Nat :=
  if segNo + 1 = dth.segments then dth.heap
  else
    dth.link
      (word (initSegmentCapacity <<< (dth.segments - 2)) - segNo - 1)

/-- `_dispatch_timer_heap_get_slot`. -/
def getSlot (idx : Nat) : Option Slot :=
  if idx < idCount then some (.min (heapId idx))
  else do
    let offset := idx - idCount
    let segNo := segmentNumber offset
    let segment ← dth.segmentAt segNo
    some (.cell segment
      (if segNo = 0 then offset
        else offset - initSegmentCapacity <<< (segNo - 1)))

/-- The timer that a slot points to, when it is not `NULL`. -/
def load : Slot → Option Timer
  | .min id => dth.min id
  | .cell segment offset =>
    match dth.entryAt segment offset with
    | some (.timer timer) => some timer
    | _ => none

/-- The entry of a segment that holds a timer or `NULL`. -/
def cellOf : Option Timer → Cell Timer
  | none => .null
  | some timer => .timer timer

/-- Write to a slot. -/
def store : Slot → Option Timer → Option (TimerHeap Timer)
  | .min id, value =>
    some { dth with min := Function.update dth.min id value }
  | .cell segment offset, value => do
      let cells ← dth.memory segment
      if offset < cells.length then
        some
          { dth with
            memory := Function.update dth.memory segment
              (some (cells.set offset (cellOf value))) }
      else none

/-- Record the slot of a timer in one of the heaps. -/
def setEntry
    (timer : Timer)
    (id : HeapId)
    (idx : Nat) :
    TimerHeap Timer :=
  { dth with
    heapEntry := Function.update dth.heapEntry timer
      (Function.update (dth.heapEntry timer) id idx) }

/-- `_dispatch_timer_heap_set`. -/
def set
    (slot : Slot)
    (timer : Timer)
    (idx : Nat) :
    Option (TimerHeap Timer) := do
  let programmed :=
    if idx < idCount then { dth with needsProgram := true }
    else dth
  let stored ← programmed.store slot (some timer)
  some (stored.setEntry timer (heapId idx) idx)

/-- `_dispatch_timer_heap_parent`. -/
def parent (idx : Nat) : Nat :=
  idxForHeapId ((idx - idCount) / 2) (heapId idx)

/-- `_dispatch_timer_heap_left_child`. -/
def leftChild (idx : Nat) : Nat :=
  word (2 * idx + idCount - (heapId idx).number)

/-! ## Sifting -/

/-- Where a loop of `_dispatch_timer_heap_resift` stands. -/
structure Cursor (Timer : Type) where
  dth : TimerHeap Timer
  slot : Slot
  idx : Nat

/-- The first loop of `_dispatch_timer_heap_resift`, which also tells whether the
hole has moved. -/
def siftUp
    (timer : Timer)
    (id : HeapId) :
    Nat → Cursor Timer → Bool → Option (Cursor Timer × Bool)
  | 0, _, _ => none
  | fuel + 1, cursor, siftedUp =>
    if cursor.idx < idCount then some (cursor, siftedUp)
    else do
      let dth := cursor.dth
      let parentIdx := parent cursor.idx
      let parentSlot ← dth.getSlot parentIdx
      let above ← dth.load parentSlot
      if dth.heapKey above id ≤ dth.heapKey timer id then
        some (cursor, siftedUp)
      else
        let moved ← dth.set cursor.slot above cursor.idx
        siftUp timer id fuel ⟨moved, parentSlot, parentIdx⟩ true

/-- The child with the smaller key of the slot whose left child is `childIdx`,
which is the left one when both are equal or there is no other. -/
def smallerChild
    (id : HeapId)
    (childIdx : Nat) :
    Option (Nat × Slot × Timer) := do
  let rightIdx := word (childIdx + idCount)
  let childSlot ← dth.getSlot childIdx
  let child ← dth.load childSlot
  if rightIdx < dth.count then
    let rightSlot ← dth.getSlot rightIdx
    let right ← dth.load rightSlot
    if dth.heapKey child id > dth.heapKey right id then
      some (rightIdx, rightSlot, right)
    else some (childIdx, childSlot, child)
  else some (childIdx, childSlot, child)

/-- The second loop of `_dispatch_timer_heap_resift`. -/
def siftDown
    (timer : Timer)
    (id : HeapId) :
    Nat → Cursor Timer → Option (Cursor Timer)
  | 0, _ => none
  | fuel + 1, cursor =>
    let dth := cursor.dth
    let childIdx := leftChild cursor.idx
    if childIdx < dth.count then do
      let (smallerIdx, smallerSlot, smaller) ←
        dth.smallerChild id childIdx
      if dth.heapKey timer id ≤ dth.heapKey smaller id then
        some cursor
      else
        let moved ← dth.set cursor.slot smaller cursor.idx
        siftDown timer id fuel ⟨moved, smallerSlot, smallerIdx⟩
    else some cursor

/-- The second loop runs only when the first one has not moved the hole. -/
def settle
    (timer : Timer)
    (id : HeapId)
    (fuel : Nat)
    (cursor : Cursor Timer)
    (siftedUp : Bool) :
    Option (Cursor Timer) :=
  if siftedUp then some cursor
  else siftDown timer id fuel cursor

/-- `_dispatch_timer_heap_resift`. -/
def resift
    (fuel : Nat)
    (timer : Timer)
    (idx : Nat) :
    Option (TimerHeap Timer) := do
  let id := heapId idx
  let slot ← dth.getSlot idx
  let (raised, siftedUp) ←
    siftUp timer id fuel ⟨dth, slot, idx⟩ false
  let final ← settle timer id fuel raised siftedUp
  final.dth.set final.slot timer final.idx

/-! ## Operations -/

/-- The class of service of the heap follows that of a timer that enters. -/
def raiseQos (timer : Timer) : TimerHeap Timer :=
  let qos := max (dth.priorityQos timer) (dth.fallbackQos timer)
  if dth.maxQos < qos then
    { dth with maxQos := qos % 2 ^ 8, needsProgram := true }
  else dth

/-- Grow a heap whose segments are full. -/
def makeRoom (needed : Nat) : Option (TimerHeap Timer) :=
  if needed > capacity dth.segments then dth.grow
  else some dth

/-- `_dispatch_timer_heap_insert`. -/
def insert
    (fuel : Nat)
    (timer : Timer) :
    Option (TimerHeap Timer) := do
  let idx := dth.count
  let counted : TimerHeap Timer :=
    { dth with count := word (idx + idCount) }
  let raised := counted.raiseQos timer
  if idx = 0 then
    let entered :=
      (raised.setEntry timer .target 0).setEntry timer .deadline 1
    some { entered with needsProgram := true, min := fun _ => some timer }
  else
    let grown ← raised.makeRoom (word (idx + idCount))
    let byTarget ← grown.resift fuel timer (idx + HeapId.target.number)
    byTarget.resift fuel timer (idx + HeapId.deadline.number)

/-- An iteration of the loop of `_dispatch_timer_heap_remove`. -/
def removeFrom
    (fuel : Nat)
    (timer : Timer)
    (idx : Nat)
    (id : HeapId) :
    Option (TimerHeap Timer) := do
  let slot ← dth.getSlot (idx + id.number)
  let last ← dth.load slot
  let cleared ← dth.store slot none
  if last ≠ timer then
    cleared.resift fuel last (cleared.heapEntry timer id)
  else some cleared

/-- Shrink a heap whose last segment is empty. -/
def giveBack (needed : Nat) : Option (TimerHeap Timer) :=
  if needed ≤ capacity (dth.segments - 1) then dth.shrink
  else some dth

/-- What `_dispatch_timer_heap_remove` does before it clears the entries of the
timer. -/
def takeOut
    (fuel : Nat)
    (timer : Timer)
    (idx : Nat) :
    Option (TimerHeap Timer) :=
  if idx = 0 then
    some { dth with needsProgram := true, min := fun _ => none }
  else do
    let byTarget ← dth.removeFrom fuel timer idx .target
    let byDeadline ← byTarget.removeFrom fuel timer idx .deadline
    byDeadline.giveBack idx

/-- `_dispatch_timer_heap_remove`. -/
def remove
    (fuel : Nat)
    (timer : Timer) :
    Option (TimerHeap Timer) := do
  let idx := word (dth.count + 2 ^ 32 - idCount)
  let counted : TimerHeap Timer := { dth with count := idx }
  let removed ← counted.takeOut fuel timer idx
  some
    ((removed.setEntry timer .target invalidId).setEntry timer .deadline
      invalidId)

/-- `_dispatch_timer_heap_update`. -/
def update
    (fuel : Nat)
    (timer : Timer) :
    Option (TimerHeap Timer) := do
  let byTarget ←
    dth.resift fuel timer (dth.heapEntry timer .target)
  byTarget.resift fuel timer (byTarget.heapEntry timer .deadline)

/-- Give a timer another target and another deadline. -/
def configure
    (timer : Timer)
    (keys : HeapId → Nat) :
    TimerHeap Timer :=
  { dth with
    heapKey := Function.update dth.heapKey timer keys }

/-! ## Runs -/

/-- A heap together with the timers that are in it. -/
structure Populated (Timer : Type) where
  dth : TimerHeap Timer
  members : List Timer

/-- An empty heap, and timers that are in no heap. -/
def Initial (state : Populated Timer) : Prop :=
  state.members = [] ∧
  state.dth.count = 0 ∧
  state.dth.segments = 0 ∧
  state.dth.heap = none ∧
  (∀ id, state.dth.min id = none) ∧
  ∀ timer id, state.dth.heapEntry timer id = invalidId

/-- One operation on a heap.  A timer that is not in the heap may be configured
at any time; one that is in it is configured and then updated or removed. -/
inductive Step : Populated Timer → Populated Timer → Prop where
  | configure
      {state : Populated Timer}
      {timer : Timer}
      (outside : timer ∉ state.members)
      (keys : HeapId → Nat) :
      Step state
        { state with dth := state.dth.configure timer keys }
  | insert
      {state : Populated Timer}
      {timer : Timer}
      {fuel : Nat}
      {after : TimerHeap Timer}
      (outside : timer ∉ state.members)
      (ran : state.dth.insert fuel timer = some after) :
      Step state ⟨after, timer :: state.members⟩
  | update
      {state : Populated Timer}
      {timer : Timer}
      {fuel : Nat}
      {after : TimerHeap Timer}
      (inside : timer ∈ state.members)
      (keys : HeapId → Nat)
      (ran :
        (state.dth.configure timer keys).update fuel timer =
          some after) :
      Step state ⟨after, state.members⟩
  | remove
      {state : Populated Timer}
      {timer : Timer}
      {fuel : Nat}
      {after : TimerHeap Timer}
      (inside : timer ∈ state.members)
      (keys : HeapId → Nat)
      (ran :
        (state.dth.configure timer keys).remove fuel timer =
          some after) :
      Step state ⟨after, state.members.erase timer⟩

end Operations

end TimerHeap

end LibDispatch
