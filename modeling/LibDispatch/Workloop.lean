import LibDispatch.Reachability
import Mathlib

namespace LibDispatch.Workloop

/-!
# Workloops

A workloop keeps a list for each QoS and one state word.  Any thread pushes
items: it exchanges the tail of a list, links the item, and if the list was
empty it merges its QoS into the state word, which may enqueue the workloop on
its target.  The owner of the drain lock executes the items: an invocation, or a
synchronous waiter that is handed the lock and completes the barrier when it has
run.

Every access to a tail, a head or the state word is a step of its own.  A list
is given by its items in the order of the tail exchanges, as the module on the
multi-producer list shows it to behave: the owner waits for an item whose link
is missing.  The state word has the role `BASE_ANON`, as it is without kevent
workloops; the override bits, which no branch of these functions reads, are left
out, and the owner bits are the owner.
-/

/-- `DISPATCH_QOS_MAX`; the lists are numbered from `DISPATCH_QOS_MIN`, which is
one. -/
def qosMax : Nat := 6

/-- Continuations and queues, and the two kinds of waiters. -/
inductive Kind where
  | ordinary
  /-- `DC_FLAG_ASYNC_AND_WAIT`: an invocation executes it for its waiter. -/
  | asyncAndWait
  /-- `DC_FLAG_SYNC_WAITER` -/
  | syncWaiter
  deriving DecidableEq, Repr

/-- What is pushed. -/
structure Item where
  id : Nat
  kind : Kind
  deriving DecidableEq, Repr

namespace Item

/-- `_dispatch_object_is_waiter` -/
def isWaiter (item : Item) : Bool :=
  item.kind != .ordinary

/-- `_dispatch_object_is_sync_waiter` -/
def isSyncWaiter (item : Item) : Bool :=
  item.kind == .syncWaiter

end Item

/-- A push after its tail exchange.  It ends with the link, or with the merge
into the state word if it found the list empty. -/
structure Push where
  item : Item
  qos : Nat
  wasEmpty : Bool
  linked : Bool
  deriving DecidableEq, Repr

/-- The bits of `dq_state` that decide what happens. -/
structure Word where
  maxQos : Nat
  dirty : Bool
  enqueued : Bool
  deriving DecidableEq, Repr

/-- `_dq_state_merge_qos` -/
def Word.mergeQos (word : Word) (qos : Nat) : Word :=
  { word with maxQos := max word.maxQos qos }

/-- Where the owner of the drain lock is. -/
inductive Owner where
  /-- The scan of `_dispatch_workloop_invoke2`, about to look at a list. -/
  | scan (qos : Nat)
  /-- `_dispatch_workloop_try_lower_max_qos` -/
  | lower (qos : Nat)
  /-- The dirty bit was seen and is to be cleared, before the next scan. -/
  | clear
  /-- `_dispatch_workloop_get_head` -/
  | head (qos : Nat)
  /-- The top of the inner loop, with the item it is at. -/
  | item (qos : Nat) (dc : Item)
  /-- The item is popped and runs; the next item, if there was one. -/
  | run (qos : Nat) (dc : Item) (next : Option Item)
  /-- The condition of the inner loop. -/
  | decide (qos : Nat) (next : Option Item)
  /-- `_dispatch_queue_drain_try_unlock` -/
  | unlock
  /-- `_dispatch_workloop_drain_barrier_waiter`, with or without the enqueued
  bit. -/
  | hand (qos : Nat) (dc : Item) (owned : Bool)
  /-- The waiter is popped, and the lock is to be transferred to it. -/
  | transfer (qos : Nat) (dc : Item) (owned : Bool)
  /-- A waiter that was handed the lock, or one that took it without waiting. -/
  | waiter (dc : Option Item)
  /-- The scan of `_dispatch_workloop_barrier_complete`. -/
  | complete (qos : Nat) (target : Bool) (merged : Nat)
  /-- `_dispatch_workloop_get_head` of that scan. -/
  | completeHead (qos : Nat) (target : Bool) (merged : Nat)
  /-- The update of the state word that gives up the lock. -/
  | release (target : Bool) (merged : Nat)
  /-- The dirty bit was seen by that update and is to be cleared. -/
  | clearComplete (merged : Nat)
  deriving DecidableEq, Repr

/-- A workloop and the threads at work on it.  `enqueuers` are about to push it
on its target, where it is enqueued `onTarget` times, and `arriving` invocations
have yet to take the drain lock.  The last three fields record what happened:
the tail exchanges, the items executed or handed to their waiters, and the lists
that began with a completely pushed item when an item last finished. -/
structure State where
  word : Word
  lists : Nat → List Item
  pushes : List Push
  owner : Option Owner
  enqueuers : Nat
  onTarget : Nat
  arriving : Nat
  exchanges : List (Nat × Item)
  served : List (Nat × Item)
  ready : Nat → Bool

namespace State

/-- An active workloop without items. -/
def initial : State where
  word := ⟨0, false, false⟩
  lists := fun _ => []
  pushes := []
  owner := none
  enqueuers := 0
  onTarget := 0
  arriving := 0
  exchanges := []
  served := []
  ready := fun _ => false

variable (state : State)

/-- The item is linked, so that the owner can read it. -/
def isLinked (item : Item) : Bool :=
  !state.pushes.any fun push => push.item == item && !push.linked

/-- The push of the item has ended. -/
def isPushed (item : Item) : Bool :=
  !state.pushes.any fun push => push.item == item

/-- The lists that begin with a completely pushed item. -/
def readyNow (qos : Nat) : Bool :=
  match state.lists qos with
  | [] => false
  | first :: _ => state.isPushed first

/-! ## Pushing -/

/-- `_dispatch_workloop_push_update_tail` -/
def exchange (item : Item) (qos : Nat) : Option State :=
  if item.id ∈ state.exchanges.map (·.2.id) ∨ qos = 0 ∨ qosMax < qos then none
  else some { state with
    lists := Function.update state.lists qos (state.lists qos ++ [item])
    pushes := ⟨item, qos, (state.lists qos).isEmpty, false⟩ :: state.pushes
    exchanges := state.exchanges ++ [(qos, item)] }

/-- `_dispatch_workloop_push_update_prev` -/
def link (push : Push) : Option State :=
  if push ∈ state.pushes ∧ push.linked = false then
    some { state with
      pushes :=
        if push.wasEmpty then
          { push with linked := true } :: state.pushes.erase push
        else state.pushes.erase push }
  else none

/-- The state word update of `_dispatch_workloop_wakeup`. -/
def wakeup (qos : Nat) : State :=
  let word := state.word.mergeQos qos
  { state with
    word := { word with
      dirty := true
      enqueued := word.enqueued || decide (word.maxQos ≠ 0) }
    enqueuers :=
      state.enqueuers + (!word.enqueued && decide (word.maxQos ≠ 0)).toNat }

/-- The state word update of `_dispatch_workloop_push_waiter`.  A waiter takes
the lock of a workloop that is neither locked nor enqueued. -/
def pushWaiter (qos : Nat) : State :=
  let word := state.word.mergeQos qos
  if state.owner.isSome || word.enqueued then
    { state with word := { word with dirty := true } }
  else
    -- taking the lock clears the dirty bit
    { state with
      word := { word with dirty := false }
      owner := some (.complete qosMax false qos) }

/-- A push that found the list empty updates the state word. -/
def merge (push : Push) : Option State :=
  if push ∈ state.pushes ∧ push.linked = true then
    let rest := { state with pushes := state.pushes.erase push }
    some (if push.item.isWaiter then rest.pushWaiter push.qos
      else rest.wakeup push.qos)
  else none

/-! ## Reaching the drain lock -/

/-- `_dispatch_queue_push_queue` -/
def enqueue : Option State :=
  if state.enqueuers = 0 then none
  else some { state with
    enqueuers := state.enqueuers - 1
    onTarget := state.onTarget + 1 }

/-- The target starts an invocation. -/
def arrive : Option State :=
  if state.onTarget = 0 then none
  else some { state with
    onTarget := state.onTarget - 1
    arriving := state.arriving + 1 }

/-- `_dispatch_queue_drain_try_lock`: the invocation keeps the enqueued bit while
it drains, and gives it up if the workloop is locked. -/
def tryLock : Option State :=
  if state.arriving = 0 then none
  else
    let arrived := { state with arriving := state.arriving - 1 }
    match state.owner with
    | none =>
      some { arrived with
        word := { state.word with dirty := false }
        owner := some (.scan qosMax) }
    | some _ =>
      some { arrived with
        word := { state.word with enqueued := !state.word.enqueued } }

/-- `_dispatch_queue_try_acquire_barrier_sync`: a synchronous call on an idle
workloop does not wait. -/
def acquireSync : Option State :=
  if state.owner = none ∧ state.word = ⟨0, false, false⟩ then
    some { state with owner := some (.waiter none) }
  else none

/-! ## The owner of the lock -/

def moveTo (owner : Owner) : State :=
  { state with owner := some owner }

/-- `_dispatch_workloop_pop_head`: the first item leaves the list, and the next
one has to be linked. -/
def pop (qos : Nat) (dc : Item) : Option (State × Option Item) :=
  match state.lists qos with
  | [] => none
  | first :: rest =>
    if first = dc ∧ rest.head?.all state.isLinked then
      some ({ state with lists := Function.update state.lists qos rest },
        rest.head?)
    else none

/-- An item is executed or handed to its waiter. -/
def serve (qos : Nat) (dc : Item) : State :=
  { state with served := state.served ++ [(qos, dc)] }

/-- An item has finished. -/
def finish : State :=
  { state with ready := state.readyNow }

/-- An item or waiter is selected. -/
def select : State :=
  { state with ready := fun _ => false }

/-- The next step of an owner. -/
def advance : Option State :=
  match state.owner with
  | none => none
  | some (.scan 0) => some (state.moveTo .unlock)
  | some (.scan (qos + 1)) =>
    some (if (state.lists (qos + 1)).isEmpty then state.moveTo (.scan qos)
      else state.moveTo (.lower (qos + 1)))
  | some (.lower qos) =>
    if state.word.maxQos ≤ qos then some (state.moveTo (.head qos))
    else if state.word.dirty then some (state.moveTo .clear)
    else some { state with
      word := { state.word with maxQos := qos }
      owner := some (.head qos) }
  | some .clear =>
    some { state with
      word := { state.word with dirty := !state.word.dirty }
      owner := some (.scan qosMax) }
  | some (.head qos) =>
    match state.lists qos with
    | [] => none
    | first :: _ =>
      if state.isLinked first then
        some (state.select.moveTo (.item qos first))
      else none
  | some (.item qos dc) =>
    if dc.isSyncWaiter then some (state.moveTo (.hand qos dc true))
    else do
      let (popped, next) ← state.pop qos dc
      some ((popped.serve qos dc).moveTo (.run qos dc next))
  | some (.run qos _ next) =>
    some (state.finish.moveTo (.decide qos next))
  | some (.decide qos next) =>
    match next with
    | none => some (state.moveTo (.scan qosMax))
    | some dc =>
      if state.word.maxQos ≤ qos then
        some (state.select.moveTo (.item qos dc))
      else some (state.moveTo (.scan qosMax))
  | some .unlock =>
    if state.word.dirty then some (state.moveTo .clear)
    else some { state with
      word := { state.word with
        maxQos := 0
        enqueued := false }
      owner := none }
  | some (.hand qos dc owned) => do
      let (popped, _) ← state.pop qos dc
      some (popped.moveTo (.transfer qos dc owned))
  | some (.transfer qos dc owned) =>
    some ({ state with
      word := { state.word with
        dirty := false
        enqueued := state.word.enqueued && !owned }
      owner := some (.waiter (some dc)) }.serve qos dc)
  | some (.waiter dc) =>
    -- a waiter runs when it has returned from its own push
    if dc.all state.isPushed then
      some (state.finish.moveTo (.complete qosMax false 0))
    else none
  | some (.complete 0 target merged) =>
    some (state.moveTo (.release target merged))
  | some (.complete (qos + 1) target merged) =>
    some (if (state.lists (qos + 1)).isEmpty then
        state.moveTo (.complete qos target merged)
      else state.moveTo (.completeHead (qos + 1) target merged))
  | some (.completeHead qos _ merged) =>
    match state.lists qos with
    | [] => none
    | first :: _ =>
      if state.isLinked first then
        if first.isWaiter then
          some (state.select.moveTo (.hand qos first false))
        else some (state.moveTo (.complete (qos - 1) true merged))
      else none
  | some (.release target merged) =>
    let word := state.word.mergeQos merged
    if target then
      some { state with
        word := { word with enqueued := true }
        enqueuers := state.enqueuers + (!word.enqueued).toNat
        owner := none }
    else if word.dirty then some (state.moveTo (.clearComplete merged))
    else some { state with
      word := { word with maxQos := 0 }
      owner := none }
  | some (.clearComplete merged) =>
    some { state with
      word := { state.word with dirty := !state.word.dirty }
      owner := some (.complete qosMax false merged) }

end State

/-- What can happen next. -/
inductive Event where
  | exchange (item : Item) (qos : Nat)
  | link (push : Push)
  | merge (push : Push)
  | enqueue
  | arrive
  | tryLock
  | acquireSync
  | advance
  deriving DecidableEq, Repr

/-- The effect of an event, none if it cannot happen. -/
def State.next (state : State) : Event → Option State
  | .exchange item qos => state.exchange item qos
  | .link push => state.link push
  | .merge push => state.merge push
  | .enqueue => state.enqueue
  | .arrive => state.arrive
  | .tryLock => state.tryLock
  | .acquireSync => state.acquireSync
  | .advance => state.advance

/-- One step of some thread. -/
def Step (state after : State) : Prop :=
  ∃ event, state.next event = some after

end LibDispatch.Workloop
