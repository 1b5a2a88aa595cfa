import LibDispatch.LinkedSegment
import LibDispatch.Reachability

namespace LibDispatch.Mpsc

/-!
# The multi-producer single-consumer list

`os_mpsc_*` of `src/inline_internal.h` keep a list in three places: a head
pointer, a tail pointer and one `next` field per object.  A push exchanges the
tail and stores the missing pointer in a second step; one consumer pops, undoes
pops, prepends and captures.  Every load, store and compare-and-swap of a shared
field is one step here.

Next to the shared fields the state carries a history: the objects in the order
of the tail exchanges with the consumer's removals and re-insertions applied,
and the changes of the tail.
-/

variable {Node : Type}

/-- The shared fields of a list. -/
structure Memory (Node : Type) where
  head : Option Node
  tail : Option Node
  next : Node → Option Node

/-- A push in progress: the list is prepared, or the tail is exchanged and the
pointer to the list has yet to be stored. -/
inductive Producer (Node : Type) where
  | ready (items : List Node)
  | linking (prev : Option Node) (first : Node)
  deriving Repr, DecidableEq

/-- The object whose pointer a push still has to store. -/
def Producer.first? : Producer Node → Option Node
  | ready _ => none
  | linking _ first => some first

/-- The objects of a push that has not exchanged the tail. -/
def Producer.items : Producer Node → List Node
  | ready items => items
  | linking _ _ => []

/-- Where the consumer stands inside one of its calls. -/
inductive Consumer (Node : Type) where
  | idle
  | popLoadNext (head : Node)
  | popStoreHead (head : Node) (next : Option Node)
  | popExchangeTail (head : Node)
  | popWaitNext (head : Node)
  | popStoreNext (head next : Node)
  | undoStoreNext (head tail : Node) (next : Option Node)
  | undoExchangeTail (head tail : Node)
  | undoWaitHead (head tail : Node)
  | undoRelink (head tail next : Node)
  | undoStoreHead (head : Node)
  | captureStoreHead (head : Node)
  | captureExchangeTail (head : Node)
  | prependLoadHead (head tail : Node)
  deriving Repr, DecidableEq

/-- What happens to the sequence of objects. -/
inductive Event (Node : Type) where
  | pushed (items : List Node)
  | obtained (item : Node)
  | restored (items : List Node)
  deriving Repr, DecidableEq

/-- What happens to the tail pointer; a push reports whether it was empty. -/
inductive TailEvent where
  | exchanged (wasEmpty : Bool)
  | cleared
  | inserted
  deriving Repr, DecidableEq

/-- A list, its users and its history. -/
structure State (Node : Type) where
  memory : Memory Node
  producers : List (Producer Node)
  consumer : Consumer Node
  /-- What `get_head`, `pop_head` or an undo last told the consumer. -/
  cursor : Option Node
  /-- What was popped and may still be put back. -/
  justPopped : List Node
  snapshotHead : Option Node
  snapshotTail : Option Node
  /-- The objects between head and tail. -/
  contents : List (Entry Node)
  /-- A captured snapshot, or objects on their way back into the list. -/
  held : List (Entry Node)
  log : List (Event Node)
  tailLog : List TailEvent

/-- Nobody has used the list. -/
def State.initial (next : Node → Option Node) : State Node where
  memory := ⟨none, none, next⟩
  producers := []
  consumer := .idle
  cursor := none
  justPopped := []
  snapshotHead := none
  snapshotTail := none
  contents := []
  held := []
  log := []
  tailLog := []

variable (state : State Node)

/-- The objects that are in the list or in the hands of its users. -/
def State.ownedNodes : List Node :=
  nodesOf (state.held ++ state.contents) ++
    (state.justPopped ++ state.producers.flatMap Producer.items)

section Steps

variable [DecidableEq Node]

/-! ## Producers -/

/-- The caller prepares a list of objects of its own. -/
def State.beginPush (items : List Node) : State Node :=
  { state with
    memory := { state.memory with next := thread state.memory.next items }
    producers := .ready items :: state.producers }

/-- `os_mpsc_push_update_tail`: the previous tail is the returned token. -/
def Memory.pushUpdateTail
    (memory : Memory Node)
    (tail : Option Node) :
    Memory Node × Option Node :=
  ({ memory with tail := tail }, memory.tail)

/-- `os_mpsc_push_was_empty`. -/
def pushWasEmpty (prev : Option Node) : Bool :=
  prev.isNone

/-- `os_mpsc_push_update_prev`. -/
def Memory.pushUpdatePrev
    (memory : Memory Node)
    (prev : Option Node)
    (head : Node) : Memory Node :=
  match prev with
  | some prev =>
    { memory with next := Function.update memory.next prev (some head) }
  | none => { memory with head := some head }

/-- The entries of a pushed list: only the pointer to the first is missing. -/
def pushedEntries : List Node → List (Entry Node)
  | [] => []
  | first :: rest => ⟨first, false⟩ :: linkedEntries rest

/-- The first half of `os_mpsc_push_list`. -/
def State.exchangeTail
    (earlier later : List (Producer Node))
    (first : Node)
    (rest : List Node) : State Node :=
  let (memory, prev) :=
    state.memory.pushUpdateTail (first :: rest).getLast?
  { state with
    memory := memory
    producers := earlier ++ .linking prev first :: later
    contents := state.contents ++ pushedEntries (first :: rest)
    log := state.log ++ [.pushed (first :: rest)]
    tailLog := state.tailLog ++ [.exchanged (pushWasEmpty prev)] }

/-- The second half of `os_mpsc_push_list`. -/
def State.storeLink
    (earlier later : List (Producer Node))
    (prev : Option Node)
    (first : Node) : State Node :=
  { state with
    memory := state.memory.pushUpdatePrev prev first
    producers := earlier ++ later
    contents := markLinked first state.contents
    held := markLinked first state.held }

/-! ## The consumer's calls -/

/-- `os_mpsc_get_head`, once the head is there. -/
def State.getHead (head : Node) : State Node :=
  { state with cursor := some head, justPopped := [] }

/-- `os_mpsc_pop_head`. -/
def State.popHead (head : Node) : State Node :=
  { state with consumer := .popLoadNext head }

/-- `os_mpsc_undo_pop_list` of the last objects popped. -/
def State.undoPopList
    (kept : List Node)
    (head tail : Node)
    (items : List Node) : State Node :=
  { state with
    consumer := .undoStoreNext head tail state.cursor
    justPopped := kept
    held := linkedEntries items
    log := state.log ++ [.restored items] }

/-- `os_mpsc_capture_snapshot`, once the head is there. -/
def State.captureSnapshot (head : Node) : State Node :=
  { state with
    consumer := .captureStoreHead head
    cursor := none
    justPopped := [] }

/-- `os_mpsc_pop_snapshot_head` with the successor it returns. -/
def State.popSnapshotHead
    (head : Node)
    (next : Option Node) : State Node :=
  { state with
    snapshotHead := next
    held := state.held.tail
    log := state.log ++ [.obtained head] }

/-- `os_mpsc_prepend` of objects of the consumer. -/
def State.prepend
    (head tail : Node)
    (items : List Node) : State Node :=
  { state with
    memory := { state.memory with next := thread state.memory.next items }
    consumer := .prependLoadHead head tail
    cursor := none
    justPopped := []
    held := linkedEntries items
    log := state.log ++ [.restored items] }

/-- `os_mpsc_prepend` of the rest of a snapshot. -/
def State.prependSnapshot (head tail : Node) : State Node :=
  { state with
    consumer := .prependLoadHead head tail
    cursor := none
    justPopped := []
    snapshotHead := none }

/-- The consumer lets go of what it popped. -/
def State.forget : State Node :=
  { state with cursor := none, justPopped := [] }

/-! ## Inside a call of the consumer -/

/-- `pop_head` returns: the object is the consumer's. -/
def State.finishPop
    (memory : Memory Node)
    (head : Node)
    (next : Option Node) : State Node :=
  { state with
    memory := memory
    consumer := .idle
    cursor := next
    justPopped := state.justPopped ++ [head]
    contents := state.contents.tail
    log := state.log ++ [.obtained head] }

/-- A store to the `next` field of an object, after which the call goes on. -/
def State.storeNext
    (node : Node)
    (next : Option Node)
    (consumer : Consumer Node) : State Node :=
  { state with
    memory :=
      { state.memory with
        next := Function.update state.memory.next node next }
    consumer := consumer }

/-- One load, store or compare-and-swap of the call in progress; `none` while
`_dispatch_wait_for_enqueuer` has to wait. -/
def State.consumerStep : Option (State Node) :=
  let memory := state.memory
  match state.consumer with
  | .idle => none
  | .popLoadNext head =>
    some { state with consumer := .popStoreHead head (memory.next head) }
  | .popStoreHead head (some next) =>
    some (state.finishPop { memory with head := some next } head (some next))
  | .popStoreHead head none =>
    some { state with
      memory := { memory with head := none }
      consumer := .popExchangeTail head }
  | .popExchangeTail head =>
    if memory.tail = some head then
      some { state.finishPop { memory with tail := none } head none with
        tailLog := state.tailLog ++ [.cleared] }
    else
      some { state with consumer := .popWaitNext head }
  | .popWaitNext head =>
    (memory.next head).map fun next =>
      { state with consumer := .popStoreNext head next }
  | .popStoreNext head next =>
    some (state.finishPop { memory with head := some next } head (some next))
  | .undoStoreNext head tail (some next) =>
    some (state.storeNext tail (some next) (.undoStoreHead head))
  | .undoStoreNext head tail none =>
    some (state.storeNext tail none (.undoExchangeTail head tail))
  | .undoExchangeTail head tail =>
    if memory.tail = none then
      some { state with
        memory := { memory with tail := some tail }
        consumer := .undoStoreHead head
        contents := state.held ++ state.contents
        held := []
        tailLog := state.tailLog ++ [.inserted] }
    else
      some { state with consumer := .undoWaitHead head tail }
  | .undoWaitHead head tail =>
    memory.head.map fun next =>
      { state with consumer := .undoRelink head tail next }
  | .undoRelink head tail next =>
    some (state.storeNext tail (some next) (.undoStoreHead head))
  | .undoStoreHead head =>
    some { state with
      memory := { memory with head := some head }
      consumer := .idle
      cursor := some head
      contents := state.held ++ state.contents
      held := [] }
  | .captureStoreHead head =>
    some { state with
      memory := { memory with head := none }
      consumer := .captureExchangeTail head }
  | .captureExchangeTail head =>
    some { state with
      memory := { memory with tail := none }
      consumer := .idle
      snapshotHead := some head
      snapshotTail := memory.tail
      contents := []
      held := state.contents
      tailLog := state.tailLog ++ [.cleared] }
  | .prependLoadHead head tail =>
    some { state with consumer := .undoStoreNext head tail memory.head }

/-- One step of a producer or of the consumer. -/
inductive Step : State Node → State Node → Prop where
  | beginPush
      {state : State Node}
      (items : List Node)
      (nonempty : items ≠ [])
      (fresh : (items ++ state.ownedNodes).Nodup) :
      Step state (state.beginPush items)
  | exchangeTail
      {state : State Node}
      (earlier later : List (Producer Node))
      (first : Node)
      (rest : List Node)
      (scheduled : state.producers =
        earlier ++ .ready (first :: rest) :: later) :
      Step state (state.exchangeTail earlier later first rest)
  | storeLink
      {state : State Node}
      (earlier later : List (Producer Node))
      (prev : Option Node)
      (first : Node)
      (scheduled : state.producers =
        earlier ++ .linking prev first :: later) :
      Step state (state.storeLink earlier later prev first)
  | getHead
      {state : State Node}
      (head : Node)
      (idle : state.consumer = .idle)
      (noSnapshot : state.snapshotHead = none)
      (present : state.memory.head = some head) :
      Step state (state.getHead head)
  | popHead
      {state : State Node}
      (head : Node)
      (idle : state.consumer = .idle)
      (known : state.cursor = some head) :
      Step state (state.popHead head)
  | undoPopList
      {state : State Node}
      (kept : List Node)
      (head tail : Node)
      (items : List Node)
      (idle : state.consumer = .idle)
      (popped : state.justPopped = kept ++ items)
      (isHead : items.head? = some head)
      (isTail : items.getLast? = some tail) :
      Step state (state.undoPopList kept head tail items)
  | captureSnapshot
      {state : State Node}
      (head : Node)
      (idle : state.consumer = .idle)
      (noSnapshot : state.snapshotHead = none)
      (present : state.memory.head = some head) :
      Step state (state.captureSnapshot head)
  | popSnapshotLast
      {state : State Node}
      (head : Node)
      (idle : state.consumer = .idle)
      (isHead : state.snapshotHead = some head)
      (isTail : state.snapshotTail = some head) :
      Step state (state.popSnapshotHead head none)
  | popSnapshotHead
      {state : State Node}
      (head next : Node)
      (idle : state.consumer = .idle)
      (isHead : state.snapshotHead = some head)
      (notTail : state.snapshotTail ≠ some head)
      (present : state.memory.next head = some next) :
      Step state (state.popSnapshotHead head (some next))
  | prepend
      {state : State Node}
      (head tail : Node)
      (items : List Node)
      (idle : state.consumer = .idle)
      (noSnapshot : state.snapshotHead = none)
      (fresh : (items ++ state.ownedNodes).Nodup)
      (isHead : items.head? = some head)
      (isTail : items.getLast? = some tail) :
      Step state (state.prepend head tail items)
  | prependSnapshot
      {state : State Node}
      (head tail : Node)
      (idle : state.consumer = .idle)
      (isHead : state.snapshotHead = some head)
      (isTail : state.snapshotTail = some tail) :
      Step state (state.prependSnapshot head tail)
  | forget
      {state : State Node}
      (idle : state.consumer = .idle) :
      Step state state.forget
  | advance
      {state after : State Node}
      (accepted : state.consumerStep = some after) :
      Step state after

end Steps

end LibDispatch.Mpsc
