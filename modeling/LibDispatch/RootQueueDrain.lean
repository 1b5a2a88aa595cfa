import LibDispatch.MpscProducers

namespace LibDispatch.RootQueue

open Mpsc (Producer pushedEntries pushWasEmpty)

/-!
# Draining a root queue from many threads

Root queues are pushed to like any other list, but any number of threads run
`_dispatch_root_queue_drain_one` of `src/queue.c` at once.  A thread takes the
head by exchanging it with a mediator value, which keeps other threads out until
the head is restored.  Every load, store and compare-and-swap is one step.
-/

variable {Node : Type}

/-- The values of `dq_items_head`. -/
inductive HeadWord (Node : Type) where
  | null
  | mediator
  | object (node : Node)
  deriving Repr, DecidableEq

/-- The fields of a root queue's item list. -/
structure Memory (Node : Type) where
  head : HeadWord Node
  tail : Option Node
  next : Node → Option Node

/-- Where a thread stands in `_dispatch_root_queue_drain_one`. -/
inductive Drainer (Node : Type) where
  | start
  | foundNull
  | checkTail
  | quiesceHead
  | quiesceTail (headIsNull : Bool)
  | contended
  | loadNext (head : Node)
  | clearHead (head : Node)
  | clearTail (head : Node)
  | waitNext (head : Node)
  | storeHead (head next : Node)
  | poke (head : Node)
  deriving Repr, DecidableEq

namespace Drainer

/-- The object whose removal from the list is in progress. -/
def owned? : Drainer Node → Option Node
  | loadNext head => some head
  | clearHead head => some head
  | clearTail head => some head
  | waitNext head => some head
  | storeHead head _ => some head
  | _ => none

/-- The object that is off the list and about to be returned. -/
def removed? : Drainer Node → Option Node
  | poke head => some head
  | _ => none

/-- The thread will overwrite a mediator value. -/
def restores : Drainer Node → Bool
  | foundNull => true
  | loadNext _ => true
  | clearHead _ => true
  | storeHead _ _ => true
  | _ => false

end Drainer

/-- A root queue, its users and its history. -/
structure State (Node : Type) where
  memory : Memory Node
  producers : List (Producer Node)
  drainers : List (Drainer Node)
  /-- The objects between head and tail, the one being removed included. -/
  contents : List (Entry Node)
  /-- The objects in the order of the tail exchanges. -/
  pushed : List Node
  /-- The objects in the order in which they were taken from the head. -/
  taken : List Node
  /-- The objects returned so far. -/
  returned : List Node

/-- A queue nobody has used. -/
def State.initial (next : Node → Option Node) : State Node where
  memory := ⟨.null, none, next⟩
  producers := []
  drainers := []
  contents := []
  pushed := []
  taken := []
  returned := []

variable (state : State Node)

/-- The objects in the list or in the hands of its users. -/
def State.ownedNodes : List Node :=
  nodesOf state.contents ++
    (state.drainers.filterMap Drainer.removed? ++
      state.producers.flatMap Producer.items)

section Steps

variable [DecidableEq Node]

/-- The caller prepares a list of objects of its own. -/
def State.beginPush (items : List Node) : State Node :=
  { state with
    memory := { state.memory with next := thread state.memory.next items }
    producers := .ready items :: state.producers }

/-- The tail exchange of `os_mpsc_push_list`. -/
def State.exchangeTail
    (earlier later : List (Producer Node))
    (first : Node)
    (rest : List Node) : State Node :=
  { state with
    memory := { state.memory with tail := (first :: rest).getLast? }
    producers := earlier ++ .linking state.memory.tail first :: later
    contents := state.contents ++ pushedEntries (first :: rest)
    pushed := state.pushed ++ first :: rest }

/-- The pointer store of `os_mpsc_push_list`. -/
def Memory.pushUpdatePrev
    (memory : Memory Node)
    (prev : Option Node)
    (head : Node) : Memory Node :=
  match prev with
  | some prev =>
    { memory with next := Function.update memory.next prev (some head) }
  | none => { memory with head := .object head }

@[inherit_doc Memory.pushUpdatePrev]
def State.storeLink
    (earlier later : List (Producer Node))
    (prev : Option Node)
    (first : Node) : State Node :=
  { state with
    memory := state.memory.pushUpdatePrev prev first
    producers := earlier ++ later
    contents := markLinked first state.contents }

/-- `_dispatch_root_queue_head_tail_quiesced` once both loads are done: ready,
abort, or wait. -/
def headTailQuiesced (headIsNull tailIsNull : Bool) : Option Bool :=
  if headIsNull = tailIsNull then some (!tailIsNull) else none

/-- One step of `_dispatch_root_queue_drain_one`; no drainer is left when the
call returns. -/
def State.drainStep : Drainer Node → Option (State Node × Option (Drainer Node))
  | .start =>
    let marked :=
      { state with memory := { state.memory with head := .mediator } }
    match state.memory.head with
    | .null => some (marked, some .foundNull)
    | .mediator => some (marked, some .contended)
    | .object head =>
      some ({ marked with taken := state.taken ++ [head] },
        some (.loadNext head))
  | .foundNull =>
    if state.memory.head = .mediator then
      some ({ state with memory := { state.memory with head := .null } },
        some .checkTail)
    else
      some (state, some .start)
  | .checkTail =>
    if state.memory.tail = none then
      some (state, none)
    else
      some (state, some .quiesceHead)
  | .quiesceHead =>
    some (state, some (.quiesceTail (state.memory.head = .null)))
  | .quiesceTail headIsNull =>
    match headTailQuiesced headIsNull state.memory.tail.isNone with
    | some true => some (state, some .start)
    | some false => some (state, none)
    | none => some (state, some .quiesceHead)
  | .contended =>
    if state.memory.head = .mediator then
      some (state, some .contended)
    else
      some (state, some .start)
  | .loadNext head =>
    match state.memory.next head with
    | some next => some (state, some (.storeHead head next))
    | none => some (state, some (.clearHead head))
  | .clearHead head =>
    some ({ state with memory := { state.memory with head := .null } },
      some (.clearTail head))
  | .clearTail head =>
    if state.memory.tail = some head then
      some ({ state with
        memory := { state.memory with tail := none }
        contents := state.contents.tail
        returned := state.returned ++ [head] }, none)
    else
      some (state, some (.waitNext head))
  | .waitNext head =>
    (state.memory.next head).map fun next =>
      (state, some (.storeHead head next))
  | .storeHead head next =>
    some ({ state with
      memory := { state.memory with head := .object next }
      contents := state.contents.tail }, some (.poke head))
  | .poke head =>
    some ({ state with returned := state.returned ++ [head] }, none)

/-- `__DISPATCH_ROOT_QUEUE_CONTENDED_WAIT__` may time out while its predicate
still tells it to wait. -/
def State.mayGiveUp : Drainer Node → Bool
  | .quiesceTail headIsNull =>
    (headTailQuiesced headIsNull state.memory.tail.isNone).isNone
  | .contended => state.memory.head = .mediator
  | _ => false

/-- One step of any thread. -/
inductive Step : State Node → State Node → Prop where
  | beginPush
      {state : State Node}
      (items : List Node)
      (nonempty : items ≠ [])
      (fresh : (items ++ state.ownedNodes).Nodup) :
      Step state (state.beginPush items)
  | exchangeTail
      {state : State Node}
      (earlier later : List (Producer Node))
      (first : Node)
      (rest : List Node)
      (scheduled : state.producers =
        earlier ++ .ready (first :: rest) :: later) :
      Step state (state.exchangeTail earlier later first rest)
  | storeLink
      {state : State Node}
      (earlier later : List (Producer Node))
      (prev : Option Node)
      (first : Node)
      (scheduled : state.producers =
        earlier ++ .linking prev first :: later) :
      Step state (state.storeLink earlier later prev first)
  | beginDrain
      {state : State Node} :
      Step state { state with drainers := .start :: state.drainers }
  | drain
      {state after : State Node}
      (earlier later : List (Drainer Node))
      (drainer : Drainer Node)
      (continued : Option (Drainer Node))
      (scheduled : state.drainers = earlier ++ drainer :: later)
      (accepted : state.drainStep drainer = some (after, continued)) :
      Step state { after with
        drainers := earlier ++ (continued.toList ++ later) }
  | giveUp
      {state : State Node}
      (earlier later : List (Drainer Node))
      (drainer : Drainer Node)
      (scheduled : state.drainers = earlier ++ drainer :: later)
      (timedOut : state.mayGiveUp drainer = true) :
      Step state { state with drainers := earlier ++ later }

end Steps

end LibDispatch.RootQueue
