import LibDispatch.MpscQueue

namespace LibDispatch.Mpsc

/-!
# The invariant of the multi-producer single-consumer list

The recorded contents describe the shared fields up to the pointers that are
still to be stored: by a producer whose tail exchange is done, or by the
consumer in the middle of a call.  The history replays to the same contents as
a sequential queue would have.
-/

variable {Node : Type}

/-! ## The sequential queue -/

section Replay

variable [DecidableEq Node]

/-- A sequential queue with re-insertion at the front. -/
def Event.apply (queue : List Node) : Event Node → Option (List Node)
  | pushed items => some (queue ++ items)
  | obtained item =>
    match queue with
    | [] => none
    | first :: rest => if first = item then some rest else none
  | restored items => some (items ++ queue)

/-- The objects left after a history, if a sequential queue allows it. -/
def replay (log : List (Event Node)) : Option (List Node) :=
  log.foldlM Event.apply []

theorem replay_concat
    {log : List (Event Node)}
    {queue : List Node}
    (event : Event Node)
    (before : replay log = some queue) :
    replay (log ++ [event]) = event.apply queue := by
  simp only [replay] at before ⊢
  simp [List.foldlM_append, before]

end Replay

/-! ## Periods of the tail -/

/-- A maximal period during which the tail is not `NULL`. -/
structure Period where
  begunByPush : Bool
  wasEmptyPushes : Nat
  deriving Repr, DecidableEq

/-- Whether the tail is set, and the periods so far, the latest first. -/
structure TailTrace where
  isSet : Bool
  periods : List Period
  deriving Repr, DecidableEq

/-- Follow one change of the tail. -/
def TailTrace.record (trace : TailTrace) : TailEvent → TailTrace
  | .exchanged wasEmpty =>
    if trace.isSet then
      match trace.periods with
      | [] => ⟨true, []⟩
      | period :: earlier =>
        ⟨true, { period with
          wasEmptyPushes := period.wasEmptyPushes + wasEmpty.toNat } ::
            earlier⟩
    else
      ⟨true, ⟨true, wasEmpty.toNat⟩ :: trace.periods⟩
  | .cleared => ⟨false, trace.periods⟩
  | .inserted =>
    if trace.isSet then trace else ⟨true, ⟨false, 0⟩ :: trace.periods⟩

/-- The periods of a history of the tail. -/
def tailTrace (tailLog : List TailEvent) : TailTrace :=
  tailLog.foldl TailTrace.record ⟨false, []⟩

@[simp] theorem tailTrace_concat
    (tailLog : List TailEvent)
    (event : TailEvent) :
    tailTrace (tailLog ++ [event]) = (tailTrace tailLog).record event := by
  simp [tailTrace]

/-- The one push that begins a period, and no other, finds the list empty. -/
structure TailTrace.Sound (trace : TailTrace) (tail : Option Node) : Prop where
  isSet : trace.isSet = tail.isSome
  periods : ∀ period ∈ trace.periods,
    period.wasEmptyPushes = period.begunByPush.toNat

variable {trace : TailTrace}

theorem TailTrace.Sound.exchanged
    {tail : Option Node}
    (sound : trace.Sound tail)
    (node : Node) :
    (trace.record (.exchanged (pushWasEmpty tail))).Sound (some node) := by
  obtain ⟨isSet, periods⟩ := sound
  obtain ⟨set, recorded⟩ := trace
  cases tail with
  | none =>
    simp only [Option.isSome_none] at isSet
    subst isSet
    refine ⟨rfl, ?_⟩
    intro period member
    simp only [record, pushWasEmpty, Option.isNone_none, Bool.false_eq_true,
      ↓reduceIte, List.mem_cons] at member
    rcases member with rfl | earlier
    · rfl
    · exact periods period earlier
  | some previous =>
    simp only [Option.isSome_some] at isSet
    subst isSet
    cases recorded with
    | nil =>
      exact ⟨rfl, by simp [record]⟩
    | cons current earlier =>
      refine ⟨rfl, ?_⟩
      intro period member
      simp only [record, pushWasEmpty, Option.isNone_some, ↓reduceIte,
        Bool.toNat_false, Nat.add_zero, List.mem_cons] at member
      exact periods period (List.mem_cons.mpr member)

theorem TailTrace.Sound.cleared
    {tail : Option Node}
    (sound : trace.Sound tail) :
    (trace.record .cleared).Sound (none : Option Node) :=
  ⟨rfl, sound.periods⟩

theorem TailTrace.Sound.inserted
    (sound : trace.Sound (none : Option Node))
    (node : Node) :
    (trace.record .inserted).Sound (some node) := by
  obtain ⟨isSet, periods⟩ := sound
  obtain ⟨set, recorded⟩ := trace
  simp only [Option.isSome_none] at isSet
  subst isSet
  refine ⟨rfl, ?_⟩
  intro period member
  simp only [record, Bool.false_eq_true, ↓reduceIte, List.mem_cons] at member
  rcases member with rfl | earlier
  · rfl
  · exact periods period earlier

/-! ## Shape of the list -/

variable (state : State Node)

/-- The pointer that leads to the contents, wherever it is kept: in the head
field, or in the hands of the consumer while the head field is `NULL`. -/
def State.contentsHead : Option Node :=
  match state.consumer with
  | .popExchangeTail head => some head
  | .popWaitNext head => some head
  | .popStoreNext head _ => some head
  | .captureExchangeTail head => some head
  | .undoStoreHead head =>
    if state.held.isEmpty then some head else state.memory.head
  | _ => state.memory.head

/-- The pointer that leads to the held objects. -/
def State.heldHead : Option Node :=
  match state.consumer with
  | .idle => state.snapshotHead
  | .undoStoreNext head _ _ => some head
  | .undoExchangeTail head _ => some head
  | .undoWaitHead head _ => some head
  | .undoRelink head _ _ => some head
  | .undoStoreHead head => some head
  | .prependLoadHead head _ => some head
  | _ => none

/-- Where the last popped object leads. -/
def State.poppedTarget : Option Node :=
  match state.consumer with
  | .idle => state.cursor
  | .popLoadNext head => some head
  | .popStoreHead head _ => some head
  | .popExchangeTail head => some head
  | .popWaitNext head => some head
  | .popStoreNext head _ => some head
  | .undoStoreNext head _ _ => some head
  | .undoExchangeTail head _ => some head
  | .undoWaitHead head _ => some head
  | .undoRelink head _ _ => some head
  | .undoStoreHead head => some head
  | _ => none

/-- What the consumer relies on at each place inside a call. -/
def State.Located : Prop :=
  match state.consumer with
  | .idle =>
    (state.snapshotHead = none → state.held = []) ∧
    (state.snapshotHead ≠ none →
      state.snapshotTail = lastNode state.held ∧
        state.cursor = none ∧ state.justPopped = []) ∧
    ∀ head, state.cursor = some head → StartsLinked state.contents [head]
  | .popLoadNext head =>
    state.held = [] ∧ state.snapshotHead = none ∧
      StartsLinked state.contents [head]
  | .popStoreHead head next =>
    state.held = [] ∧ state.snapshotHead = none ∧
      StartsLinked state.contents (head :: next.toList)
  | .popExchangeTail head =>
    state.held = [] ∧ state.snapshotHead = none ∧
      StartsLinked state.contents [head] ∧ state.memory.head = none
  | .popWaitNext head =>
    state.held = [] ∧ state.snapshotHead = none ∧
      StartsLinked state.contents [head] ∧ state.memory.head = none ∧
        lastNode state.contents ≠ some head
  | .popStoreNext head next =>
    state.held = [] ∧ state.snapshotHead = none ∧
      StartsLinked state.contents [head, next] ∧ state.memory.head = none
  | .undoStoreNext _ tail next =>
    lastNode state.held = some tail ∧ state.snapshotHead = none ∧
      (next ≠ none → StartsLinked state.contents next.toList)
  | .undoExchangeTail _ tail =>
    lastNode state.held = some tail ∧ state.snapshotHead = none
  | .undoWaitHead _ tail =>
    lastNode state.held = some tail ∧ state.snapshotHead = none
  | .undoRelink _ tail next =>
    lastNode state.held = some tail ∧ state.snapshotHead = none ∧
      StartsLinked state.contents [next]
  | .undoStoreHead head =>
    state.snapshotHead = none ∧
      (state.held = [] → StartsLinked state.contents [head] ∧
        state.memory.head = none) ∧
      (state.held ≠ [] → ∃ next, StartsLinked state.contents [next])
  | .captureStoreHead head =>
    state.held = [] ∧ state.snapshotHead = none ∧
      state.justPopped = [] ∧ state.cursor = none ∧
        StartsLinked state.contents [head]
  | .captureExchangeTail head =>
    state.held = [] ∧ state.snapshotHead = none ∧
      state.justPopped = [] ∧ state.cursor = none ∧
        StartsLinked state.contents [head] ∧ state.memory.head = none
  | .prependLoadHead _ tail =>
    lastNode state.held = some tail ∧ state.snapshotHead = none ∧
      state.justPopped = []

/-- Where the held objects lead. -/
def State.HeldTarget (target : Option Node) : Prop :=
  match state.consumer with
  | .undoStoreNext _ _ _ => True
  | .undoStoreHead _ => state.held ≠ [] → target = state.memory.head
  | _ => target = none

/-- What the pushes in progress rely on, given the `next` fields, the objects
in the consumer's hands and the objects in the list. -/
structure ProducersLocated
    (producers : List (Producer Node))
    (next : Node → Option Node)
    (held contents : List (Entry Node)) : Prop where
  ready : ∀ items, .ready items ∈ producers →
    items ≠ [] ∧ Segment next items.head? (linkedEntries items) none
  linkingNext : ∀ prev first, .linking (some prev) first ∈ producers →
    Awaits held prev first ∨ Awaits contents prev first
  linkingHead : ∀ first, .linking none first ∈ producers →
    ∃ rest, contents = ⟨first, false⟩ :: rest
  unlinked : (unlinkedNodes (held ++ contents)).Perm
    (producers.filterMap Producer.first?)

section Invariant

variable [DecidableEq Node]

/-- The invariant of every run. -/
structure State.Invariant (state : State Node) : Prop where
  distinct : state.ownedNodes.Nodup
  tail : state.memory.tail = lastNode state.contents
  contents : Segment state.memory.next state.contentsHead state.contents none
  held : ∃ target,
    Segment state.memory.next state.heldHead state.held target ∧
      state.HeldTarget target
  popped : state.justPopped ≠ [] →
    Segment state.memory.next state.justPopped.head?
      (linkedEntries state.justPopped) state.poppedTarget
  located : state.Located
  producers : ProducersLocated state.producers state.memory.next state.held
    state.contents
  replayed : replay state.log = some (nodesOf (state.held ++ state.contents))
  traced : (tailTrace state.tailLog).Sound state.memory.tail

theorem State.initial_invariant
    (next : Node → Option Node) :
    (State.initial next).Invariant where
  distinct := by
    simp [State.ownedNodes, State.initial]
  tail := rfl
  contents := rfl
  held := ⟨none, rfl, rfl⟩
  popped := by
    intro nonempty
    exact (nonempty rfl).elim
  located := by
    simp [State.Located, State.initial]
  producers := by
    refine ⟨?_, ?_, ?_, ?_⟩ <;>
      simp [State.initial, unlinkedNodes]
  replayed := rfl
  traced := ⟨rfl, by simp [State.initial, tailTrace]⟩

end Invariant

end LibDispatch.Mpsc
