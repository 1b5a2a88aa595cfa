import LibDispatch.MpscConsumer

namespace LibDispatch.Mpsc

/-!
# Delivery of the multi-producer single-consumer list

In every reachable state the history is one of a sequential queue, the head is
never cleared over a pointer that a producer stored, and the pushes that find
the list empty are the ones that begin a period with a tail.  A period that the
consumer begins by putting objects back has no such push.
-/

variable {Node : Type} [DecidableEq Node]

/-- The objects pushed, in the order of the tail exchanges. -/
def pushedItems (log : List (Event Node)) : List Node :=
  log.flatMap fun event =>
    match event with
    | .pushed items => items
    | _ => []

/-- The objects put back in front. -/
def restoredItems (log : List (Event Node)) : List Node :=
  log.flatMap fun event =>
    match event with
    | .restored items => items
    | _ => []

/-- The objects obtained by the consumer, in order. -/
def obtainedItems (log : List (Event Node)) : List Node :=
  log.flatMap fun event =>
    match event with
    | .obtained item => [item]
    | _ => []

/-- A sequential queue neither loses nor duplicates objects; without
re-insertions it is first-in first-out. -/
theorem replay_conserves
    {log : List (Event Node)}
    {start queue : List Node}
    (replayed : log.foldlM Event.apply start = some queue) :
    (start ++ (pushedItems log ++ restoredItems log)).Perm
        (obtainedItems log ++ queue) ∧
      ((∀ items, .restored items ∉ log) →
        start ++ pushedItems log = obtainedItems log ++ queue) := by
  induction log generalizing start with
  | nil =>
    obtain rfl : start = queue := by
      simpa using replayed
    simp [pushedItems, restoredItems, obtainedItems]
  | cons event log inductionHypothesis =>
    simp only [List.foldlM_cons, Option.bind_eq_bind,
      Option.bind_eq_some_iff] at replayed
    obtain ⟨middle, applied, remaining⟩ := replayed
    have rest := inductionHypothesis remaining
    simp only [List.mem_cons, not_or, forall_and]
    cases event with
    | pushed items =>
      obtain rfl : start ++ items = middle := Option.some.inj applied
      simpa [pushedItems, restoredItems, obtainedItems] using rest
    | obtained item =>
      cases start with
      | nil => cases applied
      | cons first others =>
        simp only [Event.apply] at applied
        split_ifs at applied with isFirst
        cases applied
        subst isFirst
        simpa [pushedItems, restoredItems, obtainedItems] using rest
    | restored items =>
      obtain rfl : items ++ start = middle := Option.some.inj applied
      refine ⟨List.Perm.trans ?_ rest.1, fun none => (none.1 items rfl).elim⟩
      simp only [pushedItems, restoredItems, List.flatMap_cons,
        List.nil_append]
      rw [List.perm_iff_count]
      intro node
      simp only [List.count_append]
      omega

/-- What the users of the list may rely on. -/
structure Delivers (state : State Node) : Prop where
  inOrder :
    replay state.log = some (nodesOf (state.held ++ state.contents))
  exactlyOnce :
    (pushedItems state.log ++ restoredItems state.log).Perm
      (obtainedItems state.log ++ nodesOf (state.held ++ state.contents))
  firstInFirstOut :
    (∀ items, .restored items ∉ state.log) →
      pushedItems state.log =
        obtainedItems state.log ++ nodesOf (state.held ++ state.contents)
  complete :
    state.producers = [] → state.consumer = .idle →
      Segment state.memory.next state.memory.head
          (linkedEntries (nodesOf state.contents)) none ∧
        state.memory.tail = (nodesOf state.contents).getLast?
  /-- With no push in progress the next pop obtains the first object. -/
  poppable :
    ∀ first rest, state.producers = [] → state.consumer = .idle →
      state.snapshotHead = none → nodesOf state.contents = first :: rest →
        ∃ after : State Node,
          Reachable (· = state) Step after ∧
            after.consumer = .idle ∧
            after.log = state.log ++ [.obtained first] ∧
            nodesOf after.contents = rest
  clearsOwnHead :
    ∀ head,
      state.consumer = .popStoreHead head none ∨
          state.consumer = .captureStoreHead head →
        state.memory.head = some head ∧
          ∀ first, .linking none first ∉ state.producers
  wasEmptyBegins :
    ∀ period ∈ (tailTrace state.tailLog).periods,
      period.wasEmptyPushes = period.begunByPush.toNat

variable {state : State Node}

/-- Every step keeps the invariant. -/
theorem State.Invariant.step
    {after : State Node}
    (invariant : state.Invariant)
    (stepped : Step state after) :
    after.Invariant := by
  cases stepped with
  | beginPush items nonempty fresh =>
    exact invariant.beginPush nonempty fresh
  | exchangeTail earlier later first rest scheduled =>
    exact invariant.exchangeTail scheduled
  | storeLink earlier later prev first scheduled =>
    cases prev with
    | none => exact invariant.storeHead scheduled
    | some prev => exact invariant.storeNext scheduled
  | getHead head idle noSnapshot present =>
    exact invariant.getHead idle noSnapshot present
  | popHead head idle known =>
    exact invariant.popHead idle known
  | undoPopList kept head tail items idle popped isHead isTail =>
    exact invariant.undoPopList idle popped isHead isTail
  | captureSnapshot head idle noSnapshot present =>
    exact invariant.captureSnapshot idle noSnapshot present
  | popSnapshotLast head idle isHead isTail =>
    obtain ⟨rest, shape, segment, lastIsTail, -⟩ :=
      invariant.snapshotShape idle isHead
    have heldDistinct : (nodesOf state.held).Nodup := by
      have distinct := invariant.listDistinct
      rw [nodesOf_append] at distinct
      exact (List.nodup_append.mp distinct).1
    have single := eq_singleton_of_last heldDistinct ⟨rest, shape⟩
      (lastIsTail.symm.trans isTail)
    have restNil : rest = [] := by
      rw [shape] at single
      exact (List.cons.inj single).2
    subst restNil
    refine invariant.popSnapshot idle isHead segment.symm ?_
    intro _
    rw [shape]
    rfl
  | popSnapshotHead head next idle isHead notTail present =>
    refine invariant.popSnapshot idle isHead present.symm ?_
    intro isNone
    cases isNone
  | prepend head tail items idle noSnapshot fresh isHead isTail =>
    exact invariant.prepend idle noSnapshot fresh isHead isTail
  | prependSnapshot head tail idle isHead isTail =>
    exact invariant.prependSnapshot idle isHead isTail
  | forget idle =>
    exact invariant.forget idle
  | advance accepted =>
    exact invariant.consumerStep accepted

/-- With no push in progress every pointer is in place. -/
theorem State.Invariant.allLinked
    (invariant : state.Invariant)
    (noPush : state.producers = []) :
    state.contents = linkedEntries (nodesOf state.contents) := by
  have unlinked := invariant.producers.unlinked
  rw [noPush, List.filterMap_nil, List.perm_nil, unlinkedNodes_append,
    List.append_eq_nil_iff] at unlinked
  exact eq_linkedEntries_of_unlinkedNodes_nil unlinked.2

/-- The consumer alone pops the first object. -/
theorem State.Invariant.popAlone
    (invariant : state.Invariant)
    {first : Node}
    {rest : List Node}
    (noPush : state.producers = [])
    (idle : state.consumer = .idle)
    (noSnapshot : state.snapshotHead = none)
    (shape : nodesOf state.contents = first :: rest) :
    ∃ after : State Node,
      Reachable (· = state) Step after ∧
        after.consumer = .idle ∧
        after.log = state.log ++ [.obtained first] ∧
        nodesOf after.contents = rest := by
  have segment := invariant.idleSegment idle
  rw [invariant.allLinked noPush, shape] at segment
  have remaining : nodesOf state.contents.tail = rest := by
    rw [← nodesOf_tail, shape]
    rfl
  have start : Reachable (· = state) Step state := .start rfl
  have known := start.next (.getHead first idle noSnapshot segment.1)
  have popping := known.next (.popHead first idle rfl)
  cases rest with
  | nil =>
    have noNext : state.memory.next first = none := segment.2
    have isTail : state.memory.tail = some first := by
      rw [invariant.tail, lastNode, shape]
      rfl
    have loaded := popping.next (.advance rfl)
    simp only [State.popHead, State.getHead, noNext] at loaded
    have cleared := loaded.next (.advance rfl)
    have popped := cleared.next (.advance (if_pos isTail))
    exact ⟨_, popped, rfl, rfl, remaining⟩
  | cons second others =>
    have isNext : state.memory.next first = some second := segment.2.1
    have loaded := popping.next (.advance rfl)
    simp only [State.popHead, State.getHead, isNext] at loaded
    have popped := loaded.next (.advance rfl)
    exact ⟨_, popped, rfl, rfl, remaining⟩

/-- The invariant gives the delivery. -/
theorem State.Invariant.delivers
    (invariant : state.Invariant) :
    Delivers state where
  inOrder := invariant.replayed
  exactlyOnce := (replay_conserves invariant.replayed).1
  firstInFirstOut := (replay_conserves invariant.replayed).2
  complete := by
    intro noPush idle
    rw [← invariant.allLinked noPush]
    exact ⟨invariant.idleSegment idle, invariant.tail⟩
  poppable := fun _ _ => invariant.popAlone
  clearsOwnHead := by
    intro head stages
    have located := invariant.located
    have segment := invariant.contents
    unfold State.Located at located
    have starts : StartsLinked state.contents [head] ∧
        state.contentsHead = state.memory.head := by
      rcases stages with stage | stage
      · simp only [stage, Option.toList_none] at located
        exact ⟨located.2.2, by simp [State.contentsHead, stage]⟩
      · simp only [stage] at located
        exact ⟨located.2.2.2.2, by simp [State.contentsHead, stage]⟩
    refine ⟨starts.2.symm.trans (starts.1.incoming segment), ?_⟩
    intro first member
    obtain ⟨rest, shape⟩ := invariant.producers.linkingHead first member
    exact not_startsLinked_of_unlinked shape starts.1
  wasEmptyBegins := invariant.traced.periods

/-- The list delivers in every reachable state. -/
theorem reachable_delivers
    (next : Node → Option Node)
    {state : State Node}
    (reached : Reachable (· = State.initial next) Step state) :
    Delivers state := by
  have invariant : state.Invariant := by
    refine reached.invariant ?_ ?_
    · rintro _ rfl
      exact State.initial_invariant next
    · intro before after invariant stepped
      exact invariant.step stepped
  exact invariant.delivers

/-- A run in which one object is pushed, popped and put back. -/
theorem exists_popUndone :
    ∃ state : State Nat,
      Reachable (· = State.initial fun _ => none) Step state ∧
        tailTrace state.tailLog = ⟨true, [⟨false, 0⟩, ⟨true, 1⟩]⟩ := by
  have start : Reachable (· = (State.initial fun _ => none : State Nat)) Step
      (State.initial fun _ => none) := .start rfl
  have begun := start.next (.beginPush [0] (by simp) (by decide))
  have exchanged := begun.next (.exchangeTail [] [] 0 [] rfl)
  have linked := exchanged.next (.storeLink [] [] none 0 rfl)
  have known := linked.next (.getHead 0 rfl rfl rfl)
  have popping := known.next (.popHead 0 rfl rfl)
  have loaded := popping.next (.advance rfl)
  have cleared := loaded.next (.advance rfl)
  have popped := cleared.next (.advance rfl)
  have undoing := popped.next (.undoPopList [] 0 0 [0] rfl rfl rfl rfl)
  have ended := undoing.next (.advance rfl)
  have inserted := ended.next (.advance rfl)
  exact ⟨_, inserted, rfl⟩

/-- The delivery in that run. -/
theorem popUndone_delivers :
    ∃ state : State Nat,
      Reachable (· = State.initial fun _ => none) Step state ∧
        tailTrace state.tailLog = ⟨true, [⟨false, 0⟩, ⟨true, 1⟩]⟩ ∧
        Delivers state := by
  obtain ⟨state, reached, trace⟩ := exists_popUndone
  exact ⟨state, reached, trace, reachable_delivers _ reached⟩

/-- No push finds the list empty in the period that the undo begins. -/
theorem popUndone_period_without_push :
    ¬∀ state : State Nat,
      Reachable (· = State.initial fun _ => none) Step state →
        ∀ period ∈ (tailTrace state.tailLog).periods,
          period.wasEmptyPushes = 1 := by
  intro exactlyOne
  obtain ⟨state, reached, trace⟩ := exists_popUndone
  have counted := exactlyOne state reached ⟨false, 0⟩ (by simp [trace])
  cases counted

end LibDispatch.Mpsc
