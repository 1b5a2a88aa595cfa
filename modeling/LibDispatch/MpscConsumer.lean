import LibDispatch.MpscProducers

namespace LibDispatch.Mpsc

/-!
# The consumer keeps the invariant

Each load, store and compare-and-swap of the consumer is followed through the
recorded contents: an object leaves them when the pop that returns it is
complete, and comes back when the undo makes it reachable again.
-/

variable {Node : Type} {head : Node}

/-- A list that starts and ends with the same object has no other. -/
theorem eq_singleton_of_last
    {entries : List (Entry Node)}
    (distinct : (nodesOf entries).Nodup)
    (starts : StartsLinked entries [head])
    (last : lastNode entries = some head) :
    entries = [⟨head, true⟩] := by
  obtain ⟨rest, rfl⟩ := starts
  cases rest with
  | nil => rfl
  | cons second others =>
    have later : lastNode (second :: others) = some head := by
      rw [← last]
      exact (lastNode_append_of_ne_nil [⟨head, true⟩] (by simp)).symm
    have repeated : head ∈ nodesOf (second :: others) :=
      List.mem_of_getLast? later
    exact ((List.nodup_cons.mp distinct).1 repeated).elim

variable [DecidableEq Node]

variable {state : State Node} {consumer : Consumer Node}

variable (invariant : state.Invariant)

include invariant

/-- The invariant, with the place of the consumer written out. -/
theorem State.Invariant.atStage
    (stage : state.consumer = consumer) :
    ({ state with consumer := consumer } : State Node).Invariant := by
  subst stage
  exact invariant

omit invariant in
theorem State.Invariant.ofStage
    (stage : state.consumer = consumer)
    (invariant : ({ state with consumer := consumer } : State Node).Invariant) :
    state.Invariant := by
  subst stage
  exact invariant

/-- The other objects stay distinct when the consumer lets go of what it
popped. -/
theorem State.Invariant.letGo :
    ({ state with justPopped := [] } : State Node).ownedNodes.Nodup := by
  refine List.Nodup.sublist ?_ invariant.distinct
  exact (List.Sublist.refl _).append (List.sublist_append_right _ _)

omit invariant in
omit [DecidableEq Node] in
theorem segment_of_nil
    {next : Node → Option Node}
    {entries : List (Entry Node)}
    (isNil : entries = []) :
    Segment next none entries none := by
  rw [isNil]
  rfl

/-- With no snapshot outstanding the consumer holds nothing between calls. -/
theorem State.Invariant.nothingHeld
    (idle : state.consumer = .idle)
    (noSnapshot : state.snapshotHead = none) :
    state.held = [] :=
  (invariant.atStage idle).located.1 noSnapshot

/-- The head field leads to the contents between calls. -/
theorem State.Invariant.idleSegment
    (idle : state.consumer = .idle) :
    Segment state.memory.next state.memory.head state.contents none :=
  (invariant.atStage idle).contents

/-- `get_head` keeps the invariant. -/
theorem State.Invariant.getHead
    (idle : state.consumer = .idle)
    (noSnapshot : state.snapshotHead = none)
    (present : state.memory.head = some head) :
    (state.getHead head).Invariant := by
  have segment := invariant.idleSegment idle
  rw [present] at segment
  refine State.Invariant.ofStage idle
    { invariant.atStage idle with
      distinct := invariant.letGo
      popped := fun nonempty => (nonempty rfl).elim
      located := ?_ }
  refine ⟨fun _ => invariant.nothingHeld idle noSnapshot,
    fun there => (there noSnapshot).elim, ?_⟩
  rintro other ⟨⟩
  exact StartsLinked.of_incoming segment

/-- `pop_head` starts from what the consumer was told. -/
theorem State.Invariant.popHead
    (idle : state.consumer = .idle)
    (known : state.cursor = some head) :
    (state.popHead head).Invariant := by
  obtain ⟨-, snapshot, starts⟩ := (invariant.atStage idle).located
  have noSnapshot : state.snapshotHead = none := by
    by_contra present
    have noCursor := (snapshot present).2.1
    rw [known] at noCursor
    cases noCursor
  have nothingHeld := invariant.nothingHeld idle noSnapshot
  have chain := (invariant.atStage idle).popped
  exact
    { invariant.atStage idle with
      held := ⟨none, segment_of_nil nothingHeld, rfl⟩
      popped := by simpa [State.poppedTarget, State.popHead, known] using chain
      located := ⟨nothingHeld, noSnapshot, starts head known⟩ }

variable {tail : Node}

section

variable (idle : state.consumer = .idle)

include idle

/-- Undoing pops takes the objects back into the consumer's hands first. -/
theorem State.Invariant.undoPopList
    {kept items : List Node}
    (popped : state.justPopped = kept ++ items)
    (isHead : items.head? = some head)
    (isTail : items.getLast? = some tail) :
    (state.undoPopList kept head tail items).Invariant := by
  obtain ⟨after, itemsShape⟩ : ∃ after, items = head :: after := by
    cases items with
    | nil => cases isHead
    | cons first rest =>
      cases isHead
      exact ⟨rest, rfl⟩
  have nonempty : state.justPopped ≠ [] := by
    simp [popped, itemsShape]
  obtain ⟨-, snapshot, starts⟩ := (invariant.atStage idle).located
  have noSnapshot : state.snapshotHead = none := by
    by_contra present
    exact nonempty (snapshot present).2.2
  have nothingHeld := invariant.nothingHeld idle noSnapshot
  have chain := invariant.popped nonempty
  simp only [State.poppedTarget, idle] at chain
  rw [popped, linkedEntries_append, Segment.append_iff] at chain
  obtain ⟨middle, keptSegment, itemsSegment⟩ := chain
  have isMiddle : middle = some head := by
    rw [itemsShape] at itemsSegment
    exact itemsSegment.1
  subst isMiddle
  refine
    { invariant with
      distinct := ?distinct
      contents := ?contents
      held := ⟨state.cursor, ?held, trivial⟩
      popped := ?popped
      located := ?located
      producers := ?producers
      replayed := ?replayed }
  case distinct =>
    refine List.Perm.nodup_iff ?_ |>.mpr invariant.distinct
    simp only [State.ownedNodes, State.undoPopList, popped, nothingHeld,
      nodesOf_append, nodesOf_linkedEntries, List.nil_append]
    rw [List.perm_iff_count]
    intro node
    simp only [List.count_append]
    omega
  case contents =>
    exact invariant.idleSegment idle
  case held =>
    exact itemsSegment
  case popped =>
    intro keptNonempty
    have sameHead : (kept ++ items).head? = kept.head? := by
      cases kept with
      | nil => exact (keptNonempty rfl).elim
      | cons first rest => rfl
    rw [sameHead] at keptSegment
    exact keptSegment
  case located =>
    unfold State.Located
    refine ⟨?_, noSnapshot, ?_⟩
    · simp [State.undoPopList, lastNode, isTail]
    · intro present
      obtain ⟨next, isNext⟩ := Option.ne_none_iff_exists'.mp present
      simp only [State.undoPopList, isNext, Option.toList_some]
      exact starts next isNext
  case producers =>
    refine invariant.producers.relist ?_ ?_ ?_
    · intro prev first awaits
      rw [nothingHeld] at awaits
      rcases awaits with ⟨earlier, linked, later, shape⟩ | awaits
      · simp at shape
      · exact Or.inr awaits
    · intro first rest shape
      exact shape
    · simp [State.undoPopList, nothingHeld]
  case replayed =>
    have queue := replay_concat (.restored items) invariant.replayed
    simpa [State.undoPopList, Event.apply, nothingHeld] using queue

/-- `capture_snapshot` starts from a head that is there. -/
theorem State.Invariant.captureSnapshot
    (noSnapshot : state.snapshotHead = none)
    (present : state.memory.head = some head) :
    (state.captureSnapshot head).Invariant := by
  have segment := invariant.idleSegment idle
  rw [present] at segment
  have nothingHeld := invariant.nothingHeld idle noSnapshot
  exact
    { invariant.atStage idle with
      distinct := invariant.letGo
      held := ⟨none, segment_of_nil nothingHeld, rfl⟩
      popped := fun nonempty => (nonempty rfl).elim
      located := ⟨nothingHeld, noSnapshot, rfl, rfl,
        StartsLinked.of_incoming segment⟩ }

/-- The first object of a snapshot is linked. -/
theorem State.Invariant.snapshotShape
    (isHead : state.snapshotHead = some head) :
    ∃ rest, state.held = ⟨head, true⟩ :: rest ∧
      Segment state.memory.next (state.memory.next head) rest none ∧
      state.snapshotTail = lastNode state.held ∧
      state.cursor = none ∧ state.justPopped = [] := by
  obtain ⟨target, segment, isTarget⟩ := invariant.held
  simp only [State.HeldTarget, idle] at isTarget
  simp only [State.heldHead, idle, isHead] at segment
  subst isTarget
  obtain ⟨-, snapshot, -⟩ := (invariant.atStage idle).located
  obtain ⟨rest, shape⟩ := StartsLinked.of_incoming segment
  refine ⟨rest, shape, ?_, snapshot (by simp [isHead])⟩
  rw [shape] at segment
  exact segment.2

/-- Walking a snapshot keeps the invariant. -/
theorem State.Invariant.popSnapshot
    {next : Option Node}
    (isHead : state.snapshotHead = some head)
    (isNext : next = state.memory.next head)
    (complete : next = none → state.held.tail = []) :
    (state.popSnapshotHead head next).Invariant := by
  obtain ⟨rest, shape, segment, isTail, noCursor, nothingPopped⟩ :=
    invariant.snapshotShape idle isHead
  rw [shape, List.tail_cons] at complete
  refine State.Invariant.ofStage idle
    { invariant.atStage idle with
      distinct := ?distinct
      held := ⟨none, ?held, rfl⟩
      popped := fun nonempty => (nonempty nothingPopped).elim
      located := ?located
      producers := ?producers
      replayed := ?replayed }
  case distinct =>
    refine List.Nodup.sublist ?_ invariant.distinct
    simp only [State.ownedNodes, State.popSnapshotHead, shape,
      List.tail_cons, List.cons_append, nodesOf_cons]
    exact List.sublist_cons_self _ _
  case held =>
    simp only [State.heldHead, State.popSnapshotHead, shape, List.tail_cons,
      isNext]
    exact segment
  case located =>
    simp only [State.Located, State.popSnapshotHead, shape, List.tail_cons]
    refine ⟨complete, ?_, ?_⟩
    · intro present
      refine ⟨?_, noCursor, nothingPopped⟩
      have restNonempty : rest ≠ [] := by
        rintro rfl
        exact present (isNext.trans segment)
      rw [isTail, shape]
      exact lastNode_append_of_ne_nil [⟨head, true⟩] restNonempty
    · intro other isCursor
      rw [noCursor] at isCursor
      cases isCursor
  case producers =>
    refine invariant.producers.relist ?_ ?_ ?_
    · intro prev first awaits
      simp only [State.popSnapshotHead, shape, List.tail_cons] at awaits ⊢
      refine awaits.imp ?_ id
      intro inHeld
      rcases inHeld.of_cons with ⟨later, restShape⟩ | inRest
      · rw [restShape] at segment
        have missing : next = none := isNext.trans segment.1
        rw [complete missing] at restShape
        cases restShape
      · exact inRest
    · intro first remaining same
      exact same
    · simp [State.popSnapshotHead, shape]
  case replayed =>
    have queue := replay_concat (.obtained head) invariant.replayed
    simpa [State.popSnapshotHead, Event.apply, shape] using queue

/-- The consumer may let go of what it popped. -/
theorem State.Invariant.forget :
    state.forget.Invariant := by
  obtain ⟨noSnapshot, snapshot, -⟩ := (invariant.atStage idle).located
  refine State.Invariant.ofStage idle
    { invariant.atStage idle with
      distinct := invariant.letGo
      popped := fun nonempty => (nonempty rfl).elim
      located := ⟨noSnapshot, fun present => ⟨(snapshot present).1, rfl, rfl⟩,
        ?_⟩ }
  rintro head ⟨⟩

/-- Prepending the rest of a snapshot starts by holding it. -/
theorem State.Invariant.prependSnapshot
    (isHead : state.snapshotHead = some head)
    (isTail : state.snapshotTail = some tail) :
    (state.prependSnapshot head tail).Invariant := by
  obtain ⟨rest, shape, -, lastIsTail, -, -⟩ :=
    invariant.snapshotShape idle isHead
  obtain ⟨target, heldSegment, heldTarget⟩ := (invariant.atStage idle).held
  simp only [State.heldHead, isHead] at heldSegment
  exact
    { invariant.atStage idle with
      distinct := invariant.letGo
      held := ⟨target, heldSegment, heldTarget⟩
      popped := fun nonempty => (nonempty rfl).elim
      located := ⟨lastIsTail.symm.trans isTail, rfl, rfl⟩ }

/-- Prepending objects of the consumer starts by holding them. -/
theorem State.Invariant.prepend
    {items : List Node}
    (noSnapshot : state.snapshotHead = none)
    (fresh : (items ++ state.ownedNodes).Nodup)
    (isHead : items.head? = some head)
    (isTail : items.getLast? = some tail) :
    (state.prepend head tail items).Invariant := by
  have itemsDistinct := (List.nodup_append.mp fresh).1
  have nothingHeld := invariant.nothingHeld idle noSnapshot
  have threaded := invariant.of_next (thread_of_fresh _ fresh)
  refine
    { invariant with
      distinct := ?distinct
      contents := ?contents
      held := ⟨none, ?held, rfl⟩
      popped := fun nonempty => (nonempty rfl).elim
      located := ?located
      producers := ?producers
      replayed := ?replayed }
  case distinct =>
    refine List.Nodup.sublist ?_ fresh
    simp only [State.ownedNodes, State.prepend, nothingHeld, nodesOf_append,
      nodesOf_linkedEntries, List.nil_append, List.append_assoc]
    refine (List.Sublist.refl _).append ((List.Sublist.refl _).append ?_)
    exact List.sublist_append_right _ _
  case contents =>
    exact threaded.idleSegment idle
  case held =>
    simp only [State.heldHead, State.prepend, ← isHead]
    exact segment_thread state.memory.next itemsDistinct
  case located =>
    unfold State.Located
    refine ⟨?_, noSnapshot, rfl⟩
    simp [State.prepend, lastNode, isTail]
  case producers =>
    refine threaded.producers.relist ?_ ?_ ?_
    · intro prev first awaits
      simp only [nothingHeld] at awaits
      rcases awaits with ⟨earlier, linked, later, shape⟩ | awaits
      · simp at shape
      · exact Or.inr awaits
    · intro first rest shape
      exact shape
    · simp [State.prepend, nothingHeld]
  case replayed =>
    have queue := replay_concat (.restored items) invariant.replayed
    simpa [State.prepend, Event.apply, nothingHeld] using queue

end

/-! ## Inside a pop -/

/-- A pop that is complete hands over the first object. -/
theorem State.Invariant.finishPop
    {rest : List (Entry Node)}
    (memory : Memory Node)
    (nothingHeld : state.held = [])
    (noSnapshot : state.snapshotHead = none)
    (target : state.poppedTarget = some head)
    (shape : state.contents = ⟨head, true⟩ :: rest)
    (next : memory.next = state.memory.next)
    (headField : memory.head = state.memory.next head)
    (linked : ∀ first remaining, rest ≠ ⟨first, false⟩ :: remaining)
    (tail : memory.tail = lastNode rest)
    (tailLog : List TailEvent)
    (traced : (tailTrace tailLog).Sound memory.tail) :
    ({ state.finishPop memory head (state.memory.next head) with
      tailLog := tailLog } : State Node).Invariant := by
  have segment := invariant.contents
  rw [shape] at segment
  obtain ⟨-, restSegment⟩ := segment
  refine
    { distinct := ?distinct
      tail := ?tail
      contents := ?contents
      held := ⟨none, ?held, rfl⟩
      popped := ?popped
      located := ?located
      producers := ?producers
      replayed := ?replayed
      traced := traced }
  case distinct =>
    refine List.Perm.nodup_iff ?_ |>.mpr invariant.distinct
    simp only [State.ownedNodes, State.finishPop, shape, nothingHeld,
      List.tail_cons, List.nil_append, nodesOf_cons]
    rw [List.perm_iff_count]
    intro node
    simp only [List.count_append, List.count_cons, List.count_nil]
    omega
  case tail =>
    simpa [State.finishPop, shape] using tail
  case contents =>
    simp only [State.contentsHead, State.finishPop, shape, List.tail_cons,
      next, headField]
    exact restSegment
  case held =>
    simp [State.heldHead, State.finishPop, nothingHeld, noSnapshot]
  case popped =>
    intro _
    simp only [State.poppedTarget, State.finishPop, next,
      linkedEntries_append]
    rw [Segment.append_iff]
    refine ⟨some head, ?_, rfl, rfl⟩
    cases isPopped : state.justPopped with
    | nil => rfl
    | cons first others =>
      have chain := invariant.popped (by simp [isPopped])
      rw [target, isPopped] at chain
      exact chain
  case located =>
    unfold State.Located
    simp only [State.finishPop, shape, List.tail_cons]
    refine ⟨fun _ => nothingHeld, fun present => (present noSnapshot).elim, ?_⟩
    intro first isCursor
    rw [isCursor] at restSegment
    exact StartsLinked.of_incoming restSegment
  case producers =>
    simp only [State.finishPop, next]
    refine invariant.producers.relist ?_ ?_ ?_
    · intro prev first awaits
      simp only [shape, List.tail_cons] at awaits ⊢
      refine awaits.imp id ?_
      intro inContents
      rcases inContents.of_cons with ⟨later, restShape⟩ | inRest
      · exact (linked first later restShape).elim
      · exact inRest
    · intro first remaining unlinkedShape
      rw [shape] at unlinkedShape
      simp at unlinkedShape
    · simp [shape, nothingHeld]
  case replayed =>
    have queue := replay_concat (.obtained head) invariant.replayed
    simpa [State.finishPop, Event.apply, shape, nothingHeld] using queue

/-- `pop_head` reads the successor. -/
theorem State.Invariant.popLoadNext
    (stage : state.consumer = .popLoadNext head) :
    ({ state with
      consumer := .popStoreHead head (state.memory.next head) } :
        State Node).Invariant := by
  replace invariant := invariant.atStage stage
  obtain ⟨nothingHeld, noSnapshot, rest, shape⟩ := invariant.located
  refine { invariant with located := ⟨nothingHeld, noSnapshot, ?_⟩ }
  cases isNext : state.memory.next head with
  | none => exact ⟨rest, shape⟩
  | some next =>
    have segment := invariant.contents
    rw [shape] at segment
    obtain ⟨-, restSegment⟩ := segment
    simp only [isNext] at restSegment
    obtain ⟨remaining, rfl⟩ := StartsLinked.of_incoming restSegment
    exact ⟨remaining, shape⟩

variable {next : Node}

/-- With a successor in place, `pop_head` is done when it stores the head. -/
theorem State.Invariant.popStoreHead
    (nothingHeld : state.held = [])
    (noSnapshot : state.snapshotHead = none)
    (target : state.poppedTarget = some head)
    (starts : StartsLinked state.contents [head, next]) :
    (state.finishPop { state.memory with head := some next } head
      (some next)).Invariant := by
  obtain ⟨rest, shape⟩ := starts
  have segment := invariant.contents
  rw [shape] at segment
  have isNext : state.memory.next head = some next := segment.2.1
  have lastSame : state.memory.tail =
      lastNode (⟨next, true⟩ :: rest) := by
    rw [invariant.tail, shape]
    rfl
  have finished := invariant.finishPop
    { state.memory with head := some next } nothingHeld noSnapshot target
    shape rfl isNext.symm (by intro first remaining same; cases same) lastSame
    state.tailLog invariant.traced
  rw [isNext] at finished
  exact finished

/-- Without a successor, `pop_head` clears the head and turns to the tail. -/
theorem State.Invariant.popClearHead
    (stage : state.consumer = .popStoreHead head none) :
    ({ state with
      memory := { state.memory with head := none }
      consumer := .popExchangeTail head } : State Node).Invariant := by
  replace invariant := invariant.atStage stage
  obtain ⟨nothingHeld, noSnapshot, starts⟩ := invariant.located
  have incoming := starts.incoming invariant.contents
  have contents := invariant.contents
  rw [incoming] at contents
  exact
    { invariant with
      contents := contents
      located := ⟨nothingHeld, noSnapshot, starts, rfl⟩ }

/-- Clearing the tail completes the pop of the last object. -/
theorem State.Invariant.popClearTail
    (stage : state.consumer = .popExchangeTail head)
    (isLast : state.memory.tail = some head) :
    ({ state.finishPop { state.memory with tail := none } head none with
      tailLog := state.tailLog ++ [.cleared] } : State Node).Invariant := by
  obtain ⟨nothingHeld, noSnapshot, starts, cleared⟩ :=
    (invariant.atStage stage).located
  have distinct := invariant.listDistinct
  rw [nothingHeld, List.nil_append] at distinct
  have shape := eq_singleton_of_last distinct starts
    (invariant.tail.symm.trans isLast)
  have segment := invariant.contents
  rw [shape] at segment
  have noNext : state.memory.next head = none := segment.2
  have traced :
      (tailTrace (state.tailLog ++ [.cleared])).Sound (none : Option Node) := by
    rw [tailTrace_concat]
    exact invariant.traced.cleared
  have finished := invariant.finishPop { state.memory with tail := none }
    nothingHeld noSnapshot (by simp [State.poppedTarget, stage]) shape rfl
    (cleared.trans noNext.symm) (by intro first remaining same; cases same)
    rfl (state.tailLog ++ [.cleared]) traced
  rw [noNext] at finished
  exact finished

/-- A tail that moved on makes `pop_head` wait for the successor. -/
theorem State.Invariant.popTailMoved
    (stage : state.consumer = .popExchangeTail head)
    (notLast : state.memory.tail ≠ some head) :
    ({ state with consumer := .popWaitNext head } :
      State Node).Invariant := by
  replace invariant := invariant.atStage stage
  obtain ⟨nothingHeld, noSnapshot, starts, cleared⟩ := invariant.located
  exact
    { invariant with
      located := ⟨nothingHeld, noSnapshot, starts, cleared,
        fun isLast => notLast (invariant.tail.trans isLast)⟩ }

/-- The awaited successor is in place. -/
theorem State.Invariant.popNextArrived
    (stage : state.consumer = .popWaitNext head)
    (present : state.memory.next head = some next) :
    ({ state with consumer := .popStoreNext head next } :
      State Node).Invariant := by
  replace invariant := invariant.atStage stage
  obtain ⟨nothingHeld, noSnapshot, ⟨rest, shape⟩, cleared, -⟩ :=
    invariant.located
  have segment := invariant.contents
  rw [shape] at segment
  obtain ⟨-, restSegment⟩ := segment
  simp only [present] at restSegment
  obtain ⟨remaining, rfl⟩ := StartsLinked.of_incoming restSegment
  exact
    { invariant with
      located := ⟨nothingHeld, noSnapshot, ⟨remaining, shape⟩, cleared⟩ }

/-! ## Inside an undo -/

/-- Redirecting the end of the held objects keeps everything else. -/
theorem State.Invariant.redirectHeld
    {value : Option Node}
    (isTail : lastNode state.held = some tail)
    (contentsHead : (state.storeNext tail value consumer).contentsHead =
      state.contentsHead)
    (heldHead : (state.storeNext tail value consumer).heldHead =
      state.heldHead)
    (heldTarget : (state.storeNext tail value consumer).HeldTarget value)
    (poppedTarget : (state.storeNext tail value consumer).poppedTarget =
      state.poppedTarget)
    (located : (state.storeNext tail value consumer).Located) :
    (state.storeNext tail value consumer).Invariant := by
  obtain ⟨earlier, linked, shape⟩ := exists_concat_of_lastNode isTail
  have tailHeld : tail ∈ nodesOf state.held := by
    simp [shape]
  have listDistinct := invariant.listDistinct
  rw [nodesOf_append] at listDistinct
  obtain ⟨heldDistinct, -, apart⟩ := List.nodup_append.mp listDistinct
  have elsewhere : tail ∉
      state.justPopped ++ state.producers.flatMap Producer.items := by
    intro member
    exact (List.nodup_append.mp invariant.distinct).2.2 tail
      (by simp [tailHeld]) tail member rfl
  obtain ⟨target, heldSegment, -⟩ := invariant.held
  refine
    { invariant with
      contents := ?_
      held := ⟨value, ?_, heldTarget⟩
      popped := ?_
      located := located
      producers := ?_ }
  · rw [contentsHead]
    refine invariant.contents.update_outside ?_
    intro member
    exact apart tail tailHeld tail member rfl
  · rw [heldHead]
    simp only [State.storeNext, shape] at heldSegment heldDistinct ⊢
    exact heldSegment.update_last heldDistinct
  · intro nonempty
    rw [poppedTarget]
    refine (invariant.popped nonempty).update_outside ?_
    rw [nodesOf_linkedEntries]
    exact fun member => elsewhere (List.mem_append_left _ member)
  · refine invariant.producers.of_next ?_
    intro items member node inItems
    have different : node ≠ tail := by
      rintro rfl
      exact elsewhere (List.mem_append_right _
        (List.mem_flatMap.mpr ⟨_, member, inItems⟩))
    exact Function.update_of_ne different _ _

/-- The undo leads the objects it puts back to the head of the list, also if
that arrived late. -/
theorem State.Invariant.undoRelink
    (stage : state.consumer = .undoRelink head tail next ∨
      state.consumer = .undoStoreNext head tail (some next)) :
    (state.storeNext tail (some next) (.undoStoreHead head)).Invariant := by
  obtain ⟨isTail, noSnapshot, starts⟩ : lastNode state.held = some tail ∧
      state.snapshotHead = none ∧ StartsLinked state.contents [next] := by
    rcases stage with stage | stage
    · exact (invariant.atStage stage).located
    · obtain ⟨isTail, noSnapshot, known⟩ := (invariant.atStage stage).located
      exact ⟨isTail, noSnapshot, known (by simp)⟩
  have stillHeld : state.held ≠ [] := by
    intro isNil
    simp [isNil] at isTail
  have headField : state.memory.head = some next := by
    have incoming := starts.incoming invariant.contents
    rcases stage with stage | stage <;>
      simpa [State.contentsHead, stage] using incoming
  refine invariant.redirectHeld isTail ?_ ?_ (fun _ => headField.symm) ?_
    ⟨noSnapshot, fun isNil => (stillHeld isNil).elim,
      fun _ => ⟨next, starts⟩⟩
  all_goals
    rcases stage with stage | stage <;>
      simp [State.contentsHead, State.heldHead, State.poppedTarget,
        State.storeNext, stage, stillHeld]

/-- The undo leads the objects it puts back to the list. -/
theorem State.Invariant.undoStoreNext
    {next : Option Node}
    (stage : state.consumer = .undoStoreNext head tail next) :
    (state.storeNext tail next
      (match next with
        | some _ => .undoStoreHead head
        | none => .undoExchangeTail head tail)).Invariant := by
  cases next with
  | none =>
    obtain ⟨isTail, noSnapshot, -⟩ := (invariant.atStage stage).located
    refine invariant.redirectHeld isTail ?_ ?_ rfl ?_ ⟨isTail, noSnapshot⟩
    · simp [State.contentsHead, State.storeNext, stage]
    · simp [State.heldHead, State.storeNext, stage]
    · simp [State.poppedTarget, State.storeNext, stage]
  | some next => exact invariant.undoRelink (.inr stage)

/-- Finding the tail `NULL`, the undo puts the objects back at once. -/
theorem State.Invariant.undoInsert
    (stage : state.consumer = .undoExchangeTail head tail)
    (noTail : state.memory.tail = none) :
    ({ state with
      memory := { state.memory with tail := some tail }
      consumer := .undoStoreHead head
      contents := state.held ++ state.contents
      held := []
      tailLog := state.tailLog ++ [.inserted] } : State Node).Invariant := by
  obtain ⟨isTail, noSnapshot⟩ := (invariant.atStage stage).located
  have empty : state.contents = [] :=
    lastNode_eq_none_iff.mp (invariant.tail.symm.trans noTail)
  have noHead : state.memory.head = none := by
    have segment := (invariant.atStage stage).contents
    simpa [State.contentsHead, empty] using segment
  obtain ⟨_, segment, rfl⟩ := (invariant.atStage stage).held
  have inserted : Segment state.memory.next (some head)
      (state.held ++ state.contents) none := by
    rw [empty, List.append_nil]
    exact segment
  refine
    { invariant.atStage stage with
      tail := by simpa [empty] using isTail.symm
      contents := inserted
      held := ⟨some head, rfl, fun stillHeld => (stillHeld rfl).elim⟩
      located := ⟨noSnapshot,
        fun _ => ⟨StartsLinked.of_incoming inserted, noHead⟩,
        fun stillHeld => (stillHeld rfl).elim⟩
      producers := ?producers
      traced := ?traced }
  case producers =>
    refine invariant.producers.relist ?_ ?_ rfl
    · intro prev first awaits
      right
      rcases awaits with inHeld | inContents
      · exact inHeld.append _
      · exact inContents.prepend _
    · intro first rest shape
      rw [empty] at shape
      cases shape
  case traced =>
    rw [tailTrace_concat]
    have sound := invariant.traced
    rw [noTail] at sound
    exact sound.inserted tail

/-- Storing the head completes the undo. -/
theorem State.Invariant.undoStoreHead
    (stage : state.consumer = .undoStoreHead head) :
    ({ state with
      memory := { state.memory with head := some head }
      consumer := .idle
      cursor := some head
      contents := state.held ++ state.contents
      held := [] } : State Node).Invariant := by
  obtain ⟨noSnapshot, inserted, waiting⟩ := (invariant.atStage stage).located
  have listSegment : Segment state.memory.next (some head)
      (state.held ++ state.contents) none := by
    have segment := (invariant.atStage stage).contents
    obtain ⟨target, heldSegment, isTarget⟩ := (invariant.atStage stage).held
    simp only [State.contentsHead, List.isEmpty_iff] at segment
    by_cases nothingHeld : state.held = []
    · simpa [nothingHeld] using segment
    · simp only [nothingHeld, ↓reduceIte] at segment
      refine Segment.append_iff.mpr ⟨target, heldSegment, ?_⟩
      rw [isTarget nothingHeld]
      exact segment
  have lastSame : lastNode (state.held ++ state.contents) =
      lastNode state.contents := by
    by_cases nothingHeld : state.held = []
    · simp [nothingHeld]
    · obtain ⟨next, rest, shape⟩ := waiting nothingHeld
      simp only at shape
      exact lastNode_append_of_ne_nil _ (by simp [shape])
  refine
    { invariant.atStage stage with
      tail := invariant.tail.trans lastSame.symm
      contents := listSegment
      held := ⟨none, noSnapshot, rfl⟩
      located := ?located
      producers := ?producers }
  case located =>
    refine ⟨fun _ => rfl, fun present => (present noSnapshot).elim, ?_⟩
    intro first isCursor
    cases isCursor
    exact StartsLinked.of_incoming listSegment
  case producers =>
    refine invariant.producers.relist ?_ ?_ rfl
    · intro prev first awaits
      right
      rcases awaits with inHeld | inContents
      · exact inHeld.append _
      · exact inContents.prepend _
    · intro first rest shape
      by_cases nothingHeld : state.held = []
      · simpa [nothingHeld] using shape
      · obtain ⟨next, starts⟩ := waiting nothingHeld
        exact (not_startsLinked_of_unlinked shape starts).elim

/-- Exchanging the tail turns the contents into a snapshot. -/
theorem State.Invariant.captureTail
    (stage : state.consumer = .captureExchangeTail head) :
    ({ state with
      memory := { state.memory with tail := none }
      consumer := .idle
      snapshotHead := some head
      snapshotTail := state.memory.tail
      contents := []
      held := state.contents
      tailLog := state.tailLog ++ [.cleared] } : State Node).Invariant := by
  obtain ⟨nothingHeld, noSnapshot, nothingPopped, noCursor, starts,
    noHead⟩ := (invariant.atStage stage).located
  simp only at nothingHeld
  have segment := (invariant.atStage stage).contents
  exact
    { distinct := by
        simpa [State.ownedNodes, nothingHeld] using invariant.distinct
      tail := rfl
      contents := noHead
      held := ⟨none, segment, rfl⟩
      popped := fun nonempty => (nonempty nothingPopped).elim
      located := by
        refine ⟨fun absent => (by cases absent),
          fun _ => ⟨invariant.tail, noCursor, nothingPopped⟩, ?_⟩
        intro first isCursor
        rw [noCursor] at isCursor
        cases isCursor
      producers := by
        refine invariant.producers.relist ?_ ?_ ?_
        · intro prev first awaits
          rw [nothingHeld] at awaits
          rcases awaits with ⟨earlier, linked, later, shape⟩ | awaits
          · simp at shape
          · exact Or.inl awaits
        · intro first rest shape
          exact (not_startsLinked_of_unlinked shape starts).elim
        · simp [nothingHeld]
      replayed := by simpa [nothingHeld] using invariant.replayed
      traced := by
        rw [tailTrace_concat]
        exact invariant.traced.cleared }

/-! ## Loads and single stores that only move the consumer on -/

/-- The undo waits for the head of a list that is not empty any more. -/
theorem State.Invariant.undoTailTaken
    (stage : state.consumer = .undoExchangeTail head tail) :
    ({ state with consumer := .undoWaitHead head tail } :
      State Node).Invariant := by
  exact { invariant.atStage stage with }

/-- The awaited head is in place. -/
theorem State.Invariant.undoHeadArrived
    (stage : state.consumer = .undoWaitHead head tail)
    (present : state.memory.head = some next) :
    ({ state with consumer := .undoRelink head tail next } :
      State Node).Invariant := by
  replace invariant := invariant.atStage stage
  have segment := invariant.contents
  simp only [State.contentsHead, present] at segment
  exact
    { invariant with
      located := ⟨invariant.located.1, invariant.located.2,
        StartsLinked.of_incoming segment⟩ }

/-- `capture_snapshot` clears the head. -/
theorem State.Invariant.captureStoreHead
    (stage : state.consumer = .captureStoreHead head) :
    ({ state with
      memory := { state.memory with head := none }
      consumer := .captureExchangeTail head } : State Node).Invariant := by
  replace invariant := invariant.atStage stage
  obtain ⟨nothingHeld, noSnapshot, nothingPopped, noCursor, starts⟩ :=
    invariant.located
  have contents := invariant.contents
  rw [starts.incoming contents] at contents
  exact
    { invariant with
      contents := contents
      located := ⟨nothingHeld, noSnapshot, nothingPopped, noCursor, starts,
        rfl⟩ }

/-- `prepend` reads the head and goes on like an undo. -/
theorem State.Invariant.prependLoadHead
    (stage : state.consumer = .prependLoadHead head tail) :
    ({ state with
      consumer := .undoStoreNext head tail state.memory.head } :
        State Node).Invariant := by
  replace invariant := invariant.atStage stage
  obtain ⟨isTail, noSnapshot, nothingPopped⟩ := invariant.located
  obtain ⟨target, segment, -⟩ := invariant.held
  have listSegment := invariant.contents
  simp only [State.contentsHead] at listSegment
  refine
    { invariant with
      held := ⟨target, segment, trivial⟩
      popped := fun nonempty => (nonempty nothingPopped).elim
      located := ⟨isTail, noSnapshot, ?_⟩ }
  intro present
  obtain ⟨next, isNext⟩ := Option.ne_none_iff_exists'.mp present
  rw [isNext] at listSegment ⊢
  exact StartsLinked.of_incoming listSegment

/-- Every step inside a call of the consumer keeps the invariant. -/
theorem State.Invariant.consumerStep
    {after : State Node}
    (accepted : state.consumerStep = some after) :
    after.Invariant := by
  have located := invariant.located
  unfold State.Located at located
  unfold State.consumerStep at accepted
  cases stage : state.consumer
  all_goals
    simp only [stage, Option.some.injEq, reduceCtorEq,
      Option.map_eq_some_iff] at accepted located
  case popLoadNext head =>
    exact accepted ▸ invariant.popLoadNext stage
  case popStoreHead head next =>
    cases next with
    | none => exact Option.some.inj accepted ▸ invariant.popClearHead stage
    | some next =>
      obtain ⟨nothingHeld, noSnapshot, starts⟩ := located
      exact Option.some.inj accepted ▸
        invariant.popStoreHead nothingHeld noSnapshot
          (by simp [State.poppedTarget, stage]) starts
  case popExchangeTail head =>
    split_ifs at accepted with isLast
    · exact Option.some.inj accepted ▸ invariant.popClearTail stage isLast
    · exact Option.some.inj accepted ▸ invariant.popTailMoved stage isLast
  case popWaitNext head =>
    obtain ⟨next, present, rfl⟩ := accepted
    exact invariant.popNextArrived stage present
  case popStoreNext head next =>
    obtain ⟨nothingHeld, noSnapshot, starts, -⟩ := located
    exact accepted ▸ invariant.popStoreHead nothingHeld noSnapshot
      (by simp [State.poppedTarget, stage]) starts
  case undoStoreNext head tail next =>
    have stored := invariant.undoStoreNext stage
    cases next with
    | none | some _ => exact Option.some.inj accepted ▸ stored
  case undoExchangeTail head tail =>
    split_ifs at accepted with noTail
    · exact Option.some.inj accepted ▸ invariant.undoInsert stage noTail
    · exact Option.some.inj accepted ▸ invariant.undoTailTaken stage
  case undoWaitHead head tail =>
    obtain ⟨next, present, rfl⟩ := accepted
    exact invariant.undoHeadArrived stage present
  case undoRelink head tail next =>
    exact accepted ▸ invariant.undoRelink (.inl stage)
  case undoStoreHead head =>
    exact accepted ▸ invariant.undoStoreHead stage
  case captureStoreHead head =>
    exact accepted ▸ invariant.captureStoreHead stage
  case captureExchangeTail head =>
    exact accepted ▸ invariant.captureTail stage
  case prependLoadHead head tail =>
    exact accepted ▸ invariant.prependLoadHead stage

end LibDispatch.Mpsc
