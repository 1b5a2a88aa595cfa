import LibDispatch.MpscInvariant

namespace LibDispatch.Mpsc

/-!
# Pushes keep the invariant

A producer touches fields that nobody else looks at: its own objects before the
tail exchange, and afterwards the one pointer that is still missing.
-/

variable {Node : Type}

/-- What the consumer relies on survives a change of the lists that keeps their
linked beginnings and their ends. -/
theorem State.Located.transport
    {state state' : State Node}
    (located : state.Located)
    (consumer : state'.consumer = state.consumer)
    (cursor : state'.cursor = state.cursor)
    (justPopped : state'.justPopped = state.justPopped)
    (snapshotHead : state'.snapshotHead = state.snapshotHead)
    (snapshotTail : state'.snapshotTail = state.snapshotTail)
    (heldNil : state'.held = [] ↔ state.held = [])
    (heldLast : lastNode state'.held = lastNode state.held)
    (starts : ∀ first rest, StartsLinked state.contents (first :: rest) →
      StartsLinked state'.contents (first :: rest))
    (last : ∀ head, StartsLinked state.contents [head] →
      lastNode state.contents ≠ some head →
        lastNode state'.contents ≠ some head)
    (headField : ∀ head, StartsLinked state.contents [head] →
      state.memory.head = none → state'.memory.head = none) :
    state'.Located := by
  unfold State.Located at located ⊢
  rw [consumer]
  generalize state.consumer = stage at located ⊢
  cases stage with
  | idle =>
    obtain ⟨noSnapshot, snapshot, known⟩ := located
    refine ⟨?_, ?_, ?_⟩
    · intro absent
      exact heldNil.mpr (noSnapshot (snapshotHead ▸ absent))
    · intro present
      rw [snapshotTail, heldLast, cursor, justPopped]
      exact snapshot (snapshotHead ▸ present)
    · intro head isCursor
      exact starts head [] (known head (cursor ▸ isCursor))
  | popLoadNext head =>
    exact ⟨heldNil.mpr located.1, snapshotHead.trans located.2.1,
      starts head [] located.2.2⟩
  | popStoreHead head next =>
    exact ⟨heldNil.mpr located.1, snapshotHead.trans located.2.1,
      starts head _ located.2.2⟩
  | popExchangeTail head =>
    obtain ⟨nothingHeld, noSnapshot, first, cleared⟩ := located
    exact ⟨heldNil.mpr nothingHeld, snapshotHead.trans noSnapshot,
      starts head [] first, headField head first cleared⟩
  | popWaitNext head =>
    obtain ⟨nothingHeld, noSnapshot, first, cleared, more⟩ := located
    exact ⟨heldNil.mpr nothingHeld, snapshotHead.trans noSnapshot,
      starts head [] first, headField head first cleared,
      last head first more⟩
  | popStoreNext head next =>
    obtain ⟨nothingHeld, noSnapshot, first, cleared⟩ := located
    have single : StartsLinked state.contents [head] := by
      obtain ⟨rest, shape⟩ := first
      exact ⟨⟨next, true⟩ :: rest, shape⟩
    exact ⟨heldNil.mpr nothingHeld, snapshotHead.trans noSnapshot,
      starts head [next] first, headField head single cleared⟩
  | undoStoreNext head tail next =>
    obtain ⟨heldTail, noSnapshot, known⟩ := located
    refine ⟨heldLast.trans heldTail, snapshotHead.trans noSnapshot, ?_⟩
    intro present
    cases next with
    | none => exact (present rfl).elim
    | some next => exact starts next [] (known present)
  | undoExchangeTail _ _ | undoWaitHead _ _ =>
    exact ⟨heldLast.trans located.1, snapshotHead.trans located.2⟩
  | undoRelink head tail next =>
    exact ⟨heldLast.trans located.1, snapshotHead.trans located.2.1,
      starts next [] located.2.2⟩
  | undoStoreHead head =>
    obtain ⟨noSnapshot, inserted, waiting⟩ := located
    refine ⟨snapshotHead.trans noSnapshot, ?_, ?_⟩
    · intro nothingHeld
      obtain ⟨first, cleared⟩ := inserted (heldNil.mp nothingHeld)
      exact ⟨starts head [] first, headField head first cleared⟩
    · intro stillHeld
      obtain ⟨next, first⟩ := waiting (fun isNil => stillHeld
        (heldNil.mpr isNil))
      exact ⟨next, starts next [] first⟩
  | captureStoreHead head =>
    obtain ⟨nothingHeld, noSnapshot, nothingPopped, noCursor, first⟩ :=
      located
    exact ⟨heldNil.mpr nothingHeld, snapshotHead.trans noSnapshot,
      justPopped.trans nothingPopped, cursor.trans noCursor,
      starts head [] first⟩
  | captureExchangeTail head =>
    obtain ⟨nothingHeld, noSnapshot, nothingPopped, noCursor, first,
      cleared⟩ := located
    exact ⟨heldNil.mpr nothingHeld, snapshotHead.trans noSnapshot,
      justPopped.trans nothingPopped, cursor.trans noCursor,
      starts head [] first, headField head first cleared⟩
  | prependLoadHead head tail =>
    exact ⟨heldLast.trans located.1, snapshotHead.trans located.2.1,
      justPopped.trans located.2.2⟩

variable {first : Node}

/-- A list with the link to its first entry missing cannot start linked. -/
theorem not_startsLinked_of_unlinked
    {entries rest : List (Entry Node)}
    {head : Node}
    (shape : entries = ⟨first, false⟩ :: rest)
    (starts : StartsLinked entries [head]) :
    False := by
  obtain ⟨remaining, linkedShape⟩ := starts
  rw [shape] at linkedShape
  simp at linkedShape

@[simp] theorem nodesOf_pushedEntries
    (items : List Node) :
    nodesOf (pushedEntries items) = items := by
  cases items with
  | nil => rfl
  | cons first rest => simp [pushedEntries]

/-- After a push the last object is the last one pushed. -/
theorem lastNode_append_pushedEntries
    (contents : List (Entry Node))
    (first : Node)
    (rest : List Node) :
    lastNode (contents ++ pushedEntries (first :: rest)) =
      (first :: rest).getLast? := by
  rw [lastNode_append_of_ne_nil _ (by simp [pushedEntries]), lastNode,
    nodesOf_pushedEntries]

variable {rest : List Node}

/-- The first object of a list is not the last one after a push. -/
theorem lastNode_ne_of_pushed
    {contents : List (Entry Node)}
    {head : Node}
    (apart : ∀ node ∈ nodesOf contents, node ∉ first :: rest)
    (starts : StartsLinked contents [head]) :
    lastNode (contents ++ pushedEntries (first :: rest)) ≠ some head := by
  rw [lastNode_append_pushedEntries]
  intro isLast
  obtain ⟨remaining, rfl⟩ := starts
  exact apart head (by simp) (List.mem_of_getLast? isLast)

variable {earlier later : List (Producer Node)}

/-- A push that has exchanged the tail holds no objects. -/
theorem items_of_linking
    {producers : List (Producer Node)}
    {prev : Option Node}
    (scheduled : producers = earlier ++ .linking prev first :: later) :
    (earlier ++ later).flatMap Producer.items =
      producers.flatMap Producer.items := by
  simp [scheduled, Producer.items]

namespace ProducersLocated

variable {producers : List (Producer Node)}
variable {next : Node → Option Node}
variable {held contents : List (Entry Node)}

variable (located : ProducersLocated producers next held contents)

include located

/-- Only the `next` fields of prepared objects matter to the pushes. -/
theorem of_next
    {next' : Node → Option Node}
    (same : ∀ items, .ready items ∈ producers →
      ∀ node ∈ items, next' node = next node) :
    ProducersLocated producers next' held contents where
  ready := by
    intro items member
    obtain ⟨nonempty, segment⟩ := located.ready items member
    refine ⟨nonempty, segment.congr ?_⟩
    intro node inItems
    rw [nodesOf_linkedEntries] at inItems
    exact same items member node inItems
  linkingNext := located.linkingNext
  linkingHead := located.linkingHead
  unlinked := located.unlinked

/-- The pushes in progress do not care how the list is cut, as long as no
awaited link and no missing pointer is lost. -/
theorem relist
    {held' contents' : List (Entry Node)}
    (awaits : ∀ prev first,
      Awaits held prev first ∨ Awaits contents prev first →
        Awaits held' prev first ∨ Awaits contents' prev first)
    (head : ∀ first rest, contents = ⟨first, false⟩ :: rest →
      contents' = ⟨first, false⟩ :: rest)
    (unlinked : unlinkedNodes (held' ++ contents') =
      unlinkedNodes (held ++ contents)) :
    ProducersLocated producers next held' contents' where
  ready := located.ready
  linkingNext := by
    intro prev first member
    exact awaits prev first (located.linkingNext prev first member)
  linkingHead := by
    intro first member
    obtain ⟨rest, shape⟩ := located.linkingHead first member
    exact ⟨rest, head first rest shape⟩
  unlinked := by
    rw [unlinked]
    exact located.unlinked

/-- A further push with prepared objects. -/
theorem begin
    {items : List Node}
    (nonempty : items ≠ [])
    (prepared : Segment next items.head? (linkedEntries items) none) :
    ProducersLocated (.ready items :: producers) next held contents where
  ready := by
    intro others member
    rcases List.mem_cons.mp member with isNew | isOld
    · obtain rfl := Producer.ready.inj isNew
      exact ⟨nonempty, prepared⟩
    · exact located.ready others isOld
  linkingNext := by
    intro prev first member
    rcases List.mem_cons.mp member with isNew | isOld
    · cases isNew
    · exact located.linkingNext prev first isOld
  linkingHead := by
    intro first member
    rcases List.mem_cons.mp member with isNew | isOld
    · cases isNew
    · exact located.linkingHead first isOld
  unlinked := located.unlinked

omit located in
/-- A push that exchanges the tail awaits the link from the previous tail. -/
theorem exchange
    [DecidableEq Node]
    (located : ProducersLocated
      (earlier ++ .ready (first :: rest) :: later) next held contents) :
    ProducersLocated
      (earlier ++ .linking (lastNode contents) first :: later) next held
      (contents ++ pushedEntries (first :: rest)) where
  ready := by
    intro items member
    refine located.ready items ?_
    simp only [List.mem_append, List.mem_cons, reduceCtorEq,
      false_or] at member ⊢
    exact member.imp id Or.inr
  linkingNext := by
    intro prev node member
    have old : .linking (some prev) node ∈ earlier ++ later →
        Awaits held prev node ∨
          Awaits (contents ++ pushedEntries (first :: rest)) prev node := by
      intro wasMember
      refine (located.linkingNext prev node ?_).imp id
        fun awaits => awaits.append _
      simp only [List.mem_append, List.mem_cons] at wasMember ⊢
      exact wasMember.imp id Or.inr
    simp only [List.mem_append, List.mem_cons,
      Producer.linking.injEq] at member
    rcases member with inEarlier | ⟨isTail, rfl⟩ | inLater
    · exact old (List.mem_append_left _ inEarlier)
    · obtain ⟨before, linked, shape⟩ :=
        exists_concat_of_lastNode isTail.symm
      exact Or.inr ⟨before, linked, linkedEntries rest, by
        simp [shape, pushedEntries]⟩
    · exact old (List.mem_append_right _ inLater)
  linkingHead := by
    intro node member
    have old : .linking none node ∈ earlier ++ later →
        ∃ remaining, contents ++ pushedEntries (first :: rest) =
          ⟨node, false⟩ :: remaining := by
      intro wasMember
      obtain ⟨remaining, shape⟩ := located.linkingHead node (by
        simp only [List.mem_append, List.mem_cons] at wasMember ⊢
        exact wasMember.imp id Or.inr)
      exact ⟨remaining ++ pushedEntries (first :: rest), by simp [shape]⟩
    simp only [List.mem_append, List.mem_cons,
      Producer.linking.injEq] at member
    rcases member with inEarlier | ⟨isTail, rfl⟩ | inLater
    · exact old (List.mem_append_left _ inEarlier)
    · have wasEmpty : contents = [] := lastNode_eq_none_iff.mp isTail.symm
      exact ⟨linkedEntries rest, by simp [wasEmpty, pushedEntries]⟩
    · exact old (List.mem_append_right _ inLater)
  unlinked := by
    have before := located.unlinked
    simp only [List.filterMap_append, List.filterMap_cons, Producer.first?,
      unlinkedNodes_append] at before
    simp only [List.filterMap_append, List.filterMap_cons, Producer.first?,
      unlinkedNodes_append, pushedEntries, unlinkedNodes_cons_unlinked,
      unlinkedNodes_linkedEntries]
    rw [List.perm_iff_count] at before ⊢
    intro node
    have counted := before node
    simp only [List.count_append, List.count_cons, List.count_nil]
      at counted ⊢
    omega

variable {prev : Option Node}

omit located in
/-- No two pushes wait to store the pointer to the same object. -/
theorem linking_unique
    (located : ProducersLocated
      (earlier ++ .linking prev first :: later) next held contents)
    (distinct : (nodesOf (held ++ contents)).Nodup)
    {otherPrev : Option Node}
    {other : Node}
    (member : .linking otherPrev other ∈ earlier ++ later) :
    other ≠ first := by
  have firstsDistinct := located.unlinked.nodup_iff.mp
    ((unlinkedNodes_sublist _).nodup distinct)
  have apart : first ∉ (earlier ++ later).filterMap Producer.first? := by
    simp only [List.filterMap_append, List.filterMap_cons,
      Producer.first?] at firstsDistinct ⊢
    exact (List.nodup_middle.mp firstsDistinct).notMem
  rintro rfl
  exact apart (List.mem_filterMap.mpr ⟨_, member, rfl⟩)

/-- The object whose pointer is awaited is listed as unlinked. -/
theorem linking_present
    (member : .linking prev first ∈ producers) :
    ⟨first, false⟩ ∈ held ++ contents := by
  rw [List.mem_append]
  cases prev with
  | none =>
    obtain ⟨rest, shape⟩ := located.linkingHead first member
    exact Or.inr (by simp [shape])
  | some prev =>
    exact (located.linkingNext prev first member).imp Awaits.entry_mem
      Awaits.entry_mem

omit located in
/-- The pushes that remain when one stores its pointer. -/
theorem store
    [DecidableEq Node]
    (located : ProducersLocated
      (earlier ++ .linking prev first :: later) next held contents)
    (distinct : (nodesOf (held ++ contents)).Nodup) :
    ProducersLocated (earlier ++ later) next (markLinked first held)
      (markLinked first contents) := by
  have present := located.linking_present
    (by simp : .linking prev first ∈ earlier ++ .linking prev first :: later)
  have remains : ∀ producer ∈ earlier ++ later,
      producer ∈ earlier ++ .linking prev first :: later := by
    intro producer member
    simp only [List.mem_append, List.mem_cons] at member ⊢
    exact member.imp id Or.inr
  refine
    { ready := fun items member => located.ready items (remains _ member)
      linkingNext := ?_
      linkingHead := ?_
      unlinked := ?_ }
  · intro otherPrev other member
    have different := located.linking_unique distinct member
    exact (located.linkingNext otherPrev other (remains _ member)).imp
      (fun awaits => awaits.markLinked_other different)
      (fun awaits => awaits.markLinked_other different)
  · intro other member
    have different := located.linking_unique distinct member
    obtain ⟨rest, shape⟩ := located.linkingHead other (remains _ member)
    exact ⟨markLinked first rest, by simp [shape, different]⟩
  · have marked := unlinkedNodes_markLinked distinct present
    have together := marked.symm.trans located.unlinked
    simp only [List.filterMap_append, List.filterMap_cons, Producer.first?,
      markLinked_append] at together
    rw [List.filterMap_append]
    exact (together.trans List.perm_middle).cons_inv

/-- The pushes that remain when one stores a missing `next` pointer. -/
theorem storeNext
    [DecidableEq Node]
    {prev : Node}
    (scheduled : producers = earlier ++ .linking (some prev) first :: later)
    (distinct : (nodesOf (held ++ contents)).Nodup)
    (elsewhere : prev ∉ producers.flatMap Producer.items) :
    ProducersLocated (earlier ++ later)
      (Function.update next prev (some first)) (markLinked first held)
      (markLinked first contents) := by
  rw [← items_of_linking scheduled] at elsewhere
  rw [scheduled] at located
  refine (located.store distinct).of_next ?_
  intro items member node inItems
  have different : node ≠ prev := by
    rintro rfl
    exact elsewhere (List.mem_flatMap.mpr ⟨_, member, inItems⟩)
  exact Function.update_of_ne different _ _

end ProducersLocated

variable [DecidableEq Node]

variable {state : State Node}

variable (invariant : state.Invariant)

include invariant

/-- The `next` fields of the nodes in use determine every segment. -/
theorem State.Invariant.of_next
    {next : Node → Option Node}
    (same : ∀ node ∈ state.ownedNodes, next node = state.memory.next node) :
    ({ state with memory := { state.memory with next := next } } :
      State Node).Invariant := by
  have contentsSame : ∀ node ∈ nodesOf state.contents,
      next node = state.memory.next node := by
    intro node member
    exact same node (by simp [State.ownedNodes, member])
  have heldSame : ∀ node ∈ nodesOf state.held,
      next node = state.memory.next node := by
    intro node member
    exact same node (by simp [State.ownedNodes, member])
  have poppedSame : ∀ node ∈ nodesOf (linkedEntries state.justPopped),
      next node = state.memory.next node := by
    intro node member
    rw [nodesOf_linkedEntries] at member
    exact same node (by simp [State.ownedNodes, member])
  obtain ⟨target, heldSegment, heldTarget⟩ := invariant.held
  refine
    { invariant with
      contents := invariant.contents.congr contentsSame
      held := ⟨target, heldSegment.congr heldSame, heldTarget⟩
      popped := fun nonempty =>
        (invariant.popped nonempty).congr poppedSame
      producers := invariant.producers.of_next ?_ }
  intro items member node inItems
  refine same node ?_
  simp only [State.ownedNodes, List.mem_append, List.mem_flatMap]
  exact Or.inr (Or.inr ⟨_, member, inItems⟩)

/-- Preparing a list of fresh objects keeps the invariant. -/
theorem State.Invariant.beginPush
    {items : List Node}
    (nonempty : items ≠ [])
    (fresh : (items ++ state.ownedNodes).Nodup) :
    (state.beginPush items).Invariant := by
  have itemsDistinct := (List.nodup_append.mp fresh).1
  have threaded := invariant.of_next (thread_of_fresh _ fresh)
  refine
    { threaded with
      distinct := ?_
      producers := ?_ }
  · have shuffled : (state.beginPush items).ownedNodes.Perm
        (items ++ state.ownedNodes) := by
      simp only [State.ownedNodes, State.beginPush, List.flatMap_cons,
        Producer.items]
      rw [← List.append_assoc, ← List.append_assoc, ← List.append_assoc,
        ← List.append_assoc]
      refine List.Perm.append_right _ ?_
      rw [List.append_assoc items]
      exact List.perm_append_comm
    exact shuffled.nodup_iff.mpr fresh
  · exact threaded.producers.begin nonempty
      (segment_thread state.memory.next itemsDistinct)

/-- Exchanging the tail keeps the invariant. -/
theorem State.Invariant.exchangeTail
    (scheduled : state.producers =
      earlier ++ .ready (first :: rest) :: later) :
    (state.exchangeTail earlier later first rest).Invariant := by
  obtain ⟨-, prepared⟩ := invariant.producers.ready (first :: rest)
    (by simp [scheduled])
  have distinct := invariant.distinct
  have apart : ∀ node ∈ nodesOf state.contents, node ∉ first :: rest := by
    intro node inContents inItems
    simp only [State.ownedNodes, scheduled, List.flatMap_append,
      List.flatMap_cons, Producer.items, nodesOf_append,
      List.nodup_append, List.mem_append] at distinct
    exact distinct.2.2 node (Or.inr inContents) node
      (Or.inr (Or.inr (Or.inl inItems))) rfl
  refine
    { invariant with
      distinct := ?distinct
      tail := ?tail
      contents := ?contents
      located := ?located
      producers := ?producers
      replayed := ?replayed
      traced := ?traced }
  case distinct =>
    refine List.Perm.nodup_iff ?_ |>.mpr distinct
    simp only [State.ownedNodes, State.exchangeTail, scheduled,
      List.flatMap_append, List.flatMap_cons, Producer.items,
      nodesOf_append, nodesOf_pushedEntries, List.nil_append]
    rw [List.perm_iff_count]
    intro node
    simp only [List.count_append]
    omega
  case tail =>
    exact (lastNode_append_pushedEntries _ first rest).symm
  case contents =>
    refine Segment.append_iff.mpr ⟨none, invariant.contents, rfl, ?_⟩
    exact prepared.2
  case located =>
    refine invariant.located.transport rfl rfl rfl rfl rfl Iff.rfl rfl ?_ ?_ ?_
    · intro node nodes starts
      exact starts.append _
    · intro head starts _
      exact lastNode_ne_of_pushed apart starts
    · intro head _ cleared
      exact cleared
  case producers =>
    have located := invariant.producers
    rw [scheduled] at located
    have exchanged := located.exchange
    rw [← invariant.tail] at exchanged
    exact exchanged
  case replayed =>
    have queue := replay_concat (.pushed (first :: rest)) invariant.replayed
    simpa [State.exchangeTail, Event.apply] using queue
  case traced =>
    obtain ⟨final, isFinal⟩ : ∃ final, (first :: rest).getLast? = some final :=
      Option.isSome_iff_exists.mp (by simp [List.getLast?_isSome])
    simp only [State.exchangeTail, tailTrace_concat, Memory.pushUpdateTail,
      isFinal]
    exact invariant.traced.exchanged final

/-- The objects of the list and of the consumer's hands are distinct. -/
theorem State.Invariant.listDistinct :
    (nodesOf (state.held ++ state.contents)).Nodup :=
  (List.nodup_append.mp invariant.distinct).1

/-- Storing a missing `next` pointer keeps the invariant. -/
theorem State.Invariant.storeNext
    {prev : Node}
    (scheduled : state.producers =
      earlier ++ .linking (some prev) first :: later) :
    (state.storeLink earlier later (some prev) first).Invariant := by
  have awaited := invariant.producers.linkingNext prev first
    (by simp [scheduled])
  have listDistinct := invariant.listDistinct
  rw [nodesOf_append] at listDistinct
  obtain ⟨heldDistinct, contentsDistinct, apart⟩ :=
    List.nodup_append.mp listDistinct
  have heldAffected : Awaits state.held prev first ∨
      prev ∉ nodesOf state.held ∧ first ∉ nodesOf state.held := by
    rcases awaited with inHeld | inContents
    · exact Or.inl inHeld
    · refine Or.inr ⟨fun member => ?_, fun member => ?_⟩
      · exact apart prev member prev inContents.previous_mem rfl
      · exact apart first member first
          (mem_nodesOf inContents.entry_mem) rfl
  have contentsAffected : Awaits state.contents prev first ∨
      prev ∉ nodesOf state.contents ∧ first ∉ nodesOf state.contents := by
    rcases awaited with inHeld | inContents
    · refine Or.inr ⟨fun member => ?_, fun member => ?_⟩
      · exact apart prev inHeld.previous_mem prev member rfl
      · exact apart first (mem_nodesOf inHeld.entry_mem) first member rfl
    · exact Or.inl inContents
  have prevListed : prev ∈ nodesOf (state.held ++ state.contents) := by
    rw [nodesOf_append, List.mem_append]
    exact awaited.imp Awaits.previous_mem Awaits.previous_mem
  have prevElsewhere : prev ∉
      state.justPopped ++ state.producers.flatMap Producer.items := by
    intro member
    exact (List.nodup_append.mp invariant.distinct).2.2 prev prevListed prev
      member rfl
  have headSame : (state.storeLink earlier later (some prev)
      first).contentsHead = state.contentsHead := by
    simp only [State.contentsHead, State.storeLink, Memory.pushUpdatePrev,
      List.isEmpty_iff, markLinked_eq_nil_iff]
  obtain ⟨target, heldSegment, heldTarget⟩ := invariant.held
  refine
    { invariant with
      distinct := ?distinct
      tail := ?tail
      contents := ?contents
      held := ⟨target, ?held, ?heldTarget⟩
      popped := ?popped
      located := ?located
      producers := ?producers
      replayed := ?replayed }
  case distinct =>
    simp only [State.ownedNodes, State.storeLink, nodesOf_append,
      nodesOf_markLinked, items_of_linking scheduled]
    simpa [State.ownedNodes] using invariant.distinct
  case tail =>
    simpa [State.storeLink, Memory.pushUpdatePrev] using invariant.tail
  case contents =>
    rw [headSame]
    exact invariant.contents.storeLink contentsDistinct contentsAffected
  case held =>
    exact heldSegment.storeLink heldDistinct heldAffected
  case heldTarget =>
    unfold State.HeldTarget at heldTarget ⊢
    simpa [State.storeLink, Memory.pushUpdatePrev] using heldTarget
  case popped =>
    intro nonempty
    refine (invariant.popped nonempty).update_outside ?_
    rw [nodesOf_linkedEntries]
    exact fun member => prevElsewhere (List.mem_append_left _ member)
  case located =>
    refine invariant.located.transport rfl rfl rfl rfl rfl
      markLinked_eq_nil_iff (lastNode_markLinked _ _) ?_ ?_ ?_
    · intro node nodes starts
      exact starts.markLinked first
    · intro head _ notLast
      simpa [State.storeLink] using notLast
    · intro head _ cleared
      exact cleared
  case producers =>
    exact invariant.producers.storeNext scheduled invariant.listDistinct
      fun member => prevElsewhere (List.mem_append_right _ member)
  case replayed =>
    simpa [State.storeLink] using invariant.replayed

/-- Storing a missing head pointer keeps the invariant. -/
theorem State.Invariant.storeHead
    (scheduled : state.producers =
      earlier ++ .linking none first :: later) :
    (state.storeLink earlier later none first).Invariant := by
  obtain ⟨rest, shape⟩ := invariant.producers.linkingHead first
    (by simp [scheduled])
  have notStarting : ∀ head, ¬StartsLinked state.contents [head] :=
    fun head => not_startsLinked_of_unlinked shape
  have listDistinct := invariant.listDistinct
  rw [nodesOf_append] at listDistinct
  obtain ⟨-, contentsDistinct, apart⟩ := List.nodup_append.mp listDistinct
  have outsideRest : first ∉ nodesOf rest := by
    rw [shape, nodesOf_cons, List.nodup_cons] at contentsDistinct
    exact contentsDistinct.1
  have outsideHeld : first ∉ nodesOf state.held := by
    intro member
    exact apart first member first (by simp [shape]) rfl
  have contentsAfter :
      markLinked first state.contents = ⟨first, true⟩ :: rest := by
    simp [shape, markLinked_outside outsideRest]
  have headMissing : state.contentsHead = none := by
    have segment := invariant.contents
    rw [shape] at segment
    exact segment.1
  have headAfter : (state.storeLink earlier later none
      first).contentsHead = some first := by
    simp only [State.contentsHead, State.storeLink, Memory.pushUpdatePrev,
      List.isEmpty_iff, markLinked_eq_nil_iff] at headMissing ⊢
    cases stage : state.consumer with
    | undoStoreHead head =>
      simp only [stage] at headMissing ⊢
      by_cases nothingHeld : state.held = []
      · simp [nothingHeld] at headMissing
      · simp [nothingHeld]
    | _ => simp_all
  obtain ⟨target, heldSegment, heldTarget⟩ := invariant.held
  refine
    { invariant with
      distinct := ?distinct
      tail := ?tail
      contents := ?contents
      held := ⟨target, ?held, ?heldTarget⟩
      located := ?located
      producers := ?producers
      replayed := ?replayed }
  case distinct =>
    simp only [State.ownedNodes, State.storeLink, nodesOf_append,
      nodesOf_markLinked, items_of_linking scheduled]
    simpa [State.ownedNodes] using invariant.distinct
  case tail =>
    simpa [State.storeLink, Memory.pushUpdatePrev] using invariant.tail
  case contents =>
    have segment := invariant.contents
    rw [shape] at segment
    rw [headAfter]
    simp only [State.storeLink, contentsAfter]
    exact ⟨rfl, segment.2⟩
  case held =>
    simp only [State.storeLink, markLinked_outside outsideHeld]
    exact heldSegment
  case heldTarget =>
    have located := invariant.located
    unfold State.HeldTarget at heldTarget ⊢
    unfold State.Located at located
    simp only [State.storeLink]
    cases stage : state.consumer with
    | undoStoreHead head =>
      simp only [stage] at located
      intro stillHeld
      obtain ⟨next, starts⟩ := located.2.2
        (fun isNil => stillHeld (markLinked_eq_nil_iff.mpr isNil))
      exact (notStarting next starts).elim
    | undoStoreNext head tail next => trivial
    | _ => simpa [stage] using heldTarget
  case located =>
    refine invariant.located.transport rfl rfl rfl rfl rfl
      markLinked_eq_nil_iff (lastNode_markLinked _ _) ?_ ?_ ?_
    · intro node nodes starts
      exact starts.markLinked first
    · intro head _ notLast
      simpa [State.storeLink] using notLast
    · intro head starts _
      exact (notStarting head starts).elim
  case producers =>
    have located := invariant.producers
    rw [scheduled] at located
    exact located.store invariant.listDistinct
  case replayed =>
    simpa [State.storeLink] using invariant.replayed

end LibDispatch.Mpsc
