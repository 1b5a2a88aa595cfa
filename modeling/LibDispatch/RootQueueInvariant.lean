import LibDispatch.RootQueueDrain

namespace LibDispatch.RootQueue

open Mpsc (Producer ProducersLocated pushedEntries)

/-!
# The invariant of a root queue

A compare-and-swap that undoes a thread's own mediator value may hit the value
of another thread, so the head alone does not tell who owns the list.  What
holds instead is that the pointer to the first object is in exactly one place:
the head, the hands of one draining thread, or the hands of one producer.
-/

variable {Node : Type}

/-- The object whose head pointer a push still has to store. -/
def headLink? : Producer Node → Option Node
  | .linking none first => some first
  | _ => none

/-- The object a thread has taken and not returned yet. -/
def Drainer.carried? (drainer : Drainer Node) : Option Node :=
  drainer.owned?.or drainer.removed?

/-- One when the head holds an object. -/
def HeadWord.provides : HeadWord Node → Nat
  | object _ => 1
  | _ => 0

/-- In how many places the pointer to the first object is. -/
def State.providers (state : State Node) : Nat :=
  state.memory.head.provides +
    (state.drainers.filterMap Drainer.owned?).length +
    (state.producers.filterMap headLink?).length

/-- The objects that no thread has taken. -/
def State.undelivered (state : State Node) : List (Entry Node) :=
  if state.drainers.filterMap Drainer.owned? = [] then state.contents
  else state.contents.tail

/-- What a draining thread relies on. -/
def Drainer.Staged (contents : List (Entry Node)) : Drainer Node → Prop
  | loadNext head => StartsLinked contents [head]
  | clearHead head => StartsLinked contents [head]
  | clearTail head => StartsLinked contents [head]
  | waitNext head =>
    StartsLinked contents [head] ∧ lastNode contents ≠ some head
  | storeHead head next => StartsLinked contents [head, next]
  | _ => True

/-- The invariant of every run. -/
structure State.Invariant (state : State Node) : Prop where
  distinct : state.ownedNodes.Nodup
  tail : state.memory.tail = lastNode state.contents
  segment : ∃ incoming,
    Segment state.memory.next incoming state.contents none
  providers : state.providers = if state.contents = [] then 0 else 1
  headObject : ∀ node, state.memory.head = .object node →
    StartsLinked state.contents [node]
  staged : ∀ drainer ∈ state.drainers, drainer.Staged state.contents
  mediator : state.memory.head = .mediator →
    ∃ drainer ∈ state.drainers, drainer.restores = true
  producers : ProducersLocated state.producers state.memory.next []
    state.contents
  inOrder : state.pushed = state.taken ++ nodesOf state.undelivered
  exactlyOnce : state.taken.Perm
    (state.returned ++ state.drainers.filterMap Drainer.carried?)

theorem State.initial_invariant
    (next : Node → Option Node) :
    (State.initial next).Invariant where
  distinct := by
    simp [State.ownedNodes, State.initial]
  tail := rfl
  segment := ⟨none, rfl⟩
  providers := rfl
  headObject := by
    intro node isObject
    cases isObject
  staged := by
    simp [State.initial]
  mediator := by
    intro isMediator
    cases isMediator
  producers := by
    refine ⟨?_, ?_, ?_, ?_⟩ <;> simp [State.initial, unlinkedNodes]
  inOrder := by
    simp [State.initial, State.undelivered]
  exactlyOnce := by
    simp [State.initial]

variable {drainer : Drainer Node}

/-- A thread that is removing an object is at its beginning. -/
theorem Drainer.Staged.starts
    {contents : List (Entry Node)}
    {head : Node}
    (staged : drainer.Staged contents)
    (owned : drainer.owned? = some head) :
    StartsLinked contents [head] := by
  cases drainer with
  | loadNext _ | clearHead _ | clearTail _ =>
    cases owned
    exact staged
  | waitNext node =>
    cases owned
    exact staged.1
  | storeHead node next =>
    cases owned
    obtain ⟨rest, shape⟩ := staged
    exact ⟨⟨next, true⟩ :: rest, shape⟩
  | _ => cases owned

/-- What a draining thread relies on survives pushes and pointer stores. -/
theorem Drainer.Staged.transport
    {contents contents' : List (Entry Node)}
    (staged : drainer.Staged contents)
    (starts : ∀ first rest, StartsLinked contents (first :: rest) →
      StartsLinked contents' (first :: rest))
    (last : ∀ head, StartsLinked contents [head] →
      lastNode contents ≠ some head → lastNode contents' ≠ some head) :
    drainer.Staged contents' := by
  cases drainer with
  | loadNext head => exact starts head [] staged
  | clearHead head => exact starts head [] staged
  | clearTail head => exact starts head [] staged
  | waitNext head =>
    exact ⟨starts head [] staged.1, last head staged.1 staged.2⟩
  | storeHead head next => exact starts head [next] staged
  | _ => trivial

variable {state : State Node}

/-- A thread that removes an object keeps the head and the pushes away from the
pointer to it. -/
theorem State.Invariant.exclusive
    {earlier later : List (Drainer Node)}
    {head : Node}
    (invariant : state.Invariant)
    (scheduled : state.drainers = earlier ++ drainer :: later)
    (owned : drainer.owned? = some head) :
    state.memory.head.provides = 0 ∧
      earlier.filterMap Drainer.owned? = [] ∧
      later.filterMap Drainer.owned? = [] ∧
      state.producers.filterMap headLink? = [] ∧
      ∃ rest, state.contents = ⟨head, true⟩ :: rest := by
  have starts := (invariant.staged drainer (by simp [scheduled])).starts owned
  obtain ⟨rest, shape⟩ := starts
  have counted := invariant.providers
  simp only [State.providers, scheduled, List.filterMap_append,
    List.filterMap_cons, owned, List.length_append, List.length_cons,
    shape, linkedEntries_cons, List.cons_append, reduceCtorEq,
    ↓reduceIte] at counted
  refine ⟨by omega, ?_, ?_, ?_, rest, shape⟩
  · exact List.eq_nil_of_length_eq_zero (by omega)
  · exact List.eq_nil_of_length_eq_zero (by omega)
  · exact List.eq_nil_of_length_eq_zero (by omega)

/-- The tail of a nonempty list grows with the list. -/
theorem tail_append
    {first second : List (Entry Node)}
    (nonempty : first ≠ []) :
    (first ++ second).tail = first.tail ++ second := by
  cases first with
  | nil => exact (nonempty rfl).elim
  | cons entry rest => rfl

/-- The contents are not empty while a thread removes an object. -/
theorem State.Invariant.contents_ne_nil
    (invariant : state.Invariant)
    (someOwner : state.drainers.filterMap Drainer.owned? ≠ []) :
    state.contents ≠ [] := by
  intro isNil
  have counted := invariant.providers
  simp only [State.providers, isNil, ↓reduceIte] at counted
  exact someOwner (List.eq_nil_of_length_eq_zero (by omega))

/-! ## Producers -/

section Producers

variable [DecidableEq Node]

variable (invariant : state.Invariant)

include invariant

/-- Preparing a list of fresh objects keeps the invariant. -/
theorem State.Invariant.beginPush
    {items : List Node}
    (nonempty : items ≠ [])
    (fresh : (items ++ state.ownedNodes).Nodup) :
    (state.beginPush items).Invariant := by
  have itemsDistinct := (List.nodup_append.mp fresh).1
  have outside := thread_of_fresh state.memory.next fresh
  obtain ⟨incoming, segment⟩ := invariant.segment
  refine
    { invariant with
      distinct := ?distinct
      segment := ⟨incoming, segment.congr ?segment⟩
      producers := ?producers }
  case distinct =>
    refine List.Perm.nodup_iff ?_ |>.mpr fresh
    simp only [State.ownedNodes, State.beginPush, List.flatMap_cons,
      Producer.items]
    rw [List.perm_iff_count]
    intro node
    simp only [List.count_append]
    omega
  case segment =>
    intro node member
    exact outside node (by simp [State.ownedNodes, member])
  case producers =>
    refine (invariant.producers.of_next ?_).begin nonempty
      (segment_thread state.memory.next itemsDistinct)
    intro others member node inOthers
    refine outside node ?_
    simp only [State.ownedNodes, List.mem_append, List.mem_flatMap]
    exact Or.inr (Or.inr ⟨_, member, inOthers⟩)

variable {earlier later : List (Producer Node)} {first : Node}

/-- Exchanging the tail keeps the invariant. -/
theorem State.Invariant.exchangeTail
    {rest : List Node}
    (scheduled : state.producers =
      earlier ++ .ready (first :: rest) :: later) :
    (state.exchangeTail earlier later first rest).Invariant := by
  obtain ⟨-, prepared⟩ := invariant.producers.ready (first :: rest)
    (by simp [scheduled])
  have distinct := invariant.distinct
  have apart : ∀ node ∈ nodesOf state.contents, node ∉ first :: rest := by
    intro node inContents inItems
    simp only [State.ownedNodes, scheduled, List.flatMap_append,
      List.flatMap_cons, Producer.items, List.nodup_append,
      List.mem_append] at distinct
    exact distinct.2.2 node inContents node
      (Or.inr (Or.inr (Or.inl inItems))) rfl
  have starts : ∀ node nodes, StartsLinked state.contents (node :: nodes) →
      StartsLinked (state.contents ++ pushedEntries (first :: rest))
        (node :: nodes) := fun _ _ linked => linked.append _
  obtain ⟨incoming, segment⟩ := invariant.segment
  refine
    { invariant with
      distinct := ?distinct
      tail := ?tail
      segment := ⟨incoming, ?segment⟩
      providers := ?providers
      headObject := ?headObject
      staged := ?staged
      producers := ?producers
      inOrder := ?inOrder }
  case distinct =>
    refine List.Perm.nodup_iff ?_ |>.mpr distinct
    simp only [State.ownedNodes, State.exchangeTail, scheduled,
      List.flatMap_append, List.flatMap_cons, Producer.items,
      nodesOf_append, Mpsc.nodesOf_pushedEntries, List.nil_append]
    rw [List.perm_iff_count]
    intro node
    simp only [List.count_append]
    omega
  case tail =>
    exact (Mpsc.lastNode_append_pushedEntries _ first rest).symm
  case segment =>
    exact Segment.append_iff.mpr ⟨none, segment, rfl, prepared.2⟩
  case providers =>
    have counted := invariant.providers
    have wasLast := invariant.tail
    simp only [State.providers, scheduled, List.filterMap_append,
      List.filterMap_cons, headLink?, List.length_append] at counted
    simp only [State.providers, State.exchangeTail, List.filterMap_append,
      List.filterMap_cons, List.length_append, pushedEntries,
      List.append_eq_nil_iff, reduceCtorEq, and_false, ↓reduceIte]
    cases isTail : state.memory.tail with
    | none =>
      have empty : state.contents = [] :=
        lastNode_eq_none_iff.mp (wasLast.symm.trans isTail)
      simp only [empty, ↓reduceIte] at counted
      simp only [headLink?, List.length_cons]
      omega
    | some prev =>
      have nonempty : state.contents ≠ [] := by
        intro isNil
        rw [isNil, isTail] at wasLast
        cases wasLast
      simp only [nonempty, ↓reduceIte] at counted
      simp only [headLink?]
      omega
  case headObject =>
    intro node isObject
    exact starts node [] (invariant.headObject node isObject)
  case staged =>
    intro drainer member
    refine (invariant.staged drainer member).transport starts ?_
    intro head linked _
    exact Mpsc.lastNode_ne_of_pushed apart linked
  case producers =>
    have located := invariant.producers
    rw [scheduled] at located
    have exchanged := located.exchange
    rw [← invariant.tail] at exchanged
    exact exchanged
  case inOrder =>
    have before := invariant.inOrder
    simp only [State.undelivered] at before
    simp only [State.exchangeTail, State.undelivered, before]
    by_cases noOwner : state.drainers.filterMap Drainer.owned? = []
    · simp [noOwner]
    · simp only [noOwner, ↓reduceIte,
        tail_append (invariant.contents_ne_nil noOwner)]
      simp

omit invariant in
/-- Storing a pointer delivers nothing. -/
theorem undelivered_storeLink
    (state : State Node)
    (prev : Option Node) :
    nodesOf (state.storeLink earlier later prev first).undelivered =
      nodesOf state.undelivered := by
  simp only [State.storeLink, State.undelivered]
  by_cases noOwner : state.drainers.filterMap Drainer.owned? = []
  · simp [noOwner]
  · simp only [noOwner, ↓reduceIte]
    rw [← nodesOf_tail, ← nodesOf_tail, nodesOf_markLinked]

/-- Storing a missing `next` pointer keeps the invariant. -/
theorem State.Invariant.storeNext
    {prev : Node}
    (scheduled : state.producers =
      earlier ++ .linking (some prev) first :: later) :
    (state.storeLink earlier later (some prev) first).Invariant := by
  have awaited : Awaits state.contents prev first := by
    rcases invariant.producers.linkingNext prev first
      (by simp [scheduled]) with ⟨before, linked, after, shape⟩ | awaits
    · simp at shape
    · exact awaits
  obtain ⟨contentsDistinct, -, apart⟩ :=
    List.nodup_append.mp invariant.distinct
  obtain ⟨incoming, segment⟩ := invariant.segment
  exact
    { invariant with
      distinct := by
        simp only [State.ownedNodes, State.storeLink, nodesOf_markLinked,
          Mpsc.items_of_linking scheduled]
        exact invariant.distinct
      tail := by
        simpa [State.storeLink, Memory.pushUpdatePrev] using invariant.tail
      segment := ⟨incoming, segment.storeAwaited contentsDistinct awaited⟩
      providers := by
        have counted := invariant.providers
        simp only [State.providers, scheduled, List.filterMap_append,
          List.filterMap_cons, headLink?] at counted
        simp only [State.providers, State.storeLink, Memory.pushUpdatePrev,
          List.filterMap_append, markLinked_eq_nil_iff]
        exact counted
      headObject := by
        intro node isObject
        exact (invariant.headObject node isObject).markLinked first
      staged := by
        intro drainer member
        refine (invariant.staged drainer member).transport ?_ ?_
        · intro node nodes starts
          exact starts.markLinked first
        · intro head _ notLast
          simpa [State.storeLink] using notLast
      producers := by
        refine invariant.producers.storeNext scheduled contentsDistinct ?_
        intro member
        exact apart prev awaited.previous_mem prev
          (List.mem_append_right _ member) rfl
      inOrder := by
        rw [undelivered_storeLink]
        exact invariant.inOrder }

/-- Storing a missing head pointer keeps the invariant. -/
theorem State.Invariant.storeHead
    (scheduled : state.producers =
      earlier ++ .linking none first :: later) :
    (state.storeLink earlier later none first).Invariant := by
  obtain ⟨rest, shape⟩ := invariant.producers.linkingHead first
    (by simp [scheduled])
  have contentsDistinct := (List.nodup_append.mp invariant.distinct).1
  have outsideRest : first ∉ nodesOf rest := by
    rw [shape, nodesOf_cons, List.nodup_cons] at contentsDistinct
    exact contentsDistinct.1
  have contentsAfter :
      markLinked first state.contents = ⟨first, true⟩ :: rest := by
    simp [shape, markLinked_outside outsideRest]
  have counted := invariant.providers
  simp only [State.providers, scheduled, List.filterMap_append,
    List.filterMap_cons, headLink?, List.length_append, List.length_cons,
    shape, reduceCtorEq, ↓reduceIte] at counted
  obtain ⟨incoming, segment⟩ := invariant.segment
  rw [shape] at segment
  refine
    { invariant with
      distinct := ?distinct
      tail := ?tail
      segment := ⟨some first, ?segment⟩
      providers := ?providers
      headObject := ?headObject
      staged := ?staged
      mediator := ?mediator
      producers := ?producers
      inOrder := ?inOrder }
  case distinct =>
    simp only [State.ownedNodes, State.storeLink, nodesOf_markLinked,
      Mpsc.items_of_linking scheduled]
    exact invariant.distinct
  case tail =>
    simpa [State.storeLink, Memory.pushUpdatePrev] using invariant.tail
  case segment =>
    simp only [State.storeLink, contentsAfter]
    exact ⟨rfl, segment.2⟩
  case providers =>
    simp only [State.providers, State.storeLink, Memory.pushUpdatePrev,
      HeadWord.provides, List.filterMap_append, List.length_append,
      contentsAfter, reduceCtorEq, ↓reduceIte]
    omega
  case headObject =>
    intro node isObject
    obtain rfl := HeadWord.object.inj isObject
    exact ⟨rest, contentsAfter⟩
  case staged =>
    intro drainer member
    refine (invariant.staged drainer member).transport ?_ ?_
    · intro node nodes starts
      exact starts.markLinked first
    · intro head _ notLast
      simpa [State.storeLink] using notLast
  case mediator =>
    intro isMediator
    cases isMediator
  case producers =>
    have located := invariant.producers
    rw [scheduled] at located
    exact located.store contentsDistinct
  case inOrder =>
    rw [undelivered_storeLink]
    exact invariant.inOrder

end Producers

end LibDispatch.RootQueue
