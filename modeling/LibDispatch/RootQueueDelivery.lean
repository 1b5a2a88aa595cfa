import LibDispatch.MpscConsumer
import LibDispatch.RootQueueInvariant

namespace LibDispatch.RootQueue

open Mpsc (Producer)

/-!
# Exactly-once delivery of a root queue

Most steps of a draining thread only move the thread on, at most swapping a
mediator value and `NULL` in the head.  Four steps move objects: taking the
head, clearing the tail, restoring the head, and returning.
-/

variable {Node : Type}

variable {state : State Node} {earlier later : List (Drainer Node)}
  {drainer : Drainer Node}

section

variable (invariant : state.Invariant)

include invariant

/-- If a thread will not restore the head, another one will. -/
theorem State.Invariant.restoredByOther
    (scheduled : state.drainers = earlier ++ drainer :: later)
    (passive : drainer.restores = false)
    (isMediator : state.memory.head = .mediator) :
    ∃ other ∈ earlier ++ later, other.restores = true := by
  obtain ⟨other, member, restores⟩ := invariant.mediator isMediator
  refine ⟨other, ?_, restores⟩
  rw [scheduled, List.mem_append, List.mem_cons] at member
  rcases member with inEarlier | rfl | inLater
  · exact List.mem_append_left _ inEarlier
  · cases passive.symm.trans restores
  · exact List.mem_append_right _ inLater

/-- The places of the pointers do not change when a thread moves on without
taking or giving an object. -/
theorem State.Invariant.moveOn
    (scheduled : state.drainers = earlier ++ drainer :: later)
    (continued : Option (Drainer Node))
    (head : HeadWord Node)
    (provides : head.provides = state.memory.head.provides)
    (sameObject : ∀ node, head = .object node →
      state.memory.head = .object node)
    (owned : continued.bind Drainer.owned? = drainer.owned?)
    (removed : continued.bind Drainer.removed? = drainer.removed?)
    (staged : ∀ next, continued = some next → next.Staged state.contents)
    (mediator : head = .mediator →
      (∃ next, continued = some next ∧ next.restores = true) ∨
        state.memory.head = .mediator ∧ drainer.restores = false) :
    ({ state with
      memory := { state.memory with head := head }
      drainers := earlier ++ (continued.toList ++ later) } :
        State Node).Invariant := by
  have replaced : ∀ (select : Drainer Node → Option Node),
      continued.bind select = select drainer →
        (earlier ++ (continued.toList ++ later)).filterMap select =
          state.drainers.filterMap select := by
    intro select same
    rw [scheduled]
    cases continued with
    | none =>
      simp only [Option.bind_none] at same
      simp [← same]
    | some next =>
      simp only [Option.bind_some] at same
      simp [List.filterMap_cons, same]
  have ownedSame := replaced Drainer.owned? owned
  have removedSame := replaced Drainer.removed? removed
  have carriedSame := replaced Drainer.carried? (by
    cases continued with
    | none =>
      simp only [Option.bind_none] at owned removed ⊢
      simp [Drainer.carried?, ← owned, ← removed]
    | some next =>
      simp only [Option.bind_some] at owned removed ⊢
      simp [Drainer.carried?, owned, removed])
  refine
    { invariant with
      distinct := ?distinct
      providers := ?providers
      headObject := ?headObject
      staged := ?staged
      mediator := ?mediator
      inOrder := ?inOrder
      exactlyOnce := ?exactlyOnce }
  case distinct =>
    simp only [State.ownedNodes, removedSame]
    exact invariant.distinct
  case providers =>
    simp only [State.providers, ownedSame, provides]
    exact invariant.providers
  case headObject =>
    intro node isObject
    exact invariant.headObject node (sameObject node isObject)
  case staged =>
    intro other member
    simp only [List.mem_append, Option.mem_toList] at member
    rcases member with inEarlier | isNext | inLater
    · exact invariant.staged other (by simp [scheduled, inEarlier])
    · exact staged other isNext
    · exact invariant.staged other (by simp [scheduled, inLater])
  case mediator =>
    intro isMediator
    rcases mediator isMediator with ⟨next, isNext, restores⟩ | ⟨was, passive⟩
    · exact ⟨next, by simp [isNext], restores⟩
    · obtain ⟨other, member, restores⟩ :=
        invariant.restoredByOther scheduled passive was
      refine ⟨other, ?_, restores⟩
      rcases List.mem_append.mp member with inEarlier | inLater
      · simp [inEarlier]
      · simp [inLater]
  case inOrder =>
    simp only [State.undelivered, ownedSame]
    exact invariant.inOrder
  case exactlyOnce =>
    simp only [carriedSame]
    exact invariant.exactlyOnce

omit invariant in
/-- A thread that is not removing an object relies on nothing. -/
theorem Drainer.staged_of_owned_none
    (ownsNothing : drainer.owned? = none)
    (contents : List (Entry Node)) :
    drainer.Staged contents := by
  cases drainer with
  | loadNext _ | clearHead _ | clearTail _ | waitNext _ | storeHead _ _ =>
    cases ownsNothing
  | _ => trivial

variable {head : Node}

/-- The pointer of the object being removed leads to the next one. -/
theorem State.Invariant.startsNext
    {next : Node}
    (starts : StartsLinked state.contents [head])
    (isNext : state.memory.next head = some next) :
    StartsLinked state.contents [head, next] := by
  obtain ⟨rest, shape⟩ := starts
  obtain ⟨incoming, segment⟩ := invariant.segment
  rw [shape] at segment
  obtain ⟨-, restSegment⟩ := segment
  simp only [isNext] at restSegment
  obtain ⟨remaining, rfl⟩ := StartsLinked.of_incoming restSegment
  exact ⟨remaining, shape⟩

/-- A further thread starts to drain. -/
theorem State.Invariant.beginDrain :
    ({ state with drainers := .start :: state.drainers } :
      State Node).Invariant :=
  { invariant with
    staged := List.forall_mem_cons.mpr ⟨trivial, invariant.staged⟩
    mediator := by
      intro isMediator
      obtain ⟨drainer, member, restores⟩ := invariant.mediator isMediator
      exact ⟨drainer, List.mem_cons_of_mem _ member, restores⟩ }

/-! ## Queues with no operation in progress -/

/-- No operation is in progress. -/
def State.Quiescent (state : State Node) : Prop :=
  state.producers = [] ∧ state.drainers = []

/-- The head word of a list that begins with a given object, if any. -/
def HeadWord.ofFirst : Option Node → HeadWord Node
  | none => null
  | some node => object node

/-- The fields describe exactly the undelivered objects. -/
structure State.WellFormed (state : State Node) : Prop where
  head : state.memory.head = .ofFirst (nodesOf state.contents).head?
  list : Segment state.memory.next (nodesOf state.contents).head?
    (linkedEntries (nodesOf state.contents)) none
  tail : state.memory.tail = (nodesOf state.contents).getLast?

omit invariant in
/-- A well-formed queue has no mediator value and is empty at both ends at
once. -/
theorem State.WellFormed.head_null_iff
    (wellFormed : state.WellFormed) :
    state.memory.head ≠ .mediator ∧
      (state.memory.head = .null ↔ state.memory.tail = none) := by
  rw [wellFormed.head, wellFormed.tail]
  cases nodesOf state.contents with
  | nil | cons _ _ => simp [HeadWord.ofFirst]

/-- With no operation in progress the fields describe the contents. -/
theorem State.Invariant.wellFormed
    (quiescent : state.Quiescent) :
    state.WellFormed := by
  obtain ⟨noPush, noDrain⟩ := quiescent
  have unlinked := invariant.producers.unlinked
  rw [noPush, List.filterMap_nil, List.perm_nil, List.nil_append] at unlinked
  have allLinked := eq_linkedEntries_of_unlinkedNodes_nil unlinked
  have notMediator : state.memory.head ≠ .mediator := by
    intro isMediator
    obtain ⟨drainer, member, -⟩ := invariant.mediator isMediator
    simp [noDrain] at member
  have counted := invariant.providers
  obtain ⟨incoming, segment⟩ := invariant.segment
  simp only [State.providers, noPush, noDrain, List.filterMap_nil,
    List.length_nil, Nat.add_zero] at counted
  refine ⟨?_, ?_, invariant.tail⟩
  · cases shape : state.contents with
    | nil =>
      simp only [shape, ↓reduceIte] at counted
      cases isHead : state.memory.head with
      | null => rfl
      | mediator => exact (notMediator isHead).elim
      | object node =>
        rw [isHead] at counted
        cases counted
    | cons entry rest =>
      simp only [shape, reduceCtorEq, ↓reduceIte] at counted
      cases isHead : state.memory.head with
      | null =>
        rw [isHead] at counted
        cases counted
      | mediator => exact (notMediator isHead).elim
      | object node =>
        obtain ⟨remaining, starts⟩ := invariant.headObject node isHead
        rw [shape] at starts
        cases starts
        rfl
  · rw [allLinked] at segment
    cases nodes : nodesOf state.contents with
    | nil => rfl
    | cons first rest =>
      rw [nodes] at segment
      exact ⟨rfl, segment.2⟩

/-! ## Steps that move objects -/

variable [DecidableEq Node]

/-- A thread that waited in vain leaves. -/
theorem State.Invariant.giveUp
    (scheduled : state.drainers = earlier ++ drainer :: later)
    (timedOut : state.mayGiveUp drainer = true) :
    ({ state with drainers := earlier ++ later } : State Node).Invariant := by
  have passive : drainer.owned? = none ∧ drainer.removed? = none ∧
      drainer.restores = false := by
    cases drainer with
    | quiesceTail _ | contended => exact ⟨rfl, rfl, rfl⟩
    | _ => cases timedOut
  obtain ⟨ownsNothing, removedNothing, doesNotRestore⟩ := passive
  refine invariant.moveOn scheduled none state.memory.head rfl
    (fun _ same => same) ownsNothing.symm removedNothing.symm ?_
    (fun same => Or.inr ⟨same, doesNotRestore⟩)
  intro next isNext
  cases isNext

/-- Taking the head from the list. -/
theorem State.Invariant.takeHead
    (scheduled : state.drainers = earlier ++ .start :: later)
    (isObject : state.memory.head = .object head) :
    ({ state with
      memory := { state.memory with head := .mediator }
      taken := state.taken ++ [head]
      drainers := earlier ++ (.loadNext head :: later) } :
        State Node).Invariant := by
  obtain ⟨rest, shape⟩ := invariant.headObject head isObject
  have counted := invariant.providers
  simp only [State.providers, scheduled, isObject, HeadWord.provides,
    List.filterMap_append, List.filterMap_cons, Drainer.owned?,
    List.length_append, shape, linkedEntries_cons, List.cons_append,
    reduceCtorEq, ↓reduceIte] at counted
  have noneEarlier : earlier.filterMap Drainer.owned? = [] :=
    List.eq_nil_of_length_eq_zero (by omega)
  have noneLater : later.filterMap Drainer.owned? = [] :=
    List.eq_nil_of_length_eq_zero (by omega)
  exact
    { invariant with
      distinct := by
        have distinct := invariant.distinct
        simp only [State.ownedNodes, scheduled, List.filterMap_append,
          List.filterMap_cons, Drainer.removed?] at distinct ⊢
        exact distinct
      providers := by
        simp only [State.providers, HeadWord.provides, List.filterMap_append,
          List.filterMap_cons, Drainer.owned?, List.length_append,
          List.length_cons, shape, linkedEntries_cons, List.cons_append,
          reduceCtorEq, ↓reduceIte]
        omega
      headObject := by
        intro node isObject
        cases isObject
      staged := by
        intro other member
        simp only [List.mem_append, List.mem_cons] at member
        rcases member with inEarlier | rfl | inLater
        · exact invariant.staged other (by simp [scheduled, inEarlier])
        · exact ⟨rest, shape⟩
        · exact invariant.staged other (by simp [scheduled, inLater])
      mediator := fun _ => ⟨.loadNext head, by simp, rfl⟩
      inOrder := by
        have before := invariant.inOrder
        simp only [State.undelivered, scheduled, List.filterMap_append,
          List.filterMap_cons, Drainer.owned?, noneEarlier, noneLater,
          List.append_nil, ↓reduceIte] at before
        simp only [State.undelivered, List.filterMap_append,
          List.filterMap_cons, Drainer.owned?, noneEarlier, noneLater,
          List.nil_append, reduceCtorEq, ↓reduceIte, before, shape]
        simp
      exactlyOnce := by
        have before := invariant.exactlyOnce
        simp only [scheduled, List.filterMap_append, List.filterMap_cons,
          Drainer.carried?, Drainer.owned?, Drainer.removed?,
          Option.or_none] at before ⊢
        rw [List.perm_iff_count] at before ⊢
        intro node
        have counts := before node
        simp only [List.count_append, List.count_cons,
          List.count_nil] at counts ⊢
        omega }

variable {continued : Option (Drainer Node)}

/-- Removing the first object, either to return it at once or to return it
after a poke. -/
theorem State.Invariant.removeFirst
    {first : Node}
    {rest : List (Entry Node)}
    {returned : List Node}
    (scheduled : state.drainers = earlier ++ drainer :: later)
    (owned : drainer.owned? = some first)
    (notRemoved : drainer.removed? = none)
    (shape : state.contents = ⟨first, true⟩ :: rest)
    (nextLinked : ∀ node remaining, rest ≠ ⟨node, false⟩ :: remaining)
    (head : HeadWord Node)
    (tail : Option Node)
    (isLast : tail = lastNode rest)
    (provides : head.provides = if rest = [] then 0 else 1)
    (headObject : ∀ node, head = .object node → StartsLinked rest [node])
    (mediator : head = .mediator →
      ∃ other ∈ earlier ++ later, other.restores = true)
    (finished :
      continued = some (.poke first) ∧ returned = state.returned ∨
        continued = none ∧ returned = state.returned ++ [first]) :
    ({ state with
      memory := { state.memory with head := head, tail := tail }
      contents := rest
      returned := returned
      drainers := earlier ++ (continued.toList ++ later) } :
        State Node).Invariant := by
  obtain ⟨-, noneEarlier, noneLater, noHeadLink, -⟩ :=
    invariant.exclusive scheduled owned
  have carried : drainer.carried? = some first := by
    simp [Drainer.carried?, owned]
  have continuedOwned : continued.toList.filterMap Drainer.owned? = [] := by
    rcases finished with ⟨rfl, -⟩ | ⟨rfl, -⟩ <;> rfl
  have placed : (returned ++ continued.toList.filterMap Drainer.carried?) =
      state.returned ++ [first] := by
    rcases finished with ⟨rfl, rfl⟩ | ⟨rfl, rfl⟩
    · rfl
    · simp
  have removedOnce :
      (continued.toList.filterMap Drainer.removed?).Sublist [first] := by
    rcases finished with ⟨rfl, -⟩ | ⟨rfl, -⟩
    · exact List.Sublist.refl _
    · exact List.nil_sublist _
  have noOwner : (earlier ++ (continued.toList ++ later)).filterMap
      Drainer.owned? = [] := by
    simp [noneEarlier, noneLater, continuedOwned]
  obtain ⟨incoming, segment⟩ := invariant.segment
  rw [shape, Segment.cons_iff] at segment
  refine
    { distinct := ?distinct
      tail := isLast
      segment := ⟨_, segment.2⟩
      providers := ?providers
      headObject := headObject
      staged := ?staged
      mediator := ?mediator
      producers := ?producers
      inOrder := ?inOrder
      exactlyOnce := ?exactlyOnce }
  case distinct =>
    have distinct := invariant.distinct
    simp only [State.ownedNodes, shape, scheduled, nodesOf_cons,
      List.filterMap_append, List.filterMap_cons, notRemoved,
      List.nodup_iff_count_le_one, List.count_append,
      List.cons_append] at distinct ⊢
    intro node
    have once := distinct node
    have atMost := removedOnce.count_le node
    simp only [List.count_cons, List.count_nil,
      List.count_append] at once atMost
    omega
  case providers =>
    simp only [State.providers, noOwner, noHeadLink, List.length_nil,
      provides, Nat.add_zero]
  case staged =>
    intro other member
    refine Drainer.staged_of_owned_none ?_ rest
    exact List.filterMap_eq_nil_iff.mp noOwner other member
  case mediator =>
    intro isMediator
    obtain ⟨other, member, restores⟩ := mediator isMediator
    refine ⟨other, ?_, restores⟩
    simp only [List.mem_append] at member ⊢
    exact member.imp id Or.inr
  case producers =>
    have located := invariant.producers
    refine located.relist ?_ ?_ ?_
    · intro prev node awaits
      rcases awaits with inHeld | inContents
      · exact Or.inl inHeld
      · rw [shape] at inContents
        rcases inContents.of_cons with ⟨remaining, same⟩ | inRest
        · exact (nextLinked node remaining same).elim
        · exact Or.inr inRest
    · intro node remaining isFirst
      rw [shape] at isFirst
      cases isFirst
    · rw [shape]
      rfl
  case inOrder =>
    have before := invariant.inOrder
    simp only [State.undelivered, scheduled, List.filterMap_append,
      List.filterMap_cons, owned, List.append_eq_nil_iff, reduceCtorEq,
      and_false, ↓reduceIte, shape, List.tail_cons] at before
    simp only [State.undelivered, noOwner, ↓reduceIte]
    exact before
  case exactlyOnce =>
    have before := invariant.exactlyOnce
    have samePlace : ∀ node, List.count node returned + List.count node
        (continued.toList.filterMap Drainer.carried?) =
          List.count node state.returned + List.count node [first] := by
      intro node
      rw [← List.count_append, placed, List.count_append]
    rw [List.perm_iff_count] at before ⊢
    intro node
    have counts := before node
    have same := samePlace node
    simp only [scheduled, List.filterMap_append, List.filterMap_cons, carried,
      List.count_append, List.count_cons,
      List.count_nil] at counts same ⊢
    omega

/-- Returning an object that is off the list. -/
theorem State.Invariant.returnRemoved
    (scheduled : state.drainers = earlier ++ .poke head :: later) :
    ({ state with
      returned := state.returned ++ [head]
      drainers := earlier ++ later } : State Node).Invariant := by
  have ownedSame : (earlier ++ later).filterMap Drainer.owned? =
      state.drainers.filterMap Drainer.owned? := by
    simp [scheduled, List.filterMap_cons, Drainer.owned?]
  have sublist : (earlier ++ later).Sublist state.drainers := by
    rw [scheduled]
    exact (List.Sublist.refl _).append (List.sublist_cons_self _ _)
  exact
    { invariant with
      distinct := by
        refine invariant.distinct.sublist ?_
        exact (List.Sublist.refl _).append
          ((sublist.filterMap _).append (List.Sublist.refl _))
      providers := by
        simp only [State.providers, ownedSame]
        exact invariant.providers
      staged := fun other member =>
        invariant.staged other (sublist.subset member)
      mediator := invariant.restoredByOther scheduled rfl
      inOrder := by
        simp only [State.undelivered, ownedSame]
        exact invariant.inOrder
      exactlyOnce := by
        have before := invariant.exactlyOnce
        simp only [scheduled, List.filterMap_append, List.filterMap_cons,
          Drainer.carried?, Drainer.owned?, Drainer.removed?,
          Option.none_or] at before ⊢
        rw [List.perm_iff_count] at before ⊢
        intro node
        have counts := before node
        simp only [List.count_append, List.count_cons,
          List.count_nil] at counts ⊢
        omega }

variable {after : State Node}

/-- The first two loads and exchanges, while no object has been taken. -/
theorem State.Invariant.drainEmptyHanded
    (scheduled : state.drainers = earlier ++ drainer :: later)
    (emptyHanded : drainer.carried? = none)
    (accepted : state.drainStep drainer = some (after, continued)) :
    ({ after with drainers := earlier ++ (continued.toList ++ later) } :
      State Node).Invariant := by
  have stay : ∀ next : Option (Drainer Node),
      drainer.restores = false →
      next.bind Drainer.owned? = drainer.owned? →
      next.bind Drainer.removed? = drainer.removed? →
      (∀ other, next = some other → other.owned? = none) →
      ({ state with drainers := earlier ++ (next.toList ++ later) } :
        State Node).Invariant := by
    intro next passive owned removed ownsNothing
    refine invariant.moveOn scheduled next state.memory.head rfl
      (fun _ same => same) owned removed ?_ (fun same => Or.inr ⟨same, passive⟩)
    intro other isNext
    exact Drainer.staged_of_owned_none (ownsNothing other isNext) _
  cases drainer with
  | start =>
    simp only [State.drainStep] at accepted
    split at accepted <;> cases accepted
    · rename_i isNull
      refine invariant.moveOn scheduled (some .foundNull) .mediator ?_ ?_
        rfl rfl ?_ (fun _ => Or.inl ⟨_, rfl, rfl⟩)
      · simp [isNull, HeadWord.provides]
      · intro node same
        cases same
      · rintro next ⟨⟩
        trivial
    · rename_i isMediator
      refine invariant.moveOn scheduled (some .contended) .mediator ?_ ?_
        rfl rfl ?_ (fun _ => Or.inr ⟨isMediator, rfl⟩)
      · simp [isMediator]
      · intro node same
        cases same
      · rintro next ⟨⟩
        trivial
    · rename_i head isObject
      exact invariant.takeHead scheduled isObject
  | foundNull =>
    simp only [State.drainStep] at accepted
    split_ifs at accepted with isMediator <;> cases accepted
    · refine invariant.moveOn scheduled (some .checkTail) .null ?_ ?_
        rfl rfl ?_ ?_
      · simp [isMediator, HeadWord.provides]
      · intro node same
        cases same
      · rintro next ⟨⟩
        trivial
      · intro same
        cases same
    · refine invariant.moveOn scheduled (some .start) state.memory.head rfl
        (fun _ same => same) rfl rfl ?_ (fun same => (isMediator same).elim)
      rintro next ⟨⟩
      trivial
  | checkTail =>
    simp only [State.drainStep] at accepted
    split_ifs at accepted <;> cases accepted
    · exact stay none rfl rfl rfl (by simp)
    · exact stay (some .quiesceHead) rfl rfl rfl (by rintro _ ⟨⟩; rfl)
  | quiesceHead =>
    cases accepted
    exact stay _ rfl rfl rfl (by rintro _ ⟨⟩; rfl)
  | quiesceTail headIsNull =>
    simp only [State.drainStep] at accepted
    split at accepted <;> cases accepted
    · exact stay (some .start) rfl rfl rfl (by rintro _ ⟨⟩; rfl)
    · exact stay none rfl rfl rfl (by simp)
    · exact stay (some .quiesceHead) rfl rfl rfl (by rintro _ ⟨⟩; rfl)
  | contended =>
    simp only [State.drainStep] at accepted
    split_ifs at accepted <;> cases accepted
    · exact stay (some .contended) rfl rfl rfl (by rintro _ ⟨⟩; rfl)
    · exact stay (some .start) rfl rfl rfl (by rintro _ ⟨⟩; rfl)
  | loadNext _ | clearHead _ | clearTail _ | waitNext _ | storeHead _ _
  | poke _ => cases emptyHanded

/-- The steps of a thread that has taken an object. -/
theorem State.Invariant.drainCarrying
    {item : Node}
    (scheduled : state.drainers = earlier ++ drainer :: later)
    (carries : drainer.carried? = some item)
    (accepted : state.drainStep drainer = some (after, continued)) :
    ({ after with drainers := earlier ++ (continued.toList ++ later) } :
      State Node).Invariant := by
  have staged := invariant.staged drainer (by simp [scheduled])
  cases drainer with
  | loadNext head =>
    simp only [State.drainStep] at accepted
    split at accepted <;> cases accepted
    · rename_i next isNext
      refine invariant.moveOn scheduled (some (.storeHead head next))
        state.memory.head rfl (fun _ same => same) rfl rfl ?_
        (fun _ => Or.inl ⟨_, rfl, rfl⟩)
      rintro _ ⟨⟩
      exact invariant.startsNext staged isNext
    · refine invariant.moveOn scheduled (some (.clearHead head))
        state.memory.head rfl (fun _ same => same) rfl rfl ?_
        (fun _ => Or.inl ⟨_, rfl, rfl⟩)
      rintro _ ⟨⟩
      exact staged
  | clearHead head =>
    cases accepted
    obtain ⟨notObject, -⟩ := invariant.exclusive scheduled rfl
    refine invariant.moveOn scheduled (some (.clearTail head)) .null ?_ ?_
      rfl rfl ?_ ?_
    · exact notObject.symm
    · intro node same
      cases same
    · rintro _ ⟨⟩
      exact staged
    · intro same
      cases same
  | clearTail head =>
    simp only [State.drainStep] at accepted
    split_ifs at accepted with isTail <;> cases accepted
    · have distinct := (List.nodup_append.mp invariant.distinct).1
      have shape := Mpsc.eq_singleton_of_last distinct staged
        (invariant.tail.symm.trans isTail)
      obtain ⟨notObject, -⟩ := invariant.exclusive scheduled rfl
      have removed := invariant.removeFirst scheduled rfl rfl shape
        (by intro node remaining same; cases same) state.memory.head none
        rfl notObject ?headObject (invariant.restoredByOther scheduled rfl)
        (Or.inr ⟨rfl, rfl⟩)
      case headObject =>
        intro node isObject
        rw [isObject] at notObject
        cases notObject
      rw [shape]
      exact removed
    · refine invariant.moveOn scheduled (some (.waitNext head))
        state.memory.head rfl (fun _ same => same) rfl rfl ?_
        (fun same => Or.inr ⟨same, rfl⟩)
      rintro _ ⟨⟩
      exact ⟨staged, fun isLast => isTail (invariant.tail.trans isLast)⟩
  | waitNext head =>
    simp only [State.drainStep, Option.map_eq_some_iff] at accepted
    obtain ⟨next, isNext, same⟩ := accepted
    cases same
    refine invariant.moveOn scheduled (some (.storeHead head next))
      state.memory.head rfl (fun _ same => same) rfl rfl ?_
      (fun _ => Or.inl ⟨_, rfl, rfl⟩)
    rintro _ ⟨⟩
    exact invariant.startsNext staged.1 isNext
  | storeHead head next =>
    cases accepted
    obtain ⟨rest, shape⟩ := staged
    simp only [linkedEntries_cons, linkedEntries_nil, List.cons_append,
      List.nil_append] at shape
    have removed := invariant.removeFirst scheduled rfl rfl shape
      (by intro node remaining same; cases same) (.object next)
      state.memory.tail ?isLast rfl ?object (by intro same; cases same)
      (Or.inl ⟨rfl, rfl⟩)
    case isLast =>
      rw [invariant.tail, shape]
      rfl
    case object =>
      intro node same
      cases same
      exact ⟨rest, rfl⟩
    rw [shape]
    exact removed
  | poke head =>
    cases accepted
    exact invariant.returnRemoved scheduled
  | start | foundNull | checkTail | quiesceHead | quiesceTail _ | contended =>
    cases carries

/-- Every step keeps the invariant. -/
theorem State.Invariant.step
    (stepped : Step state after) :
    after.Invariant := by
  cases stepped with
  | beginPush items nonempty fresh =>
    exact invariant.beginPush nonempty fresh
  | exchangeTail earlier later first rest scheduled =>
    exact invariant.exchangeTail scheduled
  | storeLink earlier later prev first scheduled =>
    cases prev with
    | none => exact invariant.storeHead scheduled
    | some prev => exact invariant.storeNext scheduled
  | beginDrain =>
    exact invariant.beginDrain
  | drain earlier later drainer continued scheduled accepted =>
    cases carries : drainer.carried? with
    | none => exact invariant.drainEmptyHanded scheduled carries accepted
    | some item => exact invariant.drainCarrying scheduled carries accepted
  | giveUp earlier later drainer scheduled timedOut =>
    exact invariant.giveUp scheduled timedOut

/-! ## Delivery -/

/-- One thread alone takes the first object of a quiescent queue and returns
it. -/
theorem State.Invariant.drainAlone
    {first : Node}
    {rest : List Node}
    (quiescent : state.Quiescent)
    (shape : nodesOf state.contents = first :: rest) :
    ∃ after : State Node,
      Reachable (· = state) Step after ∧
        after.Quiescent ∧
        after.taken = state.taken ++ [first] ∧
        after.returned = state.returned ++ [first] ∧
        nodesOf after.contents = rest := by
  have wellFormed := invariant.wellFormed quiescent
  obtain ⟨noPush, noDrain⟩ := quiescent
  have isHead : state.memory.head = .object first := by
    rw [wellFormed.head, shape]
    rfl
  have list := wellFormed.list
  rw [shape] at list
  have remaining : nodesOf state.contents.tail = rest := by
    rw [← nodesOf_tail, shape]
    rfl
  have start : Reachable (· = state) Step state := .start rfl
  have begun := start.next .beginDrain
  have took := begun.next (.drain [] [] .start (some (.loadNext first))
    (by simp [noDrain]) (by
      simp only [State.drainStep, isHead]
      rfl))
  cases rest with
  | nil =>
    have noNext : state.memory.next first = none := list.2
    have isTail : state.memory.tail = some first := by
      rw [wellFormed.tail, shape]
      rfl
    have loaded := took.next (.drain [] [] (.loadNext first)
      (some (.clearHead first)) rfl (by
        simp only [State.drainStep, noNext]
        rfl))
    have cleared := loaded.next (.drain [] [] (.clearHead first)
      (some (.clearTail first)) rfl rfl)
    have finished := cleared.next (.drain [] [] (.clearTail first) none rfl
      (by
        simp only [State.drainStep, isTail, ↓reduceIte]
        rfl))
    exact ⟨_, finished, ⟨noPush, rfl⟩, rfl, rfl, remaining⟩
  | cons second others =>
    have isNext : state.memory.next first = some second := list.2.1
    have loaded := took.next (.drain [] [] (.loadNext first)
      (some (.storeHead first second)) rfl
      (by
        simp only [State.drainStep, isNext]
        rfl))
    have restored := loaded.next (.drain [] [] (.storeHead first second)
      (some (.poke first)) rfl rfl)
    have finished := restored.next (.drain [] [] (.poke first) none rfl rfl)
    exact ⟨_, finished, ⟨noPush, rfl⟩, rfl, rfl, remaining⟩

end

variable [DecidableEq Node]

/-- What the users of a root queue may rely on. -/
structure DeliversOnce (state : State Node) : Prop where
  inOrder : state.pushed = state.taken ++ nodesOf state.undelivered
  exactlyOnce : state.taken.Perm
    (state.returned ++ state.drainers.filterMap Drainer.carried?)
  distinct : (nodesOf state.contents).Nodup
  quiescent : state.Quiescent →
    state.WellFormed ∧
      state.memory.head ≠ .mediator ∧
      (state.memory.head = .null ↔ state.memory.tail = none) ∧
      state.returned.Perm state.taken ∧
      state.pushed = state.taken ++ nodesOf state.contents
  drainable : ∀ first rest, state.Quiescent →
    nodesOf state.contents = first :: rest →
      ∃ after : State Node,
        Reachable (· = state) Step after ∧
          after.Quiescent ∧
          after.taken = state.taken ++ [first] ∧
          after.returned = state.returned ++ [first] ∧
          nodesOf after.contents = rest

/-- The queue delivers every object once, in every reachable state. -/
theorem reachable_deliversOnce
    (next : Node → Option Node)
    {state : State Node}
    (reached : Reachable (· = State.initial next) Step state) :
    DeliversOnce state := by
  have invariant : state.Invariant := by
    refine reached.invariant ?_ ?_
    · rintro _ rfl
      exact State.initial_invariant next
    · intro before after invariant stepped
      exact invariant.step stepped
  refine
    { invariant with
      distinct := (List.nodup_append.mp invariant.distinct).1
      quiescent := ?quiescent
      drainable := fun _ _ quiescent shape =>
        invariant.drainAlone quiescent shape }
  intro quiescent
  have wellFormed := invariant.wellFormed quiescent
  obtain ⟨notMediator, bothEmpty⟩ := wellFormed.head_null_iff
  have delivered := invariant.exactlyOnce
  have ordered := invariant.inOrder
  simp only [State.undelivered, quiescent.2, List.filterMap_nil,
    List.append_nil, ↓reduceIte] at delivered ordered
  exact ⟨wellFormed, notMediator, bothEmpty, delivered.symm, ordered⟩

/-- Two threads drain a list of two objects, the second of them while the first
holds the mediator value. -/
theorem twoDrainers_deliverOnce :
    ∃ state : State Nat,
      Reachable (· = State.initial fun _ => none) Step state ∧
        state.pushed = [0, 1] ∧ state.returned = [0] ∧
        state.drainers = [.contended] ∧ DeliversOnce state := by
  have start : Reachable (· = (State.initial fun _ => none : State Nat)) Step
      (State.initial fun _ => none) := .start rfl
  have begun := start.next (.beginPush [0, 1] (by simp) (by decide))
  have exchanged := begun.next (.exchangeTail [] [] 0 [1] rfl)
  have linked := exchanged.next (.storeLink [] [] none 0 rfl)
  have first := linked.next .beginDrain
  have second := first.next .beginDrain
  have took := second.next (.drain [.start] [] .start _ rfl rfl)
  have waiting := took.next (.drain [] [.loadNext 0] .start _ rfl rfl)
  have loaded := waiting.next
    (.drain [.contended] [] (.loadNext 0) _ rfl rfl)
  have restored := loaded.next
    (.drain [.contended] [] (.storeHead 0 1) _ rfl rfl)
  have returned := restored.next (.drain [.contended] [] (.poke 0) _ rfl rfl)
  exact ⟨_, returned, rfl, rfl, rfl, reachable_deliversOnce _ returned⟩

end LibDispatch.RootQueue
