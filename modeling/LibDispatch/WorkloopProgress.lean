import LibDispatch.WorkloopPushes

namespace LibDispatch.Workloop

/-!
# Progress of a workloop

Without new tail exchanges and synchronous calls the threads at work on a
workloop come to an end: every step ends a push, pops an item, clears the dirty
bit, or moves on.  Where they end, all items have been served.
-/

/-- The steps of work that is under way. -/
def Event.isInternal : Event → Bool
  | .exchange .. | .acquireSync => false
  | .link _ | .merge _ | .enqueue | .arrive | .tryLock | .advance => true

/-- A step of work that is under way. -/
def InternalStep (state after : State) : Prop :=
  ∃ event, event.isInternal = true ∧ state.next event = some after

/-- The steps that a push has left. -/
def Push.weight (push : Push) : Nat :=
  if push.linked then 1 else 2

/-- More than the owner can move on before it pops an item, sees the dirty bit,
or unlocks. -/
def Owner.weight : Owner → Nat
  | .scan qos => 2 * qos + 6
  | .lower _ => 5
  | .head _ => 4
  | .item .. => 3
  | .hand .. => 2
  | .unlock => 5
  | .clear => 1
  | .run .. => 30
  | .decide .. => 29
  | .transfer .. => 100
  | .waiter _ => 99
  | .complete qos _ _ => 2 * qos + 61
  | .completeHead qos _ _ => 2 * qos + 60
  | .release .. => 55
  | .clearComplete _ => 50

variable {push : Push} {qos : Nat} {dc : Item}

namespace State

/-- The steps that the pushes have left. -/
def pushing (state : State) : Nat :=
  (state.pushes.map Push.weight).sum

/-- The number of items in the lists. -/
def size (state : State) : Nat :=
  ∑ qos ∈ Finset.range (qosMax + 1), (state.lists qos).length

/-- The way of the workloop to its target and of an invocation to the lock,
and the way of the owner. -/
def moving (state : State) : Nat :=
  42 * state.enqueuers + 41 * state.onTarget + 40 * state.arriving +
    state.owner.elim 0 Owner.weight

/-- What decreases with each step. -/
def measure (state : State) : Nat :=
  1000 * state.pushing + 1000 * state.size + 300 * state.word.dirty.toNat +
    state.moving

/-- A push that is given up makes fewer steps left. -/
theorem pushing_erase
    {pushes : List Push}
    (member : push ∈ pushes) :
    ((pushes.erase push).map Push.weight).sum + push.weight =
      (pushes.map Push.weight).sum := by
  have apart := (List.perm_cons_erase member).map Push.weight
  rw [apart.sum_eq, List.map_cons, List.sum_cons, Nat.add_comm]

/-- An item that is popped leaves one fewer. -/
theorem size_pop
    {lists : Nat → List Item}
    (bounded : qos ≤ qosMax)
    {rest : List Item}
    (shape : lists qos = dc :: rest) :
    (∑ other ∈ Finset.range (qosMax + 1),
        (Function.update lists qos rest other).length) + 1 =
      ∑ other ∈ Finset.range (qosMax + 1), (lists other).length := by
  have member : qos ∈ Finset.range (qosMax + 1) :=
    Finset.mem_range.mpr (Nat.lt_succ_of_le bounded)
  rw [← Finset.add_sum_erase _ _ member, ← Finset.add_sum_erase _ _ member,
    Function.update_self, shape, List.length_cons]
  have others : ∑ other ∈ (Finset.range (qosMax + 1)).erase qos,
      (Function.update lists qos rest other).length =
      ∑ other ∈ (Finset.range (qosMax + 1)).erase qos,
        (lists other).length := by
    apply Finset.sum_congr rfl
    intro other remains
    rw [Function.update_of_ne (Finset.ne_of_mem_erase remains)]
  rw [others]
  omega

end State

/-! ## Every step decreases the measure -/

namespace Invariant

variable {state after : State}

theorem measure_link
    (happens : state.link push = some after) :
    after.measure < state.measure := by
  rw [State.link] at happens
  split at happens
  · rename_i isPush
    obtain ⟨member, unlinked⟩ := isPush
    cases happens
    have erased := State.pushing_erase member
    have own : push.weight = 2 := by
      simp [Push.weight, unlinked]
    simp only [State.measure, State.pushing, State.size, State.moving]
    split
    · simp only [List.map_cons, List.sum_cons, Push.weight, if_true]
      simp only [Push.weight] at erased own
      omega
    · omega
  · cases happens

/-- The end of a push outweighs what it sets off. -/
theorem measure_of_pushing
    (fewer : after.pushing + 1 = state.pushing)
    (sameSize : after.size = state.size)
    (little : after.moving ≤ state.moving + 100) :
    after.measure < state.measure := by
  have dirty := after.word.dirty.toNat_le
  simp only [State.measure]
  omega

theorem measure_merge
    (happens : state.merge push = some after) :
    after.measure < state.measure := by
  rw [State.merge] at happens
  split at happens
  · rename_i isPush
    obtain ⟨member, linked⟩ := isPush
    cases happens
    have erased := State.pushing_erase member
    have own : push.weight = 1 := by
      simp [Push.weight, linked]
    rw [own] at erased
    split
    · simp only [State.pushWaiter]
      split
      · exact measure_of_pushing erased rfl (Nat.le_add_right ..)
      · rename_i idle
        refine measure_of_pushing erased rfl ?_
        simp only [State.moving, Option.elim_some, Owner.weight, qosMax]
        omega
    · refine measure_of_pushing erased rfl ?_
      have atMostOne := Bool.toNat_le
        (!(state.word.mergeQos push.qos).enqueued &&
          decide ((state.word.mergeQos push.qos).maxQos ≠ 0))
      simp only [State.wakeup, State.moving]
      omega
  · cases happens

theorem measure_enqueue
    (happens : state.enqueue = some after) :
    after.measure < state.measure := by
  rw [State.enqueue] at happens
  split at happens
  · cases happens
  · cases happens
    simp only [State.measure, State.pushing, State.size, State.moving]
    omega

theorem measure_arrive
    (happens : state.arrive = some after) :
    after.measure < state.measure := by
  rw [State.arrive] at happens
  split at happens
  · cases happens
  · cases happens
    simp only [State.measure, State.pushing, State.size, State.moving]
    omega

theorem measure_tryLock
    (happens : state.tryLock = some after) :
    after.measure < state.measure := by
  rw [State.tryLock] at happens
  split at happens
  · cases happens
  · split at happens
    · rename_i isOwner
      cases happens
      simp only [State.measure, State.pushing, State.size, State.moving, isOwner,
        Option.elim_none, Option.elim_some, Owner.weight, qosMax,
        Bool.toNat_false]
      omega
    · rename_i owner isOwner
      cases happens
      simp only [State.measure, State.pushing, State.size, State.moving]
      omega

/-- The owner moves on and nothing else happens. -/
theorem measure_moveTo
    {before after : Owner}
    (isOwner : state.owner = some before)
    (lighter : after.weight < before.weight)
    (ready : Nat → Bool) :
    State.measure { state with
      owner := some after
      ready := ready } < state.measure := by
  simp only [State.measure, State.pushing, State.size, State.moving, isOwner,
    Option.elim_some]
  omega

/-- The owner pops an item. -/
theorem measure_pop
    {before after : Owner}
    (isOwner : state.owner = some before)
    (bounded : qos ≤ qosMax)
    {rest : List Item}
    (shape : state.lists qos = dc :: rest)
    (little : after.weight ≤ 100)
    (served : List (Nat × Item)) :
    State.measure { state with
      lists := Function.update state.lists qos rest
      served := served
      owner := some after } < state.measure := by
  have popped := State.size_pop bounded shape
  simp only [State.measure, State.pushing, State.size, State.moving, isOwner,
    Option.elim_some]
  omega

section Advance

variable (happens : state.advance = some after)

include happens

theorem measure_scan
    (isOwner : state.owner = some (.scan qos)) :
    after.measure < state.measure := by
  cases qos with
  | zero =>
    rw [State.advance, isOwner] at happens
    cases happens
    exact measure_moveTo isOwner (by decide) _
  | succ qos =>
    rw [State.advance, isOwner] at happens
    cases happens
    have down : (Owner.scan qos).weight < (Owner.scan (qos + 1)).weight := by
      simp [Owner.weight]
    have found : (Owner.lower (qos + 1)).weight <
        (Owner.scan (qos + 1)).weight := by
      simp only [Owner.weight]
      omega
    split
    · exact measure_moveTo isOwner down _
    · exact measure_moveTo isOwner found _

theorem measure_lower
    (isOwner : state.owner = some (.lower qos)) :
    after.measure < state.measure := by
  rw [State.advance, isOwner] at happens
  have heads : (Owner.head qos).weight < (Owner.lower qos).weight := by
    simp [Owner.weight]
  have clears : Owner.clear.weight < (Owner.lower qos).weight := by
    simp [Owner.weight]
  simp only at happens
  split at happens
  · cases happens
    exact measure_moveTo isOwner heads _
  · split at happens
    · cases happens
      exact measure_moveTo isOwner clears _
    · cases happens
      exact measure_moveTo isOwner heads state.ready

theorem measure_clear
    (invariant : Invariant state)
    (isOwner : state.owner = some .clear) :
    after.measure < state.measure := by
  have watched := invariant.watched
  rw [isOwner] at watched
  rw [State.advance, isOwner] at happens
  cases happens
  change state.word.dirty = true at watched
  simp only [State.measure, State.pushing, State.size, State.moving, isOwner,
    Option.elim_some, Owner.weight, watched, Bool.not_true, Bool.toNat_false,
    Bool.toNat_true, qosMax]
  omega

theorem measure_head
    (isOwner : state.owner = some (.head qos)) :
    after.measure < state.measure := by
  rw [State.advance, isOwner] at happens
  simp only at happens
  split at happens
  · cases happens
  · rename_i first rest shape
    split at happens
    · cases happens
      exact measure_moveTo isOwner (by simp [Owner.weight]) _
    · cases happens

theorem measure_item
    (invariant : Invariant state)
    (isOwner : state.owner = some (.item qos dc)) :
    after.measure < state.measure := by
  rw [State.advance, isOwner] at happens
  simp only at happens
  split at happens
  · cases happens
    exact measure_moveTo isOwner (by simp [Owner.weight]) _
  · obtain ⟨⟨popped, next⟩, pops, moves⟩ :=
      Option.bind_eq_some_iff.mp happens
    cases moves
    obtain ⟨rest, shape, rfl, rfl⟩ := State.pop_eq_some pops
    exact measure_pop isOwner (invariant.bounded_of_cons shape).2 shape
      (by simp [Owner.weight]) _

theorem measure_run
    {next : Option Item}
    (isOwner : state.owner = some (.run qos dc next)) :
    after.measure < state.measure := by
  rw [State.advance, isOwner] at happens
  cases happens
  exact measure_moveTo isOwner (by simp [Owner.weight]) _

theorem measure_decide
    {next : Option Item}
    (isOwner : state.owner = some (.decide qos next)) :
    after.measure < state.measure := by
  rw [State.advance, isOwner] at happens
  simp only at happens
  split at happens
  · cases happens
    exact measure_moveTo isOwner (by simp [Owner.weight, qosMax]) _
  · rename_i dc
    split at happens
    · cases happens
      exact measure_moveTo isOwner (by simp [Owner.weight]) _
    · cases happens
      exact measure_moveTo isOwner (by simp [Owner.weight, qosMax]) _

theorem measure_unlock
    (isOwner : state.owner = some .unlock) :
    after.measure < state.measure := by
  rw [State.advance, isOwner] at happens
  simp only at happens
  split at happens
  · cases happens
    exact measure_moveTo isOwner (by decide) _
  · cases happens
    simp only [State.measure, State.pushing, State.size, State.moving,
      isOwner, Option.elim_some, Option.elim_none, Owner.weight]
    omega

theorem measure_hand
    (invariant : Invariant state)
    {owned : Bool}
    (isOwner : state.owner = some (.hand qos dc owned)) :
    after.measure < state.measure := by
  rw [State.advance, isOwner] at happens
  obtain ⟨⟨popped, next⟩, pops, moves⟩ := Option.bind_eq_some_iff.mp happens
  cases moves
  obtain ⟨rest, shape, rfl, rfl⟩ := State.pop_eq_some pops
  exact measure_pop isOwner (invariant.bounded_of_cons shape).2 shape
    (by simp [Owner.weight]) _

theorem measure_transfer
    {owned : Bool}
    (isOwner : state.owner = some (.transfer qos dc owned)) :
    after.measure < state.measure := by
  rw [State.advance, isOwner] at happens
  cases happens
  simp only [State.measure, State.pushing, State.size, State.moving, isOwner,
    State.serve, Option.elim_some, Owner.weight, Bool.toNat_false]
  omega

theorem measure_waiter
    {dc : Option Item}
    (isOwner : state.owner = some (.waiter dc)) :
    after.measure < state.measure := by
  rw [State.advance, isOwner] at happens
  simp only at happens
  split at happens
  · cases happens
    exact measure_moveTo isOwner (by simp [Owner.weight, qosMax]) _
  · cases happens

variable {merged : Nat} {target : Bool}

theorem measure_complete
    (isOwner : state.owner = some (.complete qos target merged)) :
    after.measure < state.measure := by
  cases qos with
  | zero =>
    rw [State.advance, isOwner] at happens
    cases happens
    have releases : (Owner.release target merged).weight <
        (Owner.complete 0 target merged).weight := by
      simp [Owner.weight]
    exact measure_moveTo isOwner releases _
  | succ qos =>
    rw [State.advance, isOwner] at happens
    cases happens
    have down : (Owner.complete qos target merged).weight <
        (Owner.complete (qos + 1) target merged).weight := by
      simp [Owner.weight]
    have found : (Owner.completeHead (qos + 1) target merged).weight <
        (Owner.complete (qos + 1) target merged).weight := by
      simp [Owner.weight]
    split
    · exact measure_moveTo isOwner down _
    · exact measure_moveTo isOwner found _

theorem measure_release
    (isOwner : state.owner = some (.release target merged)) :
    after.measure < state.measure := by
  rw [State.advance, isOwner] at happens
  cases target with
  | true =>
    cases happens
    have atMostOne := Bool.toNat_le (!state.word.enqueued)
    simp only [State.measure, State.pushing, State.size, State.moving, isOwner,
      Word.mergeQos, Option.elim_some, Option.elim_none, Owner.weight]
    omega
  | false =>
    simp only [Bool.false_eq_true, if_false] at happens
    split at happens
    · cases happens
      exact measure_moveTo isOwner (by simp [Owner.weight]) _
    · cases happens
      simp only [State.measure, State.pushing, State.size, State.moving,
        isOwner, Word.mergeQos, Option.elim_some, Option.elim_none,
        Owner.weight]
      omega

variable (invariant : Invariant state)

include invariant

theorem measure_completeHead
    (isOwner : state.owner = some (.completeHead qos target merged)) :
    after.measure < state.measure := by
  rw [State.advance, isOwner] at happens
  simp only at happens
  split at happens
  · cases happens
  · rename_i first rest shape
    have positive := (invariant.bounded_of_cons shape).1
    have hands : (Owner.hand qos first false).weight <
        (Owner.completeHead qos target merged).weight := by
      simp only [Owner.weight]
      omega
    have passes : (Owner.complete (qos - 1) true merged).weight <
        (Owner.completeHead qos target merged).weight := by
      simp only [Owner.weight]
      omega
    split at happens
    · split at happens
      · cases happens
        exact measure_moveTo isOwner hands _
      · cases happens
        exact measure_moveTo isOwner passes _
    · cases happens

theorem measure_clearComplete
    (isOwner : state.owner = some (.clearComplete merged)) :
    after.measure < state.measure := by
  have watched := invariant.watched
  rw [isOwner] at watched
  change state.word.dirty = true at watched
  rw [State.advance, isOwner] at happens
  cases happens
  simp only [State.measure, State.pushing, State.size, State.moving, isOwner,
    Option.elim_some, Owner.weight, watched, Bool.not_true, Bool.toNat_false,
    Bool.toNat_true, qosMax]
  omega

/-- Every step of the owner decreases the measure. -/
theorem measure_advance :
    after.measure < state.measure := by
  cases isOwner : state.owner with
  | none =>
    rw [State.advance, isOwner] at happens
    cases happens
  | some owner =>
    cases owner with
    | scan => exact measure_scan happens isOwner
    | lower => exact measure_lower happens isOwner
    | clear => exact invariant.measure_clear happens isOwner
    | head => exact measure_head happens isOwner
    | item => exact invariant.measure_item happens isOwner
    | run => exact measure_run happens isOwner
    | decide => exact measure_decide happens isOwner
    | unlock => exact measure_unlock happens isOwner
    | hand => exact invariant.measure_hand happens isOwner
    | transfer => exact measure_transfer happens isOwner
    | waiter => exact measure_waiter happens isOwner
    | complete => exact measure_complete happens isOwner
    | completeHead => exact invariant.measure_completeHead happens isOwner
    | release => exact measure_release happens isOwner
    | clearComplete => exact invariant.measure_clearComplete happens isOwner

end Advance

variable (invariant : Invariant state)

include invariant

/-- Every step of work that is under way decreases the measure. -/
theorem measure_internal
    (step : InternalStep state after) :
    after.measure < state.measure := by
  obtain ⟨event, isInternal, happens⟩ := step
  cases event with
  | exchange | acquireSync => cases isInternal
  | link => exact measure_link happens
  | merge => exact measure_merge happens
  | enqueue => exact measure_enqueue happens
  | arrive => exact measure_arrive happens
  | tryLock => exact measure_tryLock happens
  | advance => exact invariant.measure_advance happens

theorem internal
    (step : InternalStep state after) :
    Invariant after := by
  obtain ⟨event, -, happens⟩ := step
  exact invariant.next happens

/-- Work that is under way comes to an end. -/
theorem acc_internal :
    Acc (fun after before => InternalStep before after) state := by
  induction size : state.measure using Nat.strong_induction_on
    generalizing state with
  | _ bound inductionHypothesis =>
    constructor
    intro after step
    have less := invariant.measure_internal step
    exact inductionHypothesis _ (size ▸ less) (invariant.internal step) rfl

/-! ## Where the work ends -/

omit invariant in
/-- An item at the head of its list can be popped once all are linked. -/
theorem pop_isSome
    (noPushes : state.pushes = [])
    (isFirst : (state.lists qos).head? = some dc) :
    ∃ popped next, state.pop qos dc = some (popped, next) := by
  obtain ⟨rest, shape⟩ := List.head?_eq_some_iff.mp isFirst
  have linked : rest.head?.all state.isLinked = true := by
    cases rest.head? <;> simp [State.isLinked, noPushes]
  rw [State.pop, shape]
  exact ⟨_, _, if_pos ⟨rfl, linked⟩⟩

/-- The owner can go on once all pushes have ended. -/
theorem advance_isSome
    (noPushes : state.pushes = [])
    {owner : Owner}
    (isOwner : state.owner = some owner) :
    ∃ after, state.advance = some after := by
  have watched := invariant.watched
  rw [isOwner] at watched
  have linked : ∀ item, state.isLinked item = true := by
    intro item
    simp [State.isLinked, noPushes]
  rw [State.advance, isOwner]
  cases owner with
  | scan qos => cases qos <;> exact ⟨_, rfl⟩
  | lower _ | release _ _ =>
    simp only
    split
    · exact ⟨_, rfl⟩
    · split <;> exact ⟨_, rfl⟩
  | clear | run _ _ _ | transfer _ _ _ | clearComplete _ =>
    exact ⟨_, rfl⟩
  | head qos =>
    obtain ⟨first, rest, shape⟩ := List.exists_cons_of_ne_nil watched.1
    simp only [shape, linked, if_true]
    exact ⟨_, rfl⟩
  | item qos dc =>
    simp only
    split
    · exact ⟨_, rfl⟩
    · obtain ⟨popped, next, pops⟩ := pop_isSome noPushes watched.1
      rw [pops]
      exact ⟨_, rfl⟩
  | decide qos next =>
    cases next with
    | none => exact ⟨_, rfl⟩
    | some dc =>
      simp only
      split <;> exact ⟨_, rfl⟩
  | unlock =>
    simp only
    split <;> exact ⟨_, rfl⟩
  | hand qos dc owned =>
    obtain ⟨popped, next, pops⟩ := pop_isSome noPushes watched
    simp only [pops]
    exact ⟨_, rfl⟩
  | waiter dc =>
    have pushed : dc.all state.isPushed = true := by
      cases dc <;> simp [State.isPushed, noPushes]
    simp only [pushed, if_true]
    exact ⟨_, rfl⟩
  | complete qos target merged =>
    cases qos <;> exact ⟨_, rfl⟩
  | completeHead qos target merged =>
    obtain ⟨first, rest, shape⟩ := List.exists_cons_of_ne_nil watched.1
    simp only [shape, linked, if_true]
    split <;> exact ⟨_, rfl⟩

/-- Where nothing can go on, no thread is at work and all lists are empty. -/
theorem lists_of_ended
    (ended : ¬ ∃ after, InternalStep state after) :
    state.owner = none ∧ ∀ qos, state.lists qos = [] := by
  have noPushes : state.pushes = [] := by
    by_contra some
    obtain ⟨push, member⟩ := List.exists_mem_of_ne_nil _ some
    cases linked : push.linked with
    | false => exact ended ⟨_, .link push, rfl, if_pos ⟨member, linked⟩⟩
    | true => exact ended ⟨_, .merge push, rfl, if_pos ⟨member, linked⟩⟩
  have noOwner : state.owner = none := by
    cases isOwner : state.owner with
    | none => rfl
    | some owner =>
      obtain ⟨after, happens⟩ :=
        invariant.advance_isSome noPushes isOwner
      exact absurd ⟨after, .advance, rfl, happens⟩ ended
  have noEnqueuers : state.enqueuers = 0 := by
    by_contra some
    exact ended ⟨_, .enqueue, rfl, if_neg some⟩
  have notOnTarget : state.onTarget = 0 := by
    by_contra some
    exact ended ⟨_, .arrive, rfl, if_neg some⟩
  have noneArriving : state.arriving = 0 := by
    by_contra some
    have locks : ∃ after, state.tryLock = Option.some after := by
      rw [State.tryLock, if_neg some, noOwner]
      exact ⟨_, rfl⟩
    obtain ⟨after, happens⟩ := locks
    exact ended ⟨after, .tryLock, rfl, happens⟩
  have accounted := invariant.accounted
  have watched := invariant.watched
  rw [noOwner] at accounted watched
  refine ⟨noOwner, fun qos => ?_⟩
  by_contra nonempty
  have lit := State.lit_of_noPushes noPushes nonempty
  rw [watched qos lit, noEnqueuers, notOnTarget, noneArriving] at accounted
  cases accounted

end Invariant

end LibDispatch.Workloop
