import LibDispatch.WorkloopProgress

namespace LibDispatch.Workloop

/-!
# Conservation, wake-up and priority order of a workloop

In every reachable state no item is lost or served twice, and an unlocked
workloop with items is on its way to an invocation.  An invocation always goes
on with the list of the greatest QoS that was ready.  The completion of a
barrier does not: it passes the lists that begin with an ordinary item and hands
the lock to a waiter further down.
-/

/-- No push, wake-up, invocation or completion is under way. -/
def State.Quiescent (state : State) : Prop :=
  state.pushes = [] ∧ state.owner = none ∧ state.enqueuers = 0 ∧
    state.arriving = 0

/-- What a workloop guarantees for the items that are pushed. -/
structure Conserves (state : State) : Prop where
  pushedOnce : (state.exchanges.map (·.2.id)).Nodup
  servedInOrder :
    ∀ qos, itemsOf qos state.exchanges =
      itemsOf qos state.served ++
        (state.owner.elim [] (·.inTransfer qos) ++ state.lists qos)
  woken :
    state.Quiescent → ∀ qos, state.lists qos ≠ [] →
      state.word.enqueued = true ∧ state.onTarget = 1
  ends : Acc (fun after before => InternalStep before after) state
  servedAtTheEnd :
    (¬ ∃ following, InternalStep state following) →
      ∀ qos, itemsOf qos state.exchanges = itemsOf qos state.served

/-- Items are served once and in the order of their tail exchanges.  A quiescent
workloop with items is enqueued on its target once.  Without new pushes all work
comes to an end, and then every item has been served. -/
theorem reachable_conserves
    {state : State}
    (reached : Reachable (· = State.initial) Step state) :
    Conserves state := by
  have invariant := Invariant.of_reachable reached
  refine {
    pushedOnce := invariant.distinct
    servedInOrder := invariant.conserved
    woken := ?_
    ends := invariant.acc_internal
    servedAtTheEnd := ?_ }
  · rintro ⟨noPushes, noOwner, noEnqueuers, noneArriving⟩ qos nonempty
    have watched := invariant.watched
    have accounted := invariant.accounted
    rw [noOwner] at watched accounted
    have enqueued := watched qos (State.lit_of_noPushes noPushes nonempty)
    rw [enqueued, noEnqueuers, noneArriving] at accounted
    simp only [Bool.toNat_true, Option.elim_none, Bool.toNat_false] at accounted
    exact ⟨enqueued, by omega⟩
  · intro ended qos
    obtain ⟨noOwner, empty⟩ := invariant.lists_of_ended ended
    have conserved := invariant.conserved qos
    rw [noOwner, empty qos] at conserved
    simpa using conserved

/-- Two items of one list, the second pushed while the first is on its way, and
an invocation that serves both. -/
def twoPushes : List Event :=
  [.exchange ⟨1, .ordinary⟩ 4, .link ⟨⟨1, .ordinary⟩, 4, true, false⟩,
    .merge ⟨⟨1, .ordinary⟩, 4, true, true⟩, .exchange ⟨2, .ordinary⟩ 4,
    .enqueue, .link ⟨⟨2, .ordinary⟩, 4, false, false⟩, .arrive,
    .tryLock] ++ List.replicate 19 .advance

/-- Both are served in their order. -/
theorem twoPushes_conserves :
    ∃ state,
      afterEvents State.next .initial twoPushes = some state ∧
      state.Quiescent ∧
      state.served = [(4, ⟨1, .ordinary⟩), (4, ⟨2, .ordinary⟩)] ∧
      Conserves state := by
  obtain ⟨state, runs, quiescent, served⟩ : ∃ state,
      afterEvents State.next .initial twoPushes = some state ∧
      state.Quiescent ∧
      state.served = [(4, ⟨1, .ordinary⟩), (4, ⟨2, .ordinary⟩)] :=
    ⟨_, rfl, ⟨rfl, rfl, rfl, rfl⟩, rfl⟩
  have reached : Reachable (· = State.initial) Step state :=
    .afterEvents (fun happens => ⟨_, happens⟩) (.start rfl) runs
  exact ⟨state, runs, quiescent, served, reachable_conserves reached⟩

/-! ## Priority order -/

/-- The list from which the next step of the owner selects an item to execute or
a waiter to hand the lock to. -/
def State.selects (state : State) : Option Nat :=
  match state.owner with
  | some (.head qos) => some qos
  | some (.decide qos (some _)) =>
    if state.word.maxQos ≤ qos then some qos else none
  | some (.completeHead qos _ _) =>
    if (state.lists qos).head?.any Item.isWaiter then some qos else none
  | _ => none

/-- No list that begins with a waiter is below one that begins with an ordinary
item. -/
def State.WaitersFirst (state : State) : Prop :=
  ∀ lower higher, lower < higher →
    ∀ waiter ∈ (state.lists lower).head?, waiter.isWaiter = true →
      ∀ first ∈ (state.lists higher).head?, first.isWaiter = true

/-- No waiter has been pushed with a lower QoS than an ordinary item. -/
def State.WaitersPushedAbove (state : State) : Prop :=
  ∀ waiter ∈ state.exchanges, ∀ other ∈ state.exchanges,
    waiter.2.isWaiter = true → other.2.isWaiter = false → other.1 ≤ waiter.1

theorem State.WaitersPushedAbove.waitersFirst
    {state : State}
    (above : state.WaitersPushedAbove)
    (invariant : Invariant state) :
    state.WaitersFirst := by
  intro lower higher isLower waiter isHead isWaiter first isFirst
  by_contra ordinary
  have waiterPushed := invariant.exchanged (List.mem_of_mem_head? isHead)
  have firstPushed := invariant.exchanged (List.mem_of_mem_head? isFirst)
  have notBelow := above _ waiterPushed _ firstPushed isWaiter
    (Bool.eq_false_of_not_eq_true ordinary)
  exact absurd isLower (Nat.not_lt.mpr notBelow)

/-- An invocation selects an item while no list of a higher QoS was ready when
the last item finished.  The completion of a barrier does if the waiters come
first in the order of the lists, which they do if they are pushed so. -/
theorem reachable_selectsHighest
    {state : State}
    (reached : Reachable (· = State.initial) Step state) :
    (∀ qos, state.selects = some qos →
      ((∃ target merged, state.owner = some (.completeHead qos target merged)) →
        state.WaitersFirst) →
      ∀ higher, qos < higher → state.ready higher = false) ∧
    (state.WaitersPushedAbove → state.WaitersFirst) := by
  have invariant := Invariant.of_reachable reached
  refine ⟨fun qos selects ordered higher above => ?_,
    fun pushed => pushed.waitersFirst invariant⟩
  have watched := invariant.watched
  have placed := invariant.placed
  by_contra ready
  have isReady := Bool.eq_true_of_not_eq_false ready
  rw [State.selects] at selects
  split at selects
  · rename_i isOwner
    cases selects
    rw [isOwner] at placed
    have below := placed higher isReady
    omega
  · rename_i isOwner
    split at selects
    · rename_i low
      cases selects
      rw [isOwner] at watched
      have raised := watched.2 higher above (invariant.lit_of_ready isReady)
      omega
    · cases selects
  · rename_i target merged isOwner
    split at selects
    · rename_i isWaiter
      cases selects
      rw [isOwner] at placed
      rcases placed higher isReady with below | ⟨first, isFirst, ordinary⟩
      · omega
      · obtain ⟨waiter, isHead, waits⟩ := (Option.any_eq_true _ _).mp isWaiter
        rw [ordered ⟨target, merged, isOwner⟩ qos higher above waiter isHead
          waits first isFirst] at ordinary
        cases ordinary
    · cases selects
  · cases selects

/-- The push of an item to an empty list. -/
def pushFirst (item : Item) (qos : Nat) : List Event :=
  [.exchange item qos, .link ⟨item, qos, true, false⟩,
    .merge ⟨item, qos, true, true⟩]

/-- A synchronous call, during which an ordinary item and then a waiter are
pushed to two lists, and the first steps of its completion. -/
def syncThenPushes (itemQos waiterQos steps : Nat) : List Event :=
  .acquireSync :: pushFirst ⟨1, .ordinary⟩ itemQos ++
    pushFirst ⟨2, .asyncAndWait⟩ waiterQos ++ List.replicate steps .advance

/-- While a synchronous call runs, an ordinary item and a waiter of a higher QoS
are pushed.  The completion of the call selects the waiter. -/
theorem highWaiter_selectsHighest :
    ∃ state,
      afterEvents State.next .initial (syncThenPushes 2 4 4) = some state ∧
      state.selects = some 4 ∧ state.ready 2 = true ∧ state.ready 4 = true ∧
      ∀ higher, 4 < higher → state.ready higher = false := by
  obtain ⟨state, runs, selects, ready, alsoReady, exchanges⟩ : ∃ state,
      afterEvents State.next .initial (syncThenPushes 2 4 4) = some state ∧
      state.selects = some 4 ∧ state.ready 2 = true ∧ state.ready 4 = true ∧
      state.exchanges = [(2, ⟨1, .ordinary⟩), (4, ⟨2, .asyncAndWait⟩)] :=
    ⟨_, rfl, rfl, rfl, rfl, rfl⟩
  have reached : Reachable (· = State.initial) Step state :=
    .afterEvents (fun happens => ⟨_, happens⟩) (.start rfl) runs
  obtain ⟨highest, ordered⟩ := reachable_selectsHighest reached
  refine ⟨state, runs, selects, ready, alsoReady,
    highest 4 selects fun _ => ordered ?_⟩
  rw [State.WaitersPushedAbove, exchanges]
  decide

/-- While a synchronous call runs, an ordinary item of the greatest QoS is
pushed, and then a waiter of a low one.  When the call has ended, its completion
hands the lock to the waiter. -/
theorem lowWaiter_passesReadyItem :
    ∃ state,
      afterEvents State.next .initial (syncThenPushes 6 2 7) = some state ∧
      state.selects = some 2 ∧ state.ready 6 = true ∧
      state.advance.bind (·.owner) =
        some (.hand 2 ⟨2, .asyncAndWait⟩ false) :=
  ⟨_, rfl, rfl, rfl, rfl⟩

end LibDispatch.Workloop
