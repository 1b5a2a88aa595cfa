import LibDispatch.WorkloopInvariant

namespace LibDispatch.Workloop

/-!
# Pushes onto a workloop

Pushes go on beside the owner.  They only append to the lists, and one that
gives a list its signal sets the dirty bit and raises the greatest QoS, so that
what the owner knows of the lists remains true.
-/

/-- What the steps of other threads leave to the owner. -/
structure Grows (before after : State) : Prop where
  ready : after.ready = before.ready
  lists : ∀ qos, ∃ more, after.lists qos = before.lists qos ++ more
  lit :
    ∀ qos, after.Lit qos →
      before.Lit qos ∨
        after.word.dirty = true ∧ qos ≤ after.word.maxQos
  dirty : before.word.dirty = true → after.word.dirty = true
  maxQos : before.word.maxQos ≤ after.word.maxQos
  ended :
    ∀ qos first, first ∈ before.lists qos →
      (∀ push ∈ before.pushes, push.item ≠ first) →
        ∀ push ∈ after.pushes, push.item ≠ first

variable {qos : Nat}

namespace Grows

variable {before after : State}

variable (grows : Grows before after)

include grows

/-- The first item of a list stays the first. -/
theorem head
    {first : Item}
    (isFirst : (before.lists qos).head? = some first) :
    (after.lists qos).head? = some first := by
  obtain ⟨more, appended⟩ := grows.lists qos
  rw [appended, List.head?_append, isFirst]
  rfl

theorem ne_nil
    (nonempty : before.lists qos ≠ []) :
    after.lists qos ≠ [] := by
  obtain ⟨more, appended⟩ := grows.lists qos
  rw [appended]
  exact List.append_ne_nil_of_left_ne_nil nonempty _

/-- A bound on the lit lists stays one. -/
theorem above
    {from_ : Nat}
    (known : ∀ qos, from_ < qos → before.Lit qos → qos ≤ before.word.maxQos) :
    ∀ qos, from_ < qos → after.Lit qos → qos ≤ after.word.maxQos := by
  intro qos isAbove lit
  rcases grows.lit qos lit with wasLit | ⟨-, bound⟩
  · exact (known qos isAbove wasLit).trans grows.maxQos
  · exact bound

/-- What the owner knows remains true. -/
theorem watch
    {owner : Owner}
    (watched : before.Watch (some owner)) :
    after.Watch (some owner) := by
  cases owner with
  | scan from_ =>
    intro qos lit
    rcases grows.lit qos lit with wasLit | signalled
    · rcases watched qos wasLit with below | ⟨dirty, bound⟩
      · exact .inl below
      · exact .inr ⟨grows.dirty dirty, bound.trans grows.maxQos⟩
    · exact .inr signalled
  | lower from_ =>
    refine ⟨grows.ne_nil watched.1, fun qos isAbove lit => ?_⟩
    rcases grows.lit qos lit with wasLit | signalled
    · obtain ⟨dirty, bound⟩ := watched.2 qos isAbove wasLit
      exact ⟨grows.dirty dirty, bound.trans grows.maxQos⟩
    · exact signalled
  | clear | clearComplete _ => exact grows.dirty watched
  | head from_ => exact ⟨grows.ne_nil watched.1, grows.above watched.2⟩
  | item from_ dc => exact ⟨grows.head watched.1, grows.above watched.2⟩
  | run _ _ _ | decide _ _ =>
    exact ⟨fun dc isNext => grows.head (watched.1 dc isNext),
      grows.above watched.2⟩
  | unlock =>
    intro qos lit
    rcases grows.lit qos lit with wasLit | signalled
    · exact grows.dirty (watched qos wasLit)
    · exact signalled.1
  | hand from_ dc owned => exact grows.head watched
  | transfer | waiter => trivial
  | complete from_ target merged =>
    intro qos lit
    rcases grows.lit qos lit with wasLit | signalled
    · exact (watched qos wasLit).imp_right (.imp_right grows.dirty)
    · exact .inr (.inr signalled.1)
  | completeHead from_ target merged =>
    refine ⟨grows.ne_nil watched.1, fun qos lit => ?_⟩
    rcases grows.lit qos lit with wasLit | signalled
    · exact (watched.2 qos wasLit).imp_right (.imp_right grows.dirty)
    · exact .inr (.inr signalled.1)
  | release target merged =>
    intro qos lit
    rcases grows.lit qos lit with wasLit | signalled
    · exact (watched qos wasLit).imp_right grows.dirty
    · exact .inr signalled.1

theorem steady
    (invariant : Invariant before) :
    ∀ qos, after.ready qos = true →
      ∃ first rest, after.lists qos = first :: rest ∧
        ∀ push ∈ after.pushes, push.item ≠ first := by
  intro qos ready
  rw [grows.ready] at ready
  obtain ⟨first, rest, shape, ended⟩ := invariant.steady qos ready
  obtain ⟨more, appended⟩ := grows.lists qos
  refine ⟨first, rest ++ more, ?_, grows.ended qos first ?_ ended⟩
  · rw [appended, shape]
    rfl
  · rw [shape]
    exact List.mem_cons_self ..

/-- The passed lists still begin with the same item. -/
theorem passed
    {from_ : Nat}
    (placed : ∀ qos, before.ready qos = true →
      qos ≤ from_ ∨ ∃ first, (before.lists qos).head? = some first ∧
        first.isWaiter = false) :
    ∀ qos, after.ready qos = true →
      qos ≤ from_ ∨ ∃ first, (after.lists qos).head? = some first ∧
        first.isWaiter = false := by
  intro qos ready
  rw [grows.ready] at ready
  rcases placed qos ready with below | ⟨first, isFirst, ordinary⟩
  · exact .inl below
  · exact .inr ⟨first, grows.head isFirst, ordinary⟩

theorem place
    {owner : Option Owner}
    (placed : before.Place owner) :
    after.Place owner := by
  have ready := grows.ready
  cases owner with
  | none => trivial
  | some owner =>
    cases owner with
    | scan | lower | head =>
      exact fun qos isReady => placed qos (ready ▸ isReady)
    | item | run | hand | transfer | waiter =>
      exact fun qos => ready ▸ placed qos
    | complete | completeHead => exact grows.passed placed
    | clear | decide | unlock | release | clearComplete => trivial

end Grows

/-! ## Pushing -/

namespace Invariant

variable {state after : State}

/-- A new item is in no list yet. -/
theorem fresh
    (invariant : Invariant state)
    {item : Item}
    (isNew : item.id ∉ state.exchanges.map (·.2.id))
    {other : Item}
    (member : other ∈ state.lists qos) :
    item ≠ other := by
  rintro rfl
  exact isNew (List.mem_map_of_mem (invariant.exchanged member))

theorem exchange
    (invariant : Invariant state)
    {item : Item}
    (happens : state.exchange item qos = some after) :
    Invariant after := by
  rw [State.exchange] at happens
  split at happens
  · cases happens
  · rename_i allowed
    obtain ⟨isNew, positive, bounded⟩ : item.id ∉ state.exchanges.map (·.2.id) ∧
        0 < qos ∧ qos ≤ qosMax := by
      simp only [not_or] at allowed
      exact ⟨allowed.1, by omega, by omega⟩
    have exchanged := Option.some.inj happens
    have unlit : ∀ other, after.Lit other → state.Lit other := by
      subst exchanged
      rintro other ⟨first, rest, shape, signalled⟩
      have signalledBefore := fun push member =>
        signalled push (List.mem_cons_of_mem _ member)
      by_cases same : other = qos
      · subst same
        simp only [Function.update_self] at shape
        cases before : state.lists other with
        | nil =>
          -- the new item is the first and owes the signal
          rw [before] at shape
          obtain ⟨rfl, -⟩ := List.cons.inj shape
          have owes := signalled _ (List.mem_cons_self ..) rfl
          rw [before] at owes
          cases owes
        | cons earlier others =>
          rw [before] at shape
          obtain ⟨rfl, -⟩ := List.cons.inj shape
          exact ⟨earlier, others, before, signalledBefore⟩
      · simp only [Function.update_of_ne same] at shape
        exact ⟨first, rest, shape, signalledBefore⟩
    have grows : Grows state after := by
      subst exchanged
      exact {
        ready := rfl
        lists := by
          intro other
          by_cases same : other = qos
          · subst same
            exact ⟨[item], by simp only [Function.update_self]⟩
          · exact ⟨[], by simp only [Function.update_of_ne same, List.append_nil]⟩
        lit := fun other lit => .inl (unlit other lit)
        dirty := id
        maxQos := le_rfl
        ended := by
          intro other first member ended push isPush
          rcases List.mem_cons.mp isPush with rfl | earlier
          · exact invariant.fresh isNew member
          · exact ended push earlier }
    subst exchanged
    refine {
      ranged := ?_
      conserved := ?_
      distinct := ?_
      begun := ?_
      accounted := invariant.accounted
      watched := ?_
      steady := grows.steady invariant
      placed := grows.place invariant.placed }
    · intro entry member
      rcases List.mem_append.mp member with earlier | new
      · exact invariant.ranged entry earlier
      · rw [List.mem_singleton.mp new]
        exact ⟨positive, bounded⟩
    · intro other
      have conserved := invariant.conserved other
      simp only [itemsOf_append, itemsOf_singleton, conserved]
      by_cases same : other = qos
      · subst same
        simp
      · rw [Function.update_of_ne same, if_neg (Ne.symm same), List.append_nil]
    · rw [List.map_append]
      refine invariant.distinct.append (List.nodup_singleton _) ?_
      intro id earlier new
      obtain rfl := List.mem_singleton.mp new
      exact isNew earlier
    · intro push member
      rcases List.mem_cons.mp member with rfl | earlier
      · exact List.mem_append_right _ (List.mem_singleton_self _)
      · exact List.mem_append_left _ (invariant.begun push earlier)
    · cases isOwner : state.owner with
      | none =>
        have watched := invariant.watched
        rw [isOwner] at watched
        exact fun other lit => watched other (unlit other lit)
      | some owner =>
        have watched := invariant.watched
        rw [isOwner] at watched
        exact grows.watch watched

/-- A push goes on after its tail exchange. -/
theorem grown
    (invariant : Invariant state)
    (grows : Grows state after)
    (sameLists : after.lists = state.lists)
    (sameOwner : after.owner = state.owner)
    (sameExchanges : after.exchanges = state.exchanges)
    (sameServed : after.served = state.served)
    (begun : ∀ push ∈ after.pushes,
      (push.qos, push.item) ∈ state.exchanges)
    (accounted : after.word.enqueued.toNat =
      after.enqueuers + after.onTarget + after.arriving +
        (state.owner.elim false (·.owns)).toNat)
    (unlocked : state.owner = none →
      ∀ qos, after.Lit qos → after.word.enqueued = true) :
    Invariant after where
  ranged := by
    rw [sameExchanges]
    exact invariant.ranged
  conserved := by
    rw [sameExchanges, sameServed, sameOwner, sameLists]
    exact invariant.conserved
  distinct := by
    rw [sameExchanges]
    exact invariant.distinct
  begun := by
    rw [sameExchanges]
    exact begun
  accounted := by
    rw [sameOwner]
    exact accounted
  watched := by
    rw [sameOwner]
    cases isOwner : state.owner with
    | none => exact unlocked isOwner
    | some owner =>
      have watched := invariant.watched
      rw [isOwner] at watched
      exact grows.watch watched
  steady := grows.steady invariant
  placed := by
    rw [sameOwner]
    exact grows.place invariant.placed

variable {push : Push}

section

variable (invariant : Invariant state)

include invariant

/-- The push that a linked one replaces owes the same signal. -/
theorem link
    (happens : state.link push = some after) :
    Invariant after := by
  rw [State.link] at happens
  split at happens
  · rename_i isPush
    obtain ⟨member, -⟩ := isPush
    have linked := Option.some.inj happens
    -- the pushes that remain are of the same items
    have items : ∀ other ∈ after.pushes,
        ∃ earlier ∈ state.pushes,
          earlier.item = other.item ∧ earlier.qos = other.qos := by
      subst linked
      intro other isOther
      simp only at isOther
      split at isOther
      · rcases List.mem_cons.mp isOther with rfl | remains
        · exact ⟨push, member, rfl, rfl⟩
        · exact ⟨other, List.mem_of_mem_erase remains, rfl, rfl⟩
      · exact ⟨other, List.mem_of_mem_erase isOther, rfl, rfl⟩
    have unlit : ∀ qos, after.Lit qos → state.Lit qos := by
      subst linked
      rintro qos ⟨first, rest, shape, signalled⟩
      refine ⟨first, rest, shape, fun other isOther same => ?_⟩
      by_cases isSame : other = push
      · subst isSame
        cases wasEmpty : other.wasEmpty with
        | false => rfl
        | true =>
          simp only [wasEmpty, if_true] at signalled
          have owes := signalled _ (List.mem_cons_self ..) same
          cases owes
      · apply signalled other ?_ same
        have remains := (List.mem_erase_of_ne isSame).mpr isOther
        change other ∈ (if push.wasEmpty then _ else _)
        split
        · exact List.mem_cons_of_mem _ remains
        · exact remains
    subst linked
    refine invariant.grown {
        ready := rfl
        lists := fun qos => ⟨[], (List.append_nil _).symm⟩
        lit := fun qos lit => .inl (unlit qos lit)
        dirty := id
        maxQos := le_rfl
        ended := ?_ } rfl rfl rfl rfl ?_ invariant.accounted ?_
    · intro qos first _ ended other isOther same
      obtain ⟨earlier, isEarlier, sameItem, -⟩ := items other isOther
      exact ended earlier isEarlier (sameItem.trans same)
    · intro other isOther
      obtain ⟨earlier, isEarlier, sameItem, sameQos⟩ := items other isOther
      rw [← sameItem, ← sameQos]
      exact invariant.begun earlier isEarlier
    · intro isOwner qos lit
      have watched := invariant.watched
      rw [isOwner] at watched
      exact watched qos (unlit qos lit)
  · cases happens

section

variable (member : push ∈ state.pushes)

include member

/-- When a push ends, the only list that it may light is its own. -/
theorem lit_of_erase
    (lit : State.Lit { state with pushes := state.pushes.erase push } qos) :
    state.Lit qos ∨ qos = push.qos := by
  obtain ⟨first, rest, shape, signalled⟩ := lit
  by_cases isFirst : push.item = first
  · right
    have inList : first ∈ state.lists qos := by
      change state.lists qos = first :: rest at shape
      rw [shape]
      exact List.mem_cons_self ..
    have begun := invariant.begun push member
    rw [isFirst] at begun
    exact invariant.qos_eq (invariant.exchanged inList) begun
  · left
    refine ⟨first, rest, shape, fun other isOther same => ?_⟩
    apply signalled other ?_ same
    refine (List.mem_erase_of_ne ?_).mpr isOther
    rintro rfl
    exact isFirst same

/-- The list of the push has its signal in the state word. -/
theorem grows_of_erase
    {word : Word}
    {enqueuers : Nat}
    (dirty : word.dirty = true)
    (merged : word.maxQos = max state.word.maxQos push.qos) :
    Grows state { state with
      word := word
      pushes := state.pushes.erase push
      enqueuers := enqueuers } where
  ready := rfl
  lists qos := ⟨[], (List.append_nil _).symm⟩
  lit qos lit := by
    rcases invariant.lit_of_erase member lit with wasLit | own
    · exact .inl wasLit
    · right
      change word.dirty = true ∧ qos ≤ word.maxQos
      rw [dirty, merged, own]
      exact ⟨rfl, le_max_right ..⟩
  dirty _ := dirty
  maxQos := by
    change state.word.maxQos ≤ word.maxQos
    rw [merged]
    exact le_max_left ..
  ended qos first _ ended other isOther :=
    ended other (List.mem_of_mem_erase isOther)

theorem wakeup :
    Invariant (State.wakeup { state with pushes := state.pushes.erase push }
      push.qos) := by
  have positive := (invariant.ranged _ (invariant.begun push member)).1
  have some : decide ((state.word.mergeQos push.qos).maxQos ≠ 0) = true := by
    apply decide_eq_true
    change max state.word.maxQos push.qos ≠ 0
    omega
  have wakes :
      State.wakeup { state with pushes := state.pushes.erase push } push.qos =
        { state with
          word := ⟨max state.word.maxQos push.qos, true, true⟩
          pushes := state.pushes.erase push
          enqueuers := state.enqueuers + (!state.word.enqueued).toNat } := by
    simp only [State.wakeup, some, Bool.or_true, Bool.and_true]
    rfl
  have accounted := invariant.accounted
  rw [wakes]
  refine invariant.grown (invariant.grows_of_erase member rfl rfl)
    rfl rfl rfl rfl ?_ ?_ (fun _ _ _ => rfl)
  · intro other isOther
    exact invariant.begun other (List.mem_of_mem_erase isOther)
  · cases enqueued : state.word.enqueued with
    | true =>
      rw [enqueued, Bool.toNat_true] at accounted
      simp only [Bool.toNat_true, Bool.not_true, Bool.toNat_false]
      omega
    | false =>
      rw [enqueued, Bool.toNat_false] at accounted
      simp only [Bool.toNat_true, Bool.not_false]
      omega

theorem pushWaiter :
    Invariant (State.pushWaiter { state with pushes := state.pushes.erase push }
      push.qos) := by
  have begun : ∀ other ∈ state.pushes.erase push,
      (other.qos, other.item) ∈ state.exchanges := fun other isOther =>
    invariant.begun other (List.mem_of_mem_erase isOther)
  by_cases busy : (state.owner.isSome || state.word.enqueued) = true
  · have waits :
        State.pushWaiter { state with pushes := state.pushes.erase push }
          push.qos =
        { state with
          word := ⟨max state.word.maxQos push.qos, true, state.word.enqueued⟩
          pushes := state.pushes.erase push } := if_pos busy
    rw [waits]
    refine invariant.grown (invariant.grows_of_erase member rfl rfl)
      rfl rfl rfl rfl begun invariant.accounted ?_
    intro isOwner _ _
    simpa [isOwner] using busy
  · have locks :
        State.pushWaiter { state with pushes := state.pushes.erase push }
          push.qos =
        { state with
          word := ⟨max state.word.maxQos push.qos, false, state.word.enqueued⟩
          pushes := state.pushes.erase push
          owner := some (.complete qosMax false push.qos) } := if_neg busy
    have isOwner : state.owner = none := by
      by_contra locked
      apply busy
      rw [Option.isSome_iff_ne_none.mpr locked, Bool.true_or]
    rw [locks]
    have grows : Grows state { state with
        word := ⟨max state.word.maxQos push.qos, true, state.word.enqueued⟩
        pushes := state.pushes.erase push } :=
      invariant.grows_of_erase member rfl rfl
    have steady := grows.steady invariant
    exact {
      ranged := invariant.ranged
      conserved := by
        have conserved := invariant.conserved
        rw [isOwner] at conserved
        exact conserved
      distinct := invariant.distinct
      begun := begun
      accounted := by
        have accounted := invariant.accounted
        rw [isOwner] at accounted
        exact accounted
      watched := fun _ lit => .inl (invariant.bounded lit.ne_nil).2
      steady := steady
      placed := fun _ ready => .inl (invariant.ready_le ready).2 }

end

theorem merge
    (happens : state.merge push = some after) :
    Invariant after := by
  rw [State.merge] at happens
  split at happens
  · rename_i isPush
    cases happens
    split
    · exact invariant.pushWaiter isPush.1
    · exact invariant.wakeup isPush.1
  · cases happens

/-! ## Reaching the lock -/

theorem enqueue
    (happens : state.enqueue = some after) :
    Invariant after := by
  rw [State.enqueue] at happens
  split at happens
  · cases happens
  · cases happens
    have accounted := invariant.accounted
    refine { invariant with accounted := ?_ }
    simp only
    omega

theorem arrive
    (happens : state.arrive = some after) :
    Invariant after := by
  rw [State.arrive] at happens
  split at happens
  · cases happens
  · cases happens
    have accounted := invariant.accounted
    refine { invariant with accounted := ?_ }
    simp only
    omega

theorem tryLock
    (happens : state.tryLock = some after) :
    Invariant after := by
  rw [State.tryLock] at happens
  split at happens
  · cases happens
  · rename_i arrived
    have accounted := invariant.accounted
    have conserved := invariant.conserved
    split at happens
    · rename_i isOwner
      rw [isOwner] at accounted conserved
      cases happens
      refine { invariant with
        conserved := conserved
        accounted := ?_
        watched := fun _ lit => .inl (invariant.bounded lit.ne_nil).2
        placed := fun _ ready => (invariant.ready_le ready).2 }
      simp only [Option.elim_none, Bool.toNat_false] at accounted
      simp only [Option.elim_some, Owner.owns, Bool.toNat_true]
      omega
    · rename_i owner isOwner
      cases happens
      have watched := invariant.watched
      rw [isOwner] at watched
      refine { invariant with accounted := ?_, watched := ?_ }
      · -- the arriving invocation had the enqueued bit
        cases enqueued : state.word.enqueued with
        | false =>
          rw [enqueued, Bool.toNat_false] at accounted
          omega
        | true =>
          rw [enqueued, Bool.toNat_true] at accounted
          simp only [Bool.not_true, Bool.toNat_false]
          omega
      · rw [isOwner]
        have grows : Grows state { state with
            word := { state.word with enqueued := !state.word.enqueued }
            arriving := state.arriving - 1 } := {
          ready := rfl
          lists := fun qos => ⟨[], (List.append_nil _).symm⟩
          lit := fun _ lit => .inl lit
          dirty := id
          maxQos := le_rfl
          ended := fun _ _ _ ended => ended }
        exact grows.watch watched

theorem acquireSync
    (happens : state.acquireSync = some after) :
    Invariant after := by
  rw [State.acquireSync] at happens
  split at happens
  · rename_i idle
    obtain ⟨isOwner, word⟩ := idle
    cases happens
    have watched := invariant.watched
    have accounted := invariant.accounted
    have conserved := invariant.conserved
    rw [isOwner] at watched accounted conserved
    refine { invariant with
      conserved := conserved, accounted := accounted, watched := trivial
      placed := ?_ }
    intro qos
    by_contra ready
    have enqueued := watched qos
      (invariant.lit_of_ready (Bool.eq_true_of_not_eq_false ready))
    rw [word] at enqueued
    cases enqueued
  · cases happens

/-! ## Every run -/

theorem next
    {event : Event}
    (happens : state.next event = some after) :
    Invariant after := by
  cases event with
  | exchange item qos => exact invariant.exchange happens
  | link push => exact invariant.link happens
  | merge push => exact invariant.merge happens
  | enqueue => exact invariant.enqueue happens
  | arrive => exact invariant.arrive happens
  | tryLock => exact invariant.tryLock happens
  | acquireSync => exact invariant.acquireSync happens
  | advance => exact invariant.advance happens

end

theorem initial : Invariant State.initial where
  ranged _ member := by cases member
  conserved _ := rfl
  distinct := List.nodup_nil
  begun _ member := by cases member
  accounted := rfl
  watched _ lit := absurd rfl lit.ne_nil
  steady _ ready := by cases ready
  placed := trivial

/-- The invariant holds in every reachable state. -/
theorem of_reachable
    (reached : Reachable (· = State.initial) Step state) :
    Invariant state := by
  apply Reachable.invariant _ _ reached
  · rintro _ rfl
    exact initial
  · rintro before after invariant ⟨event, happens⟩
    exact invariant.next happens

end Invariant

end LibDispatch.Workloop
