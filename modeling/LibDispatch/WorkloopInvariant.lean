import LibDispatch.Workloop

namespace LibDispatch.Workloop

/-!
# The invariant of a workloop

The push that finds a list empty owes the state word a signal.  A list whose
first item is not that of such a push has given its signal: then the owner has
the list before it, or the dirty bit tells it to look again, or the workloop is
enqueued.
-/

/-- The items of one list, in order. -/
def itemsOf (qos : Nat) (log : List (Nat × Item)) : List Item :=
  (log.filter (·.1 = qos)).map (·.2)

/-- An item that has left its list and waits for the transfer of the lock. -/
def Owner.inTransfer (qos : Nat) : Owner → List Item
  | .transfer from_ dc _ => if from_ = qos then [dc] else []
  | _ => []

/-- The owner is an invocation, to which the enqueued bit belongs. -/
def Owner.owns : Owner → Bool
  | .scan _ | .lower _ | .clear | .head _ | .item .. | .run .. | .decide ..
  | .unlock => true
  | .hand _ _ owned | .transfer _ _ owned => owned
  | .waiter _ | .complete .. | .completeHead .. | .release .. | .clearComplete _ =>
    false

/-- A list that is not empty and has given its signal. -/
def State.Lit (state : State) (qos : Nat) : Prop :=
  ∃ first rest, state.lists qos = first :: rest ∧
    ∀ push ∈ state.pushes, push.item = first → push.wasEmpty = false

/-- What the owner, or an unlocked workloop, knows of the lists. -/
def State.Watch (state : State) : Option Owner → Prop
  | none => ∀ qos, state.Lit qos → state.word.enqueued = true
  | some (.scan from_) =>
    ∀ qos, state.Lit qos →
      qos ≤ from_ ∨ state.word.dirty = true ∧ qos ≤ state.word.maxQos
  | some (.lower from_) =>
    state.lists from_ ≠ [] ∧
      ∀ qos, from_ < qos → state.Lit qos →
        state.word.dirty = true ∧ qos ≤ state.word.maxQos
  | some .clear => state.word.dirty = true
  | some (.head from_) =>
    state.lists from_ ≠ [] ∧
      ∀ qos, from_ < qos → state.Lit qos → qos ≤ state.word.maxQos
  | some (.item from_ dc) =>
    (state.lists from_).head? = some dc ∧
      ∀ qos, from_ < qos → state.Lit qos → qos ≤ state.word.maxQos
  | some (.run from_ _ next) | some (.decide from_ next) =>
    (∀ dc, next = some dc → (state.lists from_).head? = some dc) ∧
      ∀ qos, from_ < qos → state.Lit qos → qos ≤ state.word.maxQos
  | some .unlock => ∀ qos, state.Lit qos → state.word.dirty = true
  | some (.hand from_ dc _) => (state.lists from_).head? = some dc
  | some (.transfer ..) | some (.waiter _) => True
  | some (.complete from_ target _) =>
    ∀ qos, state.Lit qos →
      qos ≤ from_ ∨ target = true ∨ state.word.dirty = true
  | some (.completeHead from_ target _) =>
    state.lists from_ ≠ [] ∧
      ∀ qos, state.Lit qos →
        qos ≤ from_ ∨ target = true ∨ state.word.dirty = true
  | some (.release target _) =>
    ∀ qos, state.Lit qos → target = true ∨ state.word.dirty = true
  | some (.clearComplete _) => state.word.dirty = true

/-- Where the owner can be while some lists are still as they were when the last
item finished. -/
def State.Place (state : State) : Option Owner → Prop
  | some (.scan from_) | some (.lower from_) | some (.head from_) =>
    ∀ qos, state.ready qos = true → qos ≤ from_
  | some (.complete from_ _ _) | some (.completeHead from_ _ _) =>
    ∀ qos, state.ready qos = true →
      qos ≤ from_ ∨
        ∃ first, (state.lists qos).head? = some first ∧
          first.isWaiter = false
  | some (.item ..) | some (.run ..) | some (.hand ..) | some (.transfer ..)
  | some (.waiter _) => ∀ qos, state.ready qos = false
  | none | some .clear | some (.decide ..) | some .unlock
  | some (.release ..) | some (.clearComplete _) => True

/-- The invariant. -/
structure Invariant (state : State) : Prop where
  ranged : ∀ entry ∈ state.exchanges, 0 < entry.1 ∧ entry.1 ≤ qosMax
  conserved :
    ∀ qos, itemsOf qos state.exchanges =
      itemsOf qos state.served ++
        (state.owner.elim [] (·.inTransfer qos) ++ state.lists qos)
  distinct : (state.exchanges.map (·.2.id)).Nodup
  begun : ∀ push ∈ state.pushes, (push.qos, push.item) ∈ state.exchanges
  accounted :
    state.word.enqueued.toNat =
      state.enqueuers + state.onTarget + state.arriving +
        (state.owner.elim false (·.owns)).toNat
  watched : state.Watch state.owner
  steady :
    ∀ qos, state.ready qos = true →
      ∃ first rest, state.lists qos = first :: rest ∧
        ∀ push ∈ state.pushes, push.item ≠ first
  placed : state.Place state.owner

/-! ## Logs -/

@[simp] theorem itemsOf_append
    (qos : Nat)
    (first second : List (Nat × Item)) :
    itemsOf qos (first ++ second) = itemsOf qos first ++ itemsOf qos second := by
  simp [itemsOf]

theorem itemsOf_singleton
    (qos other : Nat)
    (item : Item) :
    itemsOf qos [(other, item)] = if other = qos then [item] else [] := by
  by_cases same : other = qos <;> simp [itemsOf, same]

variable {qos : Nat} {item : Item}

theorem mem_itemsOf
    {log : List (Nat × Item)} :
    item ∈ itemsOf qos log ↔ (qos, item) ∈ log := by
  simp [itemsOf]

variable {before after : Owner} {other : Nat} {rest : List Item}

namespace Invariant

variable {state : State}

section

variable (invariant : Invariant state)

include invariant

/-- The items of the lists come from tail exchanges. -/
theorem exchanged
    (member : item ∈ state.lists qos) :
    (qos, item) ∈ state.exchanges := by
  rw [← mem_itemsOf, invariant.conserved qos]
  simp [member]

/-- There are lists from the least to the greatest QoS. -/
theorem bounded
    (nonempty : state.lists qos ≠ []) :
    0 < qos ∧ qos ≤ qosMax := by
  obtain ⟨item, member⟩ := List.exists_mem_of_ne_nil _ nonempty
  exact invariant.ranged _ (invariant.exchanged member)

/-- An item is pushed to one list. -/
theorem qos_eq
    (first : (qos, item) ∈ state.exchanges)
    (second : (other, item) ∈ state.exchanges) :
    qos = other := by
  have same := List.inj_on_of_nodup_map invariant.distinct first second rfl
  exact congrArg Prod.fst same

theorem bounded_of_cons
    (shape : state.lists qos = item :: rest) :
    0 < qos ∧ qos ≤ qosMax := by
  apply invariant.bounded
  rw [shape]
  exact List.cons_ne_nil _ _

/-- A ready list has given its signal. -/
theorem lit_of_ready
    (ready : state.ready qos = true) :
    state.Lit qos := by
  obtain ⟨first, rest, shape, ended⟩ := invariant.steady qos ready
  exact ⟨first, rest, shape, fun push member same =>
    absurd same (ended push member)⟩

/-- The invariant, with the owner written out. -/
theorem atOwner
    {owner : Option Owner}
    (isOwner : state.owner = owner) :
    Invariant { state with owner := owner } := by
  subst isOwner
  exact invariant

end

/-- An item that has been pushed completely, at the head of its list. -/
theorem steady_readyNow
    (ready : state.readyNow qos = true) :
    ∃ first rest, state.lists qos = first :: rest ∧
      ∀ push ∈ state.pushes, push.item ≠ first := by
  rw [State.readyNow] at ready
  split at ready
  · cases ready
  · rename_i first rest shape
    refine ⟨first, rest, shape, ?_⟩
    simpa [State.isPushed] using ready

end Invariant

theorem State.Lit.ne_nil
    {state : State}
    (lit : state.Lit qos) :
    state.lists qos ≠ [] := by
  obtain ⟨first, rest, shape, -⟩ := lit
  rw [shape]
  exact List.cons_ne_nil _ _

/-- Without pushes under way no list owes a signal. -/
theorem State.lit_of_noPushes
    {state : State}
    (noPushes : state.pushes = [])
    (nonempty : state.lists qos ≠ []) :
    state.Lit qos := by
  obtain ⟨first, rest, shape⟩ := List.exists_cons_of_ne_nil nonempty
  refine ⟨first, rest, shape, fun push member => ?_⟩
  rw [noPushes] at member
  cases member

/-- A list that has given its signal is not the empty one above the others. -/
theorem State.Lit.le_or
    {state : State}
    {known : Prop}
    (lit : state.Lit other)
    (empty : state.lists (qos + 1) = [])
    (watched : other ≤ qos + 1 ∨ known) :
    other ≤ qos ∨ known := by
  have differs : other ≠ qos + 1 := by
    rintro rfl
    exact lit.ne_nil empty
  rcases watched with below | known
  · left
    omega
  · exact .inr known

namespace Invariant

variable {state : State}

/-- A list that was ready when the last item finished is one of the lists. -/
theorem ready_le
    (invariant : Invariant state)
    (ready : state.ready qos = true) :
    0 < qos ∧ qos ≤ qosMax := by
  exact invariant.bounded (invariant.lit_of_ready ready).ne_nil

theorem lit_le
    (invariant : Invariant state)
    (lit : state.Lit qos) :
    0 < qos ∧ qos ≤ qosMax :=
  invariant.bounded lit.ne_nil

end Invariant

/-! ## The invocation -/

namespace Invariant

variable {state following : State}

section

variable
  (invariant : Invariant state)
  (happens : state.advance = some following)

include invariant happens

theorem advance_scan
    (isOwner : state.owner = some (.scan qos)) :
    Invariant following := by
  have watched := invariant.watched
  have placed := invariant.placed
  rw [isOwner] at watched placed
  cases qos with
  | zero =>
    rw [State.advance, isOwner] at happens
    cases happens
    refine
      { invariant.atOwner isOwner with watched := ?_, placed := trivial }
    intro qos lit
    rcases watched qos lit with none | ⟨dirty, -⟩
    · have some := (invariant.lit_le lit).1
      omega
    · exact dirty
  | succ qos =>
    rw [State.advance, isOwner] at happens
    cases happens
    split
    · rename_i isEmpty
      have empty := List.isEmpty_iff.mp isEmpty
      refine { invariant.atOwner isOwner with watched := ?_, placed := ?_ }
      · intro other lit
        exact State.Lit.le_or lit empty (watched other lit)
      · intro other ready
        have lit := invariant.lit_of_ready ready
        exact (lit.le_or empty (.inl (placed other ready))).resolve_right id
    · rename_i nonempty
      refine
        { invariant.atOwner isOwner with watched := ⟨?_, ?_⟩, placed := placed }
      · simpa [State.moveTo] using nonempty
      · intro other above lit
        rcases watched other lit with below | known
        · omega
        · exact known

theorem advance_lower
    (isOwner : state.owner = some (.lower qos)) :
    Invariant following := by
  have watched := invariant.watched
  have placed := invariant.placed
  rw [isOwner] at watched placed
  obtain ⟨nonempty, above⟩ := watched
  rw [State.advance, isOwner] at happens
  simp only at happens
  split at happens
  · cases happens
    exact
      { invariant.atOwner isOwner with
        watched := ⟨nonempty, fun other isAbove lit =>
          (above other isAbove lit).2⟩
        placed := placed }
  · split at happens
    · rename_i dirty
      cases happens
      exact
        { invariant.atOwner isOwner with watched := dirty, placed := trivial }
    · rename_i clean
      cases happens
      -- without the dirty bit no list above has given its signal
      exact
        { invariant.atOwner isOwner with
          watched := ⟨nonempty, fun other isAbove lit =>
            absurd (above other isAbove lit).1 clean⟩
          placed := placed }

theorem advance_clear
    (isOwner : state.owner = some .clear) :
    Invariant following := by
  rw [State.advance, isOwner] at happens
  cases happens
  exact
    { invariant.atOwner isOwner with
      watched := fun _ lit => .inl (invariant.lit_le lit).2
      placed := fun _ ready => (invariant.ready_le ready).2 }

theorem advance_head
    (isOwner : state.owner = some (.head qos)) :
    Invariant following := by
  have watched := invariant.watched
  rw [isOwner] at watched
  rw [State.advance, isOwner] at happens
  simp only at happens
  split at happens
  · cases happens
  · rename_i first rest shape
    split at happens
    · cases happens
      refine
        { invariant.atOwner isOwner with
          watched := ⟨?_, watched.2⟩
          steady := by rintro _ ⟨⟩
          placed := fun _ => rfl }
      change (state.lists qos).head? = some first
      rw [shape]
      rfl
    · cases happens

end

end Invariant

variable {dc : Item} {next : Option Item}

/-- What is popped is the first item. -/
theorem State.pop_eq_some
    {state popped : State}
    (pops : state.pop qos dc = some (popped, next)) :
    ∃ rest, state.lists qos = dc :: rest ∧ next = rest.head? ∧
      popped = { state with lists := Function.update state.lists qos rest } := by
  rw [State.pop] at pops
  split at pops
  · cases pops
  · rename_i first rest shape
    split at pops
    · rename_i isFirst
      obtain ⟨rfl, rfl⟩ := Prod.mk.inj (Option.some.inj pops)
      exact ⟨rest, by rw [shape, isFirst.1], rfl, rfl⟩
    · cases pops

/-- Popping does not light the other lists. -/
theorem State.Lit.of_popped
    {state : State}
    (differs : other ≠ qos)
    {served : List (Nat × Item)}
    {owner : Option Owner}
    (lit : State.Lit { state with
      lists := Function.update state.lists qos rest
      served := served
      owner := owner } other) :
    state.Lit other := by
  obtain ⟨first, others, shape, signalled⟩ := lit
  simp only [Function.update_of_ne differs] at shape
  exact ⟨first, others, shape, signalled⟩

namespace Invariant

variable {state following : State}

variable (invariant : Invariant state)

include invariant

/-- The selected item leaves its list. -/
theorem popped
    (isOwner : state.owner = some before)
    (shape : state.lists qos = dc :: rest)
    (nothingReady : ∀ qos, state.ready qos = false)
    {served : List (Nat × Item)}
    (noTransfer : ∀ other, before.inTransfer other = [])
    (goes :
      ∀ other, itemsOf other state.served ++ (if qos = other then [dc] else []) =
        itemsOf other served ++ after.inTransfer other)
    (sameShare : before.owns = after.owns)
    (watched : State.Watch { state with
      lists := Function.update state.lists qos rest
      served := served
      owner := some after } (some after))
    (placed : State.Place { state with
      lists := Function.update state.lists qos rest
      served := served
      owner := some after } (some after)) :
    Invariant { state with
      lists := Function.update state.lists qos rest
      served := served
      owner := some after } where
  ranged := invariant.ranged
  conserved other := by
    have conserved := invariant.conserved other
    have moved := goes other
    simp only [isOwner, Option.elim_some, noTransfer, List.nil_append]
      at conserved
    simp only [Option.elim_some]
    rw [conserved, ← List.append_assoc, ← moved]
    by_cases same : other = qos
    · rw [same, shape, Function.update_self]
      simp
    · rw [Function.update_of_ne same, if_neg (Ne.symm same), List.append_nil]
  distinct := invariant.distinct
  begun := invariant.begun
  accounted := by
    have accounted := invariant.accounted
    rw [isOwner] at accounted
    simpa [← sameShare] using accounted
  watched := watched
  steady other ready := by
    rw [nothingReady other] at ready
    cases ready
  placed := placed

variable (happens : state.advance = some following)

include happens

theorem advance_item
    (isOwner : state.owner = some (.item qos dc)) :
    Invariant following := by
  have watched := invariant.watched
  have nothingReady := invariant.placed
  rw [isOwner] at watched nothingReady
  rw [State.advance, isOwner] at happens
  simp only at happens
  split at happens
  · cases happens
    exact
      { invariant.atOwner isOwner with
        watched := watched.1
        placed := nothingReady }
  · obtain ⟨⟨popped, next⟩, pops, moves⟩ := Option.bind_eq_some_iff.mp happens
    cases moves
    obtain ⟨rest, shape, rfl, rfl⟩ := State.pop_eq_some pops
    refine invariant.popped isOwner shape nothingReady (fun _ => rfl) ?_ rfl
      ⟨?_, ?_⟩ nothingReady
    · intro other
      simp [State.serve, itemsOf_singleton, Owner.inTransfer]
    · intro dc isNext
      simpa using isNext
    · intro other above lit
      exact watched.2 other above (lit.of_popped (Nat.ne_of_gt above))

theorem advance_run
    (isOwner : state.owner = some (.run qos dc next)) :
    Invariant following := by
  have watched := invariant.watched
  rw [isOwner] at watched
  rw [State.advance, isOwner] at happens
  cases happens
  exact
    { invariant.atOwner isOwner with
      watched := watched
      steady := fun _ => steady_readyNow
      placed := trivial }

theorem advance_decide
    (isOwner : state.owner = some (.decide qos next)) :
    Invariant following := by
  have watched := invariant.watched
  rw [isOwner] at watched
  have rescans : Invariant (state.moveTo (.scan qosMax)) :=
    { invariant.atOwner isOwner with
      watched := fun _ lit => .inl (invariant.lit_le lit).2
      placed := fun _ ready => (invariant.ready_le ready).2 }
  rw [State.advance, isOwner] at happens
  simp only at happens
  split at happens
  · exact Option.some.inj happens ▸ rescans
  · split at happens
    · cases happens
      exact
        { invariant.atOwner isOwner with
          watched := ⟨watched.1 _ rfl, watched.2⟩
          steady := by rintro _ ⟨⟩
          placed := fun _ => rfl }
    · exact Option.some.inj happens ▸ rescans

theorem advance_unlock
    (isOwner : state.owner = some .unlock) :
    Invariant following := by
  have watched := invariant.watched
  have accounted := invariant.accounted
  rw [isOwner] at watched accounted
  rw [State.advance, isOwner] at happens
  simp only at happens
  split at happens
  · rename_i dirty
    cases happens
    exact
      { invariant.atOwner isOwner with watched := dirty, placed := trivial }
  · rename_i clean
    cases happens
    refine
      { invariant.atOwner isOwner with
        accounted := ?_, watched := ?_, placed := trivial }
    · have atMostOne := state.word.enqueued.toNat_le
      simp only [Option.elim_some, Owner.owns, Bool.toNat_true] at accounted
      simp only [Option.elim_none, Bool.toNat_false]
      omega
    · intro qos lit
      exact absurd (watched qos lit) clean

/-! ## Handing over the lock -/

theorem advance_hand
    {owned : Bool}
    (isOwner : state.owner = some (.hand qos dc owned)) :
    Invariant following := by
  have nothingReady := invariant.placed
  rw [isOwner] at nothingReady
  rw [State.advance, isOwner] at happens
  obtain ⟨⟨popped, next⟩, pops, moves⟩ := Option.bind_eq_some_iff.mp happens
  cases moves
  obtain ⟨rest, shape, rfl, rfl⟩ := State.pop_eq_some pops
  exact invariant.popped isOwner shape nothingReady (fun _ => rfl)
    (fun _ => rfl) rfl trivial nothingReady

theorem advance_transfer
    {owned : Bool}
    (isOwner : state.owner = some (.transfer qos dc owned)) :
    Invariant following := by
  have accounted := invariant.accounted
  have nothingReady := invariant.placed
  rw [isOwner] at accounted nothingReady
  rw [State.advance, isOwner] at happens
  cases happens
  refine { invariant with
    conserved := ?_, accounted := ?_, watched := trivial
    placed := nothingReady }
  · intro other
    have conserved := invariant.conserved other
    rw [isOwner] at conserved
    simp only [State.serve, itemsOf_append, itemsOf_singleton]
    simpa [Owner.inTransfer] using conserved
  · have atMostOne := state.word.enqueued.toNat_le
    simp only [State.serve, Option.elim_some, Owner.owns] at accounted ⊢
    cases owned with
    | true =>
      simp only [Bool.toNat_true, Bool.not_true, Bool.and_false,
        Bool.toNat_false] at accounted ⊢
      omega
    | false => simpa using accounted

theorem advance_waiter
    {dc : Option Item}
    (isOwner : state.owner = some (.waiter dc)) :
    Invariant following := by
  rw [State.advance, isOwner] at happens
  simp only at happens
  split at happens
  · cases happens
    refine
      { invariant.atOwner isOwner with
        watched := fun _ lit => .inl (invariant.lit_le lit).2
        steady := fun _ => steady_readyNow
        placed := ?_ }
    intro qos ready
    obtain ⟨first, rest, shape, -⟩ := steady_readyNow ready
    exact .inl (invariant.bounded_of_cons shape).2
  · cases happens

/-! ## Completing the barrier -/

variable {merged : Nat} {target : Bool}

theorem advance_complete
    (isOwner : state.owner = some (.complete qos target merged)) :
    Invariant following := by
  have watched := invariant.watched
  have placed := invariant.placed
  rw [isOwner] at watched placed
  cases qos with
  | zero =>
    rw [State.advance, isOwner] at happens
    cases happens
    refine
      { invariant.atOwner isOwner with watched := ?_, placed := trivial }
    intro qos lit
    rcases watched qos lit with none | known
    · have some := (invariant.lit_le lit).1
      omega
    · exact known
  | succ qos =>
    rw [State.advance, isOwner] at happens
    cases happens
    split
    · rename_i isEmpty
      have empty := List.isEmpty_iff.mp isEmpty
      refine { invariant.atOwner isOwner with watched := ?_, placed := ?_ }
      · intro other lit
        exact State.Lit.le_or lit empty (watched other lit)
      · intro other ready
        exact (invariant.lit_of_ready ready).le_or empty (placed other ready)
    · rename_i nonempty
      refine
        { invariant.atOwner isOwner with
          watched := ⟨?_, watched⟩, placed := placed }
      simpa [State.moveTo] using nonempty

theorem advance_completeHead
    (isOwner : state.owner = some (.completeHead qos target merged)) :
    Invariant following := by
  have placed := invariant.placed
  rw [isOwner] at placed
  rw [State.advance, isOwner] at happens
  simp only at happens
  split at happens
  · cases happens
  · rename_i first rest shape
    split at happens
    · split at happens
      · cases happens
        refine
          { invariant.atOwner isOwner with
            watched := ?_
            steady := by rintro _ ⟨⟩
            placed := fun _ => rfl }
        change (state.lists qos).head? = some first
        rw [shape]
        rfl
      · rename_i notWaiter
        cases happens
        refine
          { invariant.atOwner isOwner with
            watched := fun _ _ => .inr (.inl rfl)
            placed := ?_ }
        intro other ready
        by_cases same : other = qos
        · right
          refine ⟨first, ?_, Bool.eq_false_of_not_eq_true notWaiter⟩
          simp only [State.moveTo, same, shape]
          rfl
        · rcases placed other ready with below | passed
          · left
            omega
          · exact .inr passed
    · cases happens

theorem advance_release
    (isOwner : state.owner = some (.release target merged)) :
    Invariant following := by
  have watched := invariant.watched
  have accounted := invariant.accounted
  rw [isOwner] at watched accounted
  simp only [Option.elim_some, Owner.owns, Bool.toNat_false] at accounted
  rw [State.advance, isOwner] at happens
  cases target with
  | true =>
    cases happens
    refine
      { invariant.atOwner isOwner with
        accounted := ?_, watched := fun _ _ => rfl, placed := trivial }
    simp only [Word.mergeQos, Bool.toNat_true, Option.elim_none,
      Bool.toNat_false]
    cases enqueued : state.word.enqueued with
    | true =>
      rw [enqueued, Bool.toNat_true] at accounted
      simp only [Bool.not_true, Bool.toNat_false]
      omega
    | false =>
      rw [enqueued, Bool.toNat_false] at accounted
      simp only [Bool.not_false, Bool.toNat_true]
      omega
  | false =>
    simp only [Bool.false_eq_true, if_false] at happens
    split at happens
    · rename_i dirty
      cases happens
      exact
        { invariant.atOwner isOwner with watched := dirty, placed := trivial }
    · rename_i clean
      cases happens
      refine
        { invariant.atOwner isOwner with watched := ?_, placed := trivial }
      intro qos lit
      rcases watched qos lit with isTarget | dirty
      · cases isTarget
      · exact absurd dirty clean

theorem advance_clearComplete
    (isOwner : state.owner = some (.clearComplete merged)) :
    Invariant following := by
  rw [State.advance, isOwner] at happens
  cases happens
  exact
    { invariant.atOwner isOwner with
      watched := fun _ lit => .inl (invariant.lit_le lit).2
      placed := fun _ ready => .inl (invariant.ready_le ready).2 }

/-- Every step of the owner keeps the invariant. -/
theorem advance :
    Invariant following := by
  cases isOwner : state.owner with
  | none =>
    rw [State.advance, isOwner] at happens
    cases happens
  | some owner =>
    cases owner with
    | scan => exact invariant.advance_scan happens isOwner
    | lower => exact invariant.advance_lower happens isOwner
    | clear => exact invariant.advance_clear happens isOwner
    | head => exact invariant.advance_head happens isOwner
    | item => exact invariant.advance_item happens isOwner
    | run => exact invariant.advance_run happens isOwner
    | decide => exact invariant.advance_decide happens isOwner
    | unlock => exact invariant.advance_unlock happens isOwner
    | hand => exact invariant.advance_hand happens isOwner
    | transfer => exact invariant.advance_transfer happens isOwner
    | waiter => exact invariant.advance_waiter happens isOwner
    | complete => exact invariant.advance_complete happens isOwner
    | completeHead => exact invariant.advance_completeHead happens isOwner
    | release => exact invariant.advance_release happens isOwner
    | clearComplete => exact invariant.advance_clearComplete happens isOwner

end Invariant

end LibDispatch.Workloop
