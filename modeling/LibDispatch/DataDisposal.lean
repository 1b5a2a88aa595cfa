import LibDispatch.DataAccounting

namespace LibDispatch.Data

/-!
# Disposal of data objects

The destructor of the buffer of a leaf is scheduled once, when nothing refers to
the leaf any more: no client and no record of a live object.  This is so as long
as no object has as many references as a global one: from then on its references
are not counted, and it is never disposed of.
-/

/-! ## What clients can rely on -/

/-- The first object has bytes in the buffer of the second. -/
def Heap.Uses (heap : Heap) (other data : Nat) : Prop :=
  other = data ∨
    ∃ record ∈ (heap.object other).records, record.dataObject = data

structure Store.Guarantees (store : Store) : Prop where
  balance :
    ∀ data, data ≠ emptyData →
      store.heap.references data =
        store.owned data + store.heap.pointers data
  once :
    ∀ data, store.heap.Holds data → data ≠ emptyData →
      (store.heap.object data).records = [] →
      store.destroyed.count data =
        if 0 < store.heap.references data then 0 else 1
  unused :
    ∀ data ∈ store.destroyed, ∀ other, store.heap.Live other →
      ¬ store.heap.Uses other data
  denotes :
    ∀ data ∈ store.destroyed, ∀ other, store.heap.Live other →
      ∀ buffer,
        (store.heap.setBuffer data buffer).bytes other =
          store.heap.bytes other
  releases :
    ∀ data, 0 < store.owned data →
      ∃ heap leaves, store.heap.release data = .ok (heap, leaves)

/-- What is in a buffer matters to the objects that use it only. -/
theorem Heap.bytes_setBuffer
    {heap : Heap}
    {other data : Nat}
    (unused : ¬ heap.Uses other data)
    (buffer : List UInt8) :
    (heap.setBuffer data buffer).bytes other = heap.bytes other := by
  have unchanged {target : Nat} (different : target ≠ data) :
      (heap.setBuffer data buffer).object target = heap.object target := by
    simp [Heap.object, Heap.setBuffer, different.symm]
  have own : other ≠ data := fun same => unused (.inl same)
  rw [Heap.bytes, Heap.bytes, unchanged own, Heap.leafBytes, Heap.leafBytes,
    unchanged own]
  congr 2
  refine List.map_congr_left fun record member => ?_
  have pointed : record.dataObject ≠ data :=
    fun same => unused (.inr ⟨record, member, same⟩)
  rw [Heap.slice, Heap.slice, Heap.leafBytes, Heap.leafBytes,
    unchanged pointed]

theorem Settled.guarantees
    {store : Store}
    (settled : Settled store.heap store.owned store.destroyed) :
    store.Guarantees := by
  have unused : ∀ data ∈ store.destroyed, ∀ other, store.heap.Live other →
      ¬ store.heap.Uses other data := by
    intro data logged other live uses
    have counted := List.count_pos_iff.mpr logged
    rw [settled.logged] at counted
    split_ifs at counted with disposed
    · obtain ⟨⟨-, some⟩, -, dead⟩ := disposed
      rcases uses with rfl | ⟨record, member, rfl⟩
      · have alive := live.resolve_left some
        omega
      · have keeps := settled.linked.records other live record member
        have alive := keeps.live
        omega
    · omega
  refine
    { balance := settled.balanced
      once := ?once
      unused := unused
      denotes := ?denotes
      releases := ?releases }
  case once =>
    intro data holds some leaf
    rw [settled.logged]
    by_cases live : 0 < store.heap.references data
    · have kept : ¬ store.heap.Disposed data := by
        intro disposed
        have dead := disposed.2.2
        omega
      rw [if_neg kept, if_pos live]
    · rw [if_pos ⟨⟨holds, some⟩, leaf, by omega⟩, if_neg live]
  case denotes =>
    intro data logged other live buffer
    exact Heap.bytes_setBuffer (unused data logged other live) buffer
  case releases =>
    intro data owns
    have owed : Settled store.heap
        (given (returned store.owned data) (some data)) store.destroyed :=
      settled.congr fun other _ => given_returned owns other
    obtain ⟨heap, leaves, computes, -⟩ := owed.release
    exact ⟨heap, leaves, computes⟩

/-! ## Runs -/

theorem Store.initial_settled :
    Settled Store.initial.heap Store.initial.owned
      Store.initial.destroyed where
  empty := ⟨by decide, rfl⟩
  held := fun data counted => absurd counted (Nat.lt_irrefl 0)
  leaves := by
    intro data record member
    have none : (Heap.initial.object data).records = [] := by
      cases data <;> rfl
    rw [Store.initial, none] at member
    cases member
  balanced := by
    intro data _
    have none : Heap.initial.pointers data = 0 :=
      Finset.sum_eq_zero fun other _ => if_neg (Nat.lt_irrefl 0)
    exact none.symm
  bounded := fun _ => show 0 < globalReferences by decide
  logged := by
    intro data
    have kept : ¬ Heap.initial.Disposed data := by
      rintro ⟨⟨holds, some⟩, -⟩
      exact some (Nat.lt_one_iff.mp holds)
    exact (if_neg kept).symm

theorem Store.Step.settled
    {store after : Store}
    (step : Store.Step store after)
    (counted : after.Counted)
    (settled : Settled store.heap store.owned store.destroyed) :
    Settled after.heap after.owned after.destroyed := by
  cases step with
  | call live computes =>
    exact settled.called (.ofCall settled.linked live computes) counted
  | retain live => exact settled.called (.shared live) counted
  | release owns computes =>
    rename_i data heap leaves
    have owed : Settled store.heap
        (given (returned store.owned data) (some data)) store.destroyed :=
      settled.congr fun other _ => given_returned owns other
    obtain ⟨released, others, releases, final⟩ := owed.release
    rw [computes] at releases
    cases releases
    exact final

/-- As long as no object has as many references as a global one, the references
of every object are accounted for, and destructors are scheduled once and in
time. -/
theorem reachable_storeGuarantees
    {store : Store}
    (reached :
      Reachable (· = Store.initial)
        (fun store after =>
          Store.Step store after ∧ after.Counted) store) :
    store.Guarantees := by
  refine Settled.guarantees ?_
  induction reached with
  | start isInitial =>
    rw [isInitial]
    exact Store.initial_settled
  | next _ last inductionHypothesis =>
    exact last.1.settled last.2 inductionHypothesis

/-- There are no more pointers than records. -/
theorem Heap.pointers_le
    (heap : Heap)
    (data : Nat) :
    heap.pointers data ≤
      ∑ other ∈ Finset.range heap.objects.length,
        (heap.object other).records.length := by
  refine Finset.sum_le_sum fun other _ => ?_
  split_ifs
  · rw [← List.length_map]
    exact List.count_le_length
  · exact Nat.zero_le _

theorem given_le
    {owned : Nat → Nat}
    {bound : Nat}
    (below : ∀ data, owned data ≤ bound)
    (result : Option Nat)
    (data : Nat) :
    given owned result data ≤ bound + 1 := by
  have own := below data
  cases result with
  | none => exact Nat.le_succ_of_le own
  | some other =>
    rw [given_some]
    split_ifs <;> omega

theorem returned_le
    {owned : Nat → Nat}
    {bound : Nat}
    (below : ∀ data, owned data ≤ bound)
    (other data : Nat) :
    returned owned other data ≤ bound := by
  have own := below data
  simp only [returned]
  split_ifs <;> omega

/-- A leaf (1) that is disposed of with the concatenation of it with itself (2),
which keeps it after its client. -/
theorem sharedLeaf_guarantees :
    ∃ store : Store,
      store.heap.objects =
          [emptyObject, ⟨some [7], 1, []⟩,
            ⟨none, 2, [⟨1, 0, 1⟩, ⟨1, 0, 1⟩]⟩] ∧
        store.destroyed = [1] ∧ store.Guarantees := by
  have counted (store : Store) (bound : Nat)
      (owned : ∀ data, store.owned data ≤ bound)
      (small :
        bound + ∑ other ∈ Finset.range store.heap.objects.length,
          (store.heap.object other).records.length < globalReferences) :
      store.Counted := by
    intro data _
    have pointers := store.heap.pointers_le data
    have owns := owned data
    omega
  have none : ∀ data, Store.initial.owned data ≤ 0 := fun _ => Nat.le_refl 0
  have one := given_le none (some 1)
  have two := given_le one (some 2)
  have fewer := returned_le two 1
  have start : Reachable (· = Store.initial)
      (fun store after =>
        Store.Step store after ∧ after.Counted) Store.initial :=
    .start rfl
  have leaf := start.next
    ⟨@Store.Step.call _ (.createAlloc [7]) _ _ (by decide) rfl,
      counted _ 1 one (by decide)⟩
  have concat := leaf.next
    ⟨@Store.Step.call _ (.createConcat 1 1) _ _ (by decide) rfl,
      counted _ 2 two (by decide)⟩
  have released := concat.next
    ⟨@Store.Step.release _ 1 _ _ (by decide) rfl,
      counted _ 2 fewer (by decide)⟩
  have disposed := released.next
    ⟨@Store.Step.release _ 2 _ _ (by decide) rfl,
      counted _ 2 (returned_le fewer 2) (by decide)⟩
  exact ⟨_, rfl, rfl, reachable_storeGuarantees disposed⟩

/-! ## Many references -/

/-- A leaf that was retained so many times. -/
theorem retained_reached
    (times : Nat) :
    ∃ store,
      Reachable (· = Store.initial) Store.Step store ∧
        store.heap.objects = [emptyObject, ⟨some [7], 1, []⟩] ∧
        store.owned 1 = times + 1 ∧
        store.heap.references 1 = min (times + 1) globalReferences ∧
        store.destroyed = [] := by
  induction times with
  | zero =>
    have created : Store.Step Store.initial
        ⟨(Heap.initial.add ⟨some [7], 1, []⟩).1, given (fun _ => 0) (some 1),
          [], 0⟩ :=
      @Store.Step.call Store.initial (.createAlloc [7]) _ _
        (by simp [Operation.arguments]) rfl
    exact ⟨_, .next (.start rfl) created, rfl, rfl, rfl, rfl⟩
  | succ times inductionHypothesis =>
    obtain ⟨store, reached, objects, owned, references, none⟩ :=
      inductionHypothesis
    have live : store.heap.Live 1 := by
      refine .inr ?_
      rw [references, globalReferences]
      omega
    refine ⟨_, .next reached (.retain live), ?_, ?_, ?_, none⟩
    · rw [Heap.objects_retain, objects]
    · change given store.owned (some 1) 1 = _
      rw [given_some, if_pos rfl, owned]
    · simp only [Heap.retain]
      split_ifs with global
      · have isGlobal := global.resolve_left (by decide)
        rw [isGlobal] at references ⊢
        omega
      · have different : store.heap.references 1 ≠ globalReferences :=
          fun same => global (.inr same)
        simp only [if_pos]
        omega

/-- A leaf with more references than a global object stays when all of them are
given back. -/
theorem manyReferences_leak :
    ∃ store,
      Reachable (· = Store.initial) Store.Step store ∧
        store.heap.objects = [emptyObject, ⟨some [7], 1, []⟩] ∧
        store.owned 1 = 0 ∧ store.heap.pointers 1 = 0 ∧
        store.heap.references 1 = globalReferences ∧
        store.destroyed = [] := by
  have back (times : Nat) (enough : times ≤ globalReferences + 1) :
      ∃ store,
        Reachable (· = Store.initial) Store.Step store ∧
          store.heap.objects = [emptyObject, ⟨some [7], 1, []⟩] ∧
          store.owned 1 = globalReferences + 1 - times ∧
          store.heap.references 1 = globalReferences ∧
          store.destroyed = [] := by
    induction times with
    | zero =>
      obtain ⟨store, reached, objects, owned, references, none⟩ :=
        retained_reached globalReferences
      refine ⟨store, reached, objects, owned, ?_, none⟩
      rw [references]
      omega
    | succ times inductionHypothesis =>
      obtain ⟨store, reached, objects, owned, references, none⟩ :=
        inductionHypothesis (by omega)
      have computes : store.heap.release 1 = .ok (store.heap, []) := by
        rw [Heap.release, Heap.releaseFrom, if_pos (.inr references)]
      refine ⟨_, .next reached (.release (by omega) computes), objects, ?_,
        references, ?_⟩
      · simp only [returned, if_pos, owned]
        omega
      · rw [none]
        rfl
  obtain ⟨store, reached, objects, owned, references, none⟩ :=
    back (globalReferences + 1) (Nat.le_refl _)
  refine ⟨store, reached, objects, by omega, ?_, references, none⟩
  refine Finset.sum_eq_zero fun other member => ?_
  have leaf : (store.heap.object other).records = [] := by
    rw [Heap.object, objects]
    cases other with
    | zero => rfl
    | succ other => cases other <;> rfl
  rw [leaf]
  split_ifs <;> rfl

end LibDispatch.Data
