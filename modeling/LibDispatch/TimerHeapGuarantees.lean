import LibDispatch.TimerHeapOperations

namespace LibDispatch.TimerHeap

/-!
# What a heap of timers guarantees

After any operations on a heap that never has more than `2 ^ 30` timers, both
halves are min-heaps of the members and every timer knows its slots.  With one
timer more the left child of the last slot no longer fits a word, and a timer
can end up below one that fires later.
-/

open IndexedHeap (Heaped Holed)

/-- The number of timers for which the index of a left child fits a word. -/
def maxTimers : Nat := 2 ^ 30

section Guarantees

variable {Timer : Type}

/-- The even slots are a min-heap by target and the odd ones by deadline, each
with every member once; each member knows its slots, and the first slots hold the
least timers. -/
structure IsDoubleHeap (state : Populated Timer) : Prop where
  distinct : state.members.Nodup
  counted : state.dth.count = 2 * state.members.length
  ordered :
    ∀ idx above below,
      idCount ≤ idx →
      idx < state.dth.count →
      state.dth.stored (parent idx) = some above →
      state.dth.stored idx = some below →
      state.dth.heapKey above (heapId idx) ≤
        state.dth.heapKey below (heapId idx)
  occupied :
    ∀ idx < state.dth.count,
      ∃ timer ∈ state.members, state.dth.stored idx = some timer
  once :
    ∀ timer ∈ state.members, ∀ id,
      ∃! idx,
        idx < state.dth.count ∧
        heapId idx = id ∧
        state.dth.stored idx = some timer
  recorded :
    ∀ timer ∈ state.members, ∀ id,
      state.dth.heapEntry timer id < state.dth.count ∧
      heapId (state.dth.heapEntry timer id) = id ∧
      state.dth.stored (state.dth.heapEntry timer id) = some timer
  unrecorded :
    ∀ timer,
      timer ∉ state.members →
      ∀ id, state.dth.heapEntry timer id = invalidId
  leastNull :
    ∀ id, state.dth.min id = none ↔ state.members = []
  least :
    ∀ id timer,
      state.dth.min id = some timer →
      timer ∈ state.members ∧
      ∀ other ∈ state.members,
        state.dth.heapKey timer id ≤ state.dth.heapKey other id

/-- Every operation on a heap comes to an end without following a pointer that is
not valid. -/
structure Serves [DecidableEq Timer] (state : Populated Timer) : Prop where
  insert :
    ∀ timer,
      timer ∉ state.members →
      state.members.length < maxTimers →
      ∃ fuel after, state.dth.insert fuel timer = some after
  update :
    ∀ timer ∈ state.members, ∀ keys, ∃ fuel after,
      (state.dth.configure timer keys).update fuel timer =
        some after
  remove :
    ∀ timer ∈ state.members, ∀ keys, ∃ fuel after,
      (state.dth.configure timer keys).remove fuel timer =
        some after

/-! ## From positions to indices -/

/-- Every index is the index of a position in its heap. -/
theorem exists_index (idx : Nat) :
    ∃ position, idx = index (heapId idx) position := by
  refine ⟨idx / 2, ?_⟩
  unfold index heapId idCount
  split_ifs with isEven
  · simp only [HeapId.number]
    omega
  · simp only [HeapId.number]
    omega

variable {state : Populated Timer} {timer : Timer} {position idx : Nat}

section

variable (sound : Sound state)

include sound

theorem Sound.stored_eq
    (id : HeapId)
    (inside : position < state.members.length) :
    state.dth.stored (index id position) =
      (state.dth.order id).slot position :=
  (order_slot (sound.roomy.index_lt inside)).symm

theorem Sound.index_lt_count
    {id : HeapId} :
    index id position < state.dth.count ↔
      position < state.members.length := by
  rw [sound.roomy.counted]
  exact ⟨lt_of_index_lt, index_lt⟩

theorem Sound.ordered
    {above below : Timer}
    (hasParent : idCount ≤ idx)
    (inside : idx < state.dth.count)
    (aboveAt : state.dth.stored (parent idx) = some above)
    (belowAt : state.dth.stored idx = some below) :
    state.dth.heapKey above (heapId idx) ≤
      state.dth.heapKey below (heapId idx) := by
  obtain ⟨position, isIndex⟩ := exists_index idx
  generalize heapId idx = id at isIndex
  subst isIndex
  have positionInside := sound.index_lt_count.mp inside
  have positive : 0 < position := by
    have := number_lt id
    unfold index idCount at hasParent
    omega
  have upward := IndexedHeap.parent_lt positive
  rw [parent_index id positive, sound.stored_eq id (upward.trans positionInside)]
    at aboveAt
  rw [sound.stored_eq id positionInside] at belowAt
  exact
    (sound.heaped id).ordered position above below positive positionInside
      aboveAt belowAt

theorem Sound.occupied
    (inside : idx < state.dth.count) :
    ∃ timer ∈ state.members, state.dth.stored idx = some timer := by
  obtain ⟨position, isIndex⟩ := exists_index idx
  rw [isIndex] at inside ⊢
  have positionInside := sound.index_lt_count.mp inside
  obtain ⟨timer, timerAt, isMember, -⟩ :=
    (sound.heaped (heapId idx)).filled position positionInside
  exact
    ⟨timer, isMember, (sound.stored_eq _ positionInside).trans timerAt⟩

/-- A member is in the slot it has recorded. -/
theorem Sound.recorded
    (isMember : timer ∈ state.members)
    (id : HeapId) :
    state.dth.heapEntry timer id < state.dth.count ∧
    heapId (state.dth.heapEntry timer id) = id ∧
    state.dth.stored (state.dth.heapEntry timer id) =
      some timer := by
  obtain ⟨position, inside, timerAt⟩ :=
    (sound.heaped id).placed timer isMember
  obtain ⟨-, entry⟩ := (sound.heaped id).arranged.held inside timerAt
  have isEntry : state.dth.heapEntry timer id = index id position :=
    entry
  rw [isEntry, sound.stored_eq id inside]
  exact ⟨sound.index_lt_count.mpr inside, heapId_index id position, timerAt⟩

/-- A slot that holds a timer is the one that the timer has recorded. -/
theorem Sound.recorded_unique
    (inside : idx < state.dth.count)
    (timerAt : state.dth.stored idx = some timer) :
    state.dth.heapEntry timer (heapId idx) = idx := by
  obtain ⟨position, isIndex⟩ := exists_index idx
  generalize heapId idx = id at isIndex
  subst isIndex
  have positionInside := sound.index_lt_count.mp inside
  rw [sound.stored_eq id positionInside] at timerAt
  exact ((sound.heaped id).arranged.held positionInside timerAt).2

theorem Sound.least
    {id : HeapId}
    (isLeast : state.dth.min id = some timer) :
    timer ∈ state.members ∧
    ∀ other ∈ state.members,
      state.dth.heapKey timer id ≤ state.dth.heapKey other id := by
  have inhabited : 0 < state.members.length := by
    refine List.length_pos_of_ne_nil fun none => ?_
    rw [sound.empty none id] at isLeast
    cases isLeast
  have atRoot : (state.dth.order id).slot 0 = some timer := by
    rw [← sound.stored_eq id inhabited, stored_root, isLeast]
  refine ⟨((sound.heaped id).arranged.held inhabited atRoot).1, ?_⟩
  intro other isMember
  obtain ⟨position, inside, otherAt⟩ :=
    (sound.heaped id).placed other isMember
  exact (sound.heaped id).root_le atRoot position other inside otherAt

theorem Sound.least_eq_none_iff
    (id : HeapId) :
    state.dth.min id = none ↔ state.members = [] := by
  refine ⟨fun none => ?_, fun none => sound.empty none id⟩
  by_contra inhabited
  have positive := List.length_pos_of_ne_nil inhabited
  obtain ⟨timer, timerAt, -, -⟩ := (sound.heaped id).filled 0 positive
  rw [← sound.stored_eq id positive, stored_root, none] at timerAt
  cases timerAt

end

/-- The invariant in terms of the slots of the source. -/
theorem Sound.isDoubleHeap (sound : Sound state) : IsDoubleHeap state := by
  refine
    { sound with
      counted := sound.roomy.counted
      ordered := fun _ _ _ => sound.ordered
      occupied := fun _ => sound.occupied
      once := ?once
      recorded := fun _ isMember => sound.recorded isMember
      unrecorded := fun timer isOutside id => sound.outside timer id isOutside
      leastNull := sound.least_eq_none_iff
      least := fun _ _ => sound.least }
  intro timer isMember id
  refine ⟨_, sound.recorded isMember id, ?_⟩
  rintro idx ⟨inside, rfl, timerAt⟩
  exact (sound.recorded_unique inside timerAt).symm

/-! ## Runs -/

/-- An outcome for which there is enough fuel is there. -/
theorem Meets.exists_of_enough
    {Outcome : Type}
    {spec : Outcome → Prop}
    {needed : Nat}
    {result : Option Outcome}
    (meets : Meets spec needed needed result) :
    ∃ outcome, result = some outcome := by
  cases meets with
  | returns holds => exact ⟨_, rfl⟩
  | stops tooLittle => exact absurd tooLittle (Nat.lt_irrefl needed)

theorem Meets.of_eq_some
    {Outcome : Type}
    {spec : Outcome → Prop}
    {needed fuel : Nat}
    {result : Option Outcome}
    {outcome : Outcome}
    (meets : Meets spec needed fuel result)
    (isOutcome : result = some outcome) :
    spec outcome := by
  subst isOutcome
  cases meets with
  | returns holds => exact holds

theorem Initial.sound (isInitial : Initial state) : Sound state := by
  obtain ⟨members, counted, segments, heap, least, entries⟩ := isInitial
  refine
    { distinct := by rw [members]; exact List.Pairwise.nil
      chained := ⟨fun _ => 0, ?chained⟩
      roomy := ⟨by rw [counted, members]; rfl, by simp [members], by
        simp [members]⟩
      tight := ?tight
      heaped := ?heaped
      outside := fun timer id _ => entries timer id
      empty := fun _ => least }
  case chained =>
    exact
      { few := by omega
        empty := fun _ => heap
        last := by omega
        distinct := by omega
        allocated := by omega
        linked := by omega
        bounded := by omega }
  case tight =>
    intro segNo isLast
    omega
  case heaped =>
    intro id
    rw [members]
    exact
      { filled := fun position inside => absurd inside (Nat.not_lt_zero _)
        placed := fun member isMember => absurd isMember List.not_mem_nil
        ordered := fun position _ _ _ inside =>
          absurd inside (Nat.not_lt_zero _) }

variable [DecidableEq Timer]

theorem Sound.serves (sound : Sound state) : Serves state where
  insert _ isNew fits :=
    ⟨_, (sound.insert_meets isNew fits _).exists_of_enough⟩
  update _ isMember keys :=
    ⟨_, (sound.update_meets isMember keys _).exists_of_enough⟩
  remove _ isMember keys :=
    ⟨_, (sound.remove_meets isMember keys _).exists_of_enough⟩

/-- An operation after which the heap has no more than `maxTimers` timers. -/
def StepWithin (state after : Populated Timer) : Prop :=
  Step state after ∧ after.members.length ≤ maxTimers

theorem Sound.step
    {after : Populated Timer}
    (sound : Sound state)
    (step : StepWithin state after) :
    Sound after := by
  obtain ⟨step, fits⟩ := step
  cases step with
  | configure outside keys => exact sound.configure_outside outside keys
  | insert outside ran =>
    exact (sound.insert_meets outside fits _).of_eq_some ran
  | update inside keys ran =>
    exact ((sound.update_meets inside keys _).of_eq_some ran).1
  | remove inside keys ran =>
    exact ((sound.remove_meets inside keys _).of_eq_some ran).1

theorem reachable_sound
    (reached : Reachable Initial StepWithin state) :
    Sound state :=
  reached.invariant (fun isInitial => isInitial.sound)
    (fun sound step => sound.step step)

/-- In every run with at most `maxTimers` timers in the heap at a time, the heap
is a double min-heap of its members, and every operation comes to an end. -/
theorem reachable_isDoubleHeap
    (reached : Reachable Initial StepWithin state) :
    IsDoubleHeap state ∧ Serves state :=
  ⟨(reachable_sound reached).isDoubleHeap, (reachable_sound reached).serves⟩

end Guarantees

/-- An empty heap, and timers of which the first two are the least. -/
def emptyHeap : TimerHeap Nat where
  count := 0
  segments := 0
  maxQos := 0
  needsProgram := false
  min _ := none
  heap := none
  memory _ := none
  fresh := 0
  heapKey timer _ := if timer < 2 then 0 else 1
  heapEntry _ _ := invalidId
  priorityQos _ := 0
  fallbackQos _ := 0

theorem emptyHeap_initial : Initial ⟨emptyHeap, []⟩ :=
  ⟨rfl, rfl, rfl, rfl, fun _ => rfl, fun _ _ => rfl⟩

/-- A heap of two timers. -/
theorem twoInserted_reached :
    ∃ first second,
      emptyHeap.insert 1 5 = some first ∧
      first.insert 2 0 = some second ∧
      Reachable Initial StepWithin ⟨second, [0, 5]⟩ := by
  obtain ⟨second, both⟩ :
      ∃ second,
        ((emptyHeap.insert 1 5).bind fun first => first.insert 2 0) =
          some second :=
    Option.isSome_iff_exists.mp (by decide)
  obtain ⟨first, ranFirst, ranSecond⟩ := Option.bind_eq_some_iff.mp both
  exact
    ⟨first, second, ranFirst, ranSecond,
      .next
        (.next (.start emptyHeap_initial)
          ⟨.insert (show 5 ∉ [] by decide) ranFirst,
            show 1 ≤ 2 ^ 30 by decide⟩)
        ⟨.insert (show 0 ∉ [5] by decide) ranSecond,
          show 2 ≤ 2 ^ 30 by decide⟩⟩

theorem twoInserted_isDoubleHeap :
    ∃ first second,
      emptyHeap.insert 1 5 = some first ∧
      first.insert 2 0 = some second ∧
      IsDoubleHeap ⟨second, [0, 5]⟩ ∧
      Serves ⟨second, [0, 5]⟩ := by
  obtain ⟨first, second, ranFirst, ranSecond, reached⟩ := twoInserted_reached
  exact ⟨first, second, ranFirst, ranSecond, reachable_isDoubleHeap reached⟩

/-! ## One timer too many -/

section Limit

variable {Timer : Type} [DecidableEq Timer]
variable {chain : Nat → Nat} {dth : TimerHeap Timer} {id : HeapId}
  {position : Nat}

variable (segmented : Segmented chain dth)

include segmented

/-- Any timer can be put at a position. -/
theorem Segmented.set_exists
    (inside : index id position < capacity dth.segments)
    (timer : Timer) :
    ∃ after,
      dth.set (locate chain (index id position)) timer
          (index id position) =
        some after ∧
      Segmented chain after ∧
      Kept id (fun _ => True) dth after ∧
      after.order id =
        (dth.order id).set (index id) position timer :=
  segmented.set_spec inside trivial

/-- A timer that fits below its parent is not sifted up. -/
theorem Segmented.siftUp_stays
    (inside : index id position < capacity dth.segments)
    (positive : 0 < position)
    {timer above : Timer}
    (aboveAt :
      (dth.order id).slot (IndexedHeap.parent position) = some above)
    (fits : dth.heapKey above id ≤ dth.heapKey timer id)
    (slot : Slot)
    (siftedUp : Bool)
    (fuel : Nat) :
    siftUp timer id (fuel + 1) ⟨dth, slot, index id position⟩ siftedUp =
      some (⟨dth, slot, index id position⟩, siftedUp) := by
  have hasParent : ¬ index id position < idCount := by
    unfold index idCount
    omega
  have upward := IndexedHeap.parent_lt positive
  have parentInside :
      index id (IndexedHeap.parent position) <
        capacity dth.segments := by
    unfold index idCount at inside ⊢
    omega
  have loads :
      dth.load (locate chain (index id (IndexedHeap.parent position))) =
        some above := by
    rw [← segmented.stored_eq parentInside, ← order_slot parentInside,
      aboveAt]
  unfold siftUp
  simp only [if_neg hasParent, parent_index id positive,
    segmented.getSlot_eq parentInside, loads, Option.bind_eq_bind,
    Option.bind_some, if_pos fits]

/-- A timer that fits below its parent and has no children stays where it is. -/
theorem Segmented.resift_stays
    (inside : index id position < capacity dth.segments)
    (positive : 0 < position)
    {timer above : Timer}
    (aboveAt :
      (dth.order id).slot (IndexedHeap.parent position) = some above)
    (fits : dth.heapKey above id ≤ dth.heapKey timer id)
    (childless : ¬ leftChild (index id position) < dth.count)
    (fuel : Nat) :
    dth.resift (fuel + 1) timer (index id position) =
      dth.set (locate chain (index id position)) timer
        (index id position) := by
  unfold resift
  simp only [heapId_index, segmented.getSlot_eq inside,
    segmented.siftUp_stays inside positive aboveAt fits, Option.bind_eq_bind,
    Option.bind_some, settle, Bool.false_eq_true, if_false]
  unfold siftDown
  simp only [if_neg childless, Option.bind_some]

omit [DecidableEq Timer] in
/-- The left child is the smaller one unless the right one is smaller still. -/
theorem Segmented.smallerChild_left
    (counted : index id (position + 1) < dth.count)
    (room : dth.count ≤ capacity dth.segments)
    (fits : index id (position + 1) < 2 ^ 32)
    {left right : Timer}
    (leftAt : (dth.order id).slot position = some left)
    (rightAt : (dth.order id).slot (position + 1) = some right)
    (smaller : dth.heapKey left id ≤ dth.heapKey right id) :
    dth.smallerChild id (index id position) =
      some (index id position, locate chain (index id position), left) := by
  have rightIdx :
      word (index id position + idCount) = index id (position + 1) := by
    unfold index word idCount at *
    omega
  have before : index id position < index id (position + 1) := by
    unfold index idCount
    omega
  have loads :
      ∀ {place held},
        index id place < dth.count →
        (dth.order id).slot place = some held →
        dth.getSlot (index id place) =
            some (locate chain (index id place)) ∧
          dth.load (locate chain (index id place)) = some held := by
    intro place held inside heldAt
    have placed : index id place < capacity dth.segments := by omega
    rw [order_slot placed, segmented.stored_eq placed] at heldAt
    exact ⟨segmented.getSlot_eq placed, heldAt⟩
  obtain ⟨leftSlot, leftLoad⟩ := loads (before.trans counted) leftAt
  obtain ⟨rightSlot, rightLoad⟩ := loads counted rightAt
  unfold smallerChild
  simp only [rightIdx, leftSlot, leftLoad, rightSlot, rightLoad,
    Option.bind_eq_bind, Option.bind_some, if_pos counted,
    if_neg (not_lt.mpr smaller), gt_iff_lt]

end Limit

/-- One half holds the first timers, in the order in which they have been
inserted. -/
structure Row (id : HeapId) (count : Nat) (dth : TimerHeap Nat) :
    Prop where
  heapKey : dth.heapKey = emptyHeap.heapKey
  slots :
    ∀ position < count,
      (dth.order id).slot position = some position

section Rows

variable {id : HeapId} {count : Nat} {dth after : TimerHeap Nat}

section

variable (row : Row id count dth)

include row

theorem Row.key_le
    {first second : Nat}
    (inOrder : first ≤ second) :
    dth.heapKey first id ≤ dth.heapKey second id := by
  rw [row.heapKey]
  simp only [emptyHeap]
  split_ifs <;> omega

theorem Row.of_prepared
    (ready : Prepared count dth after) :
    Row id count after :=
  { heapKey := ready.heapKey.trans row.heapKey
    slots := fun position inside =>
      (ready.slots id position inside).trans (row.slots position inside) }

/-- Sifting in the other half leaves a row as it is. -/
theorem Row.of_kept
    {other : HeapId}
    {Member : Nat → Prop}
    (kept : Kept other Member dth after)
    (differs : id ≠ other) :
    Row id count after :=
  { heapKey := kept.heapKey.trans row.heapKey
    slots := by
      rw [kept.others id differs]
      exact row.slots }

/-- A timer that is not smaller than the others stays at the end. -/
theorem Row.resift
    {chain : Nat → Nat}
    (segmented : Segmented chain dth)
    (positive : 0 < count)
    (counted : dth.count = 2 * count + 2)
    (room : 2 * count + 2 ≤ capacity dth.segments)
    (fits : count < 2 ^ 30) :
    ∃ after,
      dth.resift 1 count (index id count) = some after ∧
      Segmented chain after ∧
      Kept id (fun _ => True) dth after ∧
      Row id (count + 1) after := by
  have upward := IndexedHeap.parent_lt positive
  have inside : index id count < capacity dth.segments :=
    Nat.lt_of_lt_of_le (index_lt (Nat.lt_succ_self count)) room
  have childless : ¬ leftChild (index id count) < dth.count := by
    rw [leftChild_index (Nat.lt_succ_self count) fits, counted]
    unfold index idCount
    omega
  rw [segmented.resift_stays inside positive (row.slots _ upward)
    (row.key_le (le_of_lt upward)) childless]
  obtain ⟨after, ran, kept, others, sameOrder⟩ :=
    segmented.set_exists inside count
  refine
    ⟨after, ran, kept, others, others.heapKey.trans row.heapKey, ?_⟩
  intro position before
  rw [sameOrder]
  rcases Nat.lt_succ_iff_lt_or_eq.mp before with earlier | rfl
  · rw [IndexedHeap.set_slot_other (by omega)]
    exact row.slots position earlier
  · exact IndexedHeap.set_slot_same position

end

/-- Inserting the timers one by one leaves them in a row. -/
theorem Row.insert
    {members : List Nat}
    (rows : ∀ id, Row id members.length dth)
    (sound : Sound ⟨dth, members⟩)
    (inhabited : members ≠ [])
    (fits : members.length < 2 ^ 30) :
    ∃ after,
      dth.insert 1 members.length = some after ∧
      ∀ id, Row id (members.length + 1) after := by
  obtain ⟨prepared, chain, segmented, ready, inserts⟩ :=
    sound.insert_eq inhabited members.length
  have positive := List.length_pos_of_ne_nil inhabited
  have readyRow := fun id => (rows id).of_prepared ready
  obtain ⟨between, ranTarget, betweenSegments, keptTarget, targetRow⟩ :=
    (readyRow .target).resift segmented positive ready.counted ready.room fits
  obtain ⟨after, ranDeadline, -, keptDeadline, deadlineRow⟩ :=
    ((readyRow .deadline).of_kept keptTarget (by decide)).resift
      betweenSegments positive (keptTarget.count.trans ready.counted)
      (keptTarget.segments ▸ ready.room) fits
  refine ⟨after, ?_, ?_⟩
  · rw [inserts, ranTarget, Option.bind_some, ranDeadline]
  · intro id
    cases id with
    | target => exact targetRow.of_kept keptDeadline (by decide)
    | deadline => exact deadlineRow

end Rows

/-- The timers `count - 1`, …, `0`. -/
def latestFirst : Nat → List Nat
  | 0 => []
  | count + 1 => count :: latestFirst count

theorem length_latestFirst (count : Nat) :
    (latestFirst count).length = count := by
  induction count with
  | zero => rfl
  | succ count inductionHypothesis =>
    rw [latestFirst, List.length_cons, inductionHypothesis]

theorem mem_latestFirst {timer count : Nat} :
    timer ∈ latestFirst count ↔ timer < count := by
  induction count with
  | zero => simp [latestFirst]
  | succ count inductionHypothesis =>
    rw [latestFirst, List.mem_cons, inductionHypothesis]
    omega

/-- A heap of up to `2 ^ 30` timers in a row can be reached. -/
theorem exists_row
    {count : Nat}
    (fits : count < 2 ^ 30) :
    ∃ dth,
      Reachable Initial StepWithin ⟨dth, latestFirst (count + 1)⟩ ∧
      ∀ id, Row id (count + 1) dth := by
  induction count with
  | zero =>
    have sound := emptyHeap_initial.sound
    obtain ⟨after, ran, isSound, sameKey⟩ := sound.insert_first 0 0
    refine
      ⟨after,
        .next (.start emptyHeap_initial)
          ⟨.insert List.not_mem_nil ran, show 1 ≤ 2 ^ 30 by decide⟩,
        fun id => ⟨sameKey, ?_⟩⟩
    intro position inside
    obtain rfl : position = 0 := Nat.lt_one_iff.mp inside
    obtain ⟨held, heldAt, isMember, -⟩ :=
      (isSound.heaped id).filled 0 Nat.one_pos
    rwa [List.mem_singleton.mp isMember] at heldAt
  | succ count inductionHypothesis =>
    obtain ⟨dth, reached, row⟩ := inductionHypothesis (by omega)
    have length := length_latestFirst (count + 1)
    have sound := reachable_sound reached
    rw [← length] at row
    obtain ⟨after, ran, nextRow⟩ :=
      Row.insert row sound (List.cons_ne_nil _ _) (by omega)
    rw [length] at ran nextRow
    refine ⟨after, .next reached ⟨.insert ?_ ran, ?_⟩, nextRow⟩
    · exact fun isMember => absurd (mem_latestFirst.mp isMember) (by omega)
    · show (latestFirst (count + 1 + 1)).length ≤ maxTimers
      rw [length_latestFirst]
      exact fits

/-- The left child of the last slot wraps around to the first child of the root,
which moves to the end although it is one of the least timers. -/
theorem Row.resift_wraps
    {chain : Nat → Nat}
    {dth : TimerHeap Nat}
    {count : Nat}
    {id : HeapId}
    (row : Row id count dth)
    (segmented : Segmented chain dth)
    (counted : dth.count = 2 * count + 2)
    (room : 2 * count + 2 ≤ capacity dth.segments)
    (isFull : count = 2 ^ 30) :
    ∃ after,
      dth.resift 2 count (index id count) = some after ∧
      Segmented chain after ∧
      Kept id (fun _ => True) dth after ∧
      (after.order id).slot count = some 1 ∧
      ∀ position < count,
        position ≠ 1 →
        (after.order id).slot position = some position := by
  have number := number_lt id
  have positive : 0 < count := by omega
  have upward := IndexedHeap.parent_lt positive
  have inside : index id count < capacity dth.segments :=
    Nat.lt_of_lt_of_le (index_lt (Nat.lt_succ_self count)) room
  have firstInside : index id 1 < capacity dth.segments := by
    unfold index idCount at inside ⊢
    omega
  have keys :
      ∀ timer,
        dth.heapKey timer id = if timer < 2 then 0 else 1 := by
    intro timer
    rw [row.heapKey]
    rfl
  have wraps : leftChild (index id count) = index id 1 := by
    rw [leftChild, heapId_index]
    unfold index word idCount
    omega
  have next : leftChild (index id 1) = index id 3 :=
    leftChild_index (show 1 < count by omega) (by omega)
  have siblings :
      ∀ position,
        position + 1 < count →
        index id (position + 1) < 2 * count + 2 ∧
        index id (position + 1) < 2 ^ 32 := by
    intro position before
    unfold index idCount
    omega
  obtain ⟨moved, movedRan, movedSegments, movedKept, movedOrder⟩ :=
    segmented.set_exists inside 1
  have movedCount : moved.count = 2 * count + 2 :=
    movedKept.count.trans counted
  have movedSlots :
      ∀ position < count,
        (moved.order id).slot position = some position := by
    intro position before
    rw [movedOrder, IndexedHeap.set_slot_other (by omega)]
    exact row.slots position before
  obtain ⟨after, ran, followingSegments, followingKept, followingOrder⟩ :=
    movedSegments.set_exists (movedKept.segments ▸ firstInside) count
  have descends :
      siftDown count id 2
          ⟨dth, locate chain (index id count), index id count⟩ =
        siftDown count id 1
          ⟨moved, locate chain (index id 1), index id 1⟩ := by
    obtain ⟨inCount, inWord⟩ := siblings 1 (by omega)
    have child :=
      segmented.smallerChild_left (counted ▸ inCount) (by omega) inWord
        (row.slots 1 (by omega)) (row.slots 2 (by omega))
        (row.key_le (by omega))
    have hasChild : index id 1 < dth.count := by
      unfold index idCount at *
      omega
    have larger : ¬ dth.heapKey count id ≤ dth.heapKey 1 id := by
      rw [keys, keys, if_neg (by omega), if_pos (by omega)]
      omega
    rw [siftDown]
    simp only [wraps, if_pos hasChild, child, Option.bind_eq_bind,
      Option.bind_some, if_neg larger, movedRan]
  have stops :
      siftDown count id 1 ⟨moved, locate chain (index id 1), index id 1⟩ =
        some ⟨moved, locate chain (index id 1), index id 1⟩ := by
    obtain ⟨inCount, inWord⟩ := siblings 3 (by omega)
    have child :=
      movedSegments.smallerChild_left (movedCount ▸ inCount)
        (by rw [movedCount, movedKept.segments]; exact room) inWord
        (movedSlots 3 (by omega)) (movedSlots 4 (by omega))
        (by rw [movedKept.heapKey]; exact row.key_le (by omega))
    have hasChild : index id 3 < moved.count := by
      unfold index idCount at *
      omega
    have fits : moved.heapKey count id ≤ moved.heapKey 3 id := by
      rw [movedKept.heapKey, keys, keys, if_neg (by omega), if_neg (by omega)]
    rw [siftDown]
    simp only [next, if_pos hasChild, child, Option.bind_eq_bind,
      Option.bind_some, if_pos fits]
  refine
    ⟨after, ?_, followingSegments, movedKept.trans followingKept, ?_, ?_⟩
  · unfold TimerHeap.resift
    simp only [heapId_index, segmented.getSlot_eq inside,
      segmented.siftUp_stays inside positive (row.slots _ upward)
        (row.key_le (le_of_lt upward)),
      Option.bind_eq_bind, Option.bind_some, settle, Bool.false_eq_true,
      if_false, descends, stops, ran]
  · rw [followingOrder, IndexedHeap.set_slot_other (by omega), movedOrder,
      IndexedHeap.set_slot_same]
  · intro position before notFirst
    rw [followingOrder, IndexedHeap.set_slot_other notFirst]
    exact movedSlots position before

/-- Inserting a timer into a full heap puts one of the least timers below one
that is larger. -/
theorem Row.insert_wraps
    {dth : TimerHeap Nat}
    {members : List Nat}
    (rows : ∀ id, Row id members.length dth)
    (sound : Sound ⟨dth, members⟩)
    (isFull : members.length = 2 ^ 30) :
    ∃ after,
      dth.insert 2 members.length = some after ∧
      after.heapKey = emptyHeap.heapKey ∧
      after.count = 2 * members.length + 2 ∧
      after.stored (index .target members.length) = some 1 ∧
      ∀ position < members.length,
        position ≠ 1 →
        after.stored (index .target position) = some position := by
  have inhabited : members ≠ [] := by
    rintro rfl
    cases isFull
  obtain ⟨prepared, chain, segmented, ready, inserts⟩ :=
    sound.insert_eq inhabited members.length
  have readyRow := fun id => (rows id).of_prepared ready
  obtain ⟨between, ranTarget, betweenSegments, keptTarget, atEnd, others⟩ :=
    (readyRow .target).resift_wraps segmented ready.counted ready.room isFull
  have betweenCount := keptTarget.count.trans ready.counted
  have betweenRoom :
      2 * members.length + 2 ≤ capacity between.segments :=
    keptTarget.segments ▸ ready.room
  obtain ⟨after, ranDeadline, -, keptDeadline, -, -⟩ :=
    ((readyRow .deadline).of_kept keptTarget (by decide)).resift_wraps
      betweenSegments betweenCount betweenRoom isFull
  have stored :
      ∀ position < members.length + 1,
        after.stored (index .target position) =
          (between.order .target).slot position := by
    intro position inside
    rw [← keptDeadline.others .target (by decide), order_slot]
    rw [keptDeadline.segments]
    exact Nat.lt_of_lt_of_le (index_lt inside) betweenRoom
  refine
    ⟨after, ?_,
      keptDeadline.heapKey.trans
        (keptTarget.heapKey.trans (readyRow .target).heapKey),
      keptDeadline.count.trans betweenCount, ?_, ?_⟩
  · rw [inserts, ranTarget, Option.bind_some, ranDeadline]
  · rw [stored _ (Nat.lt_succ_self _), atEnd]
  · intro position inside notFirst
    rw [stored _ (by omega), others position inside notFirst]

/-- With one timer more than `maxTimers` the heap may not be ordered. -/
theorem overfull_not_isDoubleHeap :
    ∃ state : Populated Nat,
      Reachable Initial Step state ∧
      state.members.length = maxTimers + 1 ∧
      ¬ IsDoubleHeap state := by
  obtain ⟨count, isFull⟩ : ∃ count, count + 1 = 2 ^ 30 :=
    ⟨2 ^ 30 - 1, by decide⟩
  obtain ⟨dth, reached, row⟩ :=
    exists_row (show count < 2 ^ 30 by omega)
  have length := length_latestFirst (count + 1)
  rw [← length] at row
  obtain ⟨after, ran, keys, counted, atEnd, others⟩ :=
    Row.insert_wraps row (reachable_sound reached) (length.trans isFull)
  rw [length] at ran counted atEnd others
  refine
    ⟨⟨after, (count + 1) :: latestFirst (count + 1)⟩,
      .next (reached.mono And.left) (.insert ?outside ran), ?length, ?broken⟩
  case outside =>
    exact fun isMember => absurd (mem_latestFirst.mp isMember) (by omega)
  case length =>
    show (latestFirst (count + 1)).length + 1 = maxTimers + 1
    rw [length, isFull]
    rfl
  case broken =>
    intro isDoubleHeap
    have inside : index .target (count + 1) < after.count := by
      rw [counted]
      exact index_lt (Nat.lt_succ_self _)
    have upward := IndexedHeap.parent_lt (Nat.succ_pos count)
    have far : 1 < IndexedHeap.parent (count + 1) := by
      unfold IndexedHeap.parent
      omega
    have parentAt :
        after.stored (parent (index .target (count + 1))) =
          some (IndexedHeap.parent (count + 1)) := by
      rw [parent_index .target (Nat.succ_pos count)]
      exact others _ upward (Nat.ne_of_gt far)
    have hasParent : idCount ≤ index .target (count + 1) := by
      unfold index idCount
      omega
    have ordered :=
      isDoubleHeap.ordered _ _ _ hasParent inside parentAt atEnd
    simp only [keys, emptyHeap] at ordered
    rw [if_neg (by omega), if_pos (by omega)] at ordered
    omega

end LibDispatch.TimerHeap
