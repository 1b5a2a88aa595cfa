import LibDispatch.IndexedHeap
import LibDispatch.TimerHeapMemory

namespace LibDispatch.TimerHeap

/-!
# Sifting in a heap of timers

The even and the odd slots of a heap of timers are each a heap whose items know
their place.  Sifting a timer from a slot moves a hole through one of the two
heaps, and leaves the other one and the timers outside as they are.
-/

open IndexedHeap (Heaped Holed FitsAbove FitsBelow)

section Order

variable {Timer : Type}

variable (id : HeapId)

/-- The index of a position of one of the heaps. -/
def index (position : Nat) : Nat :=
  idCount * position + id.number

/-- One of the two heaps. -/
def order (dth : TimerHeap Timer) (id : HeapId) : IndexedHeap Timer where
  slot position :=
    if index id position < capacity dth.segments then
      dth.stored (index id position)
    else none
  entry timer := dth.heapEntry timer id

/-- What one of the heaps is ordered by. -/
def keyOf (dth : TimerHeap Timer) (id : HeapId) (timer : Timer) : Nat :=
  dth.heapKey timer id

/-! ## Indices -/

theorem number_lt : id.number < 2 := by
  cases id <;> decide

theorem heapId_index (position : Nat) :
    heapId (index id position) = id := by
  unfold heapId index idCount
  cases id with
  | target => exact if_pos (by simp [HeapId.number])
  | deadline => exact if_neg (by simp only [HeapId.number]; omega)

theorem index_injective : Function.Injective (index id) := by
  intro first second same
  unfold index idCount at same
  omega

theorem index_ne_of_ne
    {id other : HeapId}
    (differs : other ≠ id)
    (first second : Nat) :
    index other first ≠ index id second := by
  intro same
  exact differs
    ((heapId_index other first).symm.trans (same ▸ heapId_index id second))

variable {position : Nat}

theorem index_lt
    {id : HeapId}
    {count : Nat}
    (inside : position < count) :
    index id position < 2 * count := by
  have := number_lt id
  unfold index idCount
  omega

theorem lt_of_index_lt
    {id : HeapId}
    {count : Nat}
    (inside : index id position < 2 * count) :
    position < count := by
  unfold index idCount at inside
  omega

/-- The parent of an index is the index of the parent. -/
theorem parent_index
    (positive : 0 < position) :
    parent (index id position) = index id (IndexedHeap.parent position) := by
  have := number_lt id
  rw [parent, idxForHeapId, heapId_index]
  unfold index IndexedHeap.parent idCount
  omega

/-- The left child of an index, as long as it fits a word. -/
theorem leftChild_index
    {id : HeapId}
    {count : Nat}
    (inside : position < count)
    (fits : count ≤ 2 ^ 30) :
    leftChild (index id position) = index id (2 * position + 1) := by
  have := number_lt id
  rw [leftChild, heapId_index]
  unfold index word idCount
  omega

/-! ## Writing a slot -/

/-- What sifting in one of the heaps leaves as it is. -/
structure Kept
    (id : HeapId)
    (Member : Timer → Prop)
    (dth after : TimerHeap Timer) :
    Prop where
  count : after.count = dth.count
  segments : after.segments = dth.segments
  heapKey : after.heapKey = dth.heapKey
  others : ∀ other, other ≠ id → after.order other = dth.order other
  outside :
    ∀ timer,
      ¬ Member timer →
      after.heapEntry timer id = dth.heapEntry timer id

theorem Kept.refl
    (Member : Timer → Prop)
    (dth : TimerHeap Timer) :
    Kept id Member dth dth :=
  { count := rfl
    segments := rfl
    heapKey := rfl
    others := fun _ _ => rfl
    outside := fun _ _ => rfl }

theorem Kept.trans
    {id : HeapId}
    {Member : Timer → Prop}
    {first second third : TimerHeap Timer}
    (earlier : Kept id Member first second)
    (later : Kept id Member second third) :
    Kept id Member first third :=
  { count := later.count.trans earlier.count
    segments := later.segments.trans earlier.segments
    heapKey := later.heapKey.trans earlier.heapKey
    others := fun other differs =>
      (later.others other differs).trans (earlier.others other differs)
    outside := fun timer isOutside =>
      (later.outside timer isOutside).trans (earlier.outside timer isOutside) }

variable {chain : Nat → Nat} {dth : TimerHeap Timer}
variable {id : HeapId} {Member : Timer → Prop}

/-- A position whose index is below the capacity. -/
theorem order_slot
    (inside : index id position < capacity dth.segments) :
    (dth.order id).slot position =
      dth.stored (index id position) :=
  if_pos inside

/-- Writing a slot is writing one position of one heap. -/
theorem Segmented.store_order
    (segmented : Segmented chain dth)
    (inside : index id position < capacity dth.segments)
    (value : Option Timer) :
    ∃ after,
      dth.store (locate chain (index id position)) value =
        some after ∧
      Segmented chain after ∧
      OnlySlots dth after ∧
      (∀ other, other ≠ id →
        after.order other = dth.order other) ∧
      (after.order id).slot =
        Function.update (dth.order id).slot position value := by
  obtain ⟨after, ran, kept, onlySlots, slots⟩ :=
    segmented.store_spec inside value
  refine ⟨after, ran, kept, onlySlots, ?_, ?_⟩
  · intro other differs
    refine congrArg₂ IndexedHeap.mk ?_ (by rw [onlySlots.heapEntry])
    funext place
    rw [onlySlots.segments]
    split_ifs with placeInside
    · rw [slots _ placeInside,
        Function.update_of_ne (index_ne_of_ne differs place position)]
    · rfl
  · funext place
    simp only [order, onlySlots.segments]
    by_cases same : place = position
    · subst same
      rw [Function.update_self, if_pos inside, slots _ inside,
        Function.update_self]
    · have differs : index id place ≠ index id position :=
        fun sameIndex => same (index_injective id sameIndex)
      rw [Function.update_of_ne same]
      split_ifs with placeInside
      · rw [slots _ placeInside, Function.update_of_ne differs]
      · rfl

/-- `_dispatch_timer_heap_set` puts a timer at one position of one heap. -/
theorem Segmented.set_spec
    [DecidableEq Timer]
    (segmented : Segmented chain dth)
    (inside : index id position < capacity dth.segments)
    {timer : Timer}
    (isMember : Member timer) :
    ∃ after,
      dth.set (locate chain (index id position)) timer
          (index id position) =
        some after ∧
      Segmented chain after ∧
      Kept id Member dth after ∧
      after.order id =
        (dth.order id).set (index id) position timer := by
  obtain
    ⟨programmed, isProgrammed, programmedSegments, sameOrder, onlyProgram⟩ :
      ∃ programmed,
        (if index id position < idCount then
            { dth with needsProgram := true }
          else dth) = programmed ∧
        Segmented chain programmed ∧
        programmed.order = dth.order ∧
        OnlySlots dth programmed := by
    refine ⟨_, rfl, ?_⟩
    split_ifs
    · exact ⟨{ segmented with }, rfl, ⟨rfl, rfl, rfl, rfl⟩⟩
    · exact ⟨segmented, rfl, ⟨rfl, rfl, rfl, rfl⟩⟩
  obtain ⟨written, ran, writtenSegments, onlySlots, others, slots⟩ :=
    programmedSegments.store_order
      (by rw [onlyProgram.segments]; exact inside) (some timer)
  have sameEntry : written.heapEntry = dth.heapEntry :=
    onlySlots.heapEntry.trans onlyProgram.heapEntry
  rw [sameOrder] at others slots
  refine
    ⟨written.setEntry timer id (index id position), ?_,
      { writtenSegments with }, ?_, ?_⟩
  · simp only [set, isProgrammed, ran, Option.bind_eq_bind, Option.bind_some,
      heapId_index]
  · refine
      { count := onlySlots.count.trans onlyProgram.count
        segments := onlySlots.segments.trans onlyProgram.segments
        heapKey := onlySlots.heapKey.trans onlyProgram.heapKey
        others := ?others
        outside := ?outside }
    case others =>
      intro other differs
      rw [← others other differs]
      refine congrArg₂ IndexedHeap.mk rfl ?_
      funext another
      by_cases same : another = timer
      · subst same
        simp [setEntry, differs]
      · simp [setEntry, same]
    case outside =>
      intro another isOutside
      have differs : another ≠ timer := by
        rintro rfl
        exact isOutside isMember
      simp [setEntry, differs, sameEntry]
  · refine congrArg₂ IndexedHeap.mk slots ?_
    funext another
    by_cases same : another = timer
    · subst same
      simp [setEntry]
    · simp [setEntry, same, order, sameEntry]

/-! ## The loops -/

/-- An outcome that meets a specification, or that is missing because there was
too little fuel. -/
inductive Meets
    {Outcome : Type}
    (spec : Outcome → Prop)
    (needed fuel : Nat) :
    Option Outcome → Prop where
  | returns
      {outcome : Outcome}
      (holds : spec outcome) :
      Meets spec needed fuel (some outcome)
  | stops
      (tooLittle : fuel < needed) :
      Meets spec needed fuel none

variable {needed fuel : Nat}

theorem Meets.bind
    {First Second : Type}
    {firstSpec : First → Prop}
    {secondSpec : Second → Prop}
    {first : Option First}
    {second : First → Option Second}
    (meets : Meets firstSpec needed fuel first)
    (continues :
      ∀ outcome,
        firstSpec outcome →
        Meets secondSpec needed fuel (second outcome)) :
    Meets secondSpec needed fuel (first >>= second) := by
  cases meets with
  | returns holds => exact continues _ holds
  | stops tooLittle => exact .stops tooLittle

variable {Outcome : Type} {spec : Outcome → Prop} {result : Option Outcome}

theorem Meets.imp
    {weaker : Outcome → Prop}
    (meets : Meets spec needed fuel result)
    (implies : ∀ outcome, spec outcome → weaker outcome) :
    Meets weaker needed fuel result := by
  cases meets with
  | returns holds => exact .returns (implies _ holds)
  | stops tooLittle => exact .stops tooLittle

theorem Meets.of_le
    {more : Nat}
    (meets : Meets spec needed fuel result)
    (enough : needed ≤ more) :
    Meets spec more fuel result := by
  cases meets with
  | returns holds => exact .returns holds
  | stops tooLittle => exact .stops (Nat.lt_of_lt_of_le tooLittle enough)

/-- One iteration takes one unit of fuel. -/
theorem Meets.iterate
    {more : Nat}
    (meets : Meets spec needed fuel result)
    (closer : needed < more) :
    Meets spec more (fuel + 1) result := by
  cases meets with
  | returns holds => exact .returns holds
  | stops tooLittle =>
    exact .stops (Nat.lt_of_lt_of_le (Nat.succ_lt_succ tooLittle) closer)

/-- A heap of `count` timers that has room for them, and whose indices fit a
word. -/
structure Roomy (dth : TimerHeap Timer) (count : Nat) : Prop where
  counted : dth.count = 2 * count
  room : 2 * count ≤ capacity dth.segments
  fits : count ≤ 2 ^ 30

theorem Roomy.of_kept
    {after : TimerHeap Timer}
    {count : Nat}
    (roomy : Roomy dth count)
    (kept : Kept id Member dth after) :
    Roomy after count :=
  { roomy with
    counted := kept.count.trans roomy.counted
    room := kept.segments ▸ roomy.room }

theorem Roomy.index_lt
    {count : Nat}
    (roomy : Roomy dth count)
    (inside : position < count) :
    index id position < capacity dth.segments :=
  Nat.lt_of_lt_of_le (TimerHeap.index_lt inside) roomy.room

/-- What a position holds is in the slot of its index. -/
theorem Roomy.load_eq
    {count : Nat}
    (roomy : Roomy dth count)
    (segmented : Segmented chain dth)
    (inside : position < count) :
    dth.load (locate chain (index id position)) =
      (dth.order id).slot position := by
  rw [order_slot (roomy.index_lt inside),
    segmented.stored_eq (roomy.index_lt inside)]

variable {origin : TimerHeap Timer} {count hole : Nat} {timer : Timer}
variable {cursor : Cursor Timer}

/-- A loop of `_dispatch_timer_heap_resift` that stands at a hole. -/
structure Sifting
    (chain : Nat → Nat)
    (origin : TimerHeap Timer)
    (id : HeapId)
    (Member : Timer → Prop)
    (count hole : Nat)
    (timer : Timer)
    (cursor : Cursor Timer) :
    Prop where
  segmented : Segmented chain cursor.dth
  kept : Kept id Member origin cursor.dth
  roomy : Roomy cursor.dth count
  atSlot : cursor.slot = locate chain cursor.idx
  atIndex : cursor.idx = index id hole
  holed :
    Holed (index id) (origin.keyOf id) Member (cursor.dth.order id) count
      hole timer

section

variable (sifting : Sifting chain origin id Member count hole timer cursor)

include sifting

/-- Moving a timer into the hole takes the loop to where the timer was. -/
theorem Sifting.move
    [DecidableEq Timer]
    {place : Nat}
    {moved : Timer}
    (isMember : Member moved)
    (holed :
      Holed (index id) (origin.keyOf id) Member
        ((cursor.dth.order id).set (index id) hole moved) count place
        timer) :
    ∃ after,
      cursor.dth.set cursor.slot moved cursor.idx = some after ∧
      after.order id =
        (cursor.dth.order id).set (index id) hole moved ∧
      Sifting chain origin id Member count place timer
        ⟨after, locate chain (index id place), index id place⟩ := by
  obtain ⟨after, ran, segmented, kept, sameOrder⟩ :=
    sifting.segmented.set_spec
      (sifting.roomy.index_lt sifting.holed.spread.inside) isMember
  refine ⟨after, ?_, sameOrder, ?_⟩
  · rw [sifting.atSlot, sifting.atIndex]
    exact ran
  · exact
      { segmented := segmented
        kept := sifting.kept.trans kept
        roomy := sifting.roomy.of_kept kept
        atSlot := rfl
        atIndex := rfl
        holed := by rw [sameOrder]; exact holed }

/-- The timer at a position other than the hole, as the loop reads it. -/
theorem Sifting.read
    (inside : position < count)
    (off : position ≠ hole) :
    ∃ held,
      cursor.dth.getSlot (index id position) =
        some (locate chain (index id position)) ∧
      cursor.dth.load (locate chain (index id position)) = some held ∧
      (cursor.dth.order id).slot position = some held ∧
      Member held := by
  obtain ⟨held, heldAt, -, isMember, -⟩ :=
    sifting.holed.spread.filled position inside off
  exact
    ⟨held, sifting.segmented.getSlot_eq (sifting.roomy.index_lt inside),
      (sifting.roomy.load_eq sifting.segmented inside).trans heldAt, heldAt,
      isMember⟩

/-- Where the first loop may end. -/
def Raised
    (chain : Nat → Nat)
    (origin : TimerHeap Timer)
    (id : HeapId)
    (Member : Timer → Prop)
    (count : Nat)
    (timer : Timer)
    (outcome : Cursor Timer × Bool) :
    Prop :=
  ∃ place,
    Sifting chain origin id Member count place timer outcome.1 ∧
    FitsAbove (origin.keyOf id) (outcome.1.dth.order id) place timer ∧
    (outcome.2 = true →
      FitsBelow (origin.keyOf id) (outcome.1.dth.order id) count place
        timer)

omit sifting in
/-- The first loop ends where the timer fits below its parent. -/
theorem Sifting.siftUp_meets
    [DecidableEq Timer]
    (fuel : Nat) :
    ∀ {hole : Nat} {cursor : Cursor Timer} {siftedUp : Bool},
      Sifting chain origin id Member count hole timer cursor →
      (siftedUp = true →
        FitsBelow (origin.keyOf id) (cursor.dth.order id) count hole
          timer) →
      Meets (Raised chain origin id Member count timer) (hole + 1) fuel
        (siftUp timer id fuel cursor siftedUp) := by
  induction fuel with
  | zero =>
    intro hole cursor siftedUp sifting fitsBelow
    exact .stops (Nat.succ_pos hole)
  | succ fuel inductionHypothesis =>
    intro hole cursor siftedUp sifting fitsBelow
    unfold siftUp
    have atRoot : cursor.idx < idCount ↔ hole = 0 := by
      have := number_lt id
      rw [sifting.atIndex]
      unfold index idCount
      omega
    split_ifs with isRoot
    · refine .returns ⟨hole, sifting, ?_, fitsBelow⟩
      intro above positive
      have := atRoot.mp isRoot
      omega
    · have positive : 0 < hole := by
        rw [atRoot] at isRoot
        omega
      have upward := IndexedHeap.parent_lt positive
      have parentInside : IndexedHeap.parent hole < count :=
        upward.trans sifting.holed.spread.inside
      obtain ⟨above, gotSlot, loaded, aboveAt, isMember⟩ :=
        sifting.read parentInside (by omega)
      have parentIdx :
          parent cursor.idx = index id (IndexedHeap.parent hole) := by
        rw [sifting.atIndex, parent_index id positive]
      simp only [parentIdx, gotSlot, loaded, Option.bind_eq_bind,
        Option.bind_some, sifting.kept.heapKey]
      split_ifs with fits
      · refine .returns ⟨hole, sifting, ?_, fitsBelow⟩
        intro other _ otherAt
        obtain rfl := Option.some.inj (aboveAt.symm.trans otherAt)
        exact fits
      · obtain ⟨after, ran, sameOrder, next⟩ :=
          sifting.move isMember
            (sifting.holed.pullDown (index_injective id) positive aboveAt)
        simp only [ran, Option.bind_some]
        refine
          (inductionHypothesis next fun _ => ?_).iterate
            (Nat.succ_lt_succ upward)
        rw [sameOrder]
        exact
          sifting.holed.fitsBelow_pullDown positive aboveAt
            (le_of_lt (not_le.mp fits))

omit sifting in
/-- The children of a hole are next to each other. -/
theorem parent_eq_iff
    (positive : 0 < position) :
    IndexedHeap.parent position = hole ↔
      position = 2 * hole + 1 ∨ position = 2 * hole + 2 := by
  unfold IndexedHeap.parent
  omega

/-- The child that the second loop looks at is the smaller one. -/
theorem Sifting.smallerChild_spec
    (inside : 2 * hole + 1 < count) :
    ∃ child smaller,
      cursor.dth.smallerChild id (index id (2 * hole + 1)) =
        some (index id child, locate chain (index id child), smaller) ∧
      0 < child ∧
      child < count ∧
      IndexedHeap.parent child = hole ∧
      (cursor.dth.order id).slot child = some smaller ∧
      Member smaller ∧
      FitsBelow (origin.keyOf id) (cursor.dth.order id) count hole
        smaller := by
  obtain ⟨left, leftSlot, leftLoaded, leftAt, leftMember⟩ :=
    sifting.read inside (by omega)
  have rightIdx :
      word (index id (2 * hole + 1) + idCount) = index id (2 * hole + 2) := by
    have := number_lt id
    have := sifting.roomy.fits
    unfold index word idCount
    omega
  have rightInside :
      index id (2 * hole + 2) < cursor.dth.count ↔
        2 * hole + 2 < count := by
    rw [sifting.roomy.counted]
    exact ⟨lt_of_index_lt, index_lt⟩
  unfold smallerChild
  simp only [rightIdx, leftSlot, leftLoaded, Option.bind_eq_bind,
    Option.bind_some, rightInside, sifting.kept.heapKey]
  split_ifs with hasRight
  · obtain ⟨right, rightSlot, rightLoaded, rightAt, rightMember⟩ :=
      sifting.read hasRight (by omega)
    simp only [rightSlot, rightLoaded, Option.bind_some]
    -- what is below the hole is one of the two timers that are compared
    have below :
        ∀ smaller,
          origin.keyOf id smaller ≤ origin.keyOf id left →
          origin.keyOf id smaller ≤ origin.keyOf id right →
          FitsBelow (origin.keyOf id) (cursor.dth.order id) count hole
            smaller := by
      intro smaller leLeft leRight position other positive _ child otherAt
      rcases (parent_eq_iff positive).mp child with rfl | rfl
      · rwa [Option.some.inj (otherAt.symm.trans leftAt)]
      · rwa [Option.some.inj (otherAt.symm.trans rightAt)]
    split_ifs with rightSmaller
    · exact
        ⟨2 * hole + 2, right, rfl, by omega, hasRight,
          (parent_eq_iff (by omega)).mpr (Or.inr rfl), rightAt, rightMember,
          below right (le_of_lt rightSmaller) le_rfl⟩
    · exact
        ⟨2 * hole + 1, left, rfl, by omega, inside,
          (parent_eq_iff (by omega)).mpr (Or.inl rfl), leftAt, leftMember,
          below left le_rfl (not_lt.mp rightSmaller)⟩
  · refine
      ⟨2 * hole + 1, left, rfl, by omega, inside,
        (parent_eq_iff (by omega)).mpr (Or.inl rfl), leftAt, leftMember, ?_⟩
    intro position other positive positionInside child otherAt
    rcases (parent_eq_iff positive).mp child with rfl | rfl
    · rw [Option.some.inj (otherAt.symm.trans leftAt)]
    · exact absurd positionInside hasRight

end

/-- Where the second loop ends. -/
def Settled
    (chain : Nat → Nat)
    (origin : TimerHeap Timer)
    (id : HeapId)
    (Member : Timer → Prop)
    (count : Nat)
    (timer : Timer)
    (cursor : Cursor Timer) :
    Prop :=
  ∃ place,
    Sifting chain origin id Member count place timer cursor ∧
    FitsAbove (origin.keyOf id) (cursor.dth.order id) place timer ∧
    FitsBelow (origin.keyOf id) (cursor.dth.order id) count place timer

/-- The second loop ends where the timer also fits above its children. -/
theorem Sifting.siftDown_meets
    [DecidableEq Timer]
    (fuel : Nat) :
    ∀ {hole : Nat} {cursor : Cursor Timer},
      Sifting chain origin id Member count hole timer cursor →
      FitsAbove (origin.keyOf id) (cursor.dth.order id) hole timer →
      Meets (Settled chain origin id Member count timer) (count - hole) fuel
        (siftDown timer id fuel cursor) := by
  induction fuel with
  | zero =>
    intro hole cursor sifting fitsAbove
    have inside := sifting.holed.spread.inside
    exact .stops (Nat.sub_pos_of_lt inside)
  | succ fuel inductionHypothesis =>
    intro hole cursor sifting fitsAbove
    have inside := sifting.holed.spread.inside
    have childIdx :
        leftChild cursor.idx = index id (2 * hole + 1) := by
      rw [sifting.atIndex, leftChild_index inside sifting.roomy.fits]
    have hasChild :
        index id (2 * hole + 1) < cursor.dth.count ↔
          2 * hole + 1 < count := by
      rw [sifting.roomy.counted]
      exact ⟨lt_of_index_lt, index_lt⟩
    unfold siftDown
    simp only [childIdx, hasChild]
    split_ifs with leftInside
    · obtain ⟨child, smaller, found, positive, childInside, isChild,
          smallerAt, isMember, least⟩ :=
        sifting.smallerChild_spec leftInside
      have downward := IndexedHeap.parent_lt positive
      simp only [found, Option.bind_eq_bind, Option.bind_some,
        sifting.kept.heapKey]
      split_ifs with fits
      · refine .returns ⟨hole, sifting, fitsAbove, ?_⟩
        intro position other otherPositive otherInside otherChild otherAt
        exact
          le_trans fits
            (least position other otherPositive otherInside otherChild
              otherAt)
      · obtain ⟨after, ran, sameOrder, next⟩ :=
          sifting.move isMember
            (sifting.holed.pushUp (index_injective id) positive childInside
              isChild smallerAt least)
        simp only [ran, Option.bind_some]
        have closer : count - child < count - hole := by omega
        refine (inductionHypothesis next ?_).iterate closer
        rw [sameOrder]
        exact
          IndexedHeap.fitsAbove_pushUp isChild (le_of_lt (not_le.mp fits))
    · refine .returns ⟨hole, sifting, fitsAbove, ?_⟩
      intro position other positive positionInside child
      rcases (parent_eq_iff positive).mp child with rfl | rfl <;> omega

/-- What `_dispatch_timer_heap_resift` achieves. -/
structure Resifted
    (chain : Nat → Nat)
    (id : HeapId)
    (Member : Timer → Prop)
    (count : Nat)
    (dth after : TimerHeap Timer) :
    Prop where
  segmented : Segmented chain after
  kept : Kept id Member dth after
  heaped :
    Heaped (index id) (dth.keyOf id) Member (after.order id) count

/-- Writing the timer where the loops have ended makes the heap whole. -/
theorem Settled.set_meets
    [DecidableEq Timer]
    (settled : Settled chain origin id Member count timer cursor)
    (needed fuel : Nat) :
    Meets (Resifted chain id Member count origin) needed fuel
      (cursor.dth.set cursor.slot timer cursor.idx) := by
  obtain ⟨place, sifting, fitsAbove, fitsBelow⟩ := settled
  obtain ⟨after, ran, segmented, kept, sameOrder⟩ :=
    sifting.segmented.set_spec
      (sifting.roomy.index_lt sifting.holed.spread.inside)
      sifting.holed.spread.member
  rw [sifting.atSlot, sifting.atIndex, ran]
  exact .returns
    { segmented := segmented
      kept := sifting.kept.trans kept
      heaped := by
        rw [sameOrder]
        exact sifting.holed.fill fitsAbove fitsBelow }

/-- `_dispatch_timer_heap_resift` fills the hole that waits for the timer. -/
theorem Segmented.resift_meets
    [DecidableEq Timer]
    (segmented : Segmented chain dth)
    (roomy : Roomy dth count)
    (holed :
      Holed (index id) (dth.keyOf id) Member (dth.order id) count
        hole timer)
    (fuel : Nat) :
    Meets (Resifted chain id Member count dth) count fuel
      (dth.resift fuel timer (index id hole)) := by
  have inside := holed.spread.inside
  have start :
      Sifting chain dth id Member count hole timer
        ⟨dth, locate chain (index id hole), index id hole⟩ :=
    { segmented := segmented
      kept := Kept.refl id Member dth
      roomy := roomy
      atSlot := rfl
      atIndex := rfl
      holed := holed }
  unfold resift
  simp only [heapId_index, segmented.getSlot_eq (roomy.index_lt inside),
    Option.bind_eq_bind, Option.bind_some]
  have raises :
      Meets (Raised chain dth id Member count timer) (hole + 1) fuel
        (siftUp timer id fuel
          ⟨dth, locate chain (index id hole), index id hole⟩ false) :=
    start.siftUp_meets fuel (by rintro ⟨⟩)
  refine (raises.of_le inside).bind fun outcome raised => ?_
  have settles :
      Meets (Settled chain dth id Member count timer) count fuel
        (settle timer id fuel outcome.1 outcome.2) := by
    obtain ⟨place, sifting, fitsAbove, fitsBelow⟩ := raised
    unfold settle
    split_ifs with siftedUp
    · exact .returns ⟨place, sifting, fitsAbove, fitsBelow siftedUp⟩
    · exact
        (sifting.siftDown_meets fuel fitsAbove).of_le (Nat.sub_le count place)
  exact settles.bind fun final settled => settled.set_meets count fuel

end Order

end LibDispatch.TimerHeap
