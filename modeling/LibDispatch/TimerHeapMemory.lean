import LibDispatch.TimerHeap

namespace LibDispatch.TimerHeap

/-!
# The segments of a heap of timers

Where the slots of a heap are.  As long as the last segment links to the others,
every index below the capacity has a slot of its own that no link shares, so that
writing one slot leaves the others alone.  Growing and shrinking keep the slots
that both sizes have.
-/

/-! ## Sizes -/

/-- The offset at which a segment begins. -/
def segmentBase (segNo : Nat) : Nat :=
  if segNo = 0 then 0 else initSegmentCapacity <<< (segNo - 1)

variable {segNo : Nat}

/-- The size of a segment as long as it fits a word. -/
theorem segmentCapacity_succ
    (few : segNo < 29) :
    segmentCapacity (segNo + 1) = 8 * 2 ^ segNo := by
  have small : 2 ^ segNo ≤ 2 ^ 28 :=
    Nat.pow_le_pow_right (by decide) (by omega)
  simp only [segmentCapacity, Nat.succ_pos, if_true, Nat.add_sub_cancel, word,
    initSegmentCapacity, Nat.shiftLeft_eq]
  omega

theorem segmentBase_succ (segNo : Nat) :
    segmentBase (segNo + 1) = 8 * 2 ^ segNo := by
  simp [segmentBase, initSegmentCapacity, Nat.shiftLeft_eq]

/-- A segment is as large as all the segments before it. -/
theorem segmentBase_add_capacity
    (few : segNo < 30) :
    segmentBase segNo + segmentCapacity segNo = 8 * 2 ^ segNo := by
  cases segNo with
  | zero => rfl
  | succ segNo =>
    rw [segmentBase_succ, segmentCapacity_succ (by omega), pow_succ]
    omega

/-- A segment has room for the links it can need. -/
theorem lt_segmentCapacity
    (few : segNo < 30) :
    segNo < segmentCapacity segNo := by
  cases segNo with
  | zero => decide
  | succ segNo =>
    have := @Nat.lt_two_pow_self segNo
    rw [segmentCapacity_succ (by omega)]
    omega

theorem segmentCapacity_shiftRight
    (few : segNo < 28) :
    segmentCapacity (segNo + 2) >>> 1 = segmentCapacity (segNo + 1) := by
  rw [segmentCapacity_succ (by omega), segmentCapacity_succ (by omega),
    pow_succ, Nat.shiftRight_eq_div_pow]
  omega

theorem capacity_zero : capacity 0 = 2 := rfl

/-- The capacity as long as it fits a word. -/
theorem capacity_succ
    (few : segNo < 30) :
    capacity (segNo + 1) = 2 + 8 * 2 ^ segNo - segNo := by
  rcases Nat.lt_succ_iff_lt_or_eq.mp few with fewer | rfl
  · have small : 2 ^ segNo ≤ 2 ^ 28 :=
      Nat.pow_le_pow_right (by decide) (by omega)
    have large : segNo < 2 ^ segNo := Nat.lt_two_pow_self
    simp only [capacity, Nat.succ_ne_zero, if_false, Nat.add_sub_cancel, word,
      initSegmentCapacity, Nat.shiftLeft_eq]
    omega
  · decide

/-- The first bit set in an offset tells the segment it is in. -/
theorem segmentNumber_spec
    {offset : Nat}
    (bounded : offset < 2 ^ 32) :
    segmentBase (segmentNumber offset) ≤ offset ∧
    offset < 8 * 2 ^ segmentNumber offset := by
  have atLeast : 7 ≤ offset ||| 7 := Nat.right_le_or
  have nonzero : offset ||| 7 ≠ 0 := by omega
  have lower : 2 ≤ (offset ||| 7).log2 := (Nat.le_log2 nonzero).mpr (by omega)
  have upper : (offset ||| 7).log2 < 32 :=
    (Nat.log2_lt nonzero).mpr (Nat.or_lt_two_pow bounded (by decide))
  have number : segmentNumber offset = (offset ||| 7).log2 - 2 := by
    have seven : Nat.log2 7 = 2 := by decide
    simp only [segmentNumber, clz, initSegmentCapacity, Nat.reduceSub, seven]
    omega
  obtain ⟨exponent, isExponent⟩ :
      ∃ exponent, (offset ||| 7).log2 = exponent + 2 :=
    ⟨(offset ||| 7).log2 - 2, by omega⟩
  rw [number, isExponent, Nat.add_sub_cancel]
  have below : offset ||| 7 < 2 ^ (exponent + 2 + 1) :=
    isExponent ▸ Nat.lt_log2_self
  have above : 2 ^ (exponent + 2) ≤ offset ||| 7 :=
    isExponent ▸ Nat.log2_self_le nonzero
  have left : offset ≤ offset ||| 7 := Nat.left_le_or
  constructor
  · cases exponent with
    | zero => exact Nat.zero_le offset
    | succ exponent =>
      rw [segmentBase_succ]
      -- the bits that are added do not reach the first one
      by_contra short
      have power : 2 ^ (exponent + 1 + 2) = 8 * 2 ^ exponent := by
        rw [pow_succ, pow_succ, pow_succ]
        omega
      have positive : 0 < 2 ^ exponent := Nat.two_pow_pos exponent
      have : offset ||| 7 < 2 ^ (exponent + 1 + 2) :=
        Nat.or_lt_two_pow (by omega) (by omega)
      omega
  · rw [pow_succ, pow_succ, pow_succ] at below
    omega

/-! ## Slots -/

/-- Where the slot of an index is, given where the segments are. -/
def locate (chain : Nat → Nat) (idx : Nat) : Slot :=
  if idx < idCount then .min (heapId idx)
  else
    .cell (chain (segmentNumber (idx - idCount)))
      (idx - idCount - segmentBase (segmentNumber (idx - idCount)))

section Slots

variable {Timer : Type}

/-- The segments are allocated and different, and the last one has links to the
others. -/
structure Segmented
    (chain : Nat → Nat)
    (dth : TimerHeap Timer) :
    Prop where
  few : dth.segments ≤ 30
  empty : dth.segments = 0 → dth.heap = none
  last :
    ∀ segNo,
      segNo + 1 = dth.segments →
      dth.heap = some (chain segNo)
  distinct :
    ∀ first second,
      first < dth.segments →
      second < dth.segments →
      chain first = chain second →
      first = second
  allocated :
    ∀ segNo < dth.segments, ∃ cells,
      dth.memory (chain segNo) = some cells ∧
      cells.length = segmentCapacity segNo
  linked :
    ∀ segNo top cells,
      top + 1 = dth.segments →
      segNo < top →
      dth.memory (chain top) = some cells →
      cells[segmentCapacity top - (segNo + 1)]? =
        some (.segment (chain segNo))
  bounded :
    ∀ segNo < dth.segments, chain segNo < dth.fresh

/-- What is in the slot of an index. -/
def stored (dth : TimerHeap Timer) (idx : Nat) : Option Timer :=
  (dth.getSlot idx).bind dth.load

variable {chain : Nat → Nat} {dth : TimerHeap Timer} {segments idx : Nat}

/-- An index below the capacity is in one of the segments, before the links. -/
theorem offset_inside
    (few : segments ≤ 30)
    (inSegment : ¬ idx < idCount)
    (inside : idx < capacity segments) :
    idx - idCount < 2 ^ 32 ∧
    segmentNumber (idx - idCount) < segments ∧
    segmentBase (segmentNumber (idx - idCount)) ≤ idx - idCount ∧
    idx - idCount - segmentBase (segmentNumber (idx - idCount)) <
      segmentCapacity (segmentNumber (idx - idCount)) ∧
    ∀ top,
      top + 1 = segments →
      segmentNumber (idx - idCount) = top →
      idx - idCount - segmentBase top + top < segmentCapacity top := by
  unfold idCount at *
  cases segments with
  | zero =>
    rw [capacity_zero] at inside
    omega
  | succ top =>
    rw [capacity_succ (by omega)] at inside
    have small : 2 ^ top ≤ 2 ^ 29 :=
      Nat.pow_le_pow_right (by decide) (by omega)
    have large : top < 2 ^ top := Nat.lt_two_pow_self
    have bounded : idx - 2 < 2 ^ 32 := by omega
    obtain ⟨lower, upper⟩ := segmentNumber_spec bounded
    have inOne : segmentNumber (idx - 2) < top + 1 := by
      by_contra beyond
      obtain ⟨more, isMore⟩ : ∃ more, segmentNumber (idx - 2) = more + 1 :=
        ⟨segmentNumber (idx - 2) - 1, by omega⟩
      rw [isMore, segmentBase_succ] at lower
      have grows : 2 ^ top ≤ 2 ^ more :=
        Nat.pow_le_pow_right (by decide) (by omega)
      omega
    have size :=
      segmentBase_add_capacity (show segmentNumber (idx - 2) < 30 by omega)
    refine ⟨bounded, inOne, lower, by omega, ?_⟩
    intro other isTop isNumber
    obtain rfl : other = top := by omega
    rw [isNumber] at size lower upper
    omega

section

variable (segmented : Segmented chain dth)

include segmented

/-- A segment is where the chain says. -/
theorem Segmented.segmentAt_eq
    (isSegment : segNo < dth.segments) :
    dth.segmentAt segNo = some (chain segNo) := by
  unfold segmentAt
  split_ifs with isLast
  · exact segmented.last segNo isLast
  · obtain ⟨top, isTop⟩ : ∃ top, top + 2 = dth.segments :=
      ⟨dth.segments - 2, by omega⟩
    obtain ⟨cells, cellsAt, -⟩ := segmented.allocated (top + 1) (by omega)
    have linked :=
      segmented.linked segNo (top + 1) cells (by omega) (by omega) cellsAt
    have few := segmented.few
    have place :
        word (initSegmentCapacity <<< (dth.segments - 2)) - segNo - 1 =
          segmentCapacity (top + 1) - (segNo + 1) := by
      rw [← isTop, Nat.add_sub_cancel, segmentCapacity, if_pos (by omega),
        Nat.add_sub_cancel, Nat.sub_sub]
    simp [link, segmented.last (top + 1) (by omega), entryAt, cellsAt, place,
      linked]

/-- The slot of an index below the capacity. -/
theorem Segmented.getSlot_eq
    (inside : idx < capacity dth.segments) :
    dth.getSlot idx = some (locate chain idx) := by
  unfold getSlot locate
  split_ifs with isMin
  · rfl
  · obtain ⟨-, inOne, -, -, -⟩ := offset_inside segmented.few isMin inside
    simp only [segmented.segmentAt_eq inOne]
    by_cases first : segmentNumber (idx - idCount) = 0
    · simp [first, segmentBase]
    · simp [first, segmentBase]

/-- What is in the slot of an index below the capacity. -/
theorem Segmented.stored_eq
    (inside : idx < capacity dth.segments) :
    dth.stored idx = dth.load (locate chain idx) := by
  rw [stored, segmented.getSlot_eq inside]
  rfl

/-- Different indices have different slots. -/
theorem Segmented.locate_injective
    {first second : Nat}
    (firstInside : first < capacity dth.segments)
    (secondInside : second < capacity dth.segments)
    (same : locate chain first = locate chain second) :
    first = second := by
  unfold locate at same
  split_ifs at same with firstMin secondMin secondMin
  · simp only [Slot.min.injEq, heapId] at same
    unfold idCount at *
    split_ifs at same <;> omega
  · obtain ⟨-, firstIn, firstBase, -, -⟩ :=
      offset_inside segmented.few firstMin firstInside
    obtain ⟨-, secondIn, secondBase, -, -⟩ :=
      offset_inside segmented.few secondMin secondInside
    rw [Slot.cell.injEq] at same
    have sameSegment := segmented.distinct _ _ firstIn secondIn same.1
    rw [sameSegment] at same firstBase
    unfold idCount at *
    omega

end

/-! ## Writing a slot -/

/-- Nothing but slots has changed. -/
structure OnlySlots (dth after : TimerHeap Timer) : Prop where
  count : after.count = dth.count
  segments : after.segments = dth.segments
  heapKey : after.heapKey = dth.heapKey
  heapEntry : after.heapEntry = dth.heapEntry

variable {slot : Slot} {value : Option Timer} {after : TimerHeap Timer}

section

variable (ran : dth.store slot value = some after)

include ran

theorem store_onlySlots :
    OnlySlots dth after := by
  cases slot with
  | min id =>
    simp only [store, Option.some.injEq] at ran
    subst ran
    exact ⟨rfl, rfl, rfl, rfl⟩
  | cell segment offset =>
    simp only [store, Option.bind_eq_bind, Option.bind_eq_some_iff] at ran
    obtain ⟨cells, -, ran⟩ := ran
    split_ifs at ran with inside
    rw [← Option.some.inj ran]
    exact ⟨rfl, rfl, rfl, rfl⟩

/-- What is written is there. -/
theorem load_store :
    after.load slot = value := by
  cases slot with
  | min id =>
    simp only [store, Option.some.injEq] at ran
    subst ran
    simp [load]
  | cell segment offset =>
    simp only [store, Option.bind_eq_bind, Option.bind_eq_some_iff] at ran
    obtain ⟨cells, -, ran⟩ := ran
    split_ifs at ran with inside
    rw [← Option.some.inj ran]
    cases value with
    | none | some _ => simp [load, entryAt, cellOf, inside]

/-- The other slots keep what they have. -/
theorem load_store_other
    {other : Slot}
    (differs : other ≠ slot) :
    after.load other = dth.load other := by
  cases slot with
  | min id =>
    simp only [store, Option.some.injEq] at ran
    subst ran
    cases other with
    | min otherId =>
      have : otherId ≠ id := fun same => differs (by rw [same])
      simp [load, this]
    | cell segment offset => rfl
  | cell segment offset =>
    simp only [store, Option.bind_eq_bind, Option.bind_eq_some_iff] at ran
    obtain ⟨cells, cellsAt, ran⟩ := ran
    split_ifs at ran with inside
    rw [← Option.some.inj ran]
    cases other with
    | min id => rfl
    | cell otherSegment otherOffset =>
      by_cases same : otherSegment = segment
      · subst same
        have apart : offset ≠ otherOffset :=
          fun same => differs (by rw [same])
        simp [load, entryAt, cellsAt, List.getElem?_set_ne apart]
      · simp [load, entryAt, Function.update_of_ne same]

end

/-- The segments stay linked when one of them is rewritten without its links. -/
theorem Segmented.rewrite
    (segmented : Segmented chain dth)
    (isSegment : segNo < dth.segments)
    {cells rewritten : List (Cell Timer)}
    (cellsAt : dth.memory (chain segNo) = some cells)
    (sameLength : rewritten.length = cells.length)
    (sameLinks :
      segNo + 1 = dth.segments →
      ∀ earlier < segNo,
        rewritten[segmentCapacity segNo - (earlier + 1)]? =
          cells[segmentCapacity segNo - (earlier + 1)]?) :
    Segmented chain
      { dth with
        memory :=
          Function.update dth.memory (chain segNo) (some rewritten) } := by
  refine
    { segmented with
      allocated := ?allocated
      linked := ?linked }
  case allocated =>
    intro other isOther
    by_cases same : chain other = chain segNo
    · obtain rfl := segmented.distinct _ _ isOther isSegment same
      obtain ⟨_, othersAt, length⟩ := segmented.allocated other isOther
      obtain rfl := Option.some.inj (cellsAt.symm.trans othersAt)
      exact ⟨rewritten, Function.update_self .., sameLength.trans length⟩
    · obtain ⟨others, othersAt, length⟩ := segmented.allocated other isOther
      exact ⟨others, (Function.update_of_ne same ..).trans othersAt, length⟩
  case linked =>
    intro earlier top topCells isTop before topAt
    dsimp only at isTop topAt
    by_cases same : chain top = chain segNo
    · obtain rfl := segmented.distinct _ _ (by omega) isSegment same
      rw [Function.update_self, Option.some.injEq] at topAt
      rw [← topAt, sameLinks isTop earlier before]
      exact segmented.linked earlier top cells isTop before cellsAt
    · rw [Function.update_of_ne same] at topAt
      exact segmented.linked earlier top topCells isTop before topAt

/-- A slot below the capacity can be written, the links stay, and so do the other
slots. -/
theorem Segmented.store_spec
    (segmented : Segmented chain dth)
    (inside : idx < capacity dth.segments)
    (value : Option Timer) :
    ∃ after,
      dth.store (locate chain idx) value = some after ∧
      Segmented chain after ∧
      OnlySlots dth after ∧
      ∀ other < capacity dth.segments,
        after.stored other =
          Function.update dth.stored idx value other := by
  obtain ⟨after, ran, kept⟩ :
      ∃ after,
        dth.store (locate chain idx) value = some after ∧
        Segmented chain after := by
    unfold locate
    split_ifs with isMin
    · exact ⟨_, rfl, { segmented with }⟩
    · obtain ⟨-, inOne, -, short, beforeLinks⟩ :=
        offset_inside segmented.few isMin inside
      obtain ⟨cells, cellsAt, length⟩ := segmented.allocated _ inOne
      rw [← length] at short
      refine
        ⟨_, by simp only [store, cellsAt]; exact if_pos short,
          segmented.rewrite inOne cellsAt List.length_set ?_⟩
      intro isLast earlier before
      have room := beforeLinks _ isLast rfl
      exact List.getElem?_set_ne (by omega)
  have onlySlots := store_onlySlots ran
  refine ⟨after, ran, kept, onlySlots, ?_⟩
  intro other otherInside
  rw [kept.stored_eq (onlySlots.segments ▸ otherInside)]
  by_cases same : other = idx
  · subst same
    rw [Function.update_self]
    exact load_store ran
  · rw [Function.update_of_ne same, segmented.stored_eq otherInside]
    refine load_store_other ran ?_
    intro sameSlot
    exact same (segmented.locate_injective otherInside inside sameSlot)

/-! ## Growing and shrinking -/

/-- Nothing but the segments has changed. -/
structure Resized
    (segments : Nat)
    (dth after : TimerHeap Timer) :
    Prop where
  count : after.count = dth.count
  segments : after.segments = segments
  heapKey : after.heapKey = dth.heapKey
  heapEntry : after.heapEntry = dth.heapEntry

/-- What `memcpy` copies, and that it leaves what comes before. -/
theorem memcpy_spec
    {destination source : List (Cell Timer)}
    {destinationOffset sourceOffset size : Nat}
    (fits : destinationOffset + size ≤ destination.length)
    (available : sourceOffset + size ≤ source.length) :
    ∃ copied,
      memcpy destination destinationOffset source sourceOffset size =
        some copied ∧
      copied.length = destination.length ∧
      (∀ offset < destinationOffset, copied[offset]? = destination[offset]?) ∧
      ∀ step < size,
        copied[destinationOffset + step]? = source[sourceOffset + step]? := by
  refine ⟨_, if_pos ⟨fits, available⟩, ?_, ?_, ?_⟩
  · simp only [List.length_append, List.length_take, List.length_drop]
    omega
  · intro offset before
    rw [List.append_assoc, List.getElem?_append_left (by simp; omega),
      List.getElem?_take_of_lt before]
  · intro step within
    rw [List.append_assoc, List.getElem?_append_right (by simp),
      List.getElem?_append_left (by simp; omega),
      List.getElem?_take_of_lt (by simp; omega), List.getElem?_drop]
    congr 1
    simp
    omega

theorem capacity_le_succ
    (few : segments < 30) :
    capacity segments ≤ capacity (segments + 1) := by
  cases segments with
  | zero => decide
  | succ segNo =>
    have positive : 0 < 2 ^ segNo := Nat.two_pow_pos segNo
    rw [capacity_succ (by omega), capacity_succ few, pow_succ]
    omega

/-- Where a slot is only depends on the segments in use. -/
theorem locate_congr
    {other : Nat → Nat}
    (few : segments ≤ 30)
    (inside : idx < capacity segments)
    (same : ∀ segNo < segments, other segNo = chain segNo) :
    locate other idx = locate chain idx := by
  unfold locate
  split_ifs with isMin
  · rfl
  · obtain ⟨-, inOne, -, -, -⟩ := offset_inside few isMin inside
    rw [same _ inOne]

variable (segmented : Segmented chain dth)

include segmented

/-- A new segment takes over the links of the last one. -/
theorem Segmented.copiedSegment_spec
    (fewer : dth.segments < 30) :
    ∃ cells,
      dth.copiedSegment dth.segments = some cells ∧
      cells.length = segmentCapacity dth.segments ∧
      ∀ segNo,
        segNo + 1 < dth.segments →
        cells[segmentCapacity dth.segments - (segNo + 1)]? =
          some (.segment (chain segNo)) := by
  unfold copiedSegment
  dsimp only
  split_ifs with several
  · obtain ⟨top, isTop⟩ : ∃ top, dth.segments = top + 2 :=
      ⟨dth.segments - 2, by omega⟩
    obtain ⟨previous, previousAt, length⟩ :=
      segmented.allocated (top + 1) (by omega)
    have room := lt_segmentCapacity (show top + 1 < 30 by omega)
    have newRoom := lt_segmentCapacity (show top + 2 < 30 by omega)
    simp only [isTop, segmentCapacity_shiftRight (show top < 28 by omega),
      segmented.last (top + 1) (by omega), previousAt, Option.bind_eq_bind,
      Option.bind_some, show top + 2 - 1 = top + 1 from rfl]
    obtain ⟨copied, ran, copiedLength, -, copies⟩ :=
      @memcpy_spec _ (List.replicate (segmentCapacity (top + 2)) .null)
        previous (segmentCapacity (top + 2) - (top + 1))
        (segmentCapacity (top + 1) - (top + 1)) (top + 1)
        (by rw [List.length_replicate]; omega) (by omega)
    refine ⟨copied, ran, by rw [copiedLength, List.length_replicate], ?_⟩
    intro segNo before
    have linked :=
      segmented.linked segNo (top + 1) previous (by omega) (by omega)
        previousAt
    have copy := copies (top - segNo) (by omega)
    rw [show segmentCapacity (top + 2) - (segNo + 1) =
      segmentCapacity (top + 2) - (top + 1) + (top - segNo) by omega, copy,
      ← linked]
    congr 1
    omega
  · exact ⟨_, rfl, List.length_replicate, by intro segNo before; omega⟩

/-- A new segment links to all the others. -/
theorem Segmented.linkedSegment_spec
    (fewer : dth.segments < 30) :
    ∃ cells,
      dth.linkedSegment dth.segments = some cells ∧
      cells.length = segmentCapacity dth.segments ∧
      ∀ segNo < dth.segments,
        cells[segmentCapacity dth.segments - (segNo + 1)]? =
          some (.segment (chain segNo)) := by
  obtain ⟨copied, ran, length, links⟩ := segmented.copiedSegment_spec fewer
  have room := lt_segmentCapacity fewer
  unfold linkedSegment
  simp only [ran, Option.bind_eq_bind, Option.bind_some]
  split_ifs with several
  · obtain ⟨top, isTop⟩ : ∃ top, top + 1 = dth.segments :=
      ⟨dth.segments - 1, by omega⟩
    simp only [segmented.last top isTop, Option.bind_some]
    refine ⟨_, rfl, by rw [List.length_set, length], ?_⟩
    intro segNo isSegment
    by_cases isLast : segNo = top
    · subst isLast
      rw [isTop, List.getElem?_set_self (by omega)]
    · rw [List.getElem?_set_ne (by omega)]
      exact links segNo (by omega)
  · exact ⟨copied, rfl, length, by intro segNo isSegment; omega⟩

/-- Growing adds a segment and keeps the slots. -/
theorem Segmented.grow_spec
    (fewer : dth.segments < 30) :
    ∃ grown newChain,
      dth.grow = some grown ∧
      Segmented newChain grown ∧
      Resized (dth.segments + 1) dth grown ∧
      (∀ segNo < dth.segments, newChain segNo = chain segNo) ∧
      ∀ idx < capacity dth.segments,
        grown.stored idx = dth.stored idx := by
  obtain ⟨cells, ran, length, links⟩ :=
    segmented.linkedSegment_spec fewer
  have narrow : (dth.segments + 1) % 2 ^ 8 = dth.segments + 1 :=
    Nat.mod_eq_of_lt (by omega)
  have old :
      ∀ segNo < dth.segments,
        Function.update chain dth.segments dth.fresh segNo =
          chain segNo :=
    fun segNo isSegment => Function.update_of_ne (by omega) ..
  have untouched :
      ∀ segNo < dth.segments,
        Function.update dth.memory dth.fresh (some cells)
            (chain segNo) =
          dth.memory (chain segNo) := by
    intro segNo isSegment
    have := segmented.bounded segNo isSegment
    exact Function.update_of_ne (by omega) ..
  have kept :
      Segmented (Function.update chain dth.segments dth.fresh)
        { dth with
          segments := dth.segments + 1
          heap := some dth.fresh
          memory :=
            Function.update dth.memory dth.fresh (some cells)
          fresh := dth.fresh + 1 } := by
    refine
      { few := fewer
        empty := by intro none; dsimp only at none; omega
        last := ?last
        distinct := ?distinct
        allocated := ?allocated
        linked := ?linked
        bounded := ?bounded }
    case last =>
      intro segNo isLast
      obtain rfl : segNo = dth.segments := Nat.succ.inj isLast
      dsimp only
      rw [Function.update_self]
    case distinct =>
      intro first second firstIn secondIn
      dsimp only at firstIn secondIn
      rcases Nat.lt_succ_iff_lt_or_eq.mp firstIn with firstOld | rfl <;>
        rcases Nat.lt_succ_iff_lt_or_eq.mp secondIn with secondOld | rfl
      · rw [old first firstOld, old second secondOld]
        exact segmented.distinct first second firstOld secondOld
      · have := segmented.bounded first firstOld
        rw [old first firstOld, Function.update_self]
        omega
      · have := segmented.bounded second secondOld
        rw [old second secondOld, Function.update_self]
        omega
      · exact fun _ => rfl
    case allocated =>
      intro segNo isSegment
      dsimp only at isSegment ⊢
      rcases Nat.lt_succ_iff_lt_or_eq.mp isSegment with isOld | rfl
      · rw [old segNo isOld, untouched segNo isOld]
        exact segmented.allocated segNo isOld
      · rw [Function.update_self, Function.update_self]
        exact ⟨cells, rfl, length⟩
    case linked =>
      intro segNo top topCells isTop before topAt
      obtain rfl : top = dth.segments := Nat.succ.inj isTop
      dsimp only at topAt
      rw [Function.update_self, Function.update_self, Option.some.injEq]
        at topAt
      rw [old segNo before, ← topAt]
      exact links segNo before
    case bounded =>
      intro segNo isSegment
      dsimp only at isSegment ⊢
      rcases Nat.lt_succ_iff_lt_or_eq.mp isSegment with isOld | rfl
      · have := segmented.bounded segNo isOld
        rw [old segNo isOld]
        omega
      · rw [Function.update_self]
        omega
  refine
    ⟨_, _, by simp only [grow, ran, narrow]; rfl, kept,
      ⟨rfl, rfl, rfl, rfl⟩, old, ?_⟩
  intro idx inside
  have larger := capacity_le_succ fewer
  rw [segmented.stored_eq inside, kept.stored_eq (by dsimp only; omega),
    locate_congr segmented.few inside old]
  unfold locate
  split_ifs with isMin
  · rfl
  · obtain ⟨-, inOne, -, -, -⟩ := offset_inside segmented.few isMin inside
    simp only [load, entryAt, untouched _ inOne]

omit segmented in
/-- The slots of a heap only depend on the entries that are not links. -/
theorem load_locate_congr
    {other : TimerHeap Timer}
    (few : segments ≤ 30)
    (inside : idx < capacity segments)
    (sameMin : other.min = dth.min)
    (sameEntries :
      ∀ segNo < segments, ∀ offset,
        (segNo + 1 = segments → offset + segNo < segmentCapacity segNo) →
        other.entryAt (chain segNo) offset =
          dth.entryAt (chain segNo) offset) :
    other.load (locate chain idx) = dth.load (locate chain idx) := by
  unfold locate
  split_ifs with isMin
  · simp only [load, sameMin]
  · obtain ⟨-, inOne, -, -, beforeLinks⟩ := offset_inside few isMin inside
    simp only [load,
      sameEntries _ inOne _ fun isLast => beforeLinks _ isLast rfl]

/-- Before the last segment is freed its links are in the one before it, whose
slots below the new capacity stay. -/
theorem Segmented.relink_spec
    {top : Nat}
    (isTop : dth.segments = top + 2) :
    ∃ memory,
      dth.relink (top + 1) (some (chain top)) =
        some { dth with memory := memory } ∧
      Segmented chain { dth with memory := memory } ∧
      (∀ segNo cells,
        segNo < top →
        memory (chain top) = some cells →
        cells[segmentCapacity top - (segNo + 1)]? =
          some (.segment (chain segNo))) ∧
      ∀ segNo < top + 1, ∀ offset,
        (segNo + 1 = top + 1 → offset + segNo < segmentCapacity segNo) →
        entryAt { dth with memory := memory } (chain segNo) offset =
          dth.entryAt (chain segNo) offset := by
  unfold relink
  split_ifs with several
  · obtain ⟨below, rfl⟩ : ∃ below, top = below + 1 := ⟨top - 1, by omega⟩
    obtain ⟨cells, cellsAt, length⟩ :=
      segmented.allocated (below + 1) (by omega)
    obtain ⟨lastCells, lastAt, lastLength⟩ :=
      segmented.allocated (below + 2) (by omega)
    have few := segmented.few
    have room := lt_segmentCapacity (show below + 1 < 30 by omega)
    have lastRoom := lt_segmentCapacity (show below + 2 < 30 by omega)
    obtain ⟨copied, ran, copiedLength, before, copies⟩ :=
      @memcpy_spec _ cells lastCells
        (segmentCapacity (below + 1) - (below + 1))
        (segmentCapacity (below + 2) - (below + 1)) (below + 1)
        (by omega) (by omega)
    refine
      ⟨Function.update dth.memory (chain (below + 1)) (some copied), ?_,
        ?_, ?_, ?_⟩
    · simp only [segmentCapacity_shiftRight (show below < 28 by omega),
        Nat.add_sub_cancel, cellsAt,
        segmented.last (below + 2) (by omega), lastAt, Option.bind_eq_bind,
        Option.bind_some, ran]
    · exact
        segmented.rewrite (by omega) cellsAt copiedLength
          (fun isLast => by omega)
    · intro segNo newCells earlier newAt
      rw [Function.update_self, Option.some.injEq] at newAt
      have copy := copies (below - segNo) (by omega)
      rw [← newAt, show segmentCapacity (below + 1) - (segNo + 1) =
        segmentCapacity (below + 1) - (below + 1) + (below - segNo) by omega,
        copy, ← segmented.linked segNo (below + 2) lastCells (by omega)
          (by omega) lastAt]
      congr 1
      omega
    · intro segNo isSegment offset regular
      unfold entryAt
      dsimp only
      by_cases same : segNo = below + 1
      · subst same
        have inside := regular rfl
        rw [Function.update_self, cellsAt, Option.bind_some, Option.bind_some]
        exact before offset (by omega)
      · rw [Function.update_of_ne]
        intro sameSegment
        exact same
          (segmented.distinct _ _ (by omega) (by omega) sameSegment)
  · refine ⟨dth.memory, rfl, segmented, ?_, fun _ _ _ _ => rfl⟩
    intro segNo cells earlier
    omega

/-- Shrinking frees the last segment and keeps the slots of the others. -/
theorem Segmented.shrink_spec
    (isLast : dth.segments = segNo + 1) :
    ∃ shrunk,
      dth.shrink = some shrunk ∧
      Segmented chain shrunk ∧
      Resized segNo dth shrunk ∧
      ∀ idx < capacity segNo, shrunk.stored idx = dth.stored idx := by
  have few := segmented.few
  cases segNo with
  | zero =>
    have kept :
        Segmented chain
          { dth with
            segments := 0
            heap := none
            memory := Function.update dth.memory (chain 0) none } :=
      { few := Nat.zero_le 30
        empty := fun _ => rfl
        last := by intro segNo isLast; cases isLast
        distinct := by intro first second firstIn; cases firstIn
        allocated := by intro segNo isSegment; cases isSegment
        linked := by intro segNo top cells isTop; cases isTop
        bounded := by intro segNo isSegment; cases isSegment }
    refine ⟨_, ?_, kept, ⟨rfl, rfl, rfl, rfl⟩, ?_⟩
    · simp [shrink, isLast, segmented.last 0 (by omega), previousSegment,
        relink]
    · intro idx inside
      rw [kept.stored_eq inside, segmented.stored_eq (by
        rw [isLast]
        exact inside.trans_le (capacity_le_succ (by decide)))]
      exact
        load_locate_congr (by decide) inside rfl
          (by intro segNo isSegment; omega)
  | succ top =>
    obtain ⟨memory, ran, relinked, links, entries⟩ :=
      segmented.relink_spec isLast
    have freed :
        ∀ segNo < top + 1,
          Function.update memory (chain (top + 1)) none (chain segNo) =
            memory (chain segNo) := by
      intro segNo isSegment
      refine Function.update_of_ne ?_ ..
      intro same
      have := segmented.distinct _ _ (by omega) (by omega) same
      omega
    have kept :
        Segmented chain
          { dth with
            segments := top + 1
            heap := some (chain top)
            memory := Function.update memory (chain (top + 1)) none } := by
      exact
        { few := by dsimp only; omega
          empty := by intro none; cases none
          last := by
            intro segNo isTop
            obtain rfl : segNo = top := Nat.succ.inj isTop
            rfl
          distinct := by
            intro first second firstIn secondIn
            dsimp only at firstIn secondIn
            exact segmented.distinct first second (by omega) (by omega)
          allocated := by
            intro segNo isSegment
            dsimp only at isSegment ⊢
            rw [freed segNo isSegment]
            exact relinked.allocated segNo (by dsimp only; omega)
          linked := by
            intro segNo other cells isTop before topAt
            obtain rfl : other = top := Nat.succ.inj isTop
            dsimp only at topAt
            rw [freed other (by omega)] at topAt
            exact links segNo cells before topAt
          bounded := by
            intro segNo isSegment
            dsimp only at isSegment
            exact segmented.bounded segNo (by omega) }
    refine ⟨_, ?_, kept, ⟨rfl, rfl, rfl, rfl⟩, ?_⟩
    · obtain ⟨cells, cellsAt, -⟩ := segmented.allocated (top + 1) (by omega)
      have linked :=
        segmented.linked top (top + 1) cells (by omega) (by omega) cellsAt
      simp [shrink, isLast, segmented.last (top + 1) (by omega),
        previousSegment, link, entryAt, cellsAt, linked, ran]
    · intro idx inside
      rw [kept.stored_eq inside, segmented.stored_eq (by
        rw [isLast]
        exact inside.trans_le (capacity_le_succ (by omega)))]
      refine load_locate_congr (by omega) inside rfl ?_
      intro segNo isSegment offset regular
      rw [← entries segNo isSegment offset regular]
      unfold entryAt
      dsimp only
      rw [freed segNo isSegment]

end Slots

end LibDispatch.TimerHeap
