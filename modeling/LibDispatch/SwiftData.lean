import LibDispatch.DataCopies

namespace LibDispatch.Data

/-!
# The bytes that Swift sees

`DispatchData` copies ranges region by region, reads single bytes through copies
of regions and iterates over a map.  Sizes are `Int` in Swift, so that an object
of `2 ^ 63` bytes has a negative count and no indices.  All views agree with the
bytes of the object.
-/

/-- A `size_t` as Swift's `Int`. -/
def intSize (size : Nat) : Int :=
  if size < 2 ^ 63 then size else size - 2 ^ 64

variable (heap : Heap)

/-- `DispatchData.count` -/
def Heap.count (data : Nat) : Int :=
  intSize (heap.object data).size

/-- The bytes of a range. -/
def bytesIn (bytes : List UInt8) (lower upper : Nat) : List UInt8 :=
  (bytes.drop lower).take (upper - lower)

/-! ## Copying ranges -/

/-- The memory at the pointer of `_copyBytesHelper`, and its counter. -/
structure Copying where
  pointer : List UInt8
  copiedCount : Nat

/-- The block of `_copyBytesHelper`. -/
def copyBlock (lower upper : Nat) : Applier Copying :=
  fun copying region =>
    let rangeSize := upper - lower
    if upper ≤ region.offset then
      .ok (copying, false)
    else
      let copyOffset :=
        if region.offset < lower then lower - region.offset else 0
      if region.size ≤ copyOffset then
        .ok (copying, true)
      else
        let count :=
          min (rangeSize - copying.copiedCount) (region.size - copyOffset)
        .ok
          (⟨memcpy copying.pointer copying.copiedCount
              ((region.buffer.drop copyOffset).take count),
            copying.copiedCount + count⟩,
          copying.copiedCount + count < rangeSize)

/-- `_copyBytesHelper(to:from:)`, which is `copyBytes(to:from:)` of a pointer. -/
def Heap.copyBytesHelper
    (data : Nat)
    (pointer : List UInt8)
    (lower upper : Nat) : Except Failure (List UInt8) :=
  if lower = upper then
    .ok pointer
  else do
    let (copying, _) ← heap.apply (copyBlock lower upper) data ⟨pointer, 0⟩
    return copying.pointer

/-- The end of `copyBytes(to:from:)` of a buffer. -/
def Heap.copyRange
    (data : Nat)
    (buffer : List UInt8)
    (lower upper : Nat) : Except Failure (List UInt8 × Nat) :=
  if lower = upper then
    .ok (buffer, 0)
  else do
    let copied ← heap.copyBytesHelper data buffer lower upper
    return (copied, upper - lower)

/-- `copyBytes(to:from:)` of a buffer of the given bytes, which returns how many
it has copied.  A range out of bounds is an error. -/
def Heap.copyBytes
    (data : Nat)
    (buffer : List UInt8)
    (range : Option (Nat × Nat)) : Except Failure (List UInt8 × Nat) :=
  let cnt := heap.count data
  if cnt ≤ 0 then
    .ok (buffer, 0)
  else
    match range with
    | some (lower, upper) =>
      if lower = upper then
        .ok (buffer, 0)
      else if cnt ≤ lower ∨ cnt < upper then
        .error .subrangeOutOfBounds
      else
        heap.copyRange data buffer lower
          (lower + min buffer.length (upper - lower))
    | none => heap.copyRange data buffer 0 (min buffer.length cnt.toNat)

/-! ## Single bytes -/

/-- `load(fromByteOffset:as:)` of the pointer of a map. -/
def Mapping.load (mapping : Mapping) (offset : Nat) : Except Failure UInt8 :=
  match (mapping.buffer.getD [])[offset]? with
  | some byte => .ok byte
  | none => .error .overrun

/-- `subscript(index:)` -/
def Heap.subscript (data index : Nat) : Except Failure UInt8 := do
  let (heap, subdata, offset) ← heap.copyRegion data index
  let (_, map) ← heap.createMap subdata true
  map.load (index - offset)

/-- `DispatchDataIterator` -/
structure DataIterator where
  map : Mapping
  position : Nat

/-- `DispatchDataIterator.next` -/
def DataIterator.next
    (iterator : DataIterator) :
    Except Failure (Option (UInt8 × DataIterator)) :=
  if iterator.position = intSize iterator.map.size then
    .ok none
  else do
    let element ← iterator.map.load iterator.position
    return some (element,
      { iterator with position := iterator.position + 1 })

/-- The elements of an iterator, of which there are fewer than the fuel. -/
def DataIterator.elements : Nat → DataIterator → Except Failure (List UInt8)
  | 0, _ => .error .tooDeep
  | fuel + 1, iterator => do
      match ← iterator.next with
      | none => return []
      | some (element, iterator) =>
        let others ← iterator.elements fuel
        return element :: others

/-- The elements of `makeIterator()`. -/
def Heap.elements (data fuel : Nat) : Except Failure (List UInt8) := do
  let (_, map) ← heap.createMap data true
  DataIterator.elements fuel ⟨map, 0⟩

/-- `subdata(in:)` -/
def Heap.subdata (data lower upper : Nat) : Except Failure (Heap × Nat) :=
  heap.createSubrange data lower (upper - lower)

/-! ## What is copied -/

variable {heap : Heap} {data lower upper : Nat} {bytes : List UInt8}

theorem bytesIn_append
    {middle : Nat}
    (after : lower ≤ middle)
    (before : middle ≤ upper) :
    bytesIn bytes lower middle ++ bytesIn bytes middle upper =
      bytesIn bytes lower upper := by
  have whole : upper - lower = middle - lower + (upper - middle) := by omega
  have further : middle = lower + (middle - lower) := by omega
  rw [bytesIn, bytesIn, bytesIn, whole, List.take_add, List.drop_drop,
    ← further]

theorem length_bytesIn
    (inside : upper ≤ bytes.length) :
    (bytesIn bytes lower upper).length = upper - lower := by
  rw [bytesIn, List.length_take, List.length_drop]
  omega

/-- A region adds its part of the range to what has been copied, and the block
goes on until all has been copied. -/
theorem copyBlock_spec
    {region : Region}
    (own : region.buffer =
      bytesIn bytes region.offset (region.offset + region.size))
    (within : region.offset + region.size ≤ bytes.length)
    {start stop : Nat}
    (isStart : start = max lower region.offset)
    (isStop : stop = min upper (max lower (region.offset + region.size)))
    (remains : start < upper)
    (pointer : List UInt8) :
    copyBlock lower upper ⟨bytesIn bytes lower start ++
        pointer.drop (start - lower), start - lower⟩ region =
      .ok (⟨bytesIn bytes lower stop ++ pointer.drop (stop - lower),
        stop - lower⟩, stop < upper) := by
  have copied := @length_bytesIn lower start bytes
  have offset : (if region.offset < lower then lower - region.offset else 0) =
      start - region.offset := by
    split_ifs <;> omega
  simp only [copyBlock, offset]
  rw [if_neg (by omega)]
  by_cases early : region.size ≤ start - region.offset
  · have same : stop = start := by omega
    rw [if_pos early, same, decide_eq_true remains]
  · have inside : start ≤ bytes.length := by omega
    have count : min (upper - lower - (start - lower))
        (region.size - (start - region.offset)) = stop - start := by
      omega
    have part : (region.buffer.drop (start - region.offset)).take
        (stop - start) = bytesIn bytes start stop := by
      have further : region.offset + (start - region.offset) = start := by
        omega
      rw [own, bytesIn, List.drop_take, List.drop_drop, further,
        List.take_take, bytesIn]
      congr 1
      omega
    have length := @length_bytesIn start stop bytes (by omega)
    have moved : start - lower + (stop - start) = stop - lower := by omega
    rw [if_neg early, count, part, moved]
    have copies := memcpy_prefix (bytesIn bytes lower start)
      (pointer.drop (start - lower)) (bytesIn bytes start stop)
    rw [copied inside, bytesIn_append (by omega) (by omega), length,
      List.drop_drop, moved] at copies
    rw [copies]
    congr 2
    exact decide_eq_decide.mpr (by omega)

/-- The regions from the first uncopied byte on add the rest of the range. -/
theorem visit_copyBlock
    {regions : List Region}
    {offset start : Nat}
    (follows : FollowFrom offset regions)
    (sizes :
      ∀ region ∈ regions,
        region.buffer.length = region.size ∧ 0 < region.size)
    (rest : regionBytes regions = bytes.drop offset)
    (inside : upper ≤ bytes.length)
    (isStart : start = max lower offset)
    (remains : start < upper)
    (pointer : List UInt8) :
    visit (copyBlock lower upper) regions
        ⟨bytesIn bytes lower start ++ pointer.drop (start - lower),
          start - lower⟩ =
      .ok (⟨bytesIn bytes lower upper ++ pointer.drop (upper - lower),
        upper - lower⟩, false) := by
  induction regions generalizing offset start with
  | nil =>
    have length := congrArg List.length rest
    rw [List.length_drop] at length
    simp only [regionBytes, List.map_nil, List.flatten_nil,
      List.length_nil] at length
    omega
  | cons region regions inductionHypothesis =>
    obtain ⟨here, follows⟩ := follows
    obtain ⟨length, positive⟩ := sizes region List.mem_cons_self
    have reached : offset ≤ bytes.length := by omega
    obtain ⟨own, later, within⟩ := regionBytes_split length rest reached
    rw [← here] at own within
    rw [← @Nat.add_sub_cancel_left region.offset region.size] at own
    rw [visit, copyBlock_spec own within (here ▸ isStart) rfl remains]
    simp only [bind, Except.bind]
    by_cases more : max lower (region.offset + region.size) < upper
    · rw [min_eq_right (Nat.le_of_lt more), decide_eq_true more, if_pos rfl]
      exact inductionHypothesis follows
        (fun other member => sizes other (List.mem_cons_of_mem _ member))
        later (by rw [here]) more
    · rw [min_eq_left (Nat.le_of_not_lt more),
        decide_eq_false (Nat.lt_irrefl upper)]
      rfl

section Maps

variable {after : Heap} {map : Mapping}
  (maps : Maps heap after data map)

include maps

/-- The pointer of a map is read where the bytes are. -/
theorem Maps.load
    {index : Nat}
    {byte : UInt8}
    (isByte : (heap.bytes data)[index]? = some byte) :
    map.load index = .ok byte := by
  obtain ⟨inside, -⟩ := List.getElem?_eq_some_iff.mp isByte
  rw [← maps.contiguous,
    List.getElem?_take_of_lt (by rw [maps.size]; exact inside)] at isByte
  rw [Mapping.load, isByte]

/-- An iterator goes through the bytes from its position on. -/
theorem Maps.elements
    (countable : intSize map.size = map.size)
    {position fuel : Nat}
    (inside : position ≤ map.size)
    (enough : map.size - position < fuel) :
    DataIterator.elements fuel ⟨map, position⟩ =
      .ok ((heap.bytes data).drop position) := by
  induction fuel generalizing position with
  | zero => omega
  | succ fuel inductionHypothesis =>
    rw [DataIterator.elements, DataIterator.next]
    by_cases last : position = map.size
    · rw [if_pos (by rw [countable, last]), last, maps.size, List.drop_length]
      rfl
    · have less : position < (heap.bytes data).length := by
        rw [← maps.size]
        omega
      rw [if_neg (by rw [countable]; exact_mod_cast last),
        maps.load (List.getElem?_eq_getElem less),
        List.drop_eq_getElem_cons less]
      simp only [bind, Except.bind, pure, Except.pure]
      rw [inductionHypothesis (by omega) (by omega)]

end Maps

section Objects

variable (wellFormed : heap.WellFormed) (holds : heap.Holds data)

include wellFormed holds

/-- What the helper copies is the range, to the first bytes at the pointer. -/
theorem Heap.WellFormed.copyBytesHelper
    (ordered : lower ≤ upper)
    (inside : upper ≤ (heap.bytes data).length)
    (pointer : List UInt8) :
    heap.copyBytesHelper data pointer lower upper =
      .ok (bytesIn (heap.bytes data) lower upper ++
        pointer.drop (upper - lower)) := by
  obtain ⟨follows, bytes, sizes⟩ := wellFormed.regions_spec holds
  rw [Heap.copyBytesHelper]
  by_cases empty : lower = upper
  · rw [if_pos empty, empty, bytesIn, Nat.sub_self, List.take_zero]
    rfl
  · have visits := @visit_copyBlock lower upper (heap.bytes data) _ 0 lower
      follows sizes bytes inside (Nat.max_zero lower).symm
      (Nat.lt_of_le_of_ne ordered empty) pointer
    rw [bytesIn, Nat.sub_self, List.take_zero, List.nil_append,
      List.drop_zero] at visits
    rw [if_neg empty, wellFormed.apply holds, visits]
    rfl

theorem Heap.WellFormed.copyRange
    {count : Nat}
    (inside : lower + count ≤ (heap.bytes data).length)
    (buffer : List UInt8) :
    heap.copyRange data buffer lower (lower + count) =
      .ok (bytesIn (heap.bytes data) lower (lower + count) ++
        buffer.drop count, count) := by
  have copied := wellFormed.copyBytesHelper holds
    (Nat.le_add_right lower count) inside buffer
  rw [Nat.add_sub_cancel_left] at copied
  rw [Heap.copyRange, copied]
  cases count with
  | zero =>
    rw [Nat.add_zero, if_pos rfl, bytesIn, Nat.sub_self]
    rfl
  | succ count =>
    rw [if_neg (by omega), Nat.add_sub_cancel_left]
    rfl

/-- A count that is not negative is the number of bytes. -/
theorem Heap.WellFormed.count_le :
    heap.count data ≤ (heap.bytes data).length ∧
      (0 ≤ heap.count data → heap.count data = (heap.bytes data).length) := by
  have fits := (wellFormed.objects data holds).fits
  rw [wellFormed.length_bytes holds, Heap.count, intSize]
  split_ifs <;> omega

/-- The byte at an index is found in the region that contains it. -/
theorem Heap.WellFormed.subscript
    {index : Nat}
    {byte : UInt8}
    (isByte : (heap.bytes data)[index]? = some byte) :
    heap.subscript data index = .ok byte := by
  obtain ⟨inside, -⟩ := List.getElem?_eq_some_iff.mp isByte
  rw [wellFormed.length_bytes holds] at inside
  obtain ⟨follows, bytes, sizes⟩ := wellFormed.regions_spec holds
  obtain ⟨copied, result, region, member, copies, -, contains, returns⟩ :=
    wellFormed.copyRegion_size holds inside
  obtain ⟨after, map, maps, isMap⟩ :=
    returns.wellFormed.createMap returns.holds
  have slice := follows.slice (fun other inside => (sizes other inside).1)
    member
  rw [bytes, Nat.sub_zero] at slice
  have begins := contains.1
  have ends := contains.2
  have found : (copied.bytes result)[index - region.offset]? = some byte := by
    rw [returns.denotes, ← slice, List.getElem?_take_of_lt (by omega),
      List.getElem?_drop, Nat.add_sub_cancel' begins]
    exact isByte
  rw [Heap.subscript, copies]
  simp only [bind, Except.bind, maps]
  exact isMap.load found

end Objects

/-- What Swift sees of an object: ranges, buffers, indices, iterators and
subdata agree with its bytes. -/
structure FaithfulView (heap : Heap) (data : Nat) : Prop where
  copies :
    ∀ (lower upper : Nat) pointer,
      lower ≤ upper → (upper : Int) ≤ heap.count data →
      heap.copyBytesHelper data pointer lower upper =
        .ok (bytesIn (heap.bytes data) lower upper ++
          pointer.drop (upper - lower))
  copiesToBuffer :
    ∀ (lower upper : Nat) buffer count,
      lower ≤ upper → (upper : Int) ≤ heap.count data →
      count = min buffer.length (upper - lower) →
        heap.copyBytes data buffer (some (lower, upper)) =
          .ok (bytesIn (heap.bytes data) lower (lower + count) ++
            buffer.drop count, count)
  copiesAll :
    ∀ buffer count, count = min buffer.length (heap.count data).toNat →
      heap.copyBytes data buffer none =
        .ok ((heap.bytes data).take count ++ buffer.drop count, count)
  subscript :
    ∀ index : Nat, (index : Int) < heap.count data →
      ∃ byte, (heap.bytes data)[index]? = some byte ∧
        heap.subscript data index = .ok byte
  iterates :
    ∀ fuel : Nat, 0 ≤ heap.count data → heap.count data < fuel →
      heap.elements data fuel = .ok (heap.bytes data)
  subdata :
    ∀ lower upper : Nat, lower ≤ upper → (upper : Int) ≤ heap.count data →
      ∃ after result,
        heap.subdata data lower upper = .ok (after, result) ∧
          after.bytes result = bytesIn (heap.bytes data) lower upper

/-- Every view that Swift has of an object agrees with its bytes. -/
theorem reachable_faithfulView
    (reached : Reachable (· = Heap.initial) Step heap)
    (holds : heap.Holds data) :
    FaithfulView heap data := by
  have wellFormed := reachable_wellFormed reached
  obtain ⟨most, whole⟩ := wellFormed.count_le holds
  refine
    { copies := ?copies
      copiesToBuffer := ?copiesToBuffer
      copiesAll := ?copiesAll
      subscript := ?subscript
      iterates := ?iterates
      subdata := ?subdata }
  case copies =>
    intro lower upper pointer ordered inside
    exact wellFormed.copyBytesHelper holds ordered (by omega) pointer
  case copiesToBuffer =>
    intro lower upper buffer count ordered inside isCount
    have copied := @Heap.WellFormed.copyRange _ _ lower wellFormed holds count
      (by omega) buffer
    rw [Heap.copyBytes]
    by_cases empty : lower = upper
    · obtain rfl : count = 0 := by omega
      simp [empty, bytesIn]
    · rw [if_neg (by omega), if_neg empty, if_neg (by omega), ← isCount]
      exact copied
  case copiesAll =>
    intro buffer count isCount
    have copied := @Heap.WellFormed.copyRange _ _ 0 wellFormed holds count
      (by omega) buffer
    rw [Nat.zero_add] at copied
    rw [Heap.copyBytes]
    by_cases empty : heap.count data ≤ 0
    · obtain rfl : count = 0 := by omega
      simp [empty]
    · rw [if_neg empty, ← isCount]
      exact copied
  case subscript =>
    intro index inside
    have less : index < (heap.bytes data).length := by omega
    exact ⟨_, List.getElem?_eq_getElem less,
      wellFormed.subscript holds (List.getElem?_eq_getElem less)⟩
  case iterates =>
    intro fuel countable enough
    obtain ⟨after, map, computes, maps⟩ := wellFormed.createMap holds
    have size : intSize map.size = map.size := by
      rw [maps.size, ← whole countable, Heap.count,
        ← wellFormed.length_bytes holds]
    have elements := maps.elements size (Nat.zero_le _)
      (show map.size - 0 < fuel by rw [maps.size]; omega)
    rw [Heap.elements, computes]
    exact elements
  case subdata =>
    intro lower upper ordered inside
    obtain ⟨after, result, computes, returns⟩ :=
      wellFormed.createSubrange holds lower (upper - lower)
    exact ⟨after, result, computes, returns.denotes⟩

/-- A range across two leaves, seen from Swift. -/
theorem rangeOfFlattened_faithful :
    ∃ heap : Heap,
      heap.bytes 5 = [3, 4] ∧
        heap.copyBytes 5 [9, 9, 9] (some (0, 2)) = .ok ([3, 4, 9], 2) ∧
        FaithfulView heap 5 := by
  obtain ⟨heap, reached, objects⟩ := rangeOfFlattened_reached
  have faithful := reachable_faithfulView reached (show heap.Holds 5 by
    simp [Heap.Holds, objects])
  have bytes : heap.bytes 5 = [3, 4] := by
    simp [Heap.bytes, Object.leaf, Heap.slice, Heap.leafBytes, Heap.object,
      objects]
  have copies := faithful.copiesToBuffer 0 2 [9, 9, 9] 2 (by decide)
    (by simp [Heap.count, intSize, Heap.object, objects]) rfl
  rw [bytes] at copies
  exact ⟨heap, bytes, copies, faithful⟩

end LibDispatch.Data
