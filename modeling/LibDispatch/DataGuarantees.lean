import LibDispatch.DataApply

namespace LibDispatch.Data

/-!
# Guarantees for data objects

Every object that a client can reach is a leaf or a composite of leaves, no call
runs out of bounds, and concatenations, subranges, maps and regions denote the
bytes they should.
-/

variable {heap : Heap} {data : Nat}

/-! ## Copies -/

theorem memcpy_prefix
    (written rest bytes : List UInt8) :
    memcpy (written ++ rest) written.length bytes =
      written ++ bytes ++ rest.drop bytes.length := by
  rw [memcpy, List.take_left, List.drop_length_add_append]

/-- Regions that follow what has been written are copied behind it. -/
theorem foldl_memcpy
    {regions : List Region}
    {written rest : List UInt8}
    (follows : FollowFrom written.length regions)
    (sizes : ∀ region ∈ regions, region.buffer.length = region.size) :
    regions.foldl
        (fun buffer region => memcpy buffer region.offset region.buffer)
        (written ++ rest) =
      written ++ regionBytes regions ++
        rest.drop (regionBytes regions).length := by
  induction regions generalizing written rest with
  | nil => simp [regionBytes]
  | cons region regions inductionHypothesis =>
    obtain ⟨starts, follows⟩ := follows
    rw [← sizes region List.mem_cons_self, ← List.length_append] at follows
    rw [List.foldl_cons, starts, memcpy_prefix, inductionHypothesis follows
      (fun other member => sizes other (List.mem_cons_of_mem _ member))]
    simp [regionBytes]

/-- With memory for it, an object is flattened to its bytes. -/
theorem Heap.WellFormed.flatten
    (wellFormed : heap.WellFormed)
    (holds : heap.Holds data) :
    heap.flatten data true = .ok (some (heap.bytes data)) := by
  obtain ⟨follows, bytes, sizes⟩ := wellFormed.regions_spec holds
  have copied := @foldl_memcpy (heap.regions data) []
    (List.replicate (heap.object data).size 0) follows
    (fun region member => (sizes region member).1)
  rw [List.nil_append, bytes, wellFormed.length_bytes holds] at copied
  rw [Heap.flatten, if_pos rfl, wellFormed.apply holds, visit_of_true, copied]
  simp

/-! ## Creation -/

/-- There is memory for an object with the given bytes. -/
def Destructor.Suffices
    (memory : Bool)
    (bytes : List UInt8) : Destructor → Prop
  | default => memory = true
  | inline => headerSize + bytes.length < 2 ^ 64
  | other => True

instance
    (memory : Bool)
    (bytes : List UInt8) :
    (destructor : Destructor) →
      Decidable (destructor.Suffices memory bytes)
  | .default => inferInstanceAs (Decidable (memory = true))
  | .inline => inferInstanceAs (Decidable (_ < _))
  | .other => inferInstanceAs (Decidable True)

theorem alloc_of_overflow
    {records extra : Nat}
    (overflows : ¬ records * recordSize + (headerSize + extra) < 2 ^ 64) :
    alloc records extra = .error .outOfMemory :=
  if_neg overflows

variable {bytes : List UInt8}

/-- A leaf is created if there is memory for it. -/
theorem Heap.create_of_nonempty
    (nonempty : bytes.length ≠ 0)
    (heap : Heap)
    (destructor : Destructor)
    (memory : Bool) :
    heap.create (some bytes) destructor memory =
      if destructor.Suffices memory bytes then
        .ok (heap.add ⟨some bytes, bytes.length, []⟩)
      else
        .error .outOfMemory := by
  have noRecords : alloc 0 0 = .ok () := alloc_of_fits (by simp [headerSize])
  cases destructor with
  | default | other =>
    simp only [Heap.create, if_neg nonempty, noRecords]
    rfl
  | inline =>
    simp only [Heap.create, if_neg nonempty]
    by_cases enough : Destructor.inline.Suffices memory bytes
    · have fits : headerSize + bytes.length < 2 ^ 64 := enough
      rw [alloc_of_fits (by omega), if_pos enough]
      rfl
    · have overflows : ¬ headerSize + bytes.length < 2 ^ 64 := enough
      rw [alloc_of_overflow (by omega), if_neg enough]
      rfl

variable {buffer : Option (List UInt8)}

theorem Heap.create_of_empty
    (empty : (buffer.getD []).length = 0)
    (heap : Heap)
    (destructor : Destructor)
    (memory : Bool) :
    heap.create buffer destructor memory = .ok (heap, emptyData) := by
  cases buffer with
  | none => rfl
  | some bytes =>
    simp only [Heap.create, Option.getD_some] at empty ⊢
    rw [if_pos empty]

section

variable (wellFormed : heap.WellFormed)

include wellFormed

/-- A new object denotes the given bytes. -/
theorem Heap.WellFormed.create
    {destructor : Destructor}
    {memory : Bool}
    (fits : (buffer.getD []).length < 2 ^ 64)
    (enough : destructor.Suffices memory (buffer.getD [])) :
    ∃ after result,
      heap.create buffer destructor memory = .ok (after, result) ∧
        Returns heap after result (buffer.getD []) := by
  by_cases empty : (buffer.getD []).length = 0
  · refine ⟨heap, emptyData, Heap.create_of_empty empty heap _ _, ?_⟩
    rw [List.eq_nil_of_length_eq_zero empty]
    exact .ofEmpty wellFormed
  · cases buffer with
    | none => exact absurd rfl empty
    | some bytes =>
      simp only [Option.getD_some] at empty fits enough ⊢
      refine ⟨_, _, ?_, Returns.ofLeaf wellFormed fits⟩
      rw [Heap.create_of_nonempty empty, if_pos enough]
      rfl

theorem Heap.WellFormed.createAlloc
    (fits : headerSize + bytes.length < 2 ^ 64) :
    ∃ after result,
      heap.createAlloc bytes = .ok (after, result) ∧
        Returns heap after result bytes := by
  by_cases empty : bytes.length = 0
  · refine ⟨heap, emptyData, ?_, ?_⟩
    · simp only [Heap.createAlloc, if_pos empty]
    · rw [List.eq_nil_of_length_eq_zero empty]
      exact .ofEmpty wellFormed
  · refine ⟨_, _, ?_, Returns.ofLeaf wellFormed (by omega)⟩
    rw [Heap.createAlloc, if_neg empty, alloc_of_fits (by omega)]
    rfl

/-! ## Maps -/

/-- A map: an object that denotes the same bytes, and a buffer that holds
them. -/
structure Maps
    (heap after : Heap)
    (data : Nat)
    (mapping : Mapping) : Prop where
  returns :
    ∃ result, mapping.data = some result ∧
      Returns heap after result (heap.bytes data)
  size : mapping.size = (heap.bytes data).length
  contiguous : (mapping.buffer.getD []).take mapping.size = heap.bytes data

theorem Heap.WellFormed.createMap
    (holds : heap.Holds data) :
    ∃ after mapping,
      heap.createMap data true = .ok (after, mapping) ∧
        Maps heap after data mapping := by
  have length := wellFormed.length_bytes holds
  have fits := (wellFormed.objects data holds).fits
  unfold Heap.createMap
  by_cases empty : (heap.object data).size = 0
  · have nothing := List.eq_nil_of_length_eq_zero (length.trans empty)
    refine ⟨heap, ⟨some emptyData, none, 0⟩, by simp only [if_pos empty], ?_⟩
    exact
      { returns := ⟨emptyData, rfl, by
          rw [nothing]
          exact .ofEmpty wellFormed⟩
        size := (length.trans empty).symm
        contiguous := nothing.symm }
  · simp only [if_neg empty]
    cases direct : (heap.mapDirect data 0).buffer with
    | some buffer =>
      refine ⟨heap.retain data,
        ⟨some data, some buffer, (heap.object data).size⟩, rfl, ?_⟩
      exact
        { returns := ⟨data, rfl, .ofRetain wellFormed holds⟩
          size := length.symm
          contiguous := wellFormed.mapDirect_buffer holds direct }
    | none =>
      have copied : ((some (heap.bytes data)).getD []).length < 2 ^ 64 := by
        rw [Option.getD_some, length]
        exact fits
      have enough : Destructor.other.Suffices true
          ((some (heap.bytes data)).getD []) := trivial
      obtain ⟨after, result, computes, returns⟩ :=
        wellFormed.create copied enough
      refine ⟨after,
        ⟨some result, some (heap.bytes data), (heap.object data).size⟩,
        ?_, ?_⟩
      · rw [wellFormed.flatten holds]
        simp only [bind, Except.bind, computes]
        rfl
      · exact
          { returns := ⟨result, rfl, returns⟩
            size := length.symm
            contiguous := List.take_of_length_le (Nat.le_of_eq length) }

/-! ## The parts of an object -/

/-- The records that an object contributes to a concatenation of nonempty
objects. -/
def Heap.parts (heap : Heap) (data : Nat) : Nat :=
  if (heap.object data).size = 0 then 0 else (heap.object data).numRecords

omit wellFormed in
theorem Heap.Extends.parts
    {after : Heap}
    (extension : heap.Extends after)
    (holds : heap.Holds data) :
    after.parts data = heap.parts data := by
  rw [Heap.parts, Heap.parts, extension.size data holds, Object.numRecords,
    Object.numRecords, extension.records data holds]

/-- An object of one leaf, or nothing. -/
theorem Heap.WellFormed.createOther
    (fits : bytes.length < 2 ^ 64) :
    ∃ after result,
      heap.create (some bytes) .other true = .ok (after, result) ∧
        Returns heap after result bytes ∧ after.parts result ≤ 1 := by
  by_cases empty : bytes.length = 0
  · have noBytes : ((some bytes).getD []).length = 0 := empty
    refine ⟨heap, emptyData, Heap.create_of_empty noBytes heap _ _, ?_, ?_⟩
    · rw [List.eq_nil_of_length_eq_zero empty]
      exact .ofEmpty wellFormed
    · rw [Heap.parts, wellFormed.empty.2]
      decide
  · refine ⟨_, _, ?_, Returns.ofLeaf wellFormed fits, ?_⟩
    · rw [Heap.create_of_nonempty empty]
      exact if_pos trivial
    · rw [Heap.parts, Heap.object_add_new, if_neg empty]
      exact Nat.le_refl 1

/-- A concatenation has the parts of both objects. -/
theorem Heap.WellFormed.concatParts
    {first second : Nat}
    (holdsFirst : heap.Holds first)
    (holdsSecond : heap.Holds second)
    (sizes :
      (heap.bytes first).length + (heap.bytes second).length < 2 ^ 64)
    (allocated :
      (heap.parts first + heap.parts second) * recordSize + headerSize <
        2 ^ 64) :
    ∃ after data,
      heap.createConcat first second = .ok (after, data) ∧
        Returns heap after data
          (heap.bytes first ++ heap.bytes second) ∧
        after.parts data ≤ heap.parts first + heap.parts second := by
  rw [wellFormed.length_bytes holdsFirst,
    wellFormed.length_bytes holdsSecond] at sizes
  have fits : heap.ConcatFits first second := by
    refine ⟨sizes, fun someFirst someSecond => ?_⟩
    rw [Heap.parts, Heap.parts, if_neg someFirst, if_neg someSecond]
      at allocated
    exact allocated
  obtain ⟨after, data, computes, returns⟩ :=
    wellFormed.createConcat holdsFirst holdsSecond fits
  refine ⟨after, data, computes, returns, ?_⟩
  have returned := computes
  rw [Heap.createConcat] at returned
  split_ifs at returned with emptyFirst emptySecond tooMany
  · cases returned
    rw [returns.extension.parts holdsSecond]
    exact Nat.le_add_left _ _
  · cases returned
    rw [returns.extension.parts holdsFirst]
    exact Nat.le_add_right _ _
  · simp only [Heap.addComposite, alloc_of_fits
      (show (heap.recordsOf first ++ heap.recordsOf second).length *
          recordSize + (headerSize + 0) < 2 ^ 64 by
        rw [List.length_append, heap.length_recordsOf, heap.length_recordsOf]
        exact fits.2 emptyFirst emptySecond), bind, Except.bind]
      at returned
    cases returned
    have some : (heap.recordsOf first ++ heap.recordsOf second).length ≠ 0 :=
      fun none => heap.recordsOf_ne_nil first
        (List.append_eq_nil_iff.mp (List.length_eq_zero_iff.mp none)).1
    have result (reduced : Heap)
        (same : reduced.objects = (heap.add ⟨none,
          ((heap.object first).size + (heap.object second).size) % 2 ^ 64,
          heap.recordsOf first ++ heap.recordsOf second⟩).1.objects) :
        (reduced.object heap.objects.length).numRecords =
          (heap.object first).numRecords +
            (heap.object second).numRecords := by
      rw [Heap.object, same, ← Heap.object, Heap.object_add_new,
        Object.numRecords, if_neg some, List.length_append,
        heap.length_recordsOf, heap.length_recordsOf]
    rw [Heap.parts, Heap.parts, Heap.parts, if_neg emptyFirst,
      if_neg emptySecond]
    split_ifs with emptyResult
    · exact Nat.zero_le _
    · exact Nat.le_of_eq (result _ (Heap.objects_retainRecords _ _))

/-! ## Flattening -/

/-- A composite that is flattened goes on to denote its bytes. -/
theorem Heap.WellFormed.setBuffer
    (holds : heap.Holds data)
    (composite : (heap.object data).records ≠ [])
    (notTrivial : (heap.object data).records.length ≠ 1) :
    heap.Extends (heap.setBuffer data (heap.bytes data)) ∧
      (heap.setBuffer data (heap.bytes data)).WellFormed := by
  have same (other : Nat) (different : other ≠ data) :
      (heap.setBuffer data (heap.bytes data)).object other =
        heap.object other := by
    simp only [Heap.setBuffer, Heap.object, List.getD_eq_getElem?_getD]
    rw [List.getElem?_set_ne different.symm]
  have own : (heap.setBuffer data (heap.bytes data)).object data =
      { heap.object data with buf := some (heap.bytes data) } := by
    have present : data < heap.objects.length := holds
    simp only [Heap.setBuffer, Heap.object, List.getD_eq_getElem?_getD]
    rw [List.getElem?_set_self present]
    rfl
  have stillHolds (other : Nat) :
      (heap.setBuffer data (heap.bytes data)).Holds other ↔
        heap.Holds other := by
    simp [Heap.Holds, Heap.setBuffer]
  have extension : heap.Extends (heap.setBuffer data (heap.bytes data)) :=
    { holds := fun other => (stillHolds other).mpr
      size := fun other _ => by
        by_cases isOwn : other = data
        · rw [isOwn, own]
        · rw [same other isOwn]
      records := fun other _ => by
        by_cases isOwn : other = data
        · rw [isOwn, own]
        · rw [same other isOwn]
      leafBuffer := fun other _ leaf => by
        by_cases isOwn : other = data
        · rw [isOwn] at leaf
          exact absurd leaf composite
        · rw [same other isOwn] }
  refine ⟨extension, { empty := ?_, objects := ?_ }⟩
  · have different : emptyData ≠ data := by
      rintro rfl
      rw [wellFormed.empty.2] at composite
      exact composite rfl
    rw [stillHolds, same emptyData different]
    exact wellFormed.empty
  · intro other held
    have before := wellFormed.objects other ((stillHolds other).mp held)
    by_cases isOwn : other = data
    · subst isOwn
      rw [own]
      exact
        { before with
          leaf := fun leaf => absurd leaf composite
          records := fun record member =>
            extension.record (before.records record member)
          trivialSubrange := fun single => absurd single notTrivial
          flattened := by
            rintro - buffer ⟨⟩
            rw [extension.pieces before.records,
              Heap.bytes_of_composite composite] }
    · rw [same other isOwn]
      exact extension.object before

/-- A flattened object is the object itself, with a pointer to its bytes. -/
theorem Heap.WellFormed.getFlattenedBytes
    (holds : heap.Holds data)
    (memory : Bool) :
    ∃ after pointer,
      heap.getFlattenedBytes data memory = .ok (after, pointer) ∧
        heap.Extends after ∧ after.WellFormed ∧
        ∀ buffer, pointer = some buffer →
          buffer.take (heap.object data).size = heap.bytes data := by
  have length := wellFormed.length_bytes holds
  unfold Heap.getFlattenedBytes
  by_cases empty : (heap.object data).size = 0
  · exact ⟨heap, none, by simp only [if_pos empty], .refl heap, wellFormed,
      nofun⟩
  · simp only [if_neg empty]
    cases direct : (heap.mapDirect data 0).buffer with
    | some buffer =>
      refine ⟨heap, some buffer, rfl, .refl heap, wellFormed, ?_⟩
      rintro _ ⟨⟩
      exact wellFormed.mapDirect_buffer holds direct
    | none =>
      obtain ⟨composite, notTrivial, mapped⟩ :=
        wellFormed.mapDirect_none holds empty direct
      rw [mapped]
      cases memory with
      | false =>
        exact ⟨heap, none, rfl, .refl heap, wellFormed, nofun⟩
      | true =>
        obtain ⟨extension, stillWellFormed⟩ :=
          wellFormed.setBuffer holds composite notTrivial
        refine ⟨heap.setBuffer data (heap.bytes data),
          some (heap.bytes data), ?_, extension, stillWellFormed, ?_⟩
        · rw [wellFormed.flatten holds]
          rfl
        · rintro _ ⟨⟩
          exact List.take_of_length_le (Nat.le_of_eq length)

end

/-! ## Copies of regions -/

/-- A location inside the records is found in one of them. -/
theorem seekRegion_inside
    {records : List Record}
    {location offset : Nat}
    (positive : ∀ record ∈ records, 0 < record.length)
    (above : offset ≤ location)
    (below : location < offset + totalLength records) :
    ∃ before record after,
      records = before ++ record :: after ∧
        seekRegion records 0 location offset =
          some (record, 0, record.length, offset + totalLength before) ∧
        offset + totalLength before ≤ location ∧
        location < offset + totalLength before + record.length := by
  induction records generalizing offset with
  | nil =>
    simp only [totalLength, List.map_nil, List.sum_nil] at below
    omega
  | cons record records inductionHypothesis =>
    have own := positive record List.mem_cons_self
    rw [seekRegion, if_neg (by omega)]
    simp only [Nat.sub_zero]
    split
    · rename_i beyond
      have inside : location <
          offset + record.length + totalLength records := by
        simp only [totalLength, List.map_cons, List.sum_cons] at below ⊢
        omega
      obtain ⟨before, found, after, parts, finds, starts, ends⟩ :=
        inductionHypothesis
          (fun other member => positive other (List.mem_cons_of_mem _ member))
          beyond inside
      have skipped : totalLength (record :: before) =
          record.length + totalLength before := by
        simp [totalLength]
      refine ⟨record :: before, found, after, by rw [parts]; rfl, ?_, ?_, ?_⟩
      · rw [finds, skipped, Nat.add_assoc]
      · omega
      · omega
    · rename_i here
      exact ⟨[], record, records, rfl, rfl, above, Nat.lt_of_not_le here⟩

theorem Heap.mem_recordRegions
    (heap : Heap)
    (before after : List Record)
    (record : Record)
    (offset : Nat) :
    ⟨record.dataObject, offset + totalLength before, heap.slice record,
        record.length⟩ ∈
      heap.recordRegions (before ++ record :: after) offset := by
  induction before generalizing offset with
  | nil => exact List.mem_cons_self
  | cons first before inductionHypothesis =>
    have skipped : totalLength (first :: before) =
        first.length + totalLength before := by
      simp [totalLength]
    rw [skipped, ← Nat.add_assoc]
    exact List.mem_cons_of_mem _ (inductionHypothesis (offset + first.length))

/-- The region of a record is the leaf it points to, or a part of it. -/
theorem Heap.WellFormed.copyRegionFrom_record
    {record : Record}
    (wellFormed : heap.WellFormed)
    (valid : record.WellFormed heap)
    (depth location offset : Nat) :
    ∃ after result,
      heap.copyRegionFrom (depth + 1) record.dataObject record.start
          record.length location offset =
          .ok (after, result, offset) ∧
        Returns heap after result (heap.slice record) := by
  have leafLength := wellFormed.length_bytes valid.holds
  have denoted : heap.slice record =
      ((heap.bytes record.dataObject).drop record.start).take
        record.length := by
    rw [Heap.bytes_of_leaf valid.leaf]
    rfl
  rw [Heap.copyRegionFrom, wellFormed.mapDirect_leaf valid.holds valid.leaf
    valid.leafSize]
  simp only
  by_cases whole : record.start = 0 ∧
      record.length = (heap.object record.dataObject).size
  · refine ⟨heap.retain record.dataObject, record.dataObject, by
      rw [if_pos whole], ?_⟩
    rw [denoted, whole.1, List.drop_zero,
      List.take_of_length_le (by omega)]
    exact .ofRetain wellFormed valid.holds
  · obtain ⟨after, result, computes, returns⟩ :=
      wellFormed.leafSubrange valid.holds valid.leaf valid.positive
        valid.inside
    refine ⟨after, result, ?_, denoted ▸ returns⟩
    rw [if_neg whole, if_neg whole, computes]
    rfl

/-- The copy of a region is the region that an applier is given for its
location. -/
theorem Heap.WellFormed.copyRegion
    {location : Nat}
    (wellFormed : heap.WellFormed)
    (holds : heap.Holds data)
    (inside : location < (heap.object data).size) :
    ∃ following result, ∃ region ∈ heap.regions data,
      heap.copyRegion data location =
          .ok (following, result, region.offset) ∧
        region.offset ≤ location ∧
        location < region.offset + region.size ∧
        Returns heap following result region.buffer := by
  have object := wellFormed.objects data holds
  have positive : (heap.object data).size ≠ 0 := by omega
  rw [Heap.copyRegion, if_neg (by omega), Heap.copyRegionFrom]
  unfold Heap.regions
  rw [if_neg positive]
  cases direct : (heap.mapDirect data 0).buffer with
  | some buffer =>
    refine ⟨heap.retain data, data, _, List.mem_singleton_self _, ?_,
      Nat.zero_le _, ?_, ?_⟩
    · simp only [true_and, ↓reduceIte]
    · rwa [Nat.zero_add]
    · rw [wellFormed.mapDirect_buffer holds direct]
      exact .ofRetain wellFormed holds
  | none =>
    obtain ⟨composite, -, mapped⟩ :=
      wellFormed.mapDirect_none holds positive direct
    obtain ⟨before, record, after, parts, finds, starts, ends⟩ :=
      seekRegion_inside
        (fun record member => (object.records record member).positive)
        (Nat.zero_le location)
        (by rw [Nat.zero_add, object.sizes composite]; exact inside)
    have valid := object.records record (by rw [parts]; simp)
    obtain ⟨depth, deep⟩ : ∃ depth, heap.objects.length = depth + 1 :=
      ⟨heap.objects.length - 1, by
        simp only [Heap.Holds] at holds
        omega⟩
    obtain ⟨following, result, computes, returns⟩ :=
      wellFormed.copyRegionFrom_record valid depth
        (location - (0 + totalLength before)) (0 + totalLength before)
    refine ⟨following, result, _,
      parts ▸ heap.mem_recordRegions before after record 0, ?_, starts, ends,
      returns⟩
    rw [mapped]
    simp only [finds, deep, Nat.zero_add] at computes ⊢
    exact computes

/-! ## Runs -/

theorem Heap.initial_wellFormed : Heap.initial.WellFormed where
  empty := ⟨Nat.zero_lt_one, rfl⟩
  objects := by
    intro data held
    have isEmpty : data = 0 := Nat.lt_one_iff.mp held
    rw [isEmpty]
    exact
      { fits := Nat.two_pow_pos 64
        allocated := by decide
        leaf := fun _ => ⟨rfl, .inl rfl⟩
        records := nofun
        sizes := fun composite => absurd rfl composite
        trivialSubrange := nofun
        flattened := fun composite => absurd rfl composite }

/-- A call leaves the objects as they are and the heap well formed, or there is
no memory for it. -/
def Heap.Allows (heap : Heap) (outcome : Except Failure Heap) : Prop :=
  (∃ after, outcome = .ok after ∧ heap.Extends after ∧
    after.WellFormed) ∨
  outcome = .error .outOfMemory

/-- The outcome of a call that returns an object. -/
theorem Returns.allows
    {outcome : Except Failure (Heap × Nat)}
    {after : Heap}
    {result : Nat}
    (computes : outcome = .ok (after, result))
    (returns : Returns heap after result bytes) :
    heap.Allows (Prod.fst <$> outcome) :=
  .inl ⟨after, by rw [computes]; rfl, returns.extension,
    returns.wellFormed⟩

section

variable (wellFormed : heap.WellFormed)

include wellFormed

theorem Heap.WellFormed.create_allows
    (fits : (buffer.getD []).length < 2 ^ 64)
    (destructor : Destructor)
    (memory : Bool) :
    heap.Allows (Prod.fst <$> heap.create buffer destructor memory) := by
  by_cases enough : destructor.Suffices memory (buffer.getD [])
  · obtain ⟨after, result, computes, returns⟩ :=
      wellFormed.create fits enough
    exact returns.allows computes
  · by_cases empty : (buffer.getD []).length = 0
    · exact Returns.allows (Heap.create_of_empty empty heap _ _)
        (.ofEmpty wellFormed)
    · cases buffer with
      | none => exact absurd rfl empty
      | some bytes =>
        simp only [Option.getD_some] at empty enough
        rw [Heap.create_of_nonempty empty, if_neg enough]
        exact .inr rfl

theorem Heap.WellFormed.createAlloc_allows
    (fits : bytes.length < 2 ^ 64) :
    heap.Allows (Prod.fst <$> heap.createAlloc bytes) := by
  by_cases enough : headerSize + bytes.length < 2 ^ 64
  · obtain ⟨after, result, computes, returns⟩ :=
      wellFormed.createAlloc enough
    exact returns.allows computes
  · have nonempty : bytes.length ≠ 0 := by
      simp only [headerSize] at enough
      omega
    rw [Heap.createAlloc, if_neg nonempty, alloc_of_overflow (by omega)]
    exact .inr rfl

theorem Heap.WellFormed.createMap_allows
    (holds : heap.Holds data)
    (memory : Bool) :
    heap.Allows (Prod.fst <$> heap.createMap data memory) := by
  cases memory with
  | true =>
    obtain ⟨after, mapping, computes, maps⟩ := wellFormed.createMap holds
    obtain ⟨result, -, returns⟩ := maps.returns
    exact .inl ⟨after, by rw [computes]; rfl, returns.extension,
      returns.wellFormed⟩
  | false =>
    unfold Heap.createMap
    by_cases empty : (heap.object data).size = 0
    · simp only [if_pos empty]
      exact .inl ⟨heap, rfl, .refl heap, wellFormed⟩
    · simp only [if_neg empty]
      cases (heap.mapDirect data 0).buffer with
      | some buffer =>
        have returns := Returns.ofRetain wellFormed holds
        exact .inl ⟨_, rfl, returns.extension, returns.wellFormed⟩
      | none => exact .inl ⟨heap, rfl, .refl heap, wellFormed⟩

/-- No call that a client makes breaks the objects or runs out of bounds. -/
theorem Heap.WellFormed.run
    {operation : Operation}
    (accepted : heap.Accepts operation) :
    heap.Allows (heap.run operation) := by
  cases operation with
  | create buffer destructor memory =>
    exact wellFormed.create_allows accepted destructor memory
  | createAlloc bytes =>
    exact wellFormed.createAlloc_allows accepted
  | createConcat first second =>
    obtain ⟨holdsFirst, holdsSecond, fits⟩ := accepted
    obtain ⟨after, result, computes, returns⟩ :=
      wellFormed.createConcat holdsFirst holdsSecond fits
    exact returns.allows computes
  | createSubrange data offset length =>
    obtain ⟨after, result, computes, returns⟩ :=
      wellFormed.createSubrange accepted offset length
    exact returns.allows computes
  | createMap data memory =>
    exact wellFormed.createMap_allows accepted memory
  | copyRegion data location =>
    by_cases inside : location < (heap.object data).size
    · obtain ⟨after, result, region, -, computes, -, -, returns⟩ :=
        wellFormed.copyRegion accepted inside
      exact .inl ⟨after, by rw [Heap.run, computes]; rfl,
        returns.extension, returns.wellFormed⟩
    · rw [Heap.run, Heap.copyRegion, if_pos (Nat.le_of_not_lt inside)]
      exact .inl ⟨heap, rfl, .refl heap, wellFormed⟩
  | getFlattenedBytes data memory =>
    obtain ⟨after, pointer, computes, extension, stillWellFormed, -⟩ :=
      wellFormed.getFlattenedBytes accepted memory
    exact .inl ⟨after, by rw [Heap.run, computes]; rfl, extension,
      stillWellFormed⟩

end

/-- The states of the objects that calls can lead to. -/
theorem reachable_wellFormed
    (reached : Reachable (· = Heap.initial) Step heap) :
    heap.WellFormed := by
  refine reached.invariant ?_ ?_
  · rintro _ rfl
    exact Heap.initial_wellFormed
  · rintro before after wellFormed ⟨operation, accepted, ran⟩
    rcases wellFormed.run accepted with ⟨_, same, -, kept⟩ | noMemory
    · rw [same] at ran
      cases ran
      exact kept
    · rw [noMemory] at ran
      cases ran

/-! ## Representation -/

/-- How an object is represented. -/
structure Represented (heap : Heap) (data : Nat) : Prop where
  /-- Every record of a composite points to a part of a leaf that is not
  empty. -/
  records :
    ∀ record ∈ (heap.object data).records,
      heap.Holds record.dataObject ∧
        (heap.object record.dataObject).leaf = true ∧
        0 < record.length ∧
        record.start + record.length ≤
          (heap.object record.dataObject).size
  /-- The records of a composite make up its size. -/
  size :
    (heap.object data).leaf = false →
      ((heap.object data).records.map Record.length).sum =
        (heap.object data).size
  /-- A trivial subrange has no flat buffer. -/
  trivialSubrange :
    (heap.object data).records.length = 1 → (heap.object data).buf = none

/-- Every object that calls can lead to is a leaf or a composite of leaves, and
no call fails for another reason than memory. -/
theorem reachable_represented
    (reached : Reachable (· = Heap.initial) Step heap) :
    (∀ data, heap.Holds data → Represented heap data) ∧
      ∀ operation failure, heap.Accepts operation →
        heap.run operation = .error failure → failure = .outOfMemory := by
  have wellFormed := reachable_wellFormed reached
  constructor
  · intro data holds
    have object := wellFormed.objects data holds
    refine { records := ?_, size := ?_, trivialSubrange := ?_ }
    · intro record member
      have valid := object.records record member
      exact ⟨valid.holds, (Object.leaf_iff _).mpr valid.leaf, valid.positive,
        valid.inside⟩
    · intro composite
      refine object.sizes fun leaf => ?_
      rw [(Object.leaf_iff _).mpr leaf] at composite
      cases composite
    · exact object.trivialSubrange
  · intro operation failure accepted failed
    rcases wellFormed.run accepted with ⟨after, ok, -, -⟩ | noMemory
    · rw [ok] at failed
      cases failed
    · rw [noMemory] at failed
      cases failed
      rfl

/-! ## Bytes -/

/-- What the calls make of the bytes of the objects of a heap. -/
structure Denotes (heap : Heap) : Prop where
  concat :
    ∀ first second, heap.Holds first → heap.Holds second →
      heap.ConcatFits first second →
        ∃ after result,
          heap.createConcat first second = .ok (after, result) ∧
            after.bytes result = heap.bytes first ++ heap.bytes second
  subrange :
    ∀ data offset length, heap.Holds data →
      ∃ after result,
        heap.createSubrange data offset length = .ok (after, result) ∧
          after.bytes result =
            ((heap.bytes data).drop offset).take length
  map :
    ∀ data, heap.Holds data →
      ∃ after mapping result,
        heap.createMap data true = .ok (after, mapping) ∧
          mapping.data = some result ∧
          after.bytes result = heap.bytes data ∧
          mapping.size = (heap.bytes data).length ∧
          (mapping.buffer.getD []).take mapping.size = heap.bytes data
  /-- An applier that always returns true is called on regions that follow each
  other, are not empty and hold the bytes of the object. -/
  apply :
    ∀ data, heap.Holds data →
      ∃ regions : List Region,
        (∀ (Context : Type) (update : Context → Region → Context) context,
          heap.apply
              (fun context region => .ok (update context region, true))
              data context =
            .ok (regions.foldl update context, true)) ∧
          FollowFrom 0 regions ∧
          (∀ region ∈ regions,
            0 < region.size ∧ region.buffer.length = region.size) ∧
          regionBytes regions = heap.bytes data

/-- The calls denote the bytes they should in every heap they lead to. -/
theorem reachable_denotes
    (reached : Reachable (· = Heap.initial) Step heap) :
    Denotes heap := by
  have wellFormed := reachable_wellFormed reached
  refine { concat := ?concat, subrange := ?subrange, map := ?map,
           apply := ?apply }
  case concat =>
    intro first second holdsFirst holdsSecond fits
    obtain ⟨after, result, computes, returns⟩ :=
      wellFormed.createConcat holdsFirst holdsSecond fits
    exact ⟨after, result, computes, returns.denotes⟩
  case subrange =>
    intro data offset length holds
    obtain ⟨after, result, computes, returns⟩ :=
      wellFormed.createSubrange holds offset length
    exact ⟨after, result, computes, returns.denotes⟩
  case map =>
    intro data holds
    obtain ⟨after, mapping, computes, maps⟩ := wellFormed.createMap holds
    obtain ⟨result, isResult, returns⟩ := maps.returns
    exact ⟨after, mapping, result, computes, isResult, returns.denotes,
      maps.size, maps.contiguous⟩
  case apply =>
    intro data holds
    obtain ⟨follows, bytes, sizes⟩ := wellFormed.regions_spec holds
    refine ⟨heap.regions data, ?_, follows,
      fun region member => (sizes region member).symm, bytes⟩
    intro Context update context
    rw [wellFormed.apply holds, visit_of_true]

/-- A run to a heap with a concatenation of two leaves (3), a range across both
(4), which is flattened, and a range of that (5). -/
theorem rangeOfFlattened_reached :
    ∃ heap : Heap,
      Reachable (· = Heap.initial) Step heap ∧
        heap.objects =
          [emptyObject,
            ⟨some [1, 2, 3], 3, []⟩,
            ⟨some [4, 5, 6], 3, []⟩,
            ⟨none, 6, [⟨1, 0, 3⟩, ⟨2, 0, 3⟩]⟩,
            ⟨some [2, 3, 4, 5], 4, [⟨1, 1, 2⟩, ⟨2, 0, 2⟩]⟩,
            ⟨none, 2, [⟨1, 2, 1⟩, ⟨2, 0, 1⟩]⟩] := by
  have first := reached_initial.next
    ⟨.create (some [1, 2, 3]) .default true, by decide, rfl⟩
  have second := first.next ⟨.createAlloc [4, 5, 6], by decide, rfl⟩
  have concat := second.next ⟨.createConcat 1 2, by decide, rfl⟩
  have range := concat.next ⟨.createSubrange 3 1 4, by decide, rfl⟩
  have flattened := range.next ⟨.getFlattenedBytes 4 true, by decide, rfl⟩
  have inner := flattened.next ⟨.createSubrange 4 1 2, by decide, rfl⟩
  exact ⟨_, inner, rfl⟩

/-- In that heap the theorem speaks of the flattened range. -/
theorem rangeOfFlattened_denotes :
    ∃ heap : Heap,
      heap.bytes 4 = [2, 3, 4, 5] ∧ heap.bytes 5 = [3, 4] ∧
        Denotes heap := by
  obtain ⟨heap, reached, objects⟩ := rangeOfFlattened_reached
  refine ⟨heap, ?_, ?_, reachable_denotes reached⟩
  · simp [Heap.bytes, Heap.object, Heap.slice, Heap.leafBytes, Object.leaf,
      objects]
  · simp [Heap.bytes, Heap.object, Heap.slice, Heap.leafBytes, Object.leaf,
      objects]

theorem rangeOfFlattened_represented :
    ∃ heap : Heap,
      (heap.object 5).records = [⟨1, 2, 1⟩, ⟨2, 0, 1⟩] ∧
        Represented heap 5 := by
  obtain ⟨heap, reached, objects⟩ := rangeOfFlattened_reached
  refine ⟨heap, ?_, (reachable_represented reached).1 5 ?_⟩
  · simp [Heap.object, objects]
  · simp [Heap.Holds, objects]

end LibDispatch.Data
