import LibDispatch.DataRanges

namespace LibDispatch.Data

/-!
# Regions of data objects

`dispatch_data_apply` visits a list of regions, in order: one region for an
object with a buffer that can be used directly, else one for each record.
Contiguous buffers are copied together from the regions.
-/

variable {heap : Heap} {data : Nat}

/-! ## The regions of an object -/

/-- The regions of the records of a composite, from an offset on. -/
def Heap.recordRegions (heap : Heap) : List Record → Nat → List Region
  | [], _ => []
  | record :: records, offset =>
    ⟨record.dataObject, offset, heap.slice record, record.length⟩ ::
      heap.recordRegions records (offset + record.length)

/-- The regions of an object. -/
def Heap.regions (heap : Heap) (data : Nat) : List Region :=
  if (heap.object data).size = 0 then
    []
  else
    match (heap.mapDirect data 0).buffer with
    | some buffer =>
      [⟨data, 0, buffer.take (heap.object data).size,
        (heap.object data).size⟩]
    | none => heap.recordRegions (heap.object data).records 0

variable {after : Heap} {records : List Record}

theorem Heap.recordRegions_congr
    (parts :
      ∀ record ∈ records,
        after.object record.dataObject = heap.object record.dataObject)
    (offset : Nat) :
    after.recordRegions records offset =
      heap.recordRegions records offset := by
  induction records generalizing offset with
  | nil => rfl
  | cons record records inductionHypothesis =>
    rw [Heap.recordRegions, Heap.recordRegions, inductionHypothesis
      (fun other member => parts other (List.mem_cons_of_mem _ member))]
    simp only [Heap.slice, Heap.leafBytes, parts record List.mem_cons_self]

/-- Only the object and what its records point to matter. -/
theorem Heap.regions_congr
    (own : after.object data = heap.object data)
    (parts :
      ∀ record ∈ (heap.object data).records,
        after.object record.dataObject = heap.object record.dataObject) :
    after.regions data = heap.regions data := by
  have direct : after.mapDirect data 0 = heap.mapDirect data 0 := by
    rw [Heap.mapDirect, Heap.mapDirect, own]
    split
    · rename_i record single
      rw [parts record (by rw [single]; exact List.mem_singleton_self record)]
    · rfl
  rw [Heap.regions, Heap.regions, own, direct, Heap.recordRegions_congr parts]

/-- The references to the objects do not matter. -/
theorem Heap.regions_ofSame
    (same : after.objects = heap.objects)
    (data : Nat) :
    after.regions data = heap.regions data := by
  have object (other : Nat) : after.object other = heap.object other := by
    rw [Heap.object, Heap.object, same]
  exact Heap.regions_congr (object data) (fun _ _ => object _)

/-- The regions follow each other, from an offset on. -/
def FollowFrom : Nat → List Region → Prop
  | _, [] => True
  | offset, region :: regions =>
    region.offset = offset ∧ FollowFrom (offset + region.size) regions

/-- The bytes of the given regions together. -/
def regionBytes (regions : List Region) : List UInt8 :=
  (regions.map Region.buffer).flatten

/-- The first region of the rest of some bytes, and what follows it. -/
theorem regionBytes_split
    {region : Region}
    {regions : List Region}
    {bytes : List UInt8}
    {offset : Nat}
    (length : region.buffer.length = region.size)
    (rest : regionBytes (region :: regions) = bytes.drop offset)
    (within : offset ≤ bytes.length) :
    region.buffer = (bytes.drop offset).take region.size ∧
      regionBytes regions = bytes.drop (offset + region.size) ∧
      offset + region.size ≤ bytes.length := by
  rw [regionBytes, List.map_cons, List.flatten_cons] at rest
  have lengths := congrArg List.length rest
  rw [List.length_append, List.length_drop, length] at lengths
  rw [← List.drop_drop, ← rest, ← length, List.take_left, List.drop_left,
    length]
  exact ⟨rfl, rfl, by omega⟩

/-- An applier visits regions until it returns false. -/
def visit
    {Context : Type}
    (applier : Applier Context) :
    List Region → Context → Except Failure (Context × Bool)
  | [], context => .ok (context, true)
  | region :: regions, context => do
      let (context, goesOn) ← applier context region
      if goesOn then
        visit applier regions context
      else
        return (context, false)

/-- An applier that always returns true visits every region. -/
theorem visit_of_true
    {Context : Type}
    (update : Context → Region → Context)
    (regions : List Region)
    (context : Context) :
    visit (fun context region => .ok (update context region, true)) regions
        context =
      .ok (regions.foldl update context, true) := by
  induction regions generalizing context with
  | nil => rfl
  | cons region regions inductionHypothesis =>
    exact inductionHypothesis (update context region)

/-! ## Direct access -/

/-- The object is no trivial subrange. -/
theorem Heap.mapDirect_of_length
    (notTrivial : (heap.object data).records.length ≠ 1)
    (offset : Nat) :
    heap.mapDirect data offset =
      ⟨(heap.object data).buf.map (List.drop offset), data, offset⟩ := by
  unfold Heap.mapDirect
  split
  · rename_i record single
    rw [single] at notTrivial
    exact absurd rfl notTrivial
  · rfl

variable {record : Record}

theorem Heap.mapDirect_of_trivial
    (single : (heap.object data).records = [record])
    (offset : Nat) :
    heap.mapDirect data offset =
      ⟨(heap.object record.dataObject).buf.map
          (List.drop (offset + record.start)),
        record.dataObject, offset + record.start⟩ := by
  unfold Heap.mapDirect
  rw [single]

variable (wellFormed : heap.WellFormed) (holds : heap.Holds data)

include wellFormed holds

/-- A leaf that is not empty has a buffer. -/
theorem Heap.WellFormed.leafBuffer
    (leaf : (heap.object data).records = [])
    (positive : (heap.object data).size ≠ 0) :
    (heap.object data).buf = some (heap.leafBytes data) := by
  have some := ((wellFormed.objects data holds).leaf leaf).2.resolve_left
    positive
  obtain ⟨buffer, present⟩ := Option.isSome_iff_exists.mp some
  rw [Heap.leafBytes, present]
  rfl

theorem Heap.WellFormed.mapDirect_leaf
    (leaf : (heap.object data).records = [])
    (positive : (heap.object data).size ≠ 0)
    (offset : Nat) :
    heap.mapDirect data offset =
      ⟨some ((heap.leafBytes data).drop offset), data, offset⟩ := by
  rw [Heap.mapDirect_of_length (by simp [leaf]),
    wellFormed.leafBuffer holds leaf positive]
  rfl

omit wellFormed holds in
/-- The leaf that a record points to is not empty. -/
theorem Record.WellFormed.leafSize
    (valid : record.WellFormed heap) :
    (heap.object record.dataObject).size ≠ 0 := by
  have positive := valid.positive
  have inside := valid.inside
  omega

/-- A direct pointer points to the bytes of the object. -/
theorem Heap.WellFormed.mapDirect_buffer
    {buffer : List UInt8}
    (direct : (heap.mapDirect data 0).buffer = some buffer) :
    buffer.take (heap.object data).size = heap.bytes data := by
  have object := wellFormed.objects data holds
  have length := wellFormed.length_bytes holds
  by_cases single : (heap.object data).records.length = 1
  · obtain ⟨record, isSingle⟩ := List.length_eq_one_iff.mp single
    have composite : (heap.object data).records ≠ [] := by simp [isSingle]
    have valid := object.records record (by simp [isSingle])
    have size := object.sizes composite
    rw [Heap.mapDirect_of_trivial isSingle,
      wellFormed.leafBuffer valid.holds valid.leaf valid.leafSize,
      Nat.zero_add] at direct
    cases direct
    rw [Heap.bytes_of_composite composite, ← size, isSingle]
    simp [totalLength, Heap.pieces, Heap.slice]
  · rw [Heap.mapDirect_of_length single] at direct
    by_cases leaf : (heap.object data).records = []
    · have present : (heap.object data).buf = some buffer := by
        simpa using direct
      have bytes : heap.bytes data = buffer := by
        rw [Heap.bytes_of_leaf leaf, Heap.leafBytes, present]
        rfl
      rw [bytes] at length ⊢
      exact List.take_of_length_le (Nat.le_of_eq length)
    · have present : (heap.object data).buf = some buffer := by
        simpa using direct
      have bytes : heap.bytes data = buffer := by
        rw [Heap.bytes_of_composite leaf, object.flattened leaf buffer present]
      rw [bytes] at length ⊢
      exact List.take_of_length_le (Nat.le_of_eq length)

/-- An object without a direct pointer is a composite that is not flattened. -/
theorem Heap.WellFormed.mapDirect_none
    (positive : (heap.object data).size ≠ 0)
    (indirect : (heap.mapDirect data 0).buffer = none) :
    (heap.object data).records ≠ [] ∧
      (heap.object data).records.length ≠ 1 ∧
      heap.mapDirect data 0 = ⟨none, data, 0⟩ := by
  have object := wellFormed.objects data holds
  have notTrivial : (heap.object data).records.length ≠ 1 := by
    intro single
    obtain ⟨record, isSingle⟩ := List.length_eq_one_iff.mp single
    have valid := object.records record (by simp [isSingle])
    rw [Heap.mapDirect_of_trivial isSingle,
      wellFormed.leafBuffer valid.holds valid.leaf valid.leafSize] at indirect
    cases indirect
  refine ⟨?_, notTrivial, ?_⟩
  · intro leaf
    rw [wellFormed.mapDirect_leaf holds leaf positive] at indirect
    cases indirect
  · rw [Heap.mapDirect_of_length notTrivial] at indirect ⊢
    simp only at indirect
    rw [indirect]

/-! ## Visiting the regions -/

section Visit

variable {Context : Type}

omit holds in
/-- A record is visited as one region, for it points to a leaf. -/
theorem Heap.WellFormed.applyFrom_record
    (valid : record.WellFormed heap)
    (applier : Applier Context)
    (depth offset : Nat)
    (context : Context) :
    heap.applyFrom applier (depth + 1) record.dataObject offset record.start
        record.length context =
      applier context
        ⟨record.dataObject, offset, heap.slice record, record.length⟩ := by
  rw [Heap.applyFrom, wellFormed.mapDirect_leaf valid.holds valid.leaf
    valid.leafSize]
  rfl

omit holds in
theorem Heap.WellFormed.applyRecords
    (valid : ∀ record ∈ records, record.WellFormed heap)
    (applier : Applier Context)
    (depth offset : Nat)
    (context : Context) :
    Data.applyRecords
        (fun record offset context =>
          heap.applyFrom applier (depth + 1) record.dataObject offset
            record.start record.length context)
        records offset context =
      visit applier (heap.recordRegions records offset) context := by
  induction records generalizing offset context with
  | nil => rfl
  | cons record records inductionHypothesis =>
    rw [Data.applyRecords, Heap.recordRegions, visit,
      wellFormed.applyFrom_record (valid record List.mem_cons_self)]
    cases applier context
        ⟨record.dataObject, offset, heap.slice record, record.length⟩ with
    | error failure => rfl
    | ok result =>
      obtain ⟨context, goesOn⟩ := result
      cases goesOn with
      | false => rfl
      | true =>
        exact inductionHypothesis
          (fun other member =>
            valid other (List.mem_cons_of_mem _ member))
          (offset + record.length) context

/-- An applier visits the regions of an object. -/
theorem Heap.WellFormed.apply
    (applier : Applier Context)
    (context : Context) :
    heap.apply applier data context =
      visit applier (heap.regions data) context := by
  have object := wellFormed.objects data holds
  unfold Heap.apply Heap.regions
  split
  · rfl
  · rename_i positive
    rw [Heap.applyFrom]
    cases direct : (heap.mapDirect data 0).buffer with
    | some buffer =>
      simp only [visit, List.drop_zero]
      cases applier context
          ⟨data, 0, buffer.take (heap.object data).size,
            (heap.object data).size⟩ with
      | error failure => rfl
      | ok result =>
        obtain ⟨context, goesOn⟩ := result
        cases goesOn <;> rfl
    | none =>
      obtain ⟨depth, deep⟩ : ∃ depth, heap.objects.length = depth + 1 :=
        ⟨heap.objects.length - 1, by
          simp only [Heap.Holds] at holds
          omega⟩
      rw [deep]
      exact wellFormed.applyRecords object.records applier depth 0 context

end Visit

/-! ## What the regions are -/

omit holds in
theorem Heap.WellFormed.recordRegions_spec
    (valid : ∀ record ∈ records, record.WellFormed heap)
    (offset : Nat) :
    FollowFrom offset (heap.recordRegions records offset) ∧
      regionBytes (heap.recordRegions records offset) =
        (heap.pieces records).flatten ∧
      ∀ region ∈ heap.recordRegions records offset,
        region.buffer.length = region.size ∧ 0 < region.size := by
  induction records generalizing offset with
  | nil => exact ⟨trivial, rfl, by simp [Heap.recordRegions]⟩
  | cons record records inductionHypothesis =>
    have own := valid record List.mem_cons_self
    obtain ⟨follows, bytes, sizes⟩ := inductionHypothesis
      (fun other member => valid other (List.mem_cons_of_mem _ member))
      (offset + record.length)
    refine ⟨⟨rfl, follows⟩, ?_, ?_⟩
    · simp only [Heap.recordRegions, regionBytes, List.map_cons,
        List.flatten_cons, Heap.pieces] at bytes ⊢
      rw [bytes]
    · exact List.forall_mem_cons.mpr
        ⟨⟨wellFormed.length_slice own, own.positive⟩, sizes⟩

/-- The regions of an object follow each other, none is empty, and together they
are its bytes. -/
theorem Heap.WellFormed.regions_spec :
    FollowFrom 0 (heap.regions data) ∧
      regionBytes (heap.regions data) = heap.bytes data ∧
      ∀ region ∈ heap.regions data,
        region.buffer.length = region.size ∧ 0 < region.size := by
  have object := wellFormed.objects data holds
  have length := wellFormed.length_bytes holds
  unfold Heap.regions
  split
  · rename_i empty
    rw [List.eq_nil_of_length_eq_zero (length.trans empty)]
    exact ⟨trivial, rfl, by simp⟩
  · rename_i positive
    cases direct : (heap.mapDirect data 0).buffer with
    | some buffer =>
      simp only [wellFormed.mapDirect_buffer holds direct]
      refine ⟨⟨rfl, trivial⟩, by simp [regionBytes], ?_⟩
      intro region member
      rw [List.mem_singleton.mp member]
      exact ⟨length, Nat.pos_of_ne_zero positive⟩
    | none =>
      obtain ⟨composite, -, -⟩ :=
        wellFormed.mapDirect_none holds positive direct
      rw [Heap.bytes_of_composite composite]
      exact wellFormed.recordRegions_spec object.records 0

/-- The regions of an object have its length together. -/
theorem Heap.WellFormed.sum_sizes :
    ((heap.regions data).map Region.size).sum = (heap.bytes data).length := by
  obtain ⟨-, bytes, sizes⟩ := wellFormed.regions_spec holds
  rw [← bytes, regionBytes, List.length_flatten, List.map_map]
  refine congrArg List.sum (List.map_congr_left ?_)
  intro region member
  exact (sizes region member).1.symm

/-- The only region of an object is all of it. -/
theorem Heap.WellFormed.region_of_one
    (one : (heap.regions data).length = 1) :
    ∃ region,
      heap.regions data = [region] ∧ region.offset = 0 ∧
        region.buffer = heap.bytes data ∧
        region.size = (heap.bytes data).length ∧
        0 < (heap.bytes data).length := by
  obtain ⟨region, regions⟩ := List.length_eq_one_iff.mp one
  obtain ⟨follows, bytes, sizes⟩ := wellFormed.regions_spec holds
  rw [regions] at follows bytes sizes
  obtain ⟨length, positive⟩ := sizes region List.mem_cons_self
  rw [regionBytes, List.map_singleton, List.flatten_singleton] at bytes
  rw [bytes] at length
  exact ⟨region, regions, follows.1, bytes, length.symm, length ▸ positive⟩

end LibDispatch.Data
