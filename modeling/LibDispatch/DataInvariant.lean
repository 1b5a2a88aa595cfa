import LibDispatch.DataHeap
import LibDispatch.Regions

namespace LibDispatch.Data

/-!
# Well-formed data objects

Every object is a leaf or a composite of leaves.  A call that returns an object
leaves the objects before it as they are, but for the flat buffers of
composites, and the object it returns is well formed again.  For every call this
is stated together with the bytes that the new object denotes.
-/

/-! ## Well-formedness -/

/-- A record points to a part of a leaf that is not empty. -/
structure Record.WellFormed (heap : Heap) (record : Record) : Prop where
  holds : heap.Holds record.dataObject
  leaf : (heap.object record.dataObject).records = []
  positive : 0 < record.length
  inside :
    record.start + record.length ≤ (heap.object record.dataObject).size

/-- The bytes of the given records together. -/
def Heap.pieces (heap : Heap) (records : List Record) : List (List UInt8) :=
  records.map heap.slice

/-- The number of bytes of the given records together. -/
def totalLength (records : List Record) : Nat :=
  (records.map Record.length).sum

/-- What holds of every object. -/
structure Object.WellFormed (heap : Heap) (object : Object) : Prop where
  fits : object.size < 2 ^ 64
  allocated : object.records.length * recordSize + headerSize < 2 ^ 64
  leaf :
    object.records = [] →
      object.size = (object.buf.getD []).length ∧
        (object.size = 0 ∨ object.buf.isSome)
  records : ∀ record ∈ object.records, record.WellFormed heap
  sizes : object.records ≠ [] → totalLength object.records = object.size
  trivialSubrange : object.records.length = 1 → object.buf = none
  flattened :
    object.records ≠ [] → ∀ buffer, object.buf = some buffer →
      buffer = (heap.pieces object.records).flatten

/-- What holds of a heap between the calls. -/
structure Heap.WellFormed (heap : Heap) : Prop where
  empty : heap.Holds emptyData ∧ heap.object emptyData = emptyObject
  objects : ∀ data, heap.Holds data → (heap.object data).WellFormed heap

/-- What is left alone in a heap by the calls: all but the flat buffers of
composites. -/
structure Heap.Extends (heap after : Heap) : Prop where
  holds : ∀ data, heap.Holds data → after.Holds data
  size :
    ∀ data, heap.Holds data →
      (after.object data).size = (heap.object data).size
  records :
    ∀ data, heap.Holds data →
      (after.object data).records = (heap.object data).records
  leafBuffer :
    ∀ data, heap.Holds data → (heap.object data).records = [] →
      (after.object data).buf = (heap.object data).buf

/-- A call has returned an object that denotes the given bytes. -/
structure Returns
    (heap after : Heap)
    (data : Nat)
    (bytes : List UInt8) : Prop where
  extension : heap.Extends after
  wellFormed : after.WellFormed
  holds : after.Holds data
  denotes : after.bytes data = bytes

@[simp] theorem Object.leaf_iff
    (object : Object) :
    object.leaf = true ↔ object.records = [] := by
  simp [Object.leaf]

variable {data : Nat}

theorem Heap.bytes_of_leaf
    {heap : Heap}
    (leaf : (heap.object data).records = []) :
    heap.bytes data = heap.leafBytes data := by
  rw [Heap.bytes, if_pos ((Object.leaf_iff _).mpr leaf)]

theorem Heap.bytes_of_composite
    {heap : Heap}
    (composite : (heap.object data).records ≠ []) :
    heap.bytes data = (heap.pieces (heap.object data).records).flatten := by
  rw [Heap.bytes, if_neg (composite ∘ (Object.leaf_iff _).mp)]
  rfl

/-! ## The lengths of the pieces -/

section Pieces

variable {heap after : Heap} {records : List Record}

theorem Object.WellFormed.length_leaf
    {object : Object}
    (wellFormed : object.WellFormed heap)
    (leaf : object.records = []) :
    (object.buf.getD []).length = object.size :=
  (wellFormed.leaf leaf).1.symm

variable (wellFormed : heap.WellFormed)

include wellFormed

/-- A well-formed record denotes as many bytes as it says. -/
theorem Heap.WellFormed.length_slice
    {record : Record}
    (valid : record.WellFormed heap) :
    (heap.slice record).length = record.length := by
  have length := (wellFormed.objects _ valid.holds).length_leaf valid.leaf
  have inside := valid.inside
  simp only [Heap.slice, Heap.leafBytes, List.length_take, List.length_drop,
    length]
  omega

/-- The bytes of well-formed records are as many as the records say. -/
theorem Heap.WellFormed.length_pieces
    (valid : ∀ record ∈ records, record.WellFormed heap) :
    (heap.pieces records).flatten.length = totalLength records := by
  induction records with
  | nil => rfl
  | cons record records inductionHypothesis =>
    have own := wellFormed.length_slice (valid record List.mem_cons_self)
    have others := inductionHypothesis fun other member =>
      valid other (List.mem_cons_of_mem _ member)
    simp only [Heap.pieces, totalLength, List.map_cons, List.flatten_cons,
      List.length_append, List.sum_cons] at others ⊢
    omega

/-- An object denotes as many bytes as its size says. -/
theorem Heap.WellFormed.length_bytes
    (holds : heap.Holds data) :
    (heap.bytes data).length = (heap.object data).size := by
  have object := wellFormed.objects data holds
  by_cases leaf : (heap.object data).records = []
  · rw [Heap.bytes_of_leaf leaf]
    exact object.length_leaf leaf
  · rw [Heap.bytes_of_composite leaf,
      wellFormed.length_pieces object.records, object.sizes leaf]

end Pieces

/-! ## Extensions -/

namespace Heap.Extends

variable {heap after last : Heap}

theorem refl (heap : Heap) : heap.Extends heap :=
  ⟨fun _ => id, fun _ _ => rfl, fun _ _ => rfl, fun _ _ _ => rfl⟩

theorem trans
    (first : heap.Extends after)
    (second : after.Extends last) :
    heap.Extends last where
  holds := fun data held => second.holds data (first.holds data held)
  size := fun data held => by
    rw [second.size data (first.holds data held), first.size data held]
  records := fun data held => by
    rw [second.records data (first.holds data held), first.records data held]
  leafBuffer := fun data held leaf => by
    rw [second.leafBuffer data (first.holds data held)
      ((first.records data held).trans leaf), first.leafBuffer data held leaf]

variable (extension : heap.Extends after)

include extension

theorem record
    {record : Record}
    (valid : record.WellFormed heap) :
    record.WellFormed after where
  holds := extension.holds _ valid.holds
  leaf := (extension.records _ valid.holds).trans valid.leaf
  positive := valid.positive
  inside := by
    rw [extension.size _ valid.holds]
    exact valid.inside

theorem slice
    {record : Record}
    (valid : record.WellFormed heap) :
    after.slice record = heap.slice record := by
  rw [Heap.slice, Heap.slice, Heap.leafBytes, Heap.leafBytes,
    extension.leafBuffer _ valid.holds valid.leaf]

theorem pieces
    {records : List Record}
    (valid : ∀ record ∈ records, record.WellFormed heap) :
    after.pieces records = heap.pieces records :=
  List.map_congr_left fun record member =>
    extension.slice (valid record member)

/-- A well-formed object stays well formed. -/
theorem object
    {object : Object}
    (wellFormed : object.WellFormed heap) :
    object.WellFormed after where
  fits := wellFormed.fits
  allocated := wellFormed.allocated
  leaf := wellFormed.leaf
  records := fun record member =>
    extension.record (wellFormed.records record member)
  sizes := wellFormed.sizes
  trivialSubrange := wellFormed.trivialSubrange
  flattened := by
    rw [extension.pieces wellFormed.records]
    exact wellFormed.flattened

/-- An object goes on to denote its bytes. -/
theorem bytes
    (wellFormed : heap.WellFormed)
    (holds : heap.Holds data) :
    after.bytes data = heap.bytes data := by
  have records := extension.records data holds
  by_cases leaf : (heap.object data).records = []
  · rw [Heap.bytes_of_leaf leaf, Heap.bytes_of_leaf (records.trans leaf),
      Heap.leafBytes, Heap.leafBytes, extension.leafBuffer data holds leaf]
  · rw [Heap.bytes_of_composite leaf,
      Heap.bytes_of_composite (records ▸ leaf), records,
      extension.pieces (wellFormed.objects data holds).records]

end Heap.Extends

/-! ## References -/

@[simp] theorem Heap.objects_retain
    (heap : Heap)
    (data : Nat) :
    (heap.retain data).objects = heap.objects := by
  unfold Heap.retain
  split <;> rfl

@[simp] theorem Heap.objects_retainRecords
    (heap : Heap)
    (records : List Record) :
    (heap.retainRecords records).objects = heap.objects := by
  induction records generalizing heap with
  | nil => rfl
  | cons record records inductionHypothesis =>
    rw [Heap.retainRecords, inductionHypothesis, Heap.objects_retain]

section SameObjects

variable {heap after : Heap}

/-- Only the objects matter. -/
theorem Heap.Extends.ofSame
    (same : after.objects = heap.objects) :
    heap.Extends after := by
  have object (data : Nat) : after.object data = heap.object data := by
    rw [Heap.object, Heap.object, same]
  exact
    { holds := fun data held => by
        rw [Heap.Holds, same]
        exact held
      size := fun data _ => by rw [object]
      records := fun data _ => by rw [object]
      leafBuffer := fun data _ _ => by rw [object] }

variable (wellFormed : heap.WellFormed)

include wellFormed

theorem Heap.WellFormed.ofSame
    (same : after.objects = heap.objects) :
    after.WellFormed := by
  have extension := Heap.Extends.ofSame same
  have object (data : Nat) : after.object data = heap.object data := by
    rw [Heap.object, Heap.object, same]
  exact
    { empty := by
        rw [Heap.Holds, same, object]
        exact wellFormed.empty
      objects := fun data held => by
        rw [Heap.Holds, same] at held
        rw [object]
        exact extension.object (wellFormed.objects data held) }

/-- A call that returns an object that exists. -/
theorem Returns.ofRetain
    (holds : heap.Holds data) :
    Returns heap (heap.retain data) data (heap.bytes data) where
  extension := .ofSame (heap.objects_retain data)
  wellFormed := wellFormed.ofSame (heap.objects_retain data)
  holds := (Heap.Extends.ofSame (heap.objects_retain data)).holds data holds
  denotes :=
    (Heap.Extends.ofSame (heap.objects_retain data)).bytes wellFormed holds

theorem Heap.WellFormed.bytes_empty :
    heap.bytes emptyData = [] := by
  rw [Heap.bytes_of_leaf (by rw [wellFormed.empty.2]; rfl), Heap.leafBytes,
    wellFormed.empty.2]
  rfl

/-- A call that returns the empty object. -/
theorem Returns.ofEmpty :
    Returns heap heap emptyData [] where
  extension := .refl heap
  wellFormed := wellFormed
  holds := wellFormed.empty.1
  denotes := wellFormed.bytes_empty

end SameObjects

/-! ## New objects -/

theorem Heap.object_add_old
    {heap : Heap}
    (object : Object)
    (holds : heap.Holds data) :
    (heap.add object).1.object data = heap.object data := by
  simp only [Heap.add, Heap.object, List.getD_eq_getElem?_getD,
    List.getElem?_append_left holds]

@[simp] theorem Heap.object_add_new
    (heap : Heap)
    (object : Object) :
    (heap.add object).1.object heap.objects.length = object := by
  simp [Heap.add, Heap.object]

theorem Heap.extends_add
    (heap : Heap)
    (object : Object) :
    heap.Extends (heap.add object).1 where
  holds := fun data held => by
    simp only [Heap.Holds, Heap.add, List.length_append, List.length_singleton]
      at held ⊢
    omega
  size := fun data held => by rw [Heap.object_add_old object held]
  records := fun data held => by rw [Heap.object_add_old object held]
  leafBuffer := fun data held _ => by rw [Heap.object_add_old object held]

variable {heap : Heap} (wellFormed : heap.WellFormed)

include wellFormed

/-- A heap with a new well-formed object. -/
theorem Heap.WellFormed.add
    {object : Object}
    (valid : object.WellFormed heap) :
    (heap.add object).1.WellFormed := by
  have extension := heap.extends_add object
  refine { empty := ?_, objects := ?_ }
  · refine ⟨extension.holds _ wellFormed.empty.1, ?_⟩
    rw [Heap.object_add_old object wellFormed.empty.1, wellFormed.empty.2]
  · intro data held
    by_cases old : heap.Holds data
    · rw [Heap.object_add_old object old]
      exact extension.object (wellFormed.objects data old)
    · have new : data = heap.objects.length := by
        simp only [Heap.Holds, Heap.add, List.length_append,
          List.length_singleton] at held old
        omega
      rw [new, Heap.object_add_new]
      exact extension.object valid

/-- A new leaf. -/
theorem Returns.ofLeaf
    {bytes : List UInt8}
    (fits : bytes.length < 2 ^ 64) :
    Returns heap (heap.add ⟨some bytes, bytes.length, []⟩).1
      heap.objects.length bytes := by
  have valid : Object.WellFormed heap ⟨some bytes, bytes.length, []⟩ :=
    { fits := fits
      allocated := by simp [headerSize]
      leaf := fun _ => ⟨rfl, .inr rfl⟩
      records := by simp
      sizes := fun composite => absurd rfl composite
      trivialSubrange := by simp
      flattened := fun composite => absurd rfl composite }
  refine
    { extension := heap.extends_add _
      wellFormed := wellFormed.add valid
      holds := by simp [Heap.Holds, Heap.add]
      denotes := ?_ }
  rw [Heap.bytes_of_leaf (by rw [Heap.object_add_new]), Heap.leafBytes,
    Heap.object_add_new]
  rfl

omit wellFormed in
theorem alloc_of_fits
    {records extra : Nat}
    (fits : records * recordSize + (headerSize + extra) < 2 ^ 64) :
    alloc records extra = .ok () :=
  if_pos fits

/-- A new composite of well-formed records. -/
theorem Heap.WellFormed.addComposite
    {size : Nat}
    {records : List Record}
    (valid : ∀ record ∈ records, record.WellFormed heap)
    (composite : records ≠ [])
    (total : totalLength records = size)
    (fits : size < 2 ^ 64)
    (allocated : records.length * recordSize + headerSize < 2 ^ 64) :
    ∃ after data,
      heap.addComposite size records = .ok (after, data) ∧
        Returns heap after data (heap.pieces records).flatten := by
  have object : Object.WellFormed heap ⟨none, size, records⟩ :=
    { fits := fits
      allocated := allocated
      leaf := fun leaf => absurd leaf composite
      records := valid
      sizes := fun _ => total
      trivialSubrange := fun _ => rfl
      flattened := fun _ _ => nofun }
  refine ⟨(heap.add ⟨none, size, records⟩).1.retainRecords records,
    heap.objects.length, ?computes, ?returns⟩
  case computes =>
    rw [Heap.addComposite, alloc_of_fits (by omega)]
    rfl
  case returns =>
    have added := wellFormed.add object
    have extension := heap.extends_add ⟨none, size, records⟩
    have same := Heap.objects_retainRecords
      (heap.add ⟨none, size, records⟩).1 records
    have retained := Heap.Extends.ofSame same
    have holds : (heap.add ⟨none, size, records⟩).1.Holds
        heap.objects.length := by
      simp [Heap.Holds, Heap.add]
    refine
      { extension := extension.trans retained
        wellFormed := added.ofSame same
        holds := retained.holds _ holds
        denotes := ?_ }
    rw [retained.bytes added holds, Heap.bytes_of_composite
      (by rw [Heap.object_add_new]; exact composite), Heap.object_add_new,
      extension.pieces valid]

end LibDispatch.Data
