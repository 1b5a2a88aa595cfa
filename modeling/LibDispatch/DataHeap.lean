import LibDispatch.Reachability
import Mathlib.Algebra.BigOperators.Group.List.Basic
import Mathlib.Algebra.Order.Ring.Nat

namespace LibDispatch.Data

/-!
# Data objects

`dispatch_data_t` of `src/data.c`.  An object is a leaf, which has a buffer, or
a composite, which has records that point to other objects.  The objects live in
a heap, in which the number of an object stands for its address; number 0 is
`dispatch_data_empty`.  Objects are never changed after their creation but for
their reference count and, when a composite is flattened, its buffer.
-/

/-- `range_record`; the field `from` of the source is `start`. -/
structure Record where
  dataObject : Nat
  start : Nat
  length : Nat
  deriving Repr, DecidableEq

/-- `struct dispatch_data_s`.  A buffer that is not NULL is given by its
bytes. -/
structure Object where
  buf : Option (List UInt8)
  size : Nat
  records : List Record
  deriving Repr, DecidableEq

/-- `_dispatch_data_leaf`. -/
def Object.leaf (object : Object) : Bool :=
  object.records.length == 0

/-- `_dispatch_data_num_records`. -/
def Object.numRecords (object : Object) : Nat :=
  if object.records.length = 0 then 1 else object.records.length

/-- The number of `dispatch_data_empty`. -/
def emptyData : Nat := 0

def emptyObject : Object := ⟨none, 0, []⟩

/-- The objects created so far and their reference counts. -/
structure Heap where
  objects : List Object
  references : Nat → Nat

/-- The heap before the first call. -/
def Heap.initial : Heap := ⟨[emptyObject], fun _ => 0⟩

variable (heap : Heap) (data : Nat)

def Heap.object : Object :=
  heap.objects.getD data emptyObject

/-- Why a call does not return an object. -/
inductive Failure where
  /-- `DISPATCH_OUT_OF_MEMORY`, or an allocation whose size overflows. -/
  | outOfMemory
  | subrangeOutOfBounds
  | copyRegionOutOfBounds
  /-- The recursion has not ended after as many calls as there are objects. -/
  | tooDeep
  /-- An object is created with a size beyond the end of its buffer. -/
  | overrun
  deriving Repr, DecidableEq

/-! ## Allocation and references -/

/-- `sizeof(struct dispatch_data_s)`. -/
def headerSize : Nat := 80

/-- `sizeof(range_record)`. -/
def recordSize : Nat := 24

/-- `_dispatch_data_alloc`, which fails if the size overflows. -/
def alloc (records extra : Nat) : Except Failure Unit :=
  if records * recordSize + (headerSize + extra) < 2 ^ 64 then
    .ok ()
  else
    .error .outOfMemory

/-- A new object, with one reference. -/
def Heap.add (object : Object) : Heap × Nat :=
  ({ objects := heap.objects ++ [object]
     references := fun data =>
       if data = heap.objects.length then 1 else heap.references data },
    heap.objects.length)

/-- The references to a global object, whose `xref_cnt`, which is one less, is
`INT_MAX`. -/
def globalReferences : Nat := 0x80000000

/-- `_dispatch_data_retain`, which does not count the references to the empty
object and to an object that looks like a global one. -/
def Heap.retain : Heap :=
  if data = emptyData ∨ heap.references data = globalReferences then
    heap
  else
    { heap with
      references := fun other =>
        if other = data then heap.references other + 1
        else heap.references other }

/-- Every object that a record points to is retained. -/
def Heap.retainRecords (heap : Heap) : List Record → Heap
  | [] => heap
  | record :: records =>
    (heap.retain record.dataObject).retainRecords records

/-- A composite with the given records, which retains what they point to. -/
def Heap.addComposite
    (size : Nat)
    (records : List Record) : Except Failure (Heap × Nat) := do
  alloc records.length 0
  let (heap, data) := heap.add ⟨none, size, records⟩
  return (heap.retainRecords records, data)

/-! ## Creation -/

/-- The destructors that `dispatch_data_create` tells apart. -/
inductive Destructor where
  | default
  | inline
  | other
  deriving Repr, DecidableEq

/-- `dispatch_data_create`.  A copy is made for the default destructor, if there
is memory for it. -/
def Heap.create
    (buffer : Option (List UInt8))
    (destructor : Destructor)
    (memory : Bool) : Except Failure (Heap × Nat) :=
  match buffer with
  | none => .ok (heap, emptyData)
  | some bytes =>
    if bytes.length = 0 then
      .ok (heap, emptyData)
    else
      match destructor with
      | .default =>
        if memory then do
          alloc 0 0
          return heap.add ⟨some bytes, bytes.length, []⟩
        else
          .error .outOfMemory
      | .inline => do
          alloc 0 bytes.length
          return heap.add ⟨some bytes, bytes.length, []⟩
      | .other => do
          alloc 0 0
          return heap.add ⟨some bytes, bytes.length, []⟩

/-- `dispatch_data_create_alloc`, with the bytes that the caller writes to the
new buffer. -/
def Heap.createAlloc (bytes : List UInt8) : Except Failure (Heap × Nat) :=
  if bytes.length = 0 then
    .ok (heap, emptyData)
  else do
    alloc 0 bytes.length
    return heap.add ⟨some bytes, bytes.length, []⟩

/-! ## Concatenation -/

/-- The records that an object contributes to a concatenation. -/
def Heap.recordsOf : List Record :=
  if (heap.object data).leaf then
    [⟨data, 0, (heap.object data).size⟩]
  else
    (heap.object data).records

/-- `dispatch_data_create_concat`. -/
def Heap.createConcat (first second : Nat) : Except Failure (Heap × Nat) :=
  if (heap.object first).size = 0 then
    .ok (heap.retain second, second)
  else if (heap.object second).size = 0 then
    .ok (heap.retain first, first)
  else if 2 ^ 64 ≤
      (heap.object first).numRecords + (heap.object second).numRecords then
    .error .outOfMemory
  else
    heap.addComposite
      (((heap.object first).size + (heap.object second).size) % 2 ^ 64)
      (heap.recordsOf first ++ heap.recordsOf second)

/-! ## Subranges -/

/-- The loop that finds the record containing an offset: the records from there
on, and the offset in the first of them. -/
def seekRecord : List Record → Nat → List Record × Nat
  | [], offset => ([], offset)
  | record :: records, offset =>
    if offset ≥ record.length then
      seekRecord records (offset - record.length)
    else
      (record :: records, offset)

/-- The loop that finds the record containing the end of a range, among the
records after the first: how many of them belong to the range and how much of
the last one. -/
def seekEnd : List Record → Nat → Except Failure (Nat × Nat)
  | [], lastLength => .ok (0, lastLength)
  | record :: records, lastLength =>
    if lastLength ≤ record.length then
      .ok (1, lastLength)
    else if records.length = 0 then
      .error .subrangeOutOfBounds
    else do
      let (count, lastLength) ←
        seekEnd records (lastLength - record.length)
      return (count + 1, lastLength)

/-- The first record without the bytes before an offset. -/
def skipBytes (offset : Nat) : List Record → List Record
  | [] => []
  | record :: records =>
    if offset = 0 then
      record :: records
    else
      { record with
        start := record.start + offset
        length := record.length - offset } :: records

/-- The last record cut to a length. -/
def cutLast (lastLength : Nat) : List Record → List Record
  | [] => []
  | [record] => [{ record with length := lastLength }]
  | record :: next :: records =>
    record :: cutLast lastLength (next :: records)

/-- The records of a range of a composite that begins in the first of the given
records and does not end there. -/
def rangeRecords
    (toTheEnd : Bool)
    (offset length : Nat) : List Record → Except Failure (List Record)
  | [] => .ok []
  | record :: records =>
    if toTheEnd then
      .ok (skipBytes offset (record :: records))
    else do
      let (count, lastLength) ←
        seekEnd records (length - (record.length - offset))
      return cutLast lastLength
        (skipBytes offset (record :: records.take count))

/-- The calls of `dispatch_data_create_subrange`, which recurs for a range
within one record. -/
def Heap.createSubrangeFrom (heap : Heap) :
    Nat → Nat → Nat → Nat → Except Failure (Heap × Nat)
  | 0, _, _, _ => .error .tooDeep
  | depth + 1, data, offset, requested =>
    let object := heap.object data
    if offset ≥ object.size ∨ requested = 0 then
      .ok (heap, emptyData)
    else if requested ≤ object.size - offset ∧
        requested = object.size then
      .ok (heap.retain data, data)
    else
      let length := min requested (object.size - offset)
      if object.leaf then
        heap.addComposite length [⟨data, offset, length⟩]
      else
        let toTheEnd := offset + length == object.size
        match seekRecord object.records offset with
        | ([], _) => .error .subrangeOutOfBounds
        | (record :: records, offset) =>
          if offset + length ≤ record.length then
            heap.createSubrangeFrom depth record.dataObject
              (record.start + offset) length
          else do
            let range ←
              rangeRecords toTheEnd offset length (record :: records)
            heap.addComposite length range

/-- `dispatch_data_create_subrange`. -/
def Heap.createSubrange
    (data offset length : Nat) : Except Failure (Heap × Nat) :=
  heap.createSubrangeFrom (heap.objects.length + 1) data offset length

/-! ## Direct access -/

/-- What `_dispatch_data_map_direct` returns: a pointer, given by the bytes from
there to the end of its buffer, and the object and the offset behind a trivial
subrange. -/
structure Direct where
  buffer : Option (List UInt8)
  object : Nat
  start : Nat
  deriving Repr, DecidableEq

/-- `_dispatch_data_map_direct`. -/
def Heap.mapDirect (data offset : Nat) : Direct :=
  match (heap.object data).records with
  | [record] =>
    ⟨(heap.object record.dataObject).buf.map
        (List.drop (offset + record.start)),
      record.dataObject, offset + record.start⟩
  | _ => ⟨(heap.object data).buf.map (List.drop offset), data, offset⟩

/-! ## Application of a function to the regions -/

/-- What an applier is called with. -/
structure Region where
  object : Nat
  offset : Nat
  buffer : List UInt8
  size : Nat
  deriving Repr, DecidableEq

section Apply

variable {Context : Type}

/-- An applier: it is given the context and returns whether to go on. -/
abbrev Applier (Context : Type) : Type :=
  Context → Region → Except Failure (Context × Bool)

/-- The loop of `_dispatch_data_apply` over the records. -/
def applyRecords
    (visit : Record → Nat → Context → Except Failure (Context × Bool)) :
    List Record → Nat → Context → Except Failure (Context × Bool)
  | [], _, context => .ok (context, true)
  | record :: records, offset, context => do
      let (context, goesOn) ← visit record offset context
      if goesOn then
        applyRecords visit records (offset + record.length) context
      else
        return (context, false)

/-- `_dispatch_data_apply`. -/
def Heap.applyFrom
    (heap : Heap)
    (applier : Applier Context) :
    Nat → Nat → Nat → Nat → Nat → Context → Except Failure (Context × Bool)
  | 0, _, _, _, _, _ => .error .tooDeep
  | depth + 1, data, offset, start, size, context =>
    match (heap.mapDirect data 0).buffer with
    | some buffer =>
      applier context ⟨data, offset, (buffer.drop start).take size, size⟩
    | none =>
      applyRecords
        (fun record offset context =>
          heap.applyFrom applier depth record.dataObject offset
            record.start record.length context)
        (heap.object data).records offset context

/-- `dispatch_data_apply`. -/
def Heap.apply
    (applier : Applier Context)
    (data : Nat)
    (context : Context) : Except Failure (Context × Bool) :=
  if (heap.object data).size = 0 then
    .ok (context, true)
  else
    heap.applyFrom applier (heap.objects.length + 1) data 0 0
      (heap.object data).size context

end Apply

/-! ## Contiguous buffers -/

/-- `memcpy` of some bytes to an offset in a buffer. -/
def memcpy (buffer : List UInt8) (offset : Nat) (bytes : List UInt8) :
    List UInt8 :=
  buffer.take offset ++ bytes ++ buffer.drop (offset + bytes.length)

/-- `_dispatch_data_flatten`, which returns NULL without memory. -/
def Heap.flatten (memory : Bool) : Except Failure (Option (List UInt8)) :=
  if memory then do
    let (buffer, _) ← heap.apply
      (fun buffer region =>
        .ok (memcpy buffer region.offset region.buffer, true))
      data (List.replicate (heap.object data).size 0)
    return some buffer
  else
    .ok none

/-- What `dispatch_data_create_map` returns: an object and, at its pointers, a
buffer and a size. -/
structure Mapping where
  data : Option Nat
  buffer : Option (List UInt8)
  size : Nat
  deriving Repr, DecidableEq

/-- `dispatch_data_create_map`. -/
def Heap.createMap (memory : Bool) : Except Failure (Heap × Mapping) :=
  let size := (heap.object data).size
  if size = 0 then
    .ok (heap, ⟨some emptyData, none, 0⟩)
  else
    match (heap.mapDirect data 0).buffer with
    | some buffer => .ok (heap.retain data, ⟨some data, some buffer, size⟩)
    | none => do
        match ← heap.flatten data memory with
        | some buffer =>
          let (heap, data) ← heap.create (some buffer) .other true
          return (heap, ⟨some data, some buffer, size⟩)
        | none => return (heap, ⟨none, none, 0⟩)

/-- The buffer of an object is set. -/
def Heap.setBuffer (buffer : List UInt8) : Heap :=
  { heap with
    objects := heap.objects.set data
      { heap.object data with buf := some buffer } }

/-- `dispatch_data_get_flattened_bytes_4libxpc`. -/
def Heap.getFlattenedBytes
    (memory : Bool) : Except Failure (Heap × Option (List UInt8)) :=
  if (heap.object data).size = 0 then
    .ok (heap, none)
  else
    let direct := heap.mapDirect data 0
    match direct.buffer with
    | some buffer => .ok (heap, some buffer)
    | none => do
        match ← heap.flatten direct.object memory with
        | some buffer =>
          return (heap.setBuffer direct.object buffer,
            some (buffer.drop direct.start))
        | none => return (heap, none)

/-! ## Regions -/

/-- The loop of `_dispatch_data_copy_region` that finds the record containing a
location: the record, the offset in it, what is left of its length, and the
offset of that part. -/
def seekRegion :
    List Record → Nat → Nat → Nat → Option (Record × Nat × Nat × Nat)
  | [], _, _, _ => none
  | record :: records, start, location, offset =>
    if start ≥ record.length then
      seekRegion records (start - record.length) location offset
    else
      let length := record.length - start
      if location ≥ offset + length then
        seekRegion records 0 location (offset + length)
      else
        some (record, start, length, offset)

/-- `_dispatch_data_copy_region`: the region and its offset. -/
def Heap.copyRegionFrom (heap : Heap) :
    Nat → Nat → Nat → Nat → Nat → Nat → Except Failure (Heap × Nat × Nat)
  | 0, _, _, _, _, _ => .error .tooDeep
  | depth + 1, data, start, size, location, offset =>
    let direct := heap.mapDirect data start
    match direct.buffer with
    | some _ =>
      if start = 0 ∧ size = (heap.object data).size then
        .ok (heap.retain data, data, offset)
      else if direct.start = 0 ∧
          size = (heap.object direct.object).size then
        .ok (heap.retain direct.object, direct.object, offset)
      else do
        let (heap, region) ← heap.addComposite size
          [⟨direct.object, direct.start, size⟩]
        return (heap, region, offset)
    | none =>
      match seekRegion (heap.object direct.object).records direct.start
          location 0 with
      | none => .error .copyRegionOutOfBounds
      | some (record, start, length, skipped) =>
        heap.copyRegionFrom depth record.dataObject
          (start + record.start) length (location - skipped)
          (offset + skipped)

/-- `dispatch_data_copy_region`. -/
def Heap.copyRegion
    (heap : Heap)
    (data location : Nat) : Except Failure (Heap × Nat × Nat) :=
  if location ≥ (heap.object data).size then
    .ok (heap, emptyData, (heap.object data).size)
  else
    heap.copyRegionFrom (heap.objects.length + 1) data 0
      (heap.object data).size location 0

/-! ## Runs -/

/-- The calls of a client. -/
inductive Operation where
  | create
      (buffer : Option (List UInt8))
      (destructor : Destructor)
      (memory : Bool)
  | createAlloc (bytes : List UInt8)
  | createConcat (first second : Nat)
  | createSubrange (data offset length : Nat)
  | createMap (data : Nat) (memory : Bool)
  | copyRegion (data location : Nat)
  | getFlattenedBytes (data : Nat) (memory : Bool)
  deriving Repr, DecidableEq

/-- What a call does to the heap. -/
def Heap.run : Operation → Except Failure Heap
  | .create buffer destructor memory =>
    Prod.fst <$> heap.create buffer destructor memory
  | .createAlloc bytes => Prod.fst <$> heap.createAlloc bytes
  | .createConcat first second => Prod.fst <$> heap.createConcat first second
  | .createSubrange data offset length =>
    Prod.fst <$> heap.createSubrange data offset length
  | .createMap data memory => Prod.fst <$> heap.createMap data memory
  | .copyRegion data location => Prod.fst <$> heap.copyRegion data location
  | .getFlattenedBytes data memory =>
    Prod.fst <$> heap.getFlattenedBytes data memory

/-- The number stands for an object. -/
def Heap.Holds (data : Nat) : Prop :=
  data < heap.objects.length

instance (heap : Heap) (data : Nat) : Decidable (heap.Holds data) :=
  inferInstanceAs (Decidable (_ < _))

/-- A concatenation whose sizes, of the bytes and of the object it needs, fit in
a `size_t`. -/
def Heap.ConcatFits (first second : Nat) : Prop :=
  (heap.object first).size + (heap.object second).size < 2 ^ 64 ∧
    ((heap.object first).size ≠ 0 → (heap.object second).size ≠ 0 →
      ((heap.object first).numRecords + (heap.object second).numRecords) *
        recordSize + headerSize < 2 ^ 64)

instance (heap : Heap) (first second : Nat) :
    Decidable (heap.ConcatFits first second) :=
  inferInstanceAs (Decidable (_ ∧ _))

/-- The arguments of a call are objects, and sizes fit in a `size_t`. -/
def Heap.Accepts : Operation → Prop
  | .create buffer _ _ => (buffer.getD []).length < 2 ^ 64
  | .createAlloc bytes => bytes.length < 2 ^ 64
  | .createConcat first second =>
    heap.Holds first ∧ heap.Holds second ∧ heap.ConcatFits first second
  | .createSubrange data _ _ => heap.Holds data
  | .createMap data _ => heap.Holds data
  | .copyRegion data _ => heap.Holds data
  | .getFlattenedBytes data _ => heap.Holds data

instance (heap : Heap) : DecidablePred heap.Accepts
  | .create _ _ _ | .createAlloc _ => inferInstanceAs (Decidable (_ < _))
  | .createConcat _ _ => inferInstanceAs (Decidable (_ ∧ _ ∧ _))
  | .createSubrange _ _ _ | .createMap _ _ | .copyRegion _ _
  | .getFlattenedBytes _ _ => inferInstanceAs (Decidable (_ < _))

/-- A call that returns. -/
def Step (heap after : Heap) : Prop :=
  ∃ operation, heap.Accepts operation ∧ heap.run operation = .ok after

theorem reached_initial : Reachable (· = Heap.initial) Step Heap.initial :=
  .start rfl

/-! ## The bytes of an object -/

/-- The buffer of a leaf. -/
def Heap.leafBytes : List UInt8 :=
  (heap.object data).buf.getD []

/-- The bytes that a record denotes. -/
def Heap.slice (record : Record) : List UInt8 :=
  ((heap.leafBytes record.dataObject).drop record.start).take record.length

/-- The byte string denoted by an object. -/
def Heap.bytes : List UInt8 :=
  if (heap.object data).leaf then
    heap.leafBytes data
  else
    ((heap.object data).records.map heap.slice).flatten

end LibDispatch.Data
