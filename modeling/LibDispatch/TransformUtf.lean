import LibDispatch.Transform

namespace LibDispatch.Data

/-!
# Transforms of Unicode text

A model of the transforms between UTF-8 and UTF-16.  The bytes are read region
by region; a character that crosses the end of a region is read from a map of
its part of the object, and the bytes of the following regions that were read
ahead are skipped there.  The bytes written are collected in a buffer, which is
turned into an object and replaced when it is full.
-/

/-! ## Buffers -/

/-- `dispatch_transform_buffer_s`: the object so far, the bytes from the start of
the buffer to the pointer, unless the start is NULL, and the size. -/
structure Buffer where
  heap : Heap
  data : Nat
  start : Option (List UInt8)
  size : Nat

/-- `BUFFER_MALLOC_MAX`. -/
def bufferMallocMax : Nat := 100 * 1024 * 1024

variable (buffer : Buffer)

/-- What was written to the buffer. -/
def Buffer.written : List UInt8 :=
  buffer.start.getD []

/-- The bytes that were written become part of the object. -/
def Buffer.flush : Except Failure Buffer :=
  if buffer.written.length = 0 then
    .ok buffer
  else do
    let (heap, new) ← buffer.heap.create (some buffer.written) .other true
    let (heap, concat) ← heap.createConcat buffer.data new
    return { buffer with heap := heap, data := concat }

/-- A limit allows a size; without a limit every size is allowed. -/
def allows (limit : Option Nat) (size : Nat) : Bool :=
  match limit with
  | none => true
  | some most => size ≤ most

/-- `_dispatch_transform_buffer_new`, with the limit of the size of a buffer and
whether there is memory. -/
def Buffer.new
    (limit : Option Nat)
    (memory : Bool)
    (required size : Nat) : Except Failure (Buffer × Bool) :=
  if required = 0 ∨ buffer.size - buffer.written.length < required then do
    let flushed ← buffer.flush
    let total := (required + size) % 2 ^ 64
    if total = 0 then
      return ({ flushed with start := none, size := total }, true)
    else if allows limit total && memory then
      return ({ flushed with start := some [], size := total }, true)
    else
      return ({ flushed with start := none, size := total }, false)
  else
    .ok (buffer, true)

/-- Bytes are written at the pointer. -/
def Buffer.write (bytes : List UInt8) : Buffer :=
  { buffer with start := some (buffer.written ++ bytes) }

/-- The buffer before the first region. -/
def Buffer.initial (heap : Heap) : Buffer :=
  ⟨heap, emptyData, none, 0⟩

/-- Bytes are written if there is room or more memory. -/
def Buffer.put
    (limit : Option Nat)
    (memory : Bool)
    (bytes : List UInt8)
    (next : Nat) : Except Failure (Buffer × Bool) := do
  let (buffer, success) ← buffer.new limit memory bytes.length next
  if success then
    return (buffer.write bytes, true)
  else
    return (buffer, false)

/-- What is carried from region to region: the bytes to skip and the buffer. -/
structure Transcoding where
  skip : Nat
  buffer : Buffer

/-- What is returned after the last region. -/
def Transcoding.finish
    (limit : Option Nat)
    (memory : Bool)
    (transcoding : Transcoding)
    (success : Bool) : Except Failure (Heap × Option Nat) :=
  if success then
    .ok (transcoding.buffer.heap, some transcoding.buffer.data)
  else do
    let (buffer, _) ← transcoding.buffer.new limit memory 0 0
    return (buffer.heap, none)

/-! ## Byte orders -/

inductive ByteOrder where
  | little
  | big
  deriving Repr, DecidableEq

/-- A unit is written: `_dispatch_transform_swap_from_host`. -/
def ByteOrder.store (order : ByteOrder) (unit : Nat) : List UInt8 :=
  match order with
  | .little => [UInt8.ofNat unit, UInt8.ofNat (unit / 256)]
  | .big => [UInt8.ofNat (unit / 256), UInt8.ofNat unit]

/-- A unit is read: `_dispatch_transform_swap_to_host`. -/
def ByteOrder.load (order : ByteOrder) : List UInt8 → Except Failure Nat
  | first :: second :: _ =>
    match order with
    | .little => .ok (first.toNat + second.toNat * 256)
    | .big => .ok (first.toNat * 256 + second.toNat)
  | _ => .error .overrun

/-! ## UTF-8 -/

/-- `_dispatch_transform_utf8_length`. -/
def utf8Length (byte : UInt8) : Nat :=
  if byte &&& 0x80 = 0 then
    1
  else if byte &&& 0xe0 = 0xc0 then
    2
  else if byte &&& 0xf0 = 0xe0 then
    3
  else if byte &&& 0xf8 = 0xf0 then
    4
  else
    0

/-- The loop of `_dispatch_transform_read_utf8_sequence` over the bytes after
the first. -/
def readContinuation : Nat → List UInt8 → Nat → Except Failure Nat
  | 0, _, wch => .ok wch
  | _ + 1, [], _ => .error .overrun
  | seqLength + 1, byte :: bytes, wch =>
    let wch := wch ||| (byte &&& 0x3f).toNat
    readContinuation seqLength bytes
      (if seqLength > 0 then (wch <<< 6) % 2 ^ 32 else wch)

/-- `_dispatch_transform_read_utf8_sequence`; the length of the sequence is a
`uint8_t`. -/
def readUtf8Sequence : List UInt8 → Except Failure Nat
  | [] => .error .overrun
  | byte :: bytes =>
    let wch :=
      match utf8Length byte with
      | 4 => (byte &&& 0x7).toNat <<< 6
      | 3 => (byte &&& 0xf).toNat <<< 6
      | 2 => (byte &&& 0x1f).toNat <<< 6
      | 1 => (byte &&& 0x7f).toNat
      | _ => 0
    readContinuation ((utf8Length byte + 255) % 256) bytes wch

/-! ## From UTF-8 to UTF-16 -/

variable (heap : Heap) (data offset size : Nat) (order : ByteOrder)
  (limit : Option Nat) (memory : Bool)

/-- The next character of a region: its code, the index after it and the bytes
to skip; none if there is no such character.  What a character that crosses the
end of the region is read from are the bytes of its map. -/
def nextSequence
    (src : List UInt8)
    (i skip : Nat) : Except Failure (Option (Nat × Nat × Nat)) :=
  match src with
  | [] => .error .overrun
  | byte :: _ =>
    let byteSize := utf8Length byte
    if byteSize = 0 then
      .ok none
    else if byteSize + i > size then do
      match ← heap.subrangeMap data (offset + i) byteSize memory with
      | none => return none
      | some p =>
        let wch ← readUtf8Sequence (p.take byteSize)
        return some (wch, size, skip + (byteSize - (size - i)))
    else do
      let wch ← readUtf8Sequence src
      return some (wch, i + byteSize, skip)

/-- The units of a code, none if it is illegal. -/
def utf16Units (wch : Nat) : Option (List Nat) :=
  if wch ≥ 0xd800 ∧ wch < 0xdfff then
    none
  else if wch ≥ 0x10000 then
    some [((wch - 0x10000) >>> 10 &&& 0x3ff) + 0xd800,
      ((wch - 0x10000) &&& 0x3ff) + 0xdc00]
  else
    some [wch &&& 0xffff]

/-- The loop of `_dispatch_transform_to_utf16` over the characters of a
region. -/
def toUtf16Loop :
    Nat → List UInt8 → Nat → Transcoding → Except Failure (Transcoding × Bool)
  | 0, _, _, _ => .error .tooDeep
  | fuel + 1, src, i, transcoding =>
    if i < size then do
      match ← nextSequence heap data offset size memory src i
          transcoding.skip with
      | none => return (transcoding, false)
      | some (wch, next, skip) =>
        if 2 ^ 64 ≤ (size - next) * 2 then
          return (⟨skip, transcoding.buffer⟩, false)
        else if wch = 0xfeff ∧ offset + next = 3 then
          toUtf16Loop fuel (src.drop (next - i)) next
            ⟨skip, transcoding.buffer⟩
        else
          match utf16Units wch with
          | none => return (⟨skip, transcoding.buffer⟩, false)
          | some units => do
              let (buffer, success) ← transcoding.buffer.put limit memory
                (units.flatMap order.store) ((size - next) * 2)
              if success then
                toUtf16Loop fuel (src.drop (next - i)) next ⟨skip, buffer⟩
              else
                return (⟨skip, buffer⟩, false)
    else do
      let (buffer, _) ← transcoding.buffer.new limit memory 0 0
      return (⟨transcoding.skip, buffer⟩, true)

/-- The buffer for the first region, with the byte order mark. -/
def toUtf16Begin (buffer : Buffer) : Except Failure (Buffer × Bool) :=
  if offset = 0 then
    if 2 ^ 64 ≤ size * 2 + 2 then
      .ok (buffer, false)
    else do
      let (buffer, success) ← buffer.new limit memory (size * 2 + 2) 0
      if success then
        return (buffer.write (order.store 0xfeff), true)
      else
        return (buffer, false)
  else
    .ok (buffer, true)

/-- The block that `_dispatch_transform_to_utf16` applies to the regions. -/
def toUtf16Applier : Applier Transcoding :=
  fun transcoding region => do
    let (buffer, success) ← toUtf16Begin region.offset region.size order limit
      memory transcoding.buffer
    if success then
      if transcoding.skip ≥ region.size then
        return (⟨transcoding.skip - region.size, buffer⟩, true)
      else
        toUtf16Loop heap data region.offset (region.size - transcoding.skip)
          order limit memory (region.size + 1)
          (region.buffer.drop transcoding.skip) 0 ⟨0, buffer⟩
    else
      return (⟨transcoding.skip, buffer⟩, false)

/-- `_dispatch_transform_to_utf16`. -/
def toUtf16 (limit : Option Nat) (order : ByteOrder) : Transform :=
  fun heap data memory => do
    let (transcoding, success) ← heap.apply
      (toUtf16Applier heap data order limit memory) data
      ⟨0, Buffer.initial heap⟩
    transcoding.finish limit memory success

/-! ## From UTF-16 to UTF-8 -/

/-- The bytes of a code.  The codes that are read are below 0x200000, which is
the last test of the source. -/
def utf8Bytes (wch : Nat) : List UInt8 :=
  if wch < 0x80 then
    [UInt8.ofNat (wch &&& 0xff)]
  else if wch < 0x800 then
    [UInt8.ofNat (0xc0 ||| wch >>> 6), UInt8.ofNat (0x80 ||| wch &&& 0x3f)]
  else if wch < 0x10000 then
    [UInt8.ofNat (0xe0 ||| wch >>> 12),
      UInt8.ofNat (0x80 ||| (wch >>> 6 &&& 0x3f)),
      UInt8.ofNat (0x80 ||| wch &&& 0x3f)]
  else
    [UInt8.ofNat (0xf0 ||| wch >>> 18),
      UInt8.ofNat (0x80 ||| (wch >>> 12 &&& 0x3f)),
      UInt8.ofNat (0x80 ||| (wch >>> 6 &&& 0x3f)),
      UInt8.ofNat (0x80 ||| wch &&& 0x3f)]

/-- A unit of the object that is not in the region, from its map.  For a unit
that is cut the source loads eight bytes from the map and keeps the two of the
unit; that load beyond the two bytes is not modelled. -/
def unitAhead : Except Failure (Option Nat) := do
  match ← heap.subrangeMap data offset 2 memory with
  | none => return none
  | some p =>
    let unit ← order.load (p.take 2)
    return some unit

/-- The units of a region, of which the last may be cut. -/
def unitCount (size : Nat) : Nat :=
  if size % 2 ≠ 0 then size / 2 + 1 else size / 2

/-- A unit of a region and the number of its bytes that are not in the
region. -/
def unitAt
    (src : List UInt8)
    (i : Nat) : Except Failure (Option (Nat × Nat)) :=
  if i = unitCount size - 1 ∧ unitCount size > size / 2 then do
    match ← unitAhead heap data (offset + i * 2) order memory with
    | none => return none
    | some ch => return some (ch, 1)
  else do
    let ch ← order.load (src.drop (i * 2))
    return some (ch, 0)

/-- The second unit of a surrogate pair and the number of its bytes that are
skipped. -/
def secondUnitAt
    (src : List UInt8)
    (i : Nat) : Except Failure (Option (Nat × Nat)) :=
  if i ≥ unitCount size then do
    match ← unitAhead heap data (offset + i * 2) order memory with
    | none => return none
    | some ch => return some (ch, 2)
  else do
    let ch ← order.load (src.drop (i * 2))
    return some (ch, 0)

/-- The code that begins with a unit: the code, the index of its last unit and
the number of bytes that are skipped; none if there is no such character. -/
def codeAt
    (src : List UInt8)
    (i ch : Nat) : Except Failure (Option (Nat × Nat × Nat)) :=
  if ch ≥ 0xd800 ∧ ch ≤ 0xdbff then do
    match ← secondUnitAt heap data offset size order memory src (i + 1) with
    | none => return none
    | some (second, ahead) =>
      if second ≥ 0xdc00 ∧ second ≤ 0xdfff then
        return some
          ((((ch - 0xd800) <<< 10) ||| (second &&& 0x3ff)) + 0x10000,
            i + 1, ahead)
      else
        return none
  else if ch ≥ 0xdc00 ∧ ch ≤ 0xdfff then
    .ok none
  else
    .ok (some (ch, i, 0))

/-- The loop of `_dispatch_transform_from_utf16` over the units of a region. -/
def fromUtf16Loop
    (src : List UInt8) :
    Nat → Nat → Transcoding → Except Failure (Transcoding × Bool)
  | 0, _, _ => .error .tooDeep
  | fuel + 1, i, transcoding =>
    if i < unitCount size then do
      match ← unitAt heap data offset size order memory src i with
      | none => return (transcoding, false)
      | some (ch, ahead) =>
        let skip := transcoding.skip + ahead
        if ch = 0xfffe ∧ offset = 0 ∧ i = 0 then
          return (⟨skip, transcoding.buffer⟩, false)
        else if ch = 0xfeff ∧ offset = 0 ∧ i = 0 then
          fromUtf16Loop src fuel (i + 1) ⟨skip, transcoding.buffer⟩
        else do
          match ← codeAt heap data offset size order memory src i ch with
          | none => return (⟨skip, transcoding.buffer⟩, false)
          | some (wch, last, more) =>
            if 2 ^ 64 ≤ (unitCount size - last) * 2 then
              return (⟨skip + more, transcoding.buffer⟩, false)
            else do
              let (buffer, success) ← transcoding.buffer.put limit memory
                (utf8Bytes wch) ((unitCount size - last) * 2)
              if success then
                fromUtf16Loop src fuel (last + 1) ⟨skip + more, buffer⟩
              else
                return (⟨skip + more, buffer⟩, false)
    else do
      let (buffer, _) ← transcoding.buffer.new limit memory 0 0
      return (⟨transcoding.skip, buffer⟩, true)

/-- The buffer for the first region. -/
def fromUtf16Begin (buffer : Buffer) : Except Failure (Buffer × Bool) :=
  if offset = 0 then
    buffer.new limit memory ((size + 2) % 2 ^ 64 / 3 * 2) 0
  else
    .ok (buffer, true)

/-- The block that `_dispatch_transform_from_utf16` applies to the regions. -/
def fromUtf16Applier : Applier Transcoding :=
  fun transcoding region => do
    let (buffer, success) ← fromUtf16Begin region.offset region.size limit
      memory transcoding.buffer
    if success then
      if transcoding.skip ≥ region.size then
        return (⟨transcoding.skip - region.size, buffer⟩, true)
      else
        fromUtf16Loop heap data region.offset (region.size - transcoding.skip)
          order limit memory (region.buffer.drop transcoding.skip)
          (region.size + 1) 0 ⟨0, buffer⟩
    else
      return (⟨transcoding.skip, buffer⟩, false)

/-- `_dispatch_transform_from_utf16`. -/
def fromUtf16 (limit : Option Nat) (order : ByteOrder) : Transform :=
  fun heap data memory => do
    let (transcoding, success) ← heap.apply
      (fromUtf16Applier heap data order limit memory) data
      ⟨0, Buffer.initial heap⟩
    transcoding.finish limit memory success

/-! ## Byte order marks of UTF-8 -/

/-- The byte order mark in UTF-8. -/
def utf8Bom : List UInt8 := [0xef, 0xbb, 0xbf]

/-- `_dispatch_transform_to_utf8_without_bom`. -/
def toUtf8WithoutBom : Transform :=
  fun heap data memory => do
    match ← heap.subrangeMap data 0 3 memory with
    | none => return (heap.retain data, some data)
    | some p =>
      if p.take 3 = utf8Bom then do
        let (heap, subrange) ←
          heap.createSubrange data 3 ((heap.object data).size - 3)
        return (heap, some subrange)
      else
        return (heap.retain data, some data)

/-! ## Formats -/

def formatUtf8 : UInt64 := 0x2

def formatUtf16le : UInt64 := 0x4

def formatUtf16be : UInt64 := 0x8

/-- The formats that Unicode text is transformed from and to. -/
def utfMask : UInt64 :=
  formatUtf8 ||| formatUtf16be ||| formatUtf16le

/-- `_dispatch_data_format_type_utf16le` and `_dispatch_data_format_type_utf16be`. -/
def formatTypeUtf16 (order : ByteOrder) : FormatType where
  type :=
    match order with
    | .little => formatUtf16le
    | .big => formatUtf16be
  inputMask := utfMask
  outputMask := utfMask
  decode := some (fromUtf16 (some bufferMallocMax) order)
  encode := some (toUtf16 (some bufferMallocMax) order)

/-- `_dispatch_data_format_type_utf8`. -/
def formatTypeUtf8 : FormatType where
  type := formatUtf8
  inputMask := utfMask
  outputMask := utfMask
  decode := none
  encode := some toUtf8WithoutBom

/-- `_dispatch_transform_detect_utf` on a host that is little-endian. -/
def detectUtf (data : Nat) : Except Failure (Option FormatType) := do
  match ← heap.subrangeMap data 0 2 true with
  | none => return none
  | some p =>
    let ch ← ByteOrder.little.load p
    if ch = 0xfeff then
      return some (formatTypeUtf16 .little)
    else if ch = 0xfffe then
      return some (formatTypeUtf16 .big)
    else
      return some formatTypeUtf8

end LibDispatch.Data
