import LibDispatch.DataHeap

namespace LibDispatch.Data

/-!
# Base encodings of data objects

The transforms of `src/transform.c` to and from base 32 and base 64.  Both
directions apply a block to the regions of an object: an encoder needs the last
byte of the region before, a decoder carries the bits of an unfinished group
over.  Releases are not modelled: an object that a transform releases before it
returns is left in the heap, where nothing refers to it.
-/

/-! ## Tables -/

/-- The bytes of an ASCII string. -/
def ascii (characters : List Char) : List UInt8 :=
  characters.map fun character => character.toNat.toUInt8

def base32EncodeTable : List UInt8 :=
  ascii ['A', 'B', 'C', 'D', 'E', 'F', 'G', 'H', 'I', 'J', 'K', 'L', 'M', 'N',
    'O', 'P', 'Q', 'R', 'S', 'T', 'U', 'V', 'W', 'X', 'Y', 'Z', '2', '3', '4',
    '5', '6', '7']

def base32DecodeTable : List Int :=
  [-1, -1, -1, -1, -1, -1, -1, -1, -1, -1, -1, -1, -1, -1, -1, -1, -1,
   -1, -1, -1, -1, -1, -1, -1, -1, -1, -1, -1, -1, -1, -1, -1, -1, -1,
   -1, -1, -1, -1, -1, -1, -1, -1, -1, -1, -1, -1, -1, -1, -1, -1, 26,
   27, 28, 29, 30, 31, -1, -1, -1, -1, -1, -2, -1, -1, -1,  0,  1,  2,
    3,  4,  5,  6,  7,  8,  9, 10, 11, 12, 13, 14, 15, 16, 17, 18, 19,
   20, 21, 22, 23, 24, 25]

def base32hexEncodeTable : List UInt8 :=
  ascii ['0', '1', '2', '3', '4', '5', '6', '7', '8', '9', 'A', 'B', 'C', 'D',
    'E', 'F', 'G', 'H', 'I', 'J', 'K', 'L', 'M', 'N', 'O', 'P', 'Q', 'R', 'S',
    'T', 'U', 'V']

def base32hexDecodeTable : List Int :=
  [-1, -1, -1, -1, -1, -1, -1, -1, -1, -1, -1, -1, -1, -1, -1, -1, -1,
   -1, -1, -1, -1, -1, -1, -1, -1, -1, -1, -1, -1, -1, -1, -1, -1, -1,
   -1, -1, -1, -1, -1, -1, -1, -1, -1, -1, -1, -1, -1, -1,  0,  1,  2,
    3,  4,  5,  6,  7,  8,  9, -1, -1, -1, -2, -1, -1, -1, 10, 11, 12,
   13, 14, 15, 16, 17, 18, 19, 20, 21, 22, 23, 24, 25, 26, 27, 28, 29,
   30, 31]

def base64EncodeTable : List UInt8 :=
  ascii ['A', 'B', 'C', 'D', 'E', 'F', 'G', 'H', 'I', 'J', 'K', 'L', 'M', 'N',
    'O', 'P', 'Q', 'R', 'S', 'T', 'U', 'V', 'W', 'X', 'Y', 'Z', 'a', 'b', 'c',
    'd', 'e', 'f', 'g', 'h', 'i', 'j', 'k', 'l', 'm', 'n', 'o', 'p', 'q', 'r',
    's', 't', 'u', 'v', 'w', 'x', 'y', 'z', '0', '1', '2', '3', '4', '5', '6',
    '7', '8', '9', '+', '/']

def base64DecodeTable : List Int :=
  [-1,  -1,  -1,  -1,  -1,  -1,  -1,  -1,  -1,  -1,  -1,  -1,  -1,  -1,
   -1,  -1,  -1,  -1,  -1,  -1,  -1,  -1,  -1,  -1,  -1,  -1,  -1,  -1,
   -1,  -1,  -1,  -1,  -1,  -1,  -1,  -1,  -1,  -1,  -1,  -1,  -1,  -1,
   -1,  62,  -1,  -1,  -1,  63,  52,  53,  54,  55,  56,  57,  58,  59,
   60,  61,  -1,  -1,  -1,  -2,  -1,  -1,  -1,   0,   1,   2,   3,   4,
    5,   6,   7,   8,   9,  10,  11,  12,  13,  14,  15,  16,  17,  18,
   19,  20,  21,  22,  23,  24,  25,  -1,  -1,  -1,  -1,  -1,  -1,  26,
   27,  28,  29,  30,  31,  32,  33,  34,  35,  36,  37,  38,  39,  40,
   41,  42,  43,  44,  45,  46,  47,  48,  49,  50,  51]

def base32DecodeTableSize : Nat := base32DecodeTable.length

/-- The source takes the size of the table for the other direction, with the
zero byte that ends the string. -/
def base32hexDecodeTableSize : Nat := base32hexEncodeTable.length + 1

def base64DecodeTableSize : Nat := base64DecodeTable.length

/-- The padding symbol. -/
def equalsSign : UInt8 := 61

variable (table : List UInt8)

/-- An entry of a table of symbols. -/
def symbolOf (index : Nat) : UInt8 :=
  table.getD index 0

/-! ## Decoding -/

/-- How a decoder reads symbols: the bits of a symbol, the symbols of a group,
the shifts of the bytes of a group, the table and its size, and the number of
bytes that some padding removes. -/
structure Decoder where
  bits : UInt64
  group : Nat
  shifts : List UInt64
  table : List Int
  tableSize : Nat
  removed : Nat → Nat

/-- The symbols that a decoder ignores. -/
def whitespace (byte : UInt8) : Bool :=
  byte == 10 || byte == 9 || byte == 32

/-- What a decoder carries from symbol to symbol, and the bytes it has written
for the present region. -/
structure Accumulator where
  x : UInt64
  count : Nat
  pad : Nat
  dest : List UInt8
  deriving Repr, DecidableEq

variable (decoder : Decoder)

/-- The entry of a byte, unless it is no symbol. -/
def Decoder.value (byte : UInt8) : Option Int :=
  if byte.toNat ≥ decoder.tableSize ∨
      decoder.table.getD byte.toNat (-1) = -1 then
    none
  else
    some (decoder.table.getD byte.toNat (-1))

/-- One symbol is read. -/
def Decoder.push
    (accumulator : Accumulator)
    (value : Int) : Accumulator :=
  let digit := if value = -2 then 0 else value.toNat.toUInt64
  let x := (accumulator.x <<< decoder.bits) + digit
  { x := x
    count := accumulator.count + 1
    pad := if value = -2 then accumulator.pad + 1 else accumulator.pad
    dest :=
      if (accumulator.count + 1) % decoder.group = 0 then
        accumulator.dest ++
          decoder.shifts.map fun shift => ((x >>> shift) &&& 0xff).toUInt8
      else
        accumulator.dest }

/-- The loop over the bytes of a region; none if one is no symbol. -/
def Decoder.loop (decoder : Decoder) :
    List UInt8 → Accumulator → Option Accumulator
  | [], accumulator => some accumulator
  | byte :: bytes, accumulator =>
    if whitespace byte then
      decoder.loop bytes accumulator
    else
      match decoder.value byte with
      | none => none
      | some value => decoder.loop bytes (decoder.push accumulator value)

/-- What a decoder carries from region to region. -/
structure Decoding where
  heap : Heap
  x : UInt64
  count : Nat
  pad : Nat
  rv : Nat

/-- The block that a decoder applies to the regions. -/
def Decoder.applier (memory : Bool) : Applier Decoding :=
  fun decoding region =>
    if memory then
      match decoder.loop region.buffer
          ⟨decoding.x, decoding.count, decoding.pad, []⟩ with
      | none => .ok (decoding, false)
      | some accumulator =>
        if accumulator.dest.length < decoder.removed accumulator.pad then
          .error .overrun
        else do
          let final :=
            accumulator.dest.length - decoder.removed accumulator.pad
          let (heap, val) ← decoding.heap.create
            (some (accumulator.dest.take final)) .other true
          let (heap, concat) ← heap.createConcat decoding.rv val
          return (⟨heap, accumulator.x, accumulator.count, accumulator.pad,
            concat⟩, true)
    else
      .ok (decoding, false)

/-- A transform of an object, with memory or without: NULL or a new object. -/
abbrev Transform : Type :=
  Heap → Nat → Bool → Except Failure (Heap × Option Nat)

/-- A decoder applied to an object. -/
def Decoder.decode : Transform :=
  fun heap data memory => do
    let (decoding, success) ← heap.apply (decoder.applier memory) data
      ⟨heap, 0, 0, 0, emptyData⟩
    if success then
      return (decoding.heap, some decoding.rv)
    else
      return (decoding.heap, none)

/-- The switch over the number of padding symbols of base 32. -/
def removed32 : Nat → Nat
  | 1 => 1
  | 3 => 2
  | 4 => 3
  | 6 => 4
  | _ => 0

/-- `_dispatch_transform_from_base32_with_table`. -/
def fromBase32WithTable (table : List Int) (tableSize : Nat) : Decoder where
  bits := 5
  group := 8
  shifts := [32, 24, 16, 8, 0]
  table := table
  tableSize := tableSize
  removed := removed32

/-- `_dispatch_transform_from_base32`. -/
def fromBase32 : Transform :=
  (fromBase32WithTable base32DecodeTable base32DecodeTableSize).decode

/-- `_dispatch_transform_from_base32hex`. -/
def fromBase32hex : Transform :=
  (fromBase32WithTable base32hexDecodeTable base32hexDecodeTableSize).decode

/-- The decoder of base 64. -/
def base64Decoder : Decoder where
  bits := 6
  group := 4
  shifts := [16, 8, 0]
  table := base64DecodeTable
  tableSize := base64DecodeTableSize
  removed := id

/-- `_dispatch_transform_from_base64`. -/
def fromBase64 : Transform :=
  base64Decoder.decode

/-! ## Encoding -/

/-- `_dispatch_data_subrange_map`; the pointer it sets, or NULL. -/
def Heap.subrangeMap
    (heap : Heap)
    (data offset size : Nat)
    (memory : Bool) : Except Failure (Option (List UInt8)) := do
  let (heap, subrange) ← heap.createSubrange data offset size
  if (heap.object subrange).size = size then
    let (_, mapping) ← heap.createMap subrange memory
    return mapping.data.bind fun _ => mapping.buffer
  else
    return none

/-- How an encoder writes symbols: the bytes and the symbols of a group, the
symbols for a byte and the byte before it at each position of a group, and the
symbols for the end at each position. -/
structure Encoder where
  groupBytes : Nat
  groupSymbols : Nat
  emit : Nat → UInt8 → UInt8 → List UInt8
  finish : Nat → UInt8 → List UInt8

/-- The bytes read and the symbols written by an encoder. -/
structure Encoding where
  count : Nat
  written : List UInt8
  deriving Repr, DecidableEq

/-- The byte before the first of a region is read from the object. -/
def Heap.lastByte
    (heap : Heap)
    (data offset : Nat)
    (memory : Bool) : Except Failure (Option UInt8) := do
  let pointer ← heap.subrangeMap data (offset - 1) 1 memory
  return pointer.map fun bytes => bytes.headD 0

/-- The byte before the present one, which is needed inside a group only: it is
in the same region, or else in the object. -/
def Encoder.last
    (encoder : Encoder)
    (heap : Heap)
    (data offset : Nat)
    (memory : Bool)
    (previous : Option UInt8)
    (count : Nat) : Except Failure (Option UInt8) :=
  if count % encoder.groupBytes = 0 then
    .ok (some 0)
  else
    match previous with
    | some last => .ok (some last)
    | none => heap.lastByte data offset memory

/-- The loop over the bytes of a region, after a byte of the same region if
there is one. -/
def Encoder.loop
    (encoder : Encoder)
    (heap : Heap)
    (data offset : Nat)
    (memory : Bool) :
    List UInt8 → Option UInt8 → Encoding → Except Failure (Encoding × Bool)
  | [], _, encoding => .ok (encoding, true)
  | curr :: bytes, previous, encoding => do
      match ← encoder.last heap data offset memory previous
          encoding.count with
      | none => return (encoding, false)
      | some last =>
        encoder.loop heap data offset memory bytes (some curr)
          { count := encoding.count + 1
            written := encoding.written ++
              encoder.emit (encoding.count % encoder.groupBytes) last curr }

/-- The block that an encoder applies to the regions. -/
def Encoder.applier
    (encoder : Encoder)
    (heap : Heap)
    (data : Nat)
    (memory : Bool) : Applier Encoding :=
  fun encoding region => do
    let (encoding, goesOn) ← encoder.loop heap data region.offset memory
      region.buffer none encoding
    if goesOn then
      if region.offset + region.size = (heap.object data).size then
        return ({ encoding with
          written := encoding.written ++
            encoder.finish (encoding.count % encoder.groupBytes)
              (region.buffer.getLastD 0) }, true)
      else
        return (encoding, true)
    else
      return (encoding, false)

/-- `howmany`, on a `size_t`. -/
def howmany (x y : Nat) : Nat :=
  (x + (y - 1)) % 2 ^ 64 / y

/-- An encoder applied to an object. -/
def Encoder.encode (encoder : Encoder) : Transform :=
  fun heap data memory =>
    let groups := howmany (heap.object data).size encoder.groupBytes
    if groups > (2 ^ 64 - 1) / encoder.groupSymbols then
      .ok (heap, none)
    else
      let destSize := groups * encoder.groupSymbols
      if memory then do
        let (encoding, success) ← heap.apply
          (encoder.applier heap data memory) data ⟨0, []⟩
        if success then
          let (heap, result) ← heap.create
            (some (memcpy (List.replicate destSize 0) 0 encoding.written))
            .other true
          return (heap, some result)
        else
          return (heap, none)
      else
        .ok (heap, none)

/-- The symbols for a byte in base 32. -/
def emit32
    (position : Nat)
    (last curr : UInt8) : List UInt8 :=
  match position with
  | 0 => [symbolOf table ((curr.toNat >>> 3) &&& 0x1f)]
  | 1 =>
    [symbolOf table (((last.toNat <<< 2) ||| (curr.toNat >>> 6)) &&& 0x1f),
      symbolOf table ((curr.toNat >>> 1) &&& 0x1f)]
  | 2 =>
    [symbolOf table (((last.toNat <<< 4) ||| (curr.toNat >>> 4)) &&& 0x1f)]
  | 3 =>
    [symbolOf table (((last.toNat <<< 1) ||| (curr.toNat >>> 7)) &&& 0x1f),
      symbolOf table ((curr.toNat >>> 2) &&& 0x1f)]
  | 4 =>
    [symbolOf table (((last.toNat <<< 3) ||| (curr.toNat >>> 5)) &&& 0x1f),
      symbolOf table (curr.toNat &&& 0x1f)]
  | _ => []

/-- The symbols for the end in base 32; the second switch of the source falls
through. -/
def finish32
    (position : Nat)
    (last : UInt8) : List UInt8 :=
  match position with
  | 1 =>
    symbolOf table ((last.toNat <<< 2) &&& 0x1c) ::
      List.replicate 6 equalsSign
  | 2 =>
    symbolOf table ((last.toNat <<< 4) &&& 0x10) ::
      List.replicate 4 equalsSign
  | 3 =>
    symbolOf table ((last.toNat <<< 1) &&& 0x1e) ::
      List.replicate 3 equalsSign
  | 4 =>
    symbolOf table ((last.toNat <<< 3) &&& 0x18) ::
      List.replicate 1 equalsSign
  | _ => []

/-- `_dispatch_transform_to_base32_with_table`. -/
def toBase32WithTable : Encoder where
  groupBytes := 5
  groupSymbols := 8
  emit := emit32 table
  finish := finish32 table

/-- `_dispatch_transform_to_base32`. -/
def toBase32 : Transform :=
  (toBase32WithTable base32EncodeTable).encode

/-- `_dispatch_transform_to_base32hex`. -/
def toBase32hex : Transform :=
  (toBase32WithTable base32hexEncodeTable).encode

/-- The symbols for a byte in base 64. -/
def emit64 (position : Nat) (last curr : UInt8) : List UInt8 :=
  match position with
  | 0 => [symbolOf base64EncodeTable ((curr.toNat >>> 2) &&& 0x3f)]
  | 1 =>
    [symbolOf base64EncodeTable
      (((last.toNat <<< 4) ||| (curr.toNat >>> 4)) &&& 0x3f)]
  | 2 =>
    [symbolOf base64EncodeTable
        (((last.toNat <<< 2) ||| (curr.toNat >>> 6)) &&& 0x3f),
      symbolOf base64EncodeTable (curr.toNat &&& 0x3f)]
  | _ => []

/-- The symbols for the end in base 64. -/
def finish64 (position : Nat) (last : UInt8) : List UInt8 :=
  match position with
  | 1 =>
    [symbolOf base64EncodeTable ((last.toNat <<< 4) &&& 0x30), equalsSign,
      equalsSign]
  | 2 =>
    [symbolOf base64EncodeTable ((last.toNat <<< 2) &&& 0x3c), equalsSign]
  | _ => []

/-- The encoder of base 64. -/
def base64Encoder : Encoder where
  groupBytes := 3
  groupSymbols := 4
  emit := emit64
  finish := finish64

/-- `_dispatch_transform_to_base64`. -/
def toBase64 : Transform :=
  base64Encoder.encode

/-! ## Formats -/

/-- `struct dispatch_data_format_type_s`. -/
structure FormatType where
  type : UInt64
  inputMask : UInt64
  outputMask : UInt64
  decode : Option Transform
  encode : Option Transform

def formatNone : UInt64 := 0x1

def formatUtfAny : UInt64 := 0x10

def formatBase32 : UInt64 := 0x20

def formatBase32hex : UInt64 := 0x40

def formatBase64 : UInt64 := 0x80

/-- The formats that the base encodings are transformed from and to. -/
def baseMask : UInt64 :=
  formatNone ||| formatBase32 ||| formatBase32hex ||| formatBase64

/-- `_dispatch_data_format_type_none`. -/
def formatTypeNone : FormatType where
  type := formatNone
  inputMask := 0xffffffff
  outputMask := 0xffffffff
  decode := none
  encode := none

/-- `_dispatch_data_format_type_base32hex`. -/
def formatTypeBase32hex : FormatType where
  type := formatBase32hex
  inputMask := baseMask
  outputMask := baseMask
  decode := some fromBase32hex
  encode := some toBase32hex

/-- A transform that may be NULL, which leaves an object as it is. -/
def transformOrRetain
    (transform : Option Transform)
    (heap : Heap)
    (data : Nat)
    (memory : Bool) : Except Failure (Heap × Option Nat) :=
  match transform with
  | some transform => transform heap data memory
  | none => .ok (heap.retain data, some data)

/-- The format that is transformed from: that of a text of any format is
detected. -/
def detectFormat
    (detectUtf : Heap → Nat → Except Failure (Option FormatType))
    (heap : Heap)
    (data : Nat)
    (input : FormatType) : Except Failure (Option FormatType) :=
  if input.type = formatUtfAny then
    detectUtf heap data
  else
    .ok (some input)

/-- An object is decoded and encoded. -/
def Heap.transform
    (heap : Heap)
    (data : Nat)
    (input output : FormatType)
    (memory : Bool) : Except Failure (Heap × Option Nat) := do
  match ← transformOrRetain input.decode heap data memory with
  | (heap, none) => return (heap, none)
  | (heap, some decoded) =>
    transformOrRetain output.encode heap decoded memory

/-- `dispatch_data_create_with_transform`, where `detectUtf` finds the format of
a text. -/
def Heap.createWithTransform
    (heap : Heap)
    (detectUtf : Heap → Nat → Except Failure (Option FormatType))
    (data : Nat)
    (input output : FormatType)
    (memory : Bool) : Except Failure (Heap × Option Nat) := do
  match ← detectFormat detectUtf heap data input with
  | none => return (heap, none)
  | some input =>
    if input.type &&& ~~~output.inputMask ≠ 0 then
      return (heap, none)
    else if output.type &&& ~~~input.outputMask ≠ 0 then
      return (heap, none)
    else if (heap.object data).size = 0 then
      return (heap, some data)
    else
      heap.transform data input output memory

end LibDispatch.Data
