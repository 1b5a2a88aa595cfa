import LibDispatch.TransformEncode

namespace LibDispatch.Data

/-!
# Decoders

A decoder gives back the bytes of a contiguous encoding.  The accumulator of a
decoder is never cleared, but the bytes of a group depend on the bits of its own
symbols only.
-/

variable {heap : Heap} {data : Nat}

/-! ## Symbols -/

/-- A decoder reads an encoding: it knows its symbols and finds the bytes of a
group in the bits of the group. -/
structure Decoder.Reads (decoder : Decoder) (code : BaseCode) : Prop where
  bits : decoder.bits.toNat = code.bits
  smallBits : code.bits < 64
  group : decoder.group = code.groupSymbols
  smallGroup : code.groupBytes ≤ 8
  bytes :
    ∀ x : UInt64,
      (decoder.shifts.map fun shift =>
          ((x >>> shift) &&& 0xff).toUInt8).map UInt8.toNat =
        digitsOf 256 code.groupBytes x.toNat
  symbol :
    ∀ digit < 2 ^ code.bits,
      whitespace (code.symbol digit) = false ∧
        decoder.value (code.symbol digit) = some (digit : Int)
  padding :
    whitespace code.padding = false ∧ decoder.value code.padding = some (-2)
  removed :
    ∀ count ≤ code.groupBytes, 0 < count →
      decoder.removed (code.groupSymbols - code.symbolsFor count) =
        code.groupBytes - count

variable {code : BaseCode}

namespace Decoder

variable {decoder : Decoder} {values : List Int}

/-- Symbols that are no whitespace are read one after the other. -/
theorem loop_append
    {bytes : List UInt8}
    (read :
      List.Forall₂
        (fun byte value =>
          whitespace byte = false ∧ decoder.value byte = some value)
        bytes values)
    (rest : List UInt8)
    (accumulator : Accumulator) :
    decoder.loop (bytes ++ rest) accumulator =
      decoder.loop rest (values.foldl decoder.push accumulator) := by
  induction read generalizing accumulator with
  | nil => rfl
  | cons own _ inductionHypothesis =>
    rw [List.cons_append, loop, own.1, own.2]
    exact inductionHypothesis _

/-- The entries for the encoding of a group. -/
def groupEntries (code : BaseCode) (chunk : List UInt8) : List Int :=
  (code.groupSymbolDigits chunk).map Int.ofNat ++
    List.replicate (code.groupSymbols - code.symbolsFor chunk.length) (-2)

variable (reads : decoder.Reads code)

include reads

theorem Reads.encodeGroup
    (chunk : List UInt8) :
    List.Forall₂
      (fun byte value =>
        whitespace byte = false ∧ decoder.value byte = some value)
      (code.encodeGroup chunk) (groupEntries code chunk) := by
  refine List.rel_append ?_ ?_
  · rw [List.forall₂_map_left_iff, List.forall₂_map_right_iff,
      List.forall₂_same]
    intro digit member
    exact reads.symbol digit (code.groupSymbolDigits_lt member)
  · generalize code.groupSymbols - code.symbolsFor chunk.length = count
    induction count with
    | zero => exact .nil
    | succ count inductionHypothesis =>
      exact .cons reads.padding inductionHypothesis

/-! ## Groups -/

/-- One symbol is shifted into the accumulator. -/
theorem Reads.push_x
    (accumulator : Accumulator)
    (value : Int) :
    (decoder.push accumulator value).x.toNat =
      (accumulator.x.toNat * 2 ^ code.bits + value.toNat) % 2 ^ 64 := by
  have digit : (if value = -2 then (0 : UInt64)
      else value.toNat.toUInt64).toNat = value.toNat % 2 ^ 64 := by
    split
    · rename_i isPadding
      rw [isPadding]
      rfl
    · exact UInt64.toNat_ofNat'
  rw [push, UInt64.toNat_add, UInt64.toNat_shiftLeft, digit, reads.bits,
    Nat.mod_eq_of_lt reads.smallBits, Nat.shiftLeft_eq, ← Nat.add_mod]

/-- The accumulator after some symbols. -/
theorem Reads.foldl_x
    (values : List Int)
    (accumulator : Accumulator) :
    (values.foldl decoder.push accumulator).x.toNat =
      (accumulator.x.toNat * (2 ^ code.bits) ^ values.length +
        valueOf (2 ^ code.bits) (values.map Int.toNat)) % 2 ^ 64 := by
  induction values using List.reverseRecOn with
  | nil =>
    have small := accumulator.x.toNat_lt
    simp [Nat.mod_eq_of_lt small]
  | append_singleton values value inductionHypothesis =>
    rw [List.foldl_append, List.foldl_cons, List.foldl_nil, reads.push_x,
      inductionHypothesis, List.map_append, List.map_cons, List.map_nil,
      valueOf_concat, List.length_append, List.length_singleton,
      pow_succ (2 ^ code.bits), Nat.add_mod, Nat.mod_mul_mod, ← Nat.add_mod,
      Nat.add_mul, Nat.mul_assoc, Nat.add_assoc]

omit reads in
@[simp] theorem push_count
    (accumulator : Accumulator)
    (value : Int) :
    (decoder.push accumulator value).count = accumulator.count + 1 := rfl

omit reads in
theorem foldl_count
    (values : List Int)
    (accumulator : Accumulator) :
    (values.foldl decoder.push accumulator).count =
      accumulator.count + values.length := by
  induction values generalizing accumulator with
  | nil => rfl
  | cons value values inductionHypothesis =>
    rw [List.foldl_cons, inductionHypothesis, List.length_cons, push_count]
    omega

omit reads in
theorem foldl_pad
    (values : List Int)
    (accumulator : Accumulator) :
    (values.foldl decoder.push accumulator).pad =
      accumulator.pad + values.count (-2) := by
  induction values generalizing accumulator with
  | nil => rfl
  | cons value values inductionHypothesis =>
    rw [List.foldl_cons, inductionHypothesis, List.count_cons]
    by_cases isPadding : value = -2
    · simp only [push, isPadding, if_pos, beq_self_eq_true]
      omega
    · have other : ¬ (value == -2) = true := by simpa using isPadding
      simp only [push, if_neg isPadding, if_neg other, Nat.add_zero]

variable {accumulator : Accumulator}

omit reads in
/-- Nothing is written before the end of a group. -/
theorem foldl_dest_of_short
    (boundary : accumulator.count % decoder.group = 0)
    (short : values.length < decoder.group) :
    (values.foldl decoder.push accumulator).dest = accumulator.dest := by
  induction values using List.reverseRecOn with
  | nil => rfl
  | append_singleton values value inductionHypothesis =>
    rw [List.length_append, List.length_singleton] at short
    have inside : (accumulator.count + values.length + 1) % decoder.group ≠
        0 := by
      rw [Nat.add_assoc, Nat.add_mod, boundary, Nat.zero_add, Nat.mod_mod,
        Nat.mod_eq_of_lt short]
      omega
    rw [List.foldl_append, List.foldl_cons, List.foldl_nil, push]
    simp only [foldl_count, if_neg inside]
    exact inductionHypothesis (by omega)

omit reads in
/-- At the end of a group its bytes are written. -/
theorem foldl_dest_of_group
    (positive : 0 < decoder.group)
    (boundary : accumulator.count % decoder.group = 0)
    (group : values.length = decoder.group) :
    (values.foldl decoder.push accumulator).dest =
      accumulator.dest ++ decoder.shifts.map fun shift =>
        (((values.foldl decoder.push accumulator).x >>> shift) &&&
          0xff).toUInt8 := by
  induction values using List.reverseRecOn with
  | nil =>
    rw [List.length_nil] at group
    omega
  | append_singleton values value _ =>
    rw [List.length_append, List.length_singleton] at group
    have ends : (accumulator.count + values.length + 1) % decoder.group =
        0 := by
      rw [Nat.add_assoc, group, Nat.add_mod_right, boundary]
    have before := foldl_dest_of_short boundary
      (by omega : values.length < decoder.group)
    rw [List.foldl_append, List.foldl_cons, List.foldl_nil, push]
    simp only [foldl_count, if_pos ends, before]

variable {chunk : List UInt8}

section

variable (inGroup : chunk.length ≤ code.groupBytes)

include inGroup

omit reads in
theorem length_groupEntries :
    (groupEntries code chunk).length = code.groupSymbols := by
  have enough := code.symbolsFor_le inGroup
  rw [groupEntries, List.length_append, List.length_map,
    code.length_groupSymbolDigits inGroup, List.length_replicate]
  omega

/-- The low bits of the accumulator after a group are the bytes of the group. -/
theorem Reads.digits_foldl
    (accumulator : Accumulator) :
    digitsOf 256 code.groupBytes
        ((groupEntries code chunk).foldl decoder.push accumulator).x.toNat =
      code.groupDigits chunk := by
  have entries : (groupEntries code chunk).map Int.toNat =
      code.groupSymbolDigits chunk ++ List.replicate
        (code.groupSymbols - code.symbolsFor chunk.length) 0 := by
    have same : Int.toNat ∘ Int.ofNat = id := rfl
    rw [groupEntries, List.map_append, List.map_map, same, List.map_id,
      List.map_replicate]
    rfl
  have wordBits : 256 ^ code.groupBytes ∣ 2 ^ 64 :=
    Nat.pow_dvd_pow 256 reads.smallGroup
  have groupBits : (2 ^ code.bits) ^ code.groupSymbols =
      256 ^ code.groupBytes := by
    rw [← Nat.pow_mul, code.sameBits, Nat.pow_mul]
  have own := digitsOf_valueOf (code.groupDigits_small chunk)
  rw [code.length_groupDigits inGroup] at own
  rw [reads.foldl_x, entries, code.valueOf_groupSymbolDigits inGroup,
    length_groupEntries inGroup, groupBits, ← digitsOf_mod,
    Nat.mod_mod_of_dvd _ wordBits, Nat.mul_add_mod_self_right, digitsOf_mod,
    own]

/-- A group is decoded to its bytes and the zero bytes that fill it. -/
theorem Reads.loop_encodeGroup
    (boundary : accumulator.count % code.groupSymbols = 0)
    (rest : List UInt8) :
    ∃ after : Accumulator,
      decoder.loop (code.encodeGroup chunk ++ rest) accumulator =
          decoder.loop rest after ∧
        after.count % code.groupSymbols = 0 ∧
        after.pad =
          accumulator.pad +
            (code.groupSymbols - code.symbolsFor chunk.length) ∧
        after.dest =
          accumulator.dest ++ (chunk ++
            List.replicate (code.groupBytes - chunk.length) 0) := by
  have length := length_groupEntries inGroup
  refine ⟨(groupEntries code chunk).foldl decoder.push accumulator,
    loop_append (reads.encodeGroup chunk) rest accumulator, ?_, ?_, ?_⟩
  · rw [foldl_count, length, Nat.add_mod_right, boundary]
  · have noPadding : ((code.groupSymbolDigits chunk).map Int.ofNat).count
        (-2) = 0 := by
      simp [List.count_eq_zero]
    rw [foldl_pad, groupEntries, List.count_append, noPadding,
      List.count_replicate_self, Nat.zero_add]
  · have group : (groupEntries code chunk).length = decoder.group :=
      length.trans reads.group.symm
    have positive : 0 < decoder.group := reads.group ▸ code.someSymbols
    rw [foldl_dest_of_group positive (reads.group ▸ boundary) group]
    congr 1
    refine List.map_injective_iff.mpr (fun _ _ => UInt8.toNat_inj.mp) ?_
    rw [reads.bytes, reads.digits_foldl inGroup]
    simp [BaseCode.groupDigits]

end

/-! ## Objects -/

theorem Reads.removed_zero :
    decoder.removed 0 = 0 := by
  have full := reads.removed code.groupBytes (Nat.le_refl _) code.someBytes
  rwa [code.symbolsFor_full, Nat.sub_self, Nat.sub_self] at full

/-- An encoding is decoded to the bytes and what its padding removes. -/
theorem Reads.loop_encode
    (bytes : List UInt8)
    (boundary : accumulator.count % code.groupSymbols = 0)
    (noPadding : accumulator.pad = 0) :
    ∃ after : Accumulator,
      decoder.loop (code.encode bytes) accumulator = some after ∧
        decoder.removed after.pad ≤ after.dest.length ∧
        after.dest.take
            (after.dest.length - decoder.removed after.pad) =
          accumulator.dest ++ bytes := by
  induction bytes using code.groups_induction generalizing accumulator with
  | nil =>
    refine ⟨accumulator, by rw [code.encode_nil]; rfl, ?_, ?_⟩
    · rw [noPadding, reads.removed_zero]
      exact Nat.zero_le _
    · rw [noPadding, reads.removed_zero, Nat.sub_zero, List.take_length,
        List.append_nil]
  | last chunk nonempty short =>
    obtain ⟨after, same, -, pad, dest⟩ :=
      reads.loop_encodeGroup (Nat.le_of_lt short) boundary []
    have removed : decoder.removed after.pad =
        code.groupBytes - chunk.length := by
      rw [pad, noPadding, Nat.zero_add]
      exact reads.removed _ (Nat.le_of_lt short)
        (List.length_pos_iff.mpr nonempty)
    refine ⟨after, ?_, ?_, ?_⟩
    · rw [code.encode_short nonempty (Nat.le_of_lt short),
        ← List.append_nil (code.encodeGroup chunk), same]
      rfl
    · rw [removed, dest]
      simp only [List.length_append, List.length_replicate]
      omega
    · rw [removed, dest, ← List.append_assoc]
      refine List.take_left' ?_
      simp only [List.length_append, List.length_replicate]
      omega
  | group chunk rest full inductionHypothesis =>
    obtain ⟨after, same, nextBoundary, pad, dest⟩ :=
      reads.loop_encodeGroup (Nat.le_of_eq full) boundary (code.encode rest)
    rw [full, code.symbolsFor_full, Nat.sub_self, Nat.add_zero,
      noPadding] at pad
    obtain ⟨final, decodes, inside, decoded⟩ :=
      inductionHypothesis nextBoundary pad
    refine ⟨final, ?_, inside, ?_⟩
    · rw [code.encode_append full, same, decodes]
    · rw [decoded, dest, full, Nat.sub_self, List.replicate_zero,
        List.append_nil, List.append_assoc]

end Decoder

/-- A leaf is one region. -/
theorem Heap.WellFormed.regions_of_leaf
    (wellFormed : heap.WellFormed)
    (holds : heap.Holds data)
    (leaf : (heap.object data).records = [])
    (positive : (heap.object data).size ≠ 0) :
    heap.regions data =
      [⟨data, 0, heap.bytes data, (heap.object data).size⟩] := by
  have length := wellFormed.length_bytes holds
  rw [Heap.regions, if_neg positive,
    wellFormed.mapDirect_leaf holds leaf positive, ← length,
    Heap.bytes_of_leaf leaf]
  simp

/-- A contiguous encoding is decoded to a new object. -/
theorem Decoder.Reads.decode
    {decoder : Decoder}
    (reads : decoder.Reads code)
    (wellFormed : heap.WellFormed)
    (holds : heap.Holds data)
    (leaf : (heap.object data).records = [])
    {bytes : List UInt8}
    (nonempty : bytes ≠ [])
    (fits : bytes.length < 2 ^ 64)
    (encodes : heap.bytes data = code.encode bytes) :
    ∃ after result,
      decoder.decode heap data true = .ok (after, some result) ∧
        Returns heap after result bytes := by
  have positive : (heap.object data).size ≠ 0 := by
    rw [← wellFormed.length_bytes holds, encodes]
    exact List.length_eq_zero_iff.not.mpr (code.encode_ne_nil nonempty)
  have boundary : (Accumulator.mk 0 0 0 []).count % code.groupSymbols = 0 :=
    Nat.zero_mod _
  obtain ⟨accumulator, decodes, inside, decoded⟩ :=
    reads.loop_encode bytes boundary rfl
  have room : ((some bytes).getD []).length < 2 ^ 64 := fits
  have enough : Destructor.other.Suffices true ((some bytes).getD []) :=
    trivial
  obtain ⟨created, val, computes, returns⟩ := wellFormed.create room enough
  have empty : (created.object emptyData).size = 0 := by
    rw [returns.wellFormed.empty.2]
    rfl
  refine ⟨created.retain val, val, ?_, ?_⟩
  · simp only [Decoder.decode, wellFormed.apply holds,
      wellFormed.regions_of_leaf holds leaf positive, visit, Decoder.applier,
      encodes, decodes, if_pos, if_neg (Nat.not_lt.mpr inside), decoded,
      List.nil_append, bind, Except.bind, computes, Heap.createConcat, empty]
    rfl
  · have retained := Returns.ofRetain returns.wellFormed returns.holds
    exact
      { retained with
        extension := returns.extension.trans retained.extension
        denotes := retained.denotes.trans returns.denotes }

/-! ## Tables -/

/-- A byte of the accumulator. -/
theorem toNat_shifted
    (x shift : UInt64)
    (small : shift.toNat < 64) :
    ((x >>> shift) &&& 0xff).toUInt8.toNat =
      x.toNat / 2 ^ shift.toNat % 256 := by
  have mask : x.toNat / 2 ^ shift.toNat &&& 0xff =
      x.toNat / 2 ^ shift.toNat % 256 :=
    Nat.and_two_pow_sub_one_eq_mod _ 8
  rw [UInt64.toNat_toUInt8, UInt64.toNat_and, UInt64.toNat_shiftRight,
    Nat.mod_eq_of_lt small, Nat.shiftRight_eq_div_pow]
  show (x.toNat / 2 ^ shift.toNat &&& 0xff) % 256 = _
  rw [mask, Nat.mod_mod]

theorem base64Decoder_reads : base64Decoder.Reads base64 where
  bits := rfl
  smallBits := by decide
  group := rfl
  smallGroup := by decide
  bytes := by
    intro x
    simp only [base64Decoder, base64, List.map_cons, List.map_nil,
      toNat_shifted x 16 (by decide), toNat_shifted x 8 (by decide),
      toNat_shifted x 0 (by decide)]
    simp [digitsOf, Nat.div_div_eq_div_mul]
  symbol := by decide +kernel
  padding := by decide +kernel
  removed := by decide

/-- Base 32, for any table that knows its alphabet. -/
theorem fromBase32WithTable_reads
    {symbol : Nat → UInt8}
    {table : List Int}
    {tableSize : Nat}
    (known :
      ∀ digit < 32,
        whitespace (symbol digit) = false ∧
          (fromBase32WithTable table tableSize).value (symbol digit) =
            some (digit : Int))
    (padding :
      (fromBase32WithTable table tableSize).value 61 = some (-2)) :
    (fromBase32WithTable table tableSize).Reads (base32With symbol) where
  bits := rfl
  smallBits := show 5 < 64 by decide
  group := rfl
  smallGroup := show 5 ≤ 8 by decide
  bytes := by
    intro x
    simp only [fromBase32WithTable, base32With, List.map_cons, List.map_nil,
      toNat_shifted x 32 (by decide), toNat_shifted x 24 (by decide),
      toNat_shifted x 16 (by decide), toNat_shifted x 8 (by decide),
      toNat_shifted x 0 (by decide)]
    simp [digitsOf, Nat.div_div_eq_div_mul]
  symbol := known
  padding := ⟨rfl, padding⟩
  removed := by
    have switch : ∀ count ≤ 5, 0 < count →
        removed32 (8 - (8 * count + 4) / 5) = 5 - count := by
      decide
    exact switch

theorem base32Decoder_reads :
    (fromBase32WithTable base32DecodeTable base32DecodeTableSize).Reads
      base32 :=
  fromBase32WithTable_reads (by decide +kernel) (by decide +kernel)

end LibDispatch.Data
