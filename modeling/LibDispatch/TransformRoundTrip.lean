import LibDispatch.TransformDecode

namespace LibDispatch.Data

/-!
# Round trips

Base 64 and base 32 give back every byte string.  The extended hexadecimal
alphabet does not: the size of its decoding table is taken from its encoding
table, so that the decoder knows none of the symbols.
-/

variable {heap : Heap} {data : Nat}

/-! ## Base 64 and base 32 -/

/-- An object is encoded with a number of symbols, which are the encoding of its
bytes, and decoded again. -/
def RoundTrips
    (code : BaseCode)
    (encode decode : Transform)
    (symbols : Nat)
    (heap : Heap)
    (data : Nat) : Prop :=
  ∃ encoded text decoded result,
    encode heap data true = .ok (encoded, some text) ∧
      (encoded.object text).size = symbols ∧
      encoded.bytes text = code.encode (heap.bytes data) ∧
      decode encoded text true = .ok (decoded, some result) ∧
      decoded.bytes result = heap.bytes data

/-- An encoder and a decoder for the same encoding. -/
theorem Encoder.Implements.roundTrips
    {encoder : Encoder}
    {decoder : Decoder}
    {code : BaseCode}
    (implements : encoder.Implements code)
    (reads : decoder.Reads code)
    (wellFormed : heap.WellFormed)
    (holds : heap.Holds data)
    (nonempty : 0 < (heap.object data).size)
    (noOverflow :
      (heap.object data).size + (code.groupBytes - 1) < 2 ^ 64)
    {symbols : Nat}
    (count :
      ((heap.object data).size + (code.groupBytes - 1)) / code.groupBytes *
        code.groupSymbols = symbols)
    (fits : symbols < 2 ^ 64) :
    RoundTrips code encoder.encode decoder.decode symbols heap data := by
  have length := wellFormed.length_bytes holds
  have isCount : (code.encode (heap.bytes data)).length = symbols := by
    rw [code.length_encode, length, count]
  have some : heap.bytes data ≠ [] := by
    rw [← List.length_pos_iff, length]
    exact nonempty
  have small : (heap.bytes data).length < 2 ^ 64 := by
    rw [length]
    exact (wellFormed.objects data holds).fits
  obtain ⟨encoded, text, encodes, written, leaf⟩ :=
    implements.encode wellFormed holds some noOverflow (isCount ▸ fits)
  obtain ⟨decoded, result, decodes, returns⟩ :=
    reads.decode written.wellFormed written.holds leaf some small
      written.denotes
  refine ⟨encoded, text, decoded, result, encodes, ?_, written.denotes,
    decodes, returns.denotes⟩
  rw [← written.wellFormed.length_bytes written.holds, written.denotes,
    isCount]

/-- Base 64 and base 32 give back the bytes of every object. -/
theorem reachable_roundTrips
    (reached : Reachable (· = Heap.initial) Step heap)
    (holds : heap.Holds data)
    (nonempty : 0 < (heap.object data).size) :
    (4 * (((heap.object data).size + 2) / 3) < 2 ^ 64 →
      RoundTrips base64 toBase64 fromBase64
        (4 * (((heap.object data).size + 2) / 3)) heap data) ∧
    (8 * (((heap.object data).size + 4) / 5) < 2 ^ 64 →
      RoundTrips base32 toBase32 fromBase32
        (8 * (((heap.object data).size + 4) / 5)) heap data) := by
  have wellFormed := reachable_wellFormed reached
  constructor
  · intro fits
    exact base64Encoder_implements.roundTrips base64Decoder_reads wellFormed
      holds nonempty (show _ + 2 < _ by omega) (Nat.mul_comm _ _) fits
  · intro fits
    have implements := toBase32WithTable_implements base32EncodeTable_spells
    exact implements.roundTrips base32Decoder_reads wellFormed holds nonempty
      (show _ + 4 < _ by omega) (Nat.mul_comm _ _) fits

/-- A range of two bytes in two regions. -/
theorem rangeOfFlattened_roundTrips :
    ∃ heap : Heap,
      heap.bytes 5 = [3, 4] ∧ (heap.regions 5).length = 2 ∧
        RoundTrips base64 toBase64 fromBase64 4 heap 5 ∧
        RoundTrips base32 toBase32 fromBase32 8 heap 5 := by
  obtain ⟨heap, reached, objects⟩ := rangeOfFlattened_reached
  have size : (heap.object 5).size = 2 := by
    simp [Heap.object, objects]
  have trips := reachable_roundTrips reached
    (show heap.Holds 5 by simp [Heap.Holds, objects])
    (by rw [size]; decide)
  rw [size] at trips
  refine ⟨heap, ?_, ?_, trips.1 (by decide), trips.2 (by decide)⟩
  · simp [Heap.bytes, Heap.object, Heap.slice, Heap.leafBytes, Object.leaf,
      objects]
  · simp [Heap.regions, Heap.mapDirect, Heap.object, Heap.recordRegions,
      objects]

/-! ## The extended hexadecimal alphabet -/

/-- An object is transformed to base 32 with the extended hexadecimal alphabet,
and back. -/
def Base32hexRoundTrips
    (detectUtf : Heap → Nat → Except Failure (Option FormatType))
    (heap : Heap)
    (data : Nat) : Prop :=
  ∃ encoded text decoded result,
    heap.createWithTransform detectUtf data formatTypeNone
        formatTypeBase32hex true = .ok (encoded, some text) ∧
      encoded.bytes text = base32hex.encode (heap.bytes data) ∧
      encoded.createWithTransform detectUtf text formatTypeBase32hex
          formatTypeNone true = .ok (decoded, some result) ∧
      decoded.bytes result = heap.bytes data

variable (detectUtf : Heap → Nat → Except Failure (Option FormatType))

/-- Formats that may be transformed into each other. -/
theorem Heap.createWithTransform_of_allowed
    {input output : FormatType}
    (known : input.type ≠ formatUtfAny)
    (inputAllowed : input.type &&& ~~~output.inputMask = 0)
    (outputAllowed : output.type &&& ~~~input.outputMask = 0)
    (heap : Heap)
    (data : Nat)
    (memory : Bool) :
    heap.createWithTransform detectUtf data input output memory =
      if (heap.object data).size = 0 then
        .ok (heap, some data)
      else
        heap.transform data input output memory := by
  have detected : detectFormat detectUtf heap data input = .ok (some input) :=
    if_neg known
  simp only [Heap.createWithTransform, detected, bind, Except.bind,
    inputAllowed, outputAllowed, ne_eq, not_true_eq_false, if_false]
  rfl

theorem createWithTransform_toBase32hex
    (heap : Heap)
    (data : Nat)
    (memory : Bool) :
    heap.createWithTransform detectUtf data formatTypeNone
        formatTypeBase32hex memory =
      if (heap.object data).size = 0 then
        .ok (heap, some data)
      else
        toBase32hex (heap.retain data) data memory :=
  Heap.createWithTransform_of_allowed detectUtf (by decide) (by decide)
    (by decide) heap data memory

theorem createWithTransform_fromBase32hex
    (heap : Heap)
    (data : Nat)
    (memory : Bool) :
    heap.createWithTransform detectUtf data formatTypeBase32hex
        formatTypeNone memory =
      if (heap.object data).size = 0 then
        .ok (heap, some data)
      else
        heap.transform data formatTypeBase32hex formatTypeNone memory :=
  Heap.createWithTransform_of_allowed detectUtf (by decide) (by decide)
    (by decide) heap data memory

/-- Every symbol of the alphabet is beyond the end of the table. -/
theorem base32hex_unknown :
    ∀ digit < 32,
      whitespace (base32hexSymbol digit) = false ∧
        (fromBase32WithTable base32hexDecodeTable
          base32hexDecodeTableSize).value (base32hexSymbol digit) = none := by
  decide +kernel

section

variable (wellFormed : heap.WellFormed) (holds : heap.Holds data)

include wellFormed holds

/-- No encoding is decoded. -/
theorem fromBase32hex_fails
    {bytes : List UInt8}
    (nonempty : bytes ≠ [])
    (encodes : heap.bytes data = base32hex.encode bytes) :
    fromBase32hex heap data true = .ok (heap, none) := by
  obtain ⟨-, together, sizes⟩ := wellFormed.regions_spec holds
  obtain ⟨digit, rest, isDigit, begins⟩ := base32hex.encode_begins nonempty
  rw [encodes, begins] at together
  obtain ⟨noSpace, unknown⟩ := base32hex_unknown digit isDigit
  cases regions : heap.regions data with
  | nil =>
    rw [regions] at together
    cases together
  | cons region others =>
    rw [regions, regionBytes_cons] at together
    have size := sizes region (by rw [regions]; exact List.mem_cons_self)
    cases buffer : region.buffer with
    | nil =>
      rw [buffer, List.length_nil] at size
      omega
    | cons first bytes =>
      rw [buffer, List.cons_append] at together
      have isSymbol : first = base32hexSymbol digit :=
        (List.cons.inj together).1
      have rejects (accumulator : Accumulator) :
          (fromBase32WithTable base32hexDecodeTable
            base32hexDecodeTableSize).loop region.buffer accumulator =
              none := by
        rw [buffer, Decoder.loop, isSymbol, noSpace, unknown]
        rfl
      simp only [fromBase32hex, Decoder.decode, wellFormed.apply holds,
        regions, visit, Decoder.applier, if_pos, rejects, bind,
        Except.bind]
      rfl

/-- Every object that is not empty is encoded. -/
theorem Heap.WellFormed.toBase32hex
    (nonempty : (heap.object data).size ≠ 0)
    (fits : 8 * (((heap.object data).size + 4) / 5) < 2 ^ 64) :
    ∃ encoded text,
      heap.createWithTransform detectUtf data formatTypeNone
          formatTypeBase32hex true = .ok (encoded, some text) ∧
        encoded.WellFormed ∧ encoded.Holds text ∧
        encoded.bytes text = base32hex.encode (heap.bytes data) := by
  have retained := Returns.ofRetain wellFormed holds
  have length := wellFormed.length_bytes holds
  have sameLength := retained.wellFormed.length_bytes retained.holds
  rw [retained.denotes, length] at sameLength
  have some : (heap.retain data).bytes data ≠ [] := by
    rw [retained.denotes, ← List.length_pos_iff, length]
    exact Nat.pos_of_ne_zero nonempty
  have noOverflow : ((heap.retain data).object data).size +
      (base32hex.groupBytes - 1) < 2 ^ 64 := by
    rw [← sameLength]
    show _ + 4 < _
    omega
  have room : (base32hex.encode ((heap.retain data).bytes data)).length <
      2 ^ 64 := by
    rw [base32hex.length_encode, retained.denotes, length]
    show (_ + 4) / 5 * 8 < _
    omega
  have implements := toBase32WithTable_implements base32hexEncodeTable_spells
  obtain ⟨encoded, text, encodes, written, -⟩ :=
    implements.encode retained.wellFormed retained.holds some noOverflow room
  refine ⟨encoded, text, ?_, written.wellFormed, written.holds, ?_⟩
  · rw [createWithTransform_toBase32hex, if_neg nonempty]
    exact encodes
  · rw [written.denotes, retained.denotes]
    rfl

/-- No object that is not empty is decoded again. -/
theorem Heap.WellFormed.not_base32hexRoundTrips
    (nonempty : (heap.object data).size ≠ 0)
    (fits : 8 * (((heap.object data).size + 4) / 5) < 2 ^ 64) :
    ¬ Base32hexRoundTrips detectUtf heap data := by
  rintro ⟨encoded, text, decoded, result, encodes, denotes, decodes, -⟩
  obtain ⟨_, _, same, encodedWellFormed, holdsText, -⟩ :=
    wellFormed.toBase32hex detectUtf holds nonempty fits
  rw [encodes] at same
  cases same
  have some : heap.bytes data ≠ [] := by
    rw [← List.length_pos_iff, wellFormed.length_bytes holds]
    exact Nat.pos_of_ne_zero nonempty
  have textSize : (encoded.object text).size ≠ 0 := by
    rw [← encodedWellFormed.length_bytes holdsText, denotes]
    exact List.length_eq_zero_iff.not.mpr (base32hex.encode_ne_nil some)
  have fails := fromBase32hex_fails encodedWellFormed holdsText some denotes
  rw [createWithTransform_fromBase32hex, if_neg textSize] at decodes
  simp only [Heap.transform, formatTypeBase32hex, transformOrRetain, fails,
    bind, Except.bind] at decodes
  cases decodes

end

/-- Every object is encoded, but only the empty one is decoded again. -/
theorem reachable_base32hex
    (reached : Reachable (· = Heap.initial) Step heap)
    (holds : heap.Holds data)
    (fits : 8 * (((heap.object data).size + 4) / 5) < 2 ^ 64) :
    (∃ encoded text,
      heap.createWithTransform detectUtf data formatTypeNone
          formatTypeBase32hex true = .ok (encoded, some text) ∧
        encoded.bytes text = base32hex.encode (heap.bytes data)) ∧
      (Base32hexRoundTrips detectUtf heap data ↔
        (heap.object data).size = 0) := by
  have wellFormed := reachable_wellFormed reached
  by_cases empty : (heap.object data).size = 0
  · have noBytes : heap.bytes data = base32hex.encode (heap.bytes data) := by
      rw [List.eq_nil_of_length_eq_zero
        ((wellFormed.length_bytes holds).trans empty), base32hex.encode_nil]
    have encodes : heap.createWithTransform detectUtf data formatTypeNone
        formatTypeBase32hex true = .ok (heap, some data) := by
      rw [createWithTransform_toBase32hex, if_pos empty]
    have decodes : heap.createWithTransform detectUtf data
        formatTypeBase32hex formatTypeNone true = .ok (heap, some data) := by
      rw [createWithTransform_fromBase32hex, if_pos empty]
    refine ⟨⟨heap, data, encodes, noBytes⟩, fun _ => empty, fun _ => ?_⟩
    exact ⟨heap, data, heap, data, encodes, noBytes, decodes, rfl⟩
  · obtain ⟨encoded, text, encodes, -, -, denotes⟩ :=
      wellFormed.toBase32hex detectUtf holds empty fits
    refine ⟨⟨encoded, text, encodes, denotes⟩, fun trips => ?_,
      fun isEmpty => absurd isEmpty empty⟩
    exact absurd trips
      (wellFormed.not_base32hexRoundTrips detectUtf holds empty fits)

/-- An object with the byte of the letter f. -/
def oneLetter : Heap := (Heap.initial.add ⟨some [102], 1, []⟩).1

theorem oneLetter_reached :
    Reachable (· = Heap.initial) Step oneLetter := by
  exact reached_initial.next
    ⟨.create (some [102]) .default true, by decide, rfl⟩

/-- The letter f is encoded, and its encoding is refused. -/
theorem oneLetter_base32hex_refused :
    (∃ encoded refused : Heap,
      oneLetter.createWithTransform (fun _ _ => .ok none) 1 formatTypeNone
          formatTypeBase32hex true = .ok (encoded, some 2) ∧
        encoded.bytes 2 = [67, 79, 61, 61, 61, 61, 61, 61] ∧
        encoded.createWithTransform (fun _ _ => .ok none) 2
          formatTypeBase32hex formatTypeNone true = .ok (refused, none)) ∧
      ¬ Base32hexRoundTrips (fun _ _ => .ok none) oneLetter 1 := by
  refine ⟨⟨_, _, rfl, rfl, rfl⟩, ?_⟩
  exact (reachable_wellFormed oneLetter_reached).not_base32hexRoundTrips _
    (by decide) (by decide) (by decide)

/-- The theorem speaks of that object and of the empty one. -/
theorem oneLetter_base32hex :
    ¬ Base32hexRoundTrips (fun _ _ => .ok none) oneLetter 1 ∧
      Base32hexRoundTrips (fun _ _ => .ok none) oneLetter emptyData := by
  have one := (reachable_base32hex (fun _ _ => .ok none) oneLetter_reached
    (show oneLetter.Holds 1 by decide) (by decide)).2
  have none := (reachable_base32hex (fun _ _ => .ok none) oneLetter_reached
    (show oneLetter.Holds emptyData by decide) (by decide)).2
  exact ⟨fun trips => absurd (one.mp trips) (by decide), none.mpr rfl⟩

end LibDispatch.Data
