import LibDispatch.TransformRoundTrip
import LibDispatch.TransformUtf8Text

namespace LibDispatch.Data

/-!
# Round trips of Unicode text

Well-formed UTF-8 in one region is transformed to UTF-16 with a byte order mark
and back to the same bytes.  The mark is inserted on the way there and dropped on
the way back, so a text that begins with a mark of its own would lose it.
-/

variable {heap : Heap} {data : Nat}

/-- Only a text that begins with the mark begins with the bytes of the mark. -/
theorem not_begins_utf8Bom
    {chars : List Char}
    (noMark : ∀ char ∈ chars.head?, char.toNat ≠ 0xfeff) :
    (utf8Text chars).take 3 ≠ utf8Bom := by
  intro begins
  cases chars with
  | nil => cases begins
  | cons char chars =>
    obtain ⟨byte, bytes, encodes, length, reads⟩ := utf8EncodeChar_spec char
    have text : utf8Text (char :: chars) =
        byte :: (bytes ++ utf8Text chars) := by
      rw [utf8Text, List.flatMap_cons, encodes]
      rfl
    rw [text, utf8Bom, List.take_succ_cons] at begins
    obtain ⟨rfl, others⟩ := List.cons.inj begins
    -- The first byte of the mark announces two more bytes.
    have two : bytes.length = 2 := by
      have three : utf8Length 0xef = 3 := by decide
      omega
    rw [List.take_append_of_le_length (Nat.le_of_eq two.symm),
      List.take_of_length_le (Nat.le_of_eq two)] at others
    rw [others] at reads
    have code : char.toNat = 0xfeff :=
      (Except.ok.inj (reads.symm.trans (by decide +kernel)))
    exact noMark char rfl code

/-- A text without the bytes of the mark is returned as it is. -/
theorem toUtf8WithoutBom_of_text
    (wellFormed : heap.WellFormed)
    (holds : heap.Holds data)
    (noMark : (heap.bytes data).take 3 ≠ utf8Bom) :
    toUtf8WithoutBom heap data true = .ok (heap.retain data, some data) := by
  by_cases short : (heap.bytes data).length < 0 + 3
  · simp only [toUtf8WithoutBom,
      wellFormed.subrangeMap_beyond holds short (by decide), bind, Except.bind]
    rfl
  · obtain ⟨pointer, maps, bytes⟩ :=
      wellFormed.subrangeMap holds (by decide) (Nat.not_lt.mp short)
    rw [List.drop_zero] at bytes
    simp only [toUtf8WithoutBom, maps, bind, Except.bind, bytes,
      if_neg noMark]
    rfl

/-- A text is transformed to UTF-16 with a mark, and back. -/
def UtfRoundTrips
    (order : ByteOrder)
    (heap : Heap)
    (data : Nat)
    (chars : List Char) : Prop :=
  ∃ encoded text decoded result,
    heap.createWithTransform detectUtf data formatTypeUtf8
        (formatTypeUtf16 order) true = .ok (encoded, some text) ∧
      encoded.bytes text = order.store 0xfeff ++ utf16Text order chars ∧
      encoded.createWithTransform detectUtf text (formatTypeUtf16 order)
          formatTypeUtf8 true = .ok (decoded, some result) ∧
      decoded.bytes result = heap.bytes data

/-- The transform to UTF-16. -/
theorem createWithTransform_toUtf16
    (order : ByteOrder)
    (heap : Heap)
    (data : Nat) :
    heap.createWithTransform detectUtf data formatTypeUtf8
        (formatTypeUtf16 order) true =
      if (heap.object data).size = 0 then
        .ok (heap, some data)
      else
        toUtf16 (some bufferMallocMax) order (heap.retain data) data true := by
  cases order with
  | little | big =>
    exact Heap.createWithTransform_of_allowed detectUtf (by decide)
      (by decide) (by decide) heap data true

/-- The transform from UTF-16. -/
theorem createWithTransform_fromUtf16
    (order : ByteOrder)
    (heap : Heap)
    (data : Nat) :
    heap.createWithTransform detectUtf data (formatTypeUtf16 order)
        formatTypeUtf8 true =
      if (heap.object data).size = 0 then
        .ok (heap, some data)
      else
        heap.transform data (formatTypeUtf16 order) formatTypeUtf8 true := by
  cases order with
  | little | big =>
    exact Heap.createWithTransform_of_allowed detectUtf (by decide)
      (by decide) (by decide) heap data true

/-- A text in one region is written after the mark, in one part. -/
theorem Heap.WellFormed.toUtf16_of_text
    (wellFormed : heap.WellFormed)
    (holds : heap.Holds data)
    (one : (heap.regions data).length = 1)
    (order : ByteOrder)
    {chars : List Char}
    (same : heap.bytes data = utf8Text chars)
    (noMark : ∀ char ∈ chars.head?, char.toNat ≠ 0xfeff)
    (small : (heap.bytes data).length * 2 + 2 ≤ bufferMallocMax) :
    ∃ after result,
      toUtf16 (some bufferMallocMax) order heap data true =
          .ok (after, some result) ∧
        after.WellFormed ∧ after.Holds result ∧
        after.parts result ≤ 1 ∧
        after.bytes result = order.store 0xfeff ++ utf16Text order chars ∧
        (after.bytes result).length ≤ bufferMallocMax := by
  have transforms := toUtf16_transforms_of_one wellFormed holds one order small
  obtain ⟨outputs, reads, flat⟩ := whole_of_utf8Text order same noMark
  rw [reads] at transforms
  generalize returns : toUtf16 (some bufferMallocMax) order heap data true =
    outcome at transforms
  cases transforms with
  | good followingWellFormed followingHolds denotes =>
    have onePart :=
      (toUtf16_of_one wellFormed holds rfl one order (by decide) returns).2
    rw [Text.Reader.whole_eq_rest] at reads
    have length := length_rest_le reads
    have total := congrArg List.length denotes
    rw [List.length_append, order.length_store] at total
    exact ⟨_, _, rfl, followingWellFormed, followingHolds, onePart,
      denotes.trans (congrArg _ flat), by omega⟩

/--
Well-formed UTF-8 in one region that does not begin with a mark is transformed
to a mark and the same characters in UTF-16, and back to the same bytes.
-/
theorem reachable_utfRoundTrips
    (reached : Reachable (· = Heap.initial) Step heap)
    (holds : heap.Holds data)
    (one : (heap.regions data).length = 1)
    (order : ByteOrder)
    {chars : List Char}
    (same : heap.bytes data = utf8Text chars)
    (noMark : ∀ char ∈ chars.head?, char.toNat ≠ 0xfeff)
    (small : 2 * (heap.bytes data).length + 2 ≤ bufferMallocMax) :
    UtfRoundTrips order heap data chars := by
  have wellFormed := reachable_wellFormed reached
  have retained := Returns.ofRetain wellFormed holds
  have nonempty : (heap.object data).size ≠ 0 := by
    rw [← wellFormed.length_bytes holds]
    exact fun none => wellFormed.bytes_of_one holds one
      (List.length_eq_zero_iff.mp none)
  obtain ⟨encoded, text, encodes, encodedWellFormed, encodedHolds, onePart,
    written, short⟩ := retained.wellFormed.toUtf16_of_text retained.holds
      (by rwa [Heap.regions_ofSame (heap.objects_retain data)]) order
      (retained.denotes.trans same) noMark (by rw [retained.denotes]; omega)
  obtain ⟨decoded, result, decodes, decodedWellFormed, decodedHolds, read⟩ :=
    fromUtf16_of_marked encodedWellFormed encodedHolds onePart order written
      short
  have textSize : (encoded.object text).size ≠ 0 := by
    rw [← encodedWellFormed.length_bytes encodedHolds, written,
      List.length_append, order.length_store]
    omega
  have stripped := toUtf8WithoutBom_of_text decodedWellFormed decodedHolds
    (by rw [read]; exact not_begins_utf8Bom noMark)
  refine ⟨encoded, text, decoded.retain result, result, ?_, written, ?_, ?_⟩
  · rw [createWithTransform_toUtf16, if_neg nonempty, encodes]
  · rw [createWithTransform_fromUtf16, if_neg textSize]
    simp only [Heap.transform, transformOrRetain, formatTypeUtf16,
      formatTypeUtf8, decodes, bind, Except.bind]
    exact stripped
  · rw [(Returns.ofRetain decodedWellFormed decodedHolds).denotes, read, same]

/-- A letter, an accent, a sign and a pair of surrogates. -/
theorem fourWidths_utfRoundTrips :
    ∃ heap : Heap,
      heap.bytes 1 =
          [0x61, 0xc3, 0xa9, 0xe2, 0x82, 0xac, 0xf0, 0x9f, 0x98, 0x80] ∧
        UtfRoundTrips .big heap 1
          [Char.ofNat 0x61, Char.ofNat 0xe9, Char.ofNat 0x20ac,
            Char.ofNat 0x1f600] := by
  have created := reached_initial.next
    ⟨.createAlloc
      [0x61, 0xc3, 0xa9, 0xe2, 0x82, 0xac, 0xf0, 0x9f, 0x98, 0x80],
      by decide, rfl⟩
  refine ⟨_, rfl, reachable_utfRoundTrips created (show 1 < 2 by decide) rfl
    .big (by decide +kernel) ?_ (by decide)⟩
  intro char first
  cases first
  decide

end LibDispatch.Data
