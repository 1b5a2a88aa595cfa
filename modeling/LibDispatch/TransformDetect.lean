import LibDispatch.TransformUtfFragments
import LibDispatch.TransformUtfRoundTrip

namespace LibDispatch.Data

/-!
# Text of any Unicode format

The format of a text that is only known to be Unicode is detected from the byte
order mark of UTF-16 in its first two bytes, and is UTF-8 without one.  A text of
less than two bytes has no first two bytes: it is refused, although it can only
be UTF-8.
-/

variable {heap : Heap} {data : Nat}

/-- `_dispatch_data_format_type_utf_any`. -/
def formatTypeUtfAny : FormatType where
  type := formatUtfAny
  inputMask := 0
  outputMask := 0
  decode := none
  encode := none

/-- The formats that Unicode text is transformed to. -/
inductive UtfFormat where
  | utf8
  | utf16 (order : ByteOrder)
  deriving Repr, DecidableEq

/-- The format type of a format. -/
def UtfFormat.formatType : UtfFormat → FormatType
  | .utf8 => formatTypeUtf8
  | .utf16 order => formatTypeUtf16 order

/-- The format that a mark at the beginning of a text names. -/
def formatByMark : List UInt8 → UtfFormat
  | first :: second :: _ =>
    if first = 0xff ∧ second = 0xfe then .utf16 .little
    else if first = 0xfe ∧ second = 0xff then .utf16 .big
    else .utf8
  | _ => .utf8

/-! ## Detection -/

theorem toNat_add_mul_eq_iff
    (first second low high : UInt8) :
    first.toNat + second.toNat * 256 = low.toNat + high.toNat * 256 ↔
      first = low ∧ second = high := by
  have firstSmall := first.toNat_lt
  have lowSmall := low.toNat_lt
  rw [← UInt8.toNat_inj, ← UInt8.toNat_inj]
  omega

/-- A text of two bytes or more has the format that its mark names. -/
theorem Heap.WellFormed.detectUtf
    (wellFormed : heap.WellFormed)
    (holds : heap.Holds data)
    (long : 2 ≤ (heap.bytes data).length) :
    detectUtf heap data =
      .ok (some (formatByMark (heap.bytes data)).formatType) := by
  obtain ⟨pointer, maps, same⟩ :=
    wellFormed.subrangeMap holds (show 0 < 2 by decide)
      (show 0 + 2 ≤ _ by omega)
  rw [List.drop_zero] at same
  generalize heap.bytes data = bytes at long same ⊢
  rcases bytes with _ | ⟨first, _ | ⟨second, others⟩⟩
  · exact absurd long (by decide)
  · exact absurd long (by simp)
  · rcases pointer with _ | ⟨mapped, _ | ⟨next, more⟩⟩
    · cases same
    · cases same
    · simp only [List.take_succ_cons, List.take_zero, List.cons.injEq,
        and_true] at same
      obtain ⟨rfl, rfl⟩ := same
      have isLittle := toNat_add_mul_eq_iff mapped next 0xff 0xfe
      have isBig := toNat_add_mul_eq_iff mapped next 0xfe 0xff
      simp only [Data.detectUtf, maps, bind, Except.bind, ByteOrder.load]
      change
        (if mapped.toNat + next.toNat * 256 =
            (0xff : UInt8).toNat + (0xfe : UInt8).toNat * 256 then _
          else if mapped.toNat + next.toNat * 256 =
            (0xfe : UInt8).toNat + (0xff : UInt8).toNat * 256 then _
          else _) = _
      simp only [isLittle, isBig, formatByMark]
      split_ifs <;> rfl

/-- A shorter text has no format. -/
theorem Heap.WellFormed.detectUtf_short
    (wellFormed : heap.WellFormed)
    (holds : heap.Holds data)
    (short : (heap.bytes data).length < 2) :
    Data.detectUtf heap data = .ok none := by
  simp only [Data.detectUtf,
    wellFormed.subrangeMap_beyond holds (show _ < 0 + 2 by omega)
      (by decide), bind, Except.bind]
  rfl

theorem formatByMark_short
    {bytes : List UInt8}
    (short : bytes.length < 2) :
    formatByMark bytes = .utf8 := by
  rcases bytes with _ | ⟨first, _ | ⟨second, others⟩⟩
  · rfl
  · rfl
  · exact absurd short (by simp)

/-- A text whose format is detected is transformed from that format. -/
theorem createWithTransform_detected
    {input output : FormatType}
    (detects : Data.detectUtf heap data = .ok (some input))
    (known : input.type ≠ formatUtfAny)
    (memory : Bool) :
    heap.createWithTransform Data.detectUtf data formatTypeUtfAny output
        memory =
      heap.createWithTransform Data.detectUtf data input output memory := by
  have any :
      detectFormat Data.detectUtf heap data formatTypeUtfAny =
        .ok (some input) :=
    (if_pos rfl).trans detects
  have itself :
      detectFormat Data.detectUtf heap data input = .ok (some input) :=
    if_neg known
  rw [Heap.createWithTransform, Heap.createWithTransform, any, itself]

/-- A text whose format is not detected is refused. -/
theorem createWithTransform_undetected
    {output : FormatType}
    (undetected : Data.detectUtf heap data = .ok none)
    (memory : Bool) :
    heap.createWithTransform Data.detectUtf data formatTypeUtfAny output
        memory =
      .ok (heap, none) := by
  have any :
      detectFormat Data.detectUtf heap data formatTypeUtfAny = .ok none :=
    (if_pos rfl).trans undetected
  rw [Heap.createWithTransform, any]
  rfl

/-! ## One byte -/

/-- A text of one byte is read exactly if the byte is a character. -/
theorem utf8Reader_whole_byte
    (order : ByteOrder)
    (byte : UInt8) :
    ((utf8Reader order).whole [byte]).toOption =
      some (if 0x80 ≤ byte then none else some [order.store byte.toNat]) := by
  have each :
      ∀ code : Fin 256,
        ((utf8Reader order).whole [UInt8.ofFin code]).toOption =
          some (if 0x80 ≤ UInt8.ofFin code then none
            else some [order.store (UInt8.ofFin code).toNat]) := by
    cases order <;> decide +kernel
  exact each byte.toFin

/-- An object of one byte is in one region. -/
theorem Heap.WellFormed.one_of_byte
    (wellFormed : heap.WellFormed)
    (holds : heap.Holds data)
    (single : (heap.bytes data).length = 1) :
    (heap.regions data).length = 1 := by
  have sum := wellFormed.sum_sizes holds
  have sizes := (wellFormed.regions_spec holds).2.2
  rw [single] at sum
  rcases regions : heap.regions data with _ | ⟨first, _ | ⟨second, others⟩⟩
  · rw [regions] at sum
    cases sum
  · rfl
  · rw [regions] at sum sizes
    have firstSize := (sizes first (by simp)).2
    have secondSize := (sizes second (by simp)).2
    rw [List.map_cons, List.map_cons, List.sum_cons, List.sum_cons] at sum
    omega

/-- A byte is transformed to UTF-16 exactly if it is a character. -/
theorem toUtf16_byte
    (wellFormed : heap.WellFormed)
    (holds : heap.Holds data)
    {byte : UInt8}
    (single : heap.bytes data = [byte])
    (order : ByteOrder) :
    resultBytes (toUtf16 (some bufferMallocMax) order heap data true) =
        .ok none ↔
      0x80 ≤ byte := by
  have reads := utf8Reader_whole_byte order byte
  have transforms :=
    toUtf16_transforms_of_one wellFormed holds
      (wellFormed.one_of_byte holds (by rw [single]; rfl)) order
      (by rw [single]; exact Nat.le_of_ble_eq_true rfl)
  rw [single] at transforms
  generalize toUtf16 (some bufferMallocMax) order heap data true = outcome
    at transforms ⊢
  generalize (utf8Reader order).whole [byte] = reading at reads transforms
  cases transforms with
  | failure => cases reads
  | bad =>
    refine iff_of_true rfl ?_
    by_contra small
    rw [if_neg small] at reads
    cases reads
  | good _ _ _ =>
    refine iff_of_false (fun returns => by cases returns) ?_
    intro large
    rw [if_pos large] at reads
    cases reads

/-! ## The formats that are named -/

/-- What is transformed between the formats of Unicode text. -/
theorem createWithTransform_utf
    (input output : UtfFormat)
    (heap : Heap)
    (data : Nat) :
    heap.createWithTransform Data.detectUtf data input.formatType
        output.formatType true =
      if (heap.object data).size = 0 then
        .ok (heap, some data)
      else
        heap.transform data input.formatType output.formatType true := by
  rcases input with _ | (_ | _) <;> rcases output with _ | (_ | _) <;>
    exact Heap.createWithTransform_of_allowed Data.detectUtf (by decide)
      (by decide) (by decide) heap data true

/-- A format that is named is not to be detected. -/
theorem UtfFormat.type_ne_any (format : UtfFormat) :
    format.formatType.type ≠ formatUtfAny := by
  rcases format with _ | (_ | _) <;> decide

/-- A text of less than two bytes is refused in UTF-8 exactly if it is to be
UTF-16 and its byte is not a character. -/
theorem transformUtf8_short
    (wellFormed : heap.WellFormed)
    (holds : heap.Holds data)
    (short : (heap.bytes data).length < 2)
    (output : UtfFormat) :
    resultBytes
        (heap.createWithTransform Data.detectUtf data UtfFormat.utf8.formatType
          output.formatType true) =
        .ok none ↔
      ∃ byte, heap.bytes data = [byte] ∧ 0x80 ≤ byte ∧ output ≠ .utf8 := by
  have size := wellFormed.length_bytes holds
  rw [createWithTransform_utf]
  rcases bytes : heap.bytes data with _ | ⟨byte, _ | ⟨second, others⟩⟩
  · rw [bytes] at size
    rw [if_pos (show (heap.object data).size = 0 from size.symm)]
    refine iff_of_false (fun returns => by cases returns) ?_
    rintro ⟨byte, empty, -⟩
    cases empty
  · rw [bytes] at size
    rw [if_neg (by rw [← size]; exact Nat.one_ne_zero)]
    have retained := Returns.ofRetain wellFormed holds
    have retainedBytes := retained.denotes.trans bytes
    cases output with
    | utf8 =>
      have strips := toUtf8WithoutBom_of_text retained.wellFormed
        retained.holds (by rw [retainedBytes]; simp [utf8Bom])
      refine iff_of_false ?_ ?_
      · intro returns
        change resultBytes (toUtf8WithoutBom (heap.retain data) data true) =
          _ at returns
        rw [strips] at returns
        cases returns
      · rintro ⟨-, -, -, other⟩
        exact other rfl
    | utf16 order =>
      refine (toUtf16_byte retained.wellFormed retained.holds retainedBytes
        order).trans ⟨fun large => ⟨byte, rfl, large, UtfFormat.noConfusion⟩, ?_⟩
      rintro ⟨other, same, large, -⟩
      cases same
      exact large
  · rw [bytes] at short
    exact absurd short (by simp)

/-- Text of any Unicode format is transformed as the format that its mark names,
except what has less than two bytes and is not refused in UTF-8. -/
theorem reachable_transformAny_eq_iff
    (reachable : Reachable (· = Heap.initial) Step heap)
    (holds : heap.Holds data)
    (output : UtfFormat) :
    resultBytes
        (heap.createWithTransform Data.detectUtf data formatTypeUtfAny
          output.formatType true) =
        resultBytes
          (heap.createWithTransform Data.detectUtf data
            (formatByMark (heap.bytes data)).formatType output.formatType
            true) ↔
      2 ≤ (heap.bytes data).length ∨
        ∃ byte, heap.bytes data = [byte] ∧ 0x80 ≤ byte ∧ output ≠ .utf8 := by
  have wellFormed := reachable_wellFormed reachable
  by_cases long : 2 ≤ (heap.bytes data).length
  · rw [createWithTransform_detected (wellFormed.detectUtf holds long)
      (UtfFormat.type_ne_any _)]
    exact iff_of_true rfl (.inl long)
  · have short := Nat.lt_of_not_le long
    rw [createWithTransform_undetected
      (wellFormed.detectUtf_short holds short), formatByMark_short short,
      or_iff_right long, ← transformUtf8_short wellFormed holds short output]
    exact eq_comm

/-- A text of two letters is UTF-8 without being named so. -/
theorem twoLetters_transformAny :
    ∃ heap : Heap,
      heap.bytes 1 = [0x61, 0x62] ∧
        resultBytes
            (heap.createWithTransform Data.detectUtf 1 formatTypeUtfAny
              (UtfFormat.utf16 .big).formatType true) =
          resultBytes
            (heap.createWithTransform Data.detectUtf 1
              UtfFormat.utf8.formatType (UtfFormat.utf16 .big).formatType
              true) := by
  have created := reached_initial.next
    ⟨.createAlloc [0x61, 0x62], by decide, rfl⟩
  exact ⟨_, rfl, (reachable_transformAny_eq_iff created
    (show 1 < 2 by decide) (.utf16 .big)).mpr (.inl (by decide))⟩

/-- A text of one letter is refused, and in UTF-8 it is not. -/
theorem oneLetter_transformAny_refuses :
    ∃ heap : Heap,
      Reachable (· = Heap.initial) Step heap ∧
        heap.Holds 1 ∧
        formatByMark (heap.bytes 1) = .utf8 ∧
        resultBytes
            (heap.createWithTransform Data.detectUtf 1 formatTypeUtfAny
              UtfFormat.utf8.formatType true) = .ok none ∧
          resultBytes
            (heap.createWithTransform Data.detectUtf 1
              UtfFormat.utf8.formatType UtfFormat.utf8.formatType true) =
            .ok (some [0x61]) := by
  have created := reached_initial.next ⟨.createAlloc [0x61], by decide, rfl⟩
  exact ⟨_, created, show 1 < 2 by decide, by decide, by rfl, by rfl⟩

end LibDispatch.Data
