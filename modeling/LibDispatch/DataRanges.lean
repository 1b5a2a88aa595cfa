import LibDispatch.DataInvariant

namespace LibDispatch.Data

/-!
# Concatenations and subranges

The records of a concatenation are those of both objects.  The records of a
subrange are found by two loops; on the pieces that the records denote they are
`Regions.dropFront` and `Regions.takeFront`.
-/

variable {heap : Heap} {records : List Record}

theorem totalLength_append
    (first second : List Record) :
    totalLength (first ++ second) =
      totalLength first + totalLength second := by
  simp [totalLength]

theorem Heap.pieces_append
    (heap : Heap)
    (first second : List Record) :
    heap.pieces (first ++ second) =
      heap.pieces first ++ heap.pieces second :=
  List.map_append

/-! ## Concatenation -/

section Concat

variable {data : Nat}

section

variable (wellFormed : heap.WellFormed) (holds : heap.Holds data)

include wellFormed holds

theorem Heap.WellFormed.recordsOf
    (positive : (heap.object data).size ≠ 0) :
    ∀ record ∈ heap.recordsOf data, record.WellFormed heap := by
  intro record member
  unfold Heap.recordsOf at member
  split at member
  · rename_i leaf
    rw [Object.leaf_iff] at leaf
    rw [List.mem_singleton.mp member]
    exact
      { holds := holds
        leaf := leaf
        positive := Nat.pos_of_ne_zero positive
        inside := Nat.le_of_eq (Nat.zero_add _) }
  · exact (wellFormed.objects data holds).records record member

/-- The records that an object contributes denote its bytes. -/
theorem Heap.WellFormed.pieces_recordsOf :
    (heap.pieces (heap.recordsOf data)).flatten = heap.bytes data := by
  unfold Heap.recordsOf
  split
  · rename_i leaf
    rw [Object.leaf_iff] at leaf
    have length := (wellFormed.objects data holds).length_leaf leaf
    rw [Heap.bytes_of_leaf leaf]
    simp only [Heap.pieces, List.map_cons, List.map_nil, List.flatten_cons,
      List.flatten_nil, List.append_nil, Heap.slice, List.drop_zero]
    exact List.take_of_length_le (Nat.le_of_eq length)
  · rename_i composite
    rw [Object.leaf_iff] at composite
    rw [Heap.bytes_of_composite composite]

theorem Heap.WellFormed.totalLength_recordsOf :
    totalLength (heap.recordsOf data) = (heap.object data).size := by
  unfold Heap.recordsOf
  split
  · simp [totalLength]
  · rename_i composite
    rw [Object.leaf_iff] at composite
    exact (wellFormed.objects data holds).sizes composite

end

theorem Heap.length_recordsOf
    (heap : Heap)
    (data : Nat) :
    (heap.recordsOf data).length = (heap.object data).numRecords := by
  unfold Heap.recordsOf Object.numRecords
  by_cases leaf : (heap.object data).records = []
  · simp [leaf]
  · simp [leaf]

theorem Heap.recordsOf_ne_nil
    (heap : Heap)
    (data : Nat) :
    heap.recordsOf data ≠ [] := by
  intro none
  have length := heap.length_recordsOf data
  rw [none] at length
  unfold Object.numRecords at length
  split at length
  · cases length
  · exact absurd length.symm ‹_›

/-- A concatenation denotes the bytes of the first object, then those of the
second. -/
theorem Heap.WellFormed.createConcat
    {first second : Nat}
    (wellFormed : heap.WellFormed)
    (holdsFirst : heap.Holds first)
    (holdsSecond : heap.Holds second)
    (fits : heap.ConcatFits first second) :
    ∃ after data,
      heap.createConcat first second = .ok (after, data) ∧
        Returns heap after data
          (heap.bytes first ++ heap.bytes second) := by
  have lengthFirst := wellFormed.length_bytes holdsFirst
  have lengthSecond := wellFormed.length_bytes holdsSecond
  obtain ⟨sizeFits, recordsFit⟩ := fits
  by_cases emptyFirst : (heap.object first).size = 0
  · refine ⟨heap.retain second, second, ?_, ?_⟩
    · rw [Heap.createConcat, if_pos emptyFirst]
    · rw [List.eq_nil_of_length_eq_zero (lengthFirst.trans emptyFirst)]
      exact .ofRetain wellFormed holdsSecond
  · by_cases emptySecond : (heap.object second).size = 0
    · refine ⟨heap.retain first, first, ?_, ?_⟩
      · rw [Heap.createConcat, if_neg emptyFirst, if_pos emptySecond]
      · rw [List.eq_nil_of_length_eq_zero (lengthSecond.trans emptySecond),
          List.append_nil]
        exact .ofRetain wellFormed holdsFirst
    · replace recordsFit := recordsFit emptyFirst emptySecond
      have counted :
          ¬ 2 ^ 64 ≤ (heap.object first).numRecords +
            (heap.object second).numRecords := by
        simp only [recordSize] at recordsFit
        omega
      have valid :
          ∀ record ∈ heap.recordsOf first ++ heap.recordsOf second,
            record.WellFormed heap := by
        intro record member
        rcases List.mem_append.mp member with inFirst | inSecond
        · exact wellFormed.recordsOf holdsFirst emptyFirst record inFirst
        · exact wellFormed.recordsOf holdsSecond emptySecond record inSecond
      have total :
          totalLength (heap.recordsOf first ++ heap.recordsOf second) =
            (heap.object first).size + (heap.object second).size := by
        rw [totalLength_append, wellFormed.totalLength_recordsOf holdsFirst,
          wellFormed.totalLength_recordsOf holdsSecond]
      have allocated :
          (heap.recordsOf first ++ heap.recordsOf second).length *
            recordSize + headerSize < 2 ^ 64 := by
        rw [List.length_append, heap.length_recordsOf, heap.length_recordsOf]
        exact recordsFit
      obtain ⟨after, data, computes, returns⟩ :=
        wellFormed.addComposite valid
          (List.append_ne_nil_of_left_ne_nil (heap.recordsOf_ne_nil first) _)
          total sizeFits allocated
      refine ⟨after, data, ?_, ?_⟩
      · rw [Heap.createConcat, if_neg emptyFirst, if_neg emptySecond,
          if_neg counted, Nat.mod_eq_of_lt sizeFits, computes]
      · rw [Heap.pieces_append, List.flatten_append,
          wellFormed.pieces_recordsOf holdsFirst,
          wellFormed.pieces_recordsOf holdsSecond] at returns
        exact returns

end Concat

/-! ## Subranges -/

section Subrange

/-- A record without its first bytes. -/
theorem Heap.slice_skip
    (heap : Heap)
    (record : Record)
    (offset : Nat) :
    heap.slice
        { record with
          start := record.start + offset
          length := record.length - offset } =
      (heap.slice record).drop offset := by
  simp only [Heap.slice, List.drop_take, List.drop_drop]

variable {record : Record} {length : Nat}

/-- A record cut to a length. -/
theorem Heap.slice_cut
    (heap : Heap)
    (shorter : length ≤ record.length) :
    heap.slice { record with length := length } =
      (heap.slice record).take length := by
  simp only [Heap.slice, List.take_take, Nat.min_eq_left shorter]

theorem Heap.pieces_skipBytes
    (heap : Heap)
    (record : Record)
    (records : List Record)
    (offset : Nat) :
    heap.pieces (skipBytes offset (record :: records)) =
      (heap.slice record).drop offset :: heap.pieces records := by
  rw [skipBytes]
  split
  · rename_i none
    rw [none, List.drop_zero]
    rfl
  · simp only [Heap.pieces, List.map_cons, heap.slice_skip]

variable {offset : Nat}

/-- An offset inside the records is found in one of them. -/
theorem seekRecord_inside
    (inside : offset < totalLength records) :
    ∃ skipped record rest found,
      seekRecord records offset = (record :: rest, found) ∧
        records = skipped ++ record :: rest ∧
        offset = totalLength skipped + found ∧ found < record.length := by
  induction records generalizing offset with
  | nil => cases inside
  | cons record records inductionHypothesis =>
    unfold seekRecord
    split
    · rename_i beyond
      have later : offset - record.length < totalLength records := by
        simp only [totalLength, List.map_cons, List.sum_cons] at inside ⊢
        omega
      obtain ⟨skipped, next, rest, found, finds, split, position, within⟩ :=
        inductionHypothesis later
      refine ⟨record :: skipped, next, rest, found, finds, ?_, ?_, within⟩
      · rw [split, List.cons_append]
      · simp only [totalLength, List.map_cons, List.sum_cons] at position ⊢
        omega
    · rename_i here
      exact ⟨[], record, records, offset, rfl, rfl,
        (Nat.zero_add offset).symm, Nat.lt_of_not_le here⟩

/-- The end of a range is found in one of the records, of which no byte more is
taken than the range has. -/
theorem Heap.WellFormed.pieces_seekEnd
    (wellFormed : heap.WellFormed)
    (valid : ∀ record ∈ records, record.WellFormed heap)
    (positive : 0 < length)
    (inside : length ≤ totalLength records) :
    ∃ count lastLength,
      seekEnd records length = .ok (count, lastLength) ∧
        records.take count ≠ [] ∧
        heap.pieces (cutLast lastLength (records.take count)) =
          Regions.takeFront length (heap.pieces records) ∧
        ∀ record ∈ cutLast lastLength (records.take count),
          record.WellFormed heap := by
  induction records generalizing length with
  | nil =>
    simp only [totalLength, List.map_nil, List.sum_nil] at inside
    omega
  | cons record records inductionHypothesis =>
    have ownValid := valid record List.mem_cons_self
    have own := wellFormed.length_slice ownValid
    obtain ⟨length, rfl⟩ : ∃ less, length = less + 1 :=
      ⟨length - 1, by omega⟩
    unfold seekEnd
    split
    · rename_i here
      refine ⟨1, length + 1, rfl, by simp, ?_, ?_⟩
      · have within : length + 1 ≤ (heap.slice record).length := by omega
        simp only [List.take_succ_cons, List.take_zero, cutLast, Heap.pieces,
          List.map_cons, List.map_nil, heap.slice_cut here,
          Regions.takeFront, if_pos within]
      · intro other member
        simp only [List.take_succ_cons, List.take_zero, cutLast,
          List.mem_singleton] at member
        rw [member]
        have bound := ownValid.inside
        exact
          { ownValid with
            positive := positive
            inside := by
              simp only
              omega }
    · rename_i beyond
      simp only [totalLength, List.map_cons, List.sum_cons] at inside
      obtain ⟨count, lastLength, finds, some, pieces, cutValid⟩ :=
        inductionHypothesis
          (fun other member => valid other (List.mem_cons_of_mem _ member))
          (show 0 < length + 1 - record.length by omega)
          (show _ ≤ totalLength records by
            simp only [totalLength]
            omega)
      have notLast : ¬ records.length = 0 := by
        intro last
        rw [List.eq_nil_of_length_eq_zero last, List.take_nil] at some
        exact some rfl
      obtain ⟨next, rest, taken⟩ := List.exists_cons_of_ne_nil some
      refine ⟨count + 1, lastLength, ?_, by simp, ?_, ?_⟩
      · rw [if_neg notLast, finds]
        rfl
      · rw [List.take_succ_cons, taken, cutLast, ← taken]
        simp only [Heap.pieces, List.map_cons, Regions.takeFront, own,
          if_neg beyond] at pieces ⊢
        rw [pieces]
      · rw [List.take_succ_cons, taken, cutLast, ← taken]
        exact List.forall_mem_cons.mpr ⟨ownValid, cutValid⟩

theorem Record.WellFormed.skip
    (valid : record.WellFormed heap)
    (within : offset < record.length) :
    Record.WellFormed heap
      { record with
        start := record.start + offset
        length := record.length - offset } := by
  have inside := valid.inside
  exact
    { valid with
      positive := by
        simp only
        omega
      inside := by
        simp only
        omega }

theorem skipBytes_wellFormed
    (valid : ∀ other ∈ record :: records, other.WellFormed heap)
    (within : offset < record.length) :
    ∀ other ∈ skipBytes offset (record :: records),
      other.WellFormed heap := by
  intro other member
  rw [skipBytes] at member
  split at member
  · exact valid other member
  · rcases List.mem_cons.mp member with rfl | later
    · exact (valid record List.mem_cons_self).skip within
    · exact valid other (List.mem_cons_of_mem _ later)

theorem length_skipBytes
    (offset : Nat)
    (records : List Record) :
    (skipBytes offset records).length = records.length := by
  unfold skipBytes
  split
  · rfl
  · split <;> rfl

theorem length_cutLast
    (lastLength : Nat)
    (records : List Record) :
    (cutLast lastLength records).length = records.length := by
  induction records with
  | nil => rfl
  | cons record records inductionHypothesis =>
    cases records with
    | nil => rfl
    | cons next records =>
      rw [cutLast, List.length_cons, inductionHypothesis]
      rfl

variable {data : Nat} (wellFormed : heap.WellFormed)

include wellFormed

/-- The records of a range denote that range. -/
theorem Heap.WellFormed.rangeRecords
    (valid : ∀ other ∈ record :: records, other.WellFormed heap)
    (within : offset < record.length)
    (longer : record.length < offset + length)
    (inside : offset + length ≤ totalLength (record :: records)) :
    ∃ range,
      Data.rangeRecords
          (offset + length == totalLength (record :: records)) offset length
          (record :: records) = .ok range ∧
        range ≠ [] ∧ range.length ≤ (record :: records).length ∧
        (∀ other ∈ range, other.WellFormed heap) ∧
        (heap.pieces range).flatten =
          ((heap.pieces (record :: records)).flatten.drop offset).take
            length := by
  have own := wellFormed.length_slice (valid record List.mem_cons_self)
  have rest : ∀ other ∈ records, other.WellFormed heap := fun other member =>
    valid other (List.mem_cons_of_mem _ member)
  have whole := wellFormed.length_pieces valid
  have skipped :
      Regions.dropFront offset (heap.pieces (record :: records)) =
        (heap.slice record).drop offset :: heap.pieces records := by
    simp only [Heap.pieces, List.map_cons, Regions.dropFront, own,
      if_pos within]
  by_cases toTheEnd : offset + length = totalLength (record :: records)
  · refine ⟨skipBytes offset (record :: records), ?_, ?_, ?_,
      skipBytes_wellFormed valid within, ?_⟩
    · simp only [Data.rangeRecords, toTheEnd, beq_self_eq_true, ↓reduceIte]
    · intro none
      have length := length_skipBytes offset (record :: records)
      rw [none] at length
      cases length
    · exact Nat.le_of_eq (length_skipBytes offset (record :: records))
    · rw [heap.pieces_skipBytes, ← skipped, Regions.flatten_dropFront]
      refine (List.take_of_length_le ?_).symm
      rw [List.length_drop, whole]
      omega
  · have positive : 0 < length - (record.length - offset) := by omega
    have reaches :
        length - (record.length - offset) ≤ totalLength records := by
      simp only [totalLength, List.map_cons, List.sum_cons] at inside ⊢
      omega
    obtain ⟨count, lastLength, finds, some, pieces, cutValid⟩ :=
      wellFormed.pieces_seekEnd rest positive reaches
    obtain ⟨next, others, taken⟩ := List.exists_cons_of_ne_nil some
    -- the first record is not the last one, so it is not cut
    obtain ⟨first, starts⟩ :
        ∃ first, ∀ later, skipBytes offset (record :: later) =
          first :: later := by
      by_cases none : offset = 0
      · exact ⟨record, fun later => by rw [skipBytes, if_pos none]⟩
      · exact ⟨_, fun later => by rw [skipBytes, if_neg none]⟩
    have cut :
        cutLast lastLength
            (skipBytes offset (record :: records.take count)) =
          first :: cutLast lastLength (records.take count) := by
      rw [starts, taken, cutLast]
    have firstValid : first.WellFormed heap := by
      refine skipBytes_wellFormed valid within first ?_
      rw [starts]
      exact List.mem_cons_self
    refine ⟨first :: cutLast lastLength (records.take count), ?_, by simp,
      ?_, ?_, ?_⟩
    · have notEnd :
          (offset + length == totalLength (record :: records)) = false :=
        beq_eq_false_iff_ne.mpr toTheEnd
      simp only [Data.rangeRecords, notEnd, Bool.false_eq_true, ↓reduceIte,
        finds]
      rw [← cut]
      rfl
    · have fewer := List.length_take_le' count records
      simp only [List.length_cons, length_cutLast]
      omega
    · exact List.forall_mem_cons.mpr ⟨firstValid, cutValid⟩
    · have begins := heap.pieces_skipBytes record [] offset
      rw [starts] at begins
      obtain ⟨same, -⟩ := List.cons.inj begins
      have shorter : ¬ length ≤ record.length - offset := by omega
      rw [← Regions.flatten_dropFront, skipped, ← Regions.flatten_takeFront]
      congr 1
      obtain ⟨less, rfl⟩ : ∃ less, length = less + 1 := ⟨length - 1, by omega⟩
      simp only [Regions.takeFront, List.length_drop, own, if_neg shorter]
      rw [← pieces, ← same]
      rfl

/-- A range of a leaf. -/
theorem Heap.WellFormed.leafSubrange
    (holds : heap.Holds data)
    (leaf : (heap.object data).records = [])
    (positive : 0 < length)
    (inside : offset + length ≤ (heap.object data).size) :
    ∃ after result,
      heap.addComposite length [⟨data, offset, length⟩] =
          .ok (after, result) ∧
        Returns heap after result
          (((heap.bytes data).drop offset).take length) := by
  have fits := (wellFormed.objects data holds).fits
  have valid : Record.WellFormed heap ⟨data, offset, length⟩ :=
    ⟨holds, leaf, positive, inside⟩
  have denoted :
      (heap.pieces [⟨data, offset, length⟩]).flatten =
        ((heap.bytes data).drop offset).take length := by
    rw [Heap.bytes_of_leaf leaf]
    simp [Heap.pieces, Heap.slice]
  rw [← denoted]
  exact wellFormed.addComposite (by simpa using valid) (by simp)
    (by simp [totalLength]) (by omega) (by simp [recordSize, headerSize])

/-- A range of an object denotes that range of its bytes, whatever the offset and
the length. -/
theorem Heap.WellFormed.createSubrangeFrom
    (depth : Nat)
    (holds : heap.Holds data)
    (deep : (heap.object data).records ≠ [] → 0 < depth)
    (offset requested : Nat) :
    ∃ after result,
      heap.createSubrangeFrom (depth + 1) data offset requested =
          .ok (after, result) ∧
        Returns heap after result
          (((heap.bytes data).drop offset).take requested) := by
  induction depth using Nat.strongRecOn generalizing data offset requested with
  | ind depth inductionHypothesis =>
  have object := wellFormed.objects data holds
  have length := wellFormed.length_bytes holds
  rw [Heap.createSubrangeFrom]
  simp only
  split
  · rename_i nothing
    refine ⟨heap, emptyData, rfl, ?_⟩
    have none : ((heap.bytes data).drop offset).take requested = [] := by
      rcases nothing with beyond | zero
      · rw [List.drop_eq_nil_of_le (by omega), List.take_nil]
      · rw [zero, List.take_zero]
    rw [none]
    exact .ofEmpty wellFormed
  · rename_i something
    split
    · rename_i everything
      refine ⟨heap.retain data, data, rfl, ?_⟩
      have all : ((heap.bytes data).drop offset).take requested =
          heap.bytes data := by
        have fromStart : offset = 0 := by omega
        rw [fromStart, List.drop_zero]
        exact List.take_of_length_le (by omega)
      rw [all]
      exact .ofRetain wellFormed holds
    · have clipped :
          ((heap.bytes data).drop offset).take requested =
            ((heap.bytes data).drop offset).take
              (min requested ((heap.object data).size - offset)) := by
        rw [← length, ← List.length_drop, ← List.take_eq_take_min]
      rw [clipped]
      generalize clip :
        min requested ((heap.object data).size - offset) = clippedLength
      have positive : 0 < clippedLength := by omega
      have inside : offset + clippedLength ≤ (heap.object data).size := by
        omega
      split
      · rename_i leaf
        exact wellFormed.leafSubrange holds ((Object.leaf_iff _).mp leaf)
          positive inside
      · rename_i composite
        rw [Object.leaf_iff] at composite
        have total := object.sizes composite
        have whole := Heap.bytes_of_composite composite
        obtain ⟨skipped, record, rest, found, finds, parts, position,
          within⟩ := seekRecord_inside (show offset < totalLength
            (heap.object data).records by omega)
        have valid : ∀ other ∈ record :: rest, other.WellFormed heap :=
          fun other member => object.records other (by
            rw [parts]
            exact List.mem_append_right _ member)
        have counts : totalLength (heap.object data).records =
            totalLength skipped + totalLength (record :: rest) := by
          rw [parts, totalLength_append]
        have dropped : (heap.bytes data).drop offset =
            (heap.pieces (record :: rest)).flatten.drop found := by
          have before := wellFormed.length_pieces fun other member =>
            object.records other (by
              rw [parts]
              exact List.mem_append_left _ member)
          rw [whole, parts, Heap.pieces_append, List.flatten_append, position,
            ← before, List.drop_length_add_append]
        rw [finds, dropped]
        simp only
        split
        · rename_i single
          have own := valid record List.mem_cons_self
          obtain ⟨less, rfl⟩ : ∃ less, depth = less + 1 :=
            ⟨depth - 1, by have := deep composite; omega⟩
          have recurs := inductionHypothesis less (Nat.lt_succ_self less)
            own.holds (fun inner => absurd own.leaf inner)
            (record.start + found) clippedLength
          have same :
              ((heap.pieces (record :: rest)).flatten.drop found).take
                  clippedLength =
                ((heap.bytes record.dataObject).drop
                  (record.start + found)).take clippedLength := by
            have sliced := wellFormed.length_slice own
            rw [Heap.bytes_of_leaf own.leaf, Heap.pieces, List.map_cons,
              List.flatten_cons, List.drop_append_of_le_length (by omega),
              List.take_append_of_le_length
                (by rw [List.length_drop]; omega),
              Heap.slice, List.drop_take, List.drop_drop, List.take_take,
              Nat.min_eq_left (by omega)]
          rw [same]
          exact recurs
        · rename_i several
          obtain ⟨range, computes, nonempty, fewer, rangeValid, denoted⟩ :=
            wellFormed.rangeRecords valid within
              (show record.length < found + clippedLength by omega)
              (by omega)
          have sameEnd :
              (offset + clippedLength == (heap.object data).size) =
                (found + clippedLength == totalLength (record :: rest)) := by
            rw [← total, counts, position, Nat.add_assoc]
            exact Bool.eq_iff_iff.mpr (by simp)
          have rangeTotal : totalLength range = clippedLength := by
            rw [← wellFormed.length_pieces rangeValid, denoted,
              List.length_take, List.length_drop,
              wellFormed.length_pieces valid]
            omega
          have fits := object.fits
          have allocated := object.allocated
          have count : (heap.object data).records.length =
              skipped.length + (record :: rest).length := by
            rw [parts, List.length_append]
          rw [sameEnd, computes, ← denoted]
          exact wellFormed.addComposite rangeValid nonempty rangeTotal
            (by omega) (by simp only [recordSize] at allocated ⊢; omega)

/-- A subrange denotes that range of the bytes, whatever the offset and the
length. -/
theorem Heap.WellFormed.createSubrange
    (holds : heap.Holds data)
    (offset length : Nat) :
    ∃ after result,
      heap.createSubrange data offset length = .ok (after, result) ∧
        Returns heap after result
          (((heap.bytes data).drop offset).take length) :=
  wellFormed.createSubrangeFrom _ holds
    (fun _ => Nat.lt_of_le_of_lt (Nat.zero_le _) holds) offset length

end Subrange

end LibDispatch.Data
