import LibDispatch.TransformFragments

namespace LibDispatch.Data

/-!
# How decoding depends on fragmentation

The accumulators of a decoder at the ends of the regions decide what it returns
for an object.  An object with valid text is therefore decoded as a contiguous
one exactly if no region but the last ends after padding that removes something.
-/

variable {heap : Heap} {data : Nat}

/-! ## The regions are visited -/

namespace Decoder

variable {decoder : Decoder} {rv : Nat}

/-- One region is decoded. -/
theorem applier_of_fits
    (wellFormed : heap.WellFormed)
    (holds : heap.Holds rv)
    {region : Region}
    (known : decoder.Knows region.buffer)
    (accumulator : Accumulator)
    (fits : decoder.Fits (decoder.next accumulator region.buffer))
    (sizes :
      (heap.bytes rv).length +
        (decoder.next accumulator region.buffer).dest.length < 2 ^ 64)
    (allocated :
      (heap.parts rv + 1) * recordSize + headerSize < 2 ^ 64) :
    ∃ following concat,
      decoder.applier true
          ⟨heap, accumulator.x, accumulator.count, accumulator.pad, rv⟩
          region =
        .ok
          (⟨following, (decoder.next accumulator region.buffer).x,
            (decoder.next accumulator region.buffer).count,
            (decoder.next accumulator region.buffer).pad, concat⟩, true) ∧
      Returns heap following concat
        (heap.bytes rv ++
          decoder.kept (decoder.next accumulator region.buffer)) ∧
      following.parts concat ≤ heap.parts rv + 1 := by
  have loops := loop_eq_foldl known
    ⟨accumulator.x, accumulator.count, accumulator.pad, []⟩
  change _ = some (decoder.next accumulator region.buffer) at loops
  generalize decoder.next accumulator region.buffer = after at *
  have inside : ¬ after.dest.length < decoder.removed after.pad :=
    Nat.not_lt.mpr fits
  have lengths := length_kept fits
  obtain ⟨created, val, creates, returns, small⟩ := wellFormed.createOther
    (show (decoder.kept after).length < 2 ^ 64 by omega)
  have sameBytes := returns.extension.bytes wellFormed holds
  have sameParts := returns.extension.parts holds
  obtain ⟨following, concat, computes, concats, parts⟩ :=
    returns.wellFormed.concatParts (returns.extension.holds rv holds)
      returns.holds
      (by rw [sameBytes, returns.denotes]; omega)
      (by
        rw [sameParts]
        simp only [recordSize] at allocated ⊢
        omega)
  refine ⟨following, concat, ?_, ?_, by omega⟩
  · rw [kept] at creates
    simp only [applier, loops, if_pos, if_neg inside, creates, computes, bind,
      Except.bind]
    rfl
  · rw [sameBytes, returns.denotes] at concats
    exact
      { concats with
        extension := returns.extension.trans concats.extension }

variable {accumulator : Accumulator}

/-- The regions are decoded if the length of what each adds does not
underflow. -/
theorem visit_of_fits
    {regions : List Region}
    (known : ∀ region ∈ regions, decoder.Knows region.buffer)
    (fits :
      ∀ after ∈ decoder.scan (regions.map Region.buffer) accumulator,
        decoder.Fits after)
    (wellFormed : heap.WellFormed)
    (holds : heap.Holds rv)
    (sizes :
      (heap.bytes rv).length +
        ((decoder.scan (regions.map Region.buffer) accumulator).map
          Accumulator.dest).flatten.length < 2 ^ 64)
    (allocated :
      (heap.parts rv + regions.length) * recordSize + headerSize < 2 ^ 64) :
    ∃ decoding,
      visit (decoder.applier true) regions
          ⟨heap, accumulator.x, accumulator.count, accumulator.pad, rv⟩ =
        .ok (decoding, true) ∧
      decoding.heap.bytes decoding.rv =
        heap.bytes rv ++
          ((decoder.scan (regions.map Region.buffer) accumulator).map
            decoder.kept).flatten := by
  induction regions generalizing accumulator heap rv with
  | nil => exact ⟨_, rfl, by simp [scan]⟩
  | cons region regions inductionHypothesis =>
    simp only [List.map_cons, scan, List.mem_cons, forall_eq_or_imp,
      List.flatten_cons, List.length_append, List.length_cons]
      at known fits sizes allocated ⊢
    have ownKept := length_kept fits.1
    obtain ⟨following, concat, computes, returns, parts⟩ :=
      applier_of_fits wellFormed holds known.1 accumulator fits.1
        (by omega)
        (by
          simp only [recordSize] at allocated ⊢
          omega)
    have lengths := congrArg List.length returns.denotes
    rw [List.length_append] at lengths
    obtain ⟨decoding, visits, denotes⟩ := inductionHypothesis known.2 fits.2
      returns.wellFormed returns.holds (by omega)
      (by
        simp only [recordSize] at allocated ⊢
        omega)
    refine ⟨decoding, ?_, ?_⟩
    · rw [visit, computes]
      exact visits
    · rw [denotes, returns.denotes, List.append_assoc]

/-- If the regions are decoded, the length of what each adds does not
underflow. -/
theorem fits_of_visit
    {regions : List Region}
    (known : ∀ region ∈ regions, decoder.Knows region.buffer)
    {decoding : Decoding}
    (visits :
      visit (decoder.applier true) regions
          ⟨heap, accumulator.x, accumulator.count, accumulator.pad, rv⟩ =
        .ok (decoding, true)) :
    ∀ after ∈ decoder.scan (regions.map Region.buffer) accumulator,
      decoder.Fits after := by
  induction regions generalizing accumulator heap rv with
  | nil => simp [scan]
  | cons region regions inductionHypothesis =>
    simp only [List.mem_cons, forall_eq_or_imp] at known
    have loops := loop_eq_foldl known.1
      ⟨accumulator.x, accumulator.count, accumulator.pad, []⟩
    change _ = some (decoder.next accumulator region.buffer) at loops
    simp only [visit, applier, if_pos, loops, List.map_cons, scan,
      List.mem_cons, forall_eq_or_imp] at visits ⊢
    generalize decoder.next accumulator region.buffer = after at *
    split_ifs at visits with overrun
    · cases visits
    · refine ⟨Nat.not_lt.mp overrun, ?_⟩
      cases creates : heap.create
          (some (after.dest.take
            (after.dest.length - decoder.removed after.pad)))
          .other true with
      | error failure => simp [creates, bind, Except.bind] at visits
      | ok created =>
        obtain ⟨created, val⟩ := created
        cases concats : created.createConcat rv val with
        | error failure =>
          simp [creates, concats, bind, Except.bind] at visits
        | ok concat =>
          simp only [creates, concats, bind, Except.bind] at visits
          exact inductionHypothesis known.2 visits

/-- Every group writes its bytes. -/
theorem length_dest_foldl
    (written :
      accumulator.dest.length =
        decoder.shifts.length * (accumulator.count / decoder.group))
    (values : List Int) :
    (values.foldl decoder.push accumulator).dest.length =
      decoder.shifts.length *
        ((values.foldl decoder.push accumulator).count / decoder.group) := by
  induction values generalizing accumulator with
  | nil => exact written
  | cons value values inductionHypothesis =>
    refine inductionHypothesis ?_
    rw [push_count, Nat.succ_div, push]
    by_cases ends : (accumulator.count + 1) % decoder.group = 0
    · simp only [if_pos ends, if_pos (Nat.dvd_of_mod_eq_zero ends),
        List.length_append, List.length_map, written]
      rw [Nat.mul_add, Nat.mul_one]
    · have inside : ¬ decoder.group ∣ accumulator.count + 1 :=
        fun divides => ends (Nat.mod_eq_zero_of_dvd divides)
      simp only [if_neg ends, if_neg inside, written, Nat.add_zero]

/-- The buffers together are no longer than the text. -/
theorem length_dest_le
    (narrow : decoder.shifts.length ≤ decoder.group)
    (bytes : List UInt8) :
    (decoder.next start bytes).dest.length ≤ bytes.length := by
  have written := @length_dest_foldl decoder start (by simp [start])
    (decoder.entries bytes)
  have counted := @count_next decoder start bytes
  have symbols : (decoder.entries bytes).length ≤ bytes.length :=
    (List.length_filterMap_le _ _).trans (List.length_filter_le _ _)
  change (decoder.next start bytes).dest.length = _ at written
  rw [written]
  calc
    decoder.shifts.length * ((decoder.next start bytes).count / decoder.group)
        ≤ decoder.group *
          ((decoder.next start bytes).count / decoder.group) :=
      Nat.mul_le_mul_right _ narrow
    _ ≤ (decoder.next start bytes).count := Nat.mul_div_le _ _
    _ = (decoder.entries bytes).length := by
      rw [counted]
      exact Nat.zero_add _
    _ ≤ bytes.length := symbols

end Decoder

/-! ## Objects -/

theorem Heap.length_recordRegions
    (heap : Heap)
    (records : List Record)
    (offset : Nat) :
    (heap.recordRegions records offset).length = records.length := by
  induction records generalizing offset with
  | nil => rfl
  | cons record records inductionHypothesis =>
    rw [Heap.recordRegions, List.length_cons, inductionHypothesis,
      List.length_cons]

section

variable (wellFormed : heap.WellFormed) (holds : heap.Holds data)

include wellFormed holds

/-- A record for each region is no more than what was allocated. -/
theorem Heap.WellFormed.regions_allocated :
    (heap.regions data).length * recordSize + headerSize < 2 ^ 64 := by
  have allocated := (wellFormed.objects data holds).allocated
  rw [Heap.regions]
  split
  · decide
  · split
    · simp [recordSize, headerSize]
    · rw [heap.length_recordRegions]
      exact allocated

/-- What is decoded from an object, and when. -/
theorem Decoder.Reads.decode_eq_ok_iff
    {decoder : Decoder}
    {code : BaseCode}
    (reads : decoder.Reads code)
    (narrow : code.groupBytes ≤ code.groupSymbols)
    (valid : ValidText code (heap.bytes data))
    (bytes : List UInt8) :
    (∃ following result,
      decoder.decode heap data true = .ok (following, some result) ∧
        following.bytes result = bytes) ↔
      (∀ after ∈ decoder.scan ((heap.regions data).map Region.buffer) start,
        decoder.Fits after) ∧
        ((decoder.scan ((heap.regions data).map Region.buffer) start).map
          decoder.kept).flatten = bytes := by
  obtain ⟨-, regions, -⟩ := wellFormed.regions_spec holds
  have known : ∀ region ∈ heap.regions data, decoder.Knows region.buffer := by
    intro region member byte inRegion
    refine reads.knows valid.spelled byte ?_
    rw [← regions]
    exact List.mem_flatten.mpr
      ⟨region.buffer, List.mem_map_of_mem member, inRegion⟩
  have narrowGroups : decoder.shifts.length ≤ decoder.group := by
    rw [reads.length_shifts, reads.group]
    exact narrow
  have room : (heap.bytes emptyData).length +
      ((decoder.scan ((heap.regions data).map Region.buffer) start).map
        Accumulator.dest).flatten.length < 2 ^ 64 := by
    rw [wellFormed.bytes_empty, List.length_nil, Nat.zero_add,
      ← dest_next_flatten]
    refine (length_dest_le narrowGroups _).trans_lt ?_
    change (regionBytes (heap.regions data)).length < _
    rw [regions, wellFormed.length_bytes holds]
    exact (wellFormed.objects data holds).fits
  have allocated : (heap.parts emptyData + (heap.regions data).length) *
      recordSize + headerSize < 2 ^ 64 := by
    have none : heap.parts emptyData = 0 := by
      rw [Heap.parts, wellFormed.empty.2]
      rfl
    rw [none, Nat.zero_add]
    exact wellFormed.regions_allocated holds
  have decodes : (∀ after ∈ decoder.scan
        ((heap.regions data).map Region.buffer) start, decoder.Fits after) →
      ∃ following result,
        decoder.decode heap data true = .ok (following, some result) ∧
          following.bytes result =
            ((decoder.scan ((heap.regions data).map Region.buffer) start).map
              decoder.kept).flatten := by
    intro fits
    obtain ⟨decoding, visits, denotes⟩ :=
      visit_of_fits known fits wellFormed wellFormed.empty.1 room allocated
    refine ⟨decoding.heap, decoding.rv, ?_, ?_⟩
    · rw [Decoder.decode, wellFormed.apply holds]
      change visit (decoder.applier true) (heap.regions data)
        ⟨heap, 0, 0, 0, emptyData⟩ = _ at visits
      rw [visits]
      rfl
    · rw [denotes, wellFormed.bytes_empty, List.nil_append]
  constructor
  · rintro ⟨following, result, computes, denotes⟩
    have computed := computes
    rw [Decoder.decode, wellFormed.apply holds] at computed
    cases visits : visit (decoder.applier true) (heap.regions data)
        ⟨heap, 0, 0, 0, emptyData⟩ with
    | error failure =>
      rw [visits] at computed
      cases computed
    | ok visited =>
      obtain ⟨decoding, success⟩ := visited
      rw [visits] at computed
      cases success with
      | false => cases computed
      | true =>
        have fits : ∀ after ∈ decoder.scan
            ((heap.regions data).map Region.buffer) start,
            decoder.Fits after :=
          fits_of_visit known visits
        obtain ⟨other, otherResult, otherComputes, otherDenotes⟩ :=
          decodes fits
        rw [computes] at otherComputes
        cases otherComputes
        exact ⟨fits, otherDenotes.symm.trans denotes⟩
  · rintro ⟨fits, denotes⟩
    rw [← denotes]
    exact decodes fits

/-! ## Fragmented and contiguous objects -/

/-- Two objects are decoded, and to the same bytes. -/
def DecodesAlike
    (decode : Transform)
    (heap : Heap)
    (data whole : Nat) : Prop :=
  ∃ after result contiguous expected,
    decode heap data true = .ok (after, some result) ∧
      decode heap whole true = .ok (contiguous, some expected) ∧
      after.bytes result = contiguous.bytes expected

/-- The bytes of a leaf are read at once. -/
theorem Heap.WellFormed.flatten_regions_of_leaf
    (leaf : (heap.object data).records = []) :
    (heap.regions data).map Region.buffer = [heap.bytes data] ∨
      ((heap.regions data).map Region.buffer = [] ∧ heap.bytes data = []) := by
  by_cases empty : (heap.object data).size = 0
  · refine .inr ⟨by rw [Heap.regions, if_pos empty]; rfl, ?_⟩
    exact List.eq_nil_of_length_eq_zero
      ((wellFormed.length_bytes holds).trans empty)
  · exact .inl (by rw [wellFormed.regions_of_leaf holds leaf empty]; rfl)

theorem Decoder.Reads.decodesAlike_iff
    {decoder : Decoder}
    {code : BaseCode}
    (reads : decoder.Reads code)
    (narrow : code.groupBytes ≤ code.groupSymbols)
    {whole : Nat}
    (holdsWhole : heap.Holds whole)
    (leaf : (heap.object whole).records = [])
    (same : heap.bytes whole = heap.bytes data)
    (valid : ValidText code (heap.bytes data)) :
    DecodesAlike decoder.decode heap data whole ↔
      ∀ index, index < (heap.regions data).length →
        decoder.removed
          ((regionBytes ((heap.regions data).take index)).count
            code.padding) = 0 := by
  obtain ⟨-, regions, -⟩ := wellFormed.regions_spec holds
  have flat : ((heap.regions data).map Region.buffer).flatten =
      heap.bytes data := regions
  have contiguous (bytes : List UInt8) :
      (∃ after result,
        decoder.decode heap whole true = .ok (after, some result) ∧
          after.bytes result = bytes) ↔
        decoder.kept (decoder.next start (heap.bytes data)) = bytes := by
    rw [reads.decode_eq_ok_iff wellFormed holdsWhole narrow (same ▸ valid)]
    have alike : decoder.Alike ((heap.regions whole).map Region.buffer) := by
      have whole := wellFormed.flatten_regions_of_leaf holdsWhole leaf
      refine (reads.alike_iff _ ?_).mpr ?_
      · rcases whole with one | ⟨none, empty⟩
        · rw [one, List.flatten_singleton, same]
          exact valid
        · rw [none, List.flatten_nil, ← empty, same]
          exact valid
      · intro index below
        have first : index = 0 := by
          rcases whole with one | ⟨none, -⟩
          · rw [one] at below
            exact Nat.lt_one_iff.mp below
          · rw [none] at below
            exact absurd below (Nat.not_lt_zero index)
        rw [first]
        exact reads.removed_zero
    obtain ⟨-, wholeRegions, -⟩ := wellFormed.regions_spec holdsWhole
    have wholeFlat : ((heap.regions whole).map Region.buffer).flatten =
        heap.bytes data := wholeRegions.trans same
    rw [alike.2, wholeFlat]
    exact and_iff_right alike.1
  have decided := reads.alike_iff ((heap.regions data).map Region.buffer)
    (by rw [flat]; exact valid)
  simp only [List.length_map, ← List.map_take] at decided
  refine Iff.trans ?_ decided
  rw [Decoder.Alike, flat]
  have fragmented := reads.decode_eq_ok_iff wellFormed holds narrow valid
  constructor
  · rintro ⟨after, result, text, expected, decodes, decodesWhole, equal⟩
    have own := (fragmented _).mp ⟨after, result, decodes, equal⟩
    have other := (contiguous _).mp ⟨text, expected, decodesWhole, rfl⟩
    exact ⟨own.1, own.2.trans other.symm⟩
  · intro alike
    obtain ⟨after, result, decodes, denotes⟩ := (fragmented _).mpr alike
    obtain ⟨text, expected, decodesWhole, denotesWhole⟩ :=
      (contiguous _).mpr rfl
    exact ⟨after, result, text, expected, decodes, decodesWhole,
      denotes.trans denotesWhole.symm⟩

end

/--
Valid base 64 is decoded as if it was contiguous exactly if no region but the
last has a padding symbol.  Valid base 32 is decoded so exactly if no number of
first regions, but not all of them, has one, three, four or six padding symbols.
-/
theorem reachable_decodesAlike_iff
    (reached : Reachable (· = Heap.initial) Step heap)
    (holds : heap.Holds data)
    {whole : Nat}
    (holdsWhole : heap.Holds whole)
    (leaf : (heap.object whole).records = [])
    (same : heap.bytes whole = heap.bytes data) :
    (ValidText base64 (heap.bytes data) →
      (DecodesAlike fromBase64 heap data whole ↔
        ∀ index, index < (heap.regions data).length →
          (regionBytes ((heap.regions data).take index)).count
            equalsSign = 0)) ∧
    (ValidText base32 (heap.bytes data) →
      (DecodesAlike fromBase32 heap data whole ↔
        ∀ index, index < (heap.regions data).length →
          (regionBytes ((heap.regions data).take index)).count
            equalsSign ∉ [1, 3, 4, 6])) := by
  have wellFormed := reachable_wellFormed reached
  constructor
  · intro valid
    exact base64Decoder_reads.decodesAlike_iff wellFormed holds (by decide)
      holdsWhole leaf same valid
  · intro valid
    have removes (pads : Nat) : removed32 pads = 0 ↔ pads ∉ [1, 3, 4, 6] := by
      unfold removed32
      split <;> simp_all
    refine (base32Decoder_reads.decodesAlike_iff wellFormed holds (by decide)
      holdsWhole leaf same valid).trans ?_
    refine forall_congr' fun index => forall_congr' fun _ => ?_
    exact removes _

/-- The base 64 text for `ABCA`, cut between its padding symbols (3), in one
piece (4) and cut between its groups (7), and the base 32 text for `A`, cut after
two padding symbols (10) and in one piece (11). -/
def cutTexts : List Object :=
  [emptyObject,
    ⟨some [81, 85, 74, 68, 81, 81, 61], 7, []⟩,
    ⟨some [61], 1, []⟩,
    ⟨none, 8, [⟨1, 0, 7⟩, ⟨2, 0, 1⟩]⟩,
    ⟨some [81, 85, 74, 68, 81, 81, 61, 61], 8, []⟩,
    ⟨some [81, 85, 74, 68], 4, []⟩,
    ⟨some [81, 81, 61, 61], 4, []⟩,
    ⟨none, 8, [⟨5, 0, 4⟩, ⟨6, 0, 4⟩]⟩,
    ⟨some [73, 69, 61, 61], 4, []⟩,
    ⟨some [61, 61, 61, 61], 4, []⟩,
    ⟨none, 8, [⟨8, 0, 4⟩, ⟨9, 0, 4⟩]⟩,
    ⟨some [73, 69, 61, 61, 61, 61, 61, 61], 8, []⟩]

theorem cutTexts_reached :
    ∃ references,
      Reachable (· = Heap.initial) Step ⟨cutTexts, references⟩ := by
  have cut := reached_initial.next
    ⟨.createAlloc [81, 85, 74, 68, 81, 81, 61], by decide, rfl⟩
  have sign := cut.next ⟨.createAlloc [61], by decide, rfl⟩
  have badly := sign.next ⟨.createConcat 1 2, by decide, rfl⟩
  have text := badly.next
    ⟨.createAlloc [81, 85, 74, 68, 81, 81, 61, 61], by decide, rfl⟩
  have group := text.next ⟨.createAlloc [81, 85, 74, 68], by decide, rfl⟩
  have last := group.next ⟨.createAlloc [81, 81, 61, 61], by decide, rfl⟩
  have well := last.next ⟨.createConcat 5 6, by decide, rfl⟩
  have symbols := well.next ⟨.createAlloc [73, 69, 61, 61], by decide, rfl⟩
  have signs := symbols.next ⟨.createAlloc [61, 61, 61, 61], by decide, rfl⟩
  have between := signs.next ⟨.createConcat 8 9, by decide, rfl⟩
  have single := between.next
    ⟨.createAlloc [73, 69, 61, 61, 61, 61, 61, 61], by decide, rfl⟩
  exact ⟨_, single⟩

theorem validText_ABCA :
    ValidText base64 [81, 85, 74, 68, 81, 81, 61, 61] := by
  have encodes : base64.encode ([65, 66, 67] ++ [65]) =
      [81, 85, 74, 68, 81, 81, 61, 61] := by
    rw [base64.encode_append rfl, base64.encode_short (by decide) (by decide)]
    decide
  refine validText_encode (Eq.trans ?_ encodes.symm)
  decide

theorem validText_A :
    ValidText base32 [73, 69, 61, 61, 61, 61, 61, 61] := by
  have encodes : base32.encode [65] = [73, 69, 61, 61, 61, 61, 61, 61] := by
    rw [base32.encode_short (by decide) (by decide)]
    decide
  refine validText_encode (Eq.trans ?_ encodes.symm)
  decide

/-- Text that is cut between its padding symbols loses a byte. -/
theorem cutPadding_decodes_differently :
    ∃ heap after result contiguous expected,
      Reachable (· = Heap.initial) Step heap ∧
        heap.bytes 3 = [81, 85, 74, 68, 81, 81, 61, 61] ∧
        ValidText base64 (heap.bytes 3) ∧
        (heap.object 4).records = [] ∧ heap.bytes 4 = heap.bytes 3 ∧
        fromBase64 heap 3 true = .ok (after, some result) ∧
        after.bytes result = [65, 66, 65] ∧
        fromBase64 heap 4 true = .ok (contiguous, some expected) ∧
        contiguous.bytes expected = [65, 66, 67, 65] := by
  obtain ⟨references, reached⟩ := cutTexts_reached
  have wellFormed := reachable_wellFormed reached
  have cut := base64Decoder_reads.decode_eq_ok_iff wellFormed
    (show 3 < cutTexts.length by decide) (by decide) validText_ABCA [65, 66, 65]
  have whole := base64Decoder_reads.decode_eq_ok_iff wellFormed
    (show 4 < cutTexts.length by decide) (by decide) validText_ABCA [65, 66, 67, 65]
  have pieces : (Heap.regions ⟨cutTexts, references⟩ 3).map Region.buffer =
      [[81, 85, 74, 68, 81, 81, 61], [61]] := rfl
  have piece : (Heap.regions ⟨cutTexts, references⟩ 4).map Region.buffer =
      [[81, 85, 74, 68, 81, 81, 61, 61]] := rfl
  rw [pieces] at cut
  rw [piece] at whole
  obtain ⟨after, result, decodes, denotes⟩ := cut.mpr (by decide +kernel)
  obtain ⟨contiguous, expected, decodesWhole, denotesWhole⟩ :=
    whole.mpr (by decide +kernel)
  exact ⟨_, after, result, contiguous, expected, reached, rfl,
    validText_ABCA, rfl, rfl, decodes, denotes, decodesWhole, denotesWhole⟩

/-- Text that is cut elsewhere is decoded as if it was in one piece. -/
theorem cutTexts_decodesAlike :
    ∃ heap : Heap,
      (heap.regions 7).length = 2 ∧ DecodesAlike fromBase64 heap 7 4 ∧
        (heap.regions 10).length = 2 ∧
        DecodesAlike fromBase32 heap 10 11 := by
  obtain ⟨references, reached⟩ := cutTexts_reached
  have groups := reachable_decodesAlike_iff reached
    (show 7 < cutTexts.length by decide) (show 4 < cutTexts.length by decide)
    rfl rfl
  have padding := reachable_decodesAlike_iff reached
    (show 10 < cutTexts.length by decide)
    (show 11 < cutTexts.length by decide) rfl rfl
  refine ⟨_, rfl, (groups.1 validText_ABCA).mpr ?_, rfl,
    (padding.2 validText_A).mpr ?_⟩
  · have pieces : Heap.regions ⟨cutTexts, references⟩ 7 =
        [⟨5, 0, [81, 85, 74, 68], 4⟩, ⟨6, 4, [81, 81, 61, 61], 4⟩] := rfl
    rw [pieces]
    decide
  · have pieces : Heap.regions ⟨cutTexts, references⟩ 10 =
        [⟨8, 0, [73, 69, 61, 61], 4⟩, ⟨9, 4, [61, 61, 61, 61], 4⟩] := rfl
    rw [pieces]
    decide

end LibDispatch.Data
