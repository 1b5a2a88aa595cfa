import LibDispatch.TransformDependence
import Mathlib.Data.FinEnum

namespace LibDispatch.Data

/-!
# Decoding malformed text

A decoder counts the padding symbols wherever they are and writes bytes only at
the end of a group.  The length of what it returns is the difference, which
underflows for text that ends inside of a group after too much padding.
-/

variable {heap : Heap} {data : Nat}

/-- The symbols of a text. -/
def symbols (text : List UInt8) : List UInt8 :=
  text.filter fun byte => !whitespace byte

namespace Decoder

variable {decoder : Decoder}

/-- An object is refused, or decoded to some of the bytes that were written for
it. -/
def StaysInside
    (decoder : Decoder)
    (heap : Heap)
    (data : Nat) : Prop :=
  ∃ after result,
    decoder.decode heap data true = .ok (after, result) ∧
      ∀ object, result = some object →
        ∃ final ≤ (decoder.next start (heap.bytes data)).dest.length,
          after.bytes object =
            (decoder.next start (heap.bytes data)).dest.take final

variable {bytes : List UInt8}

/-- A byte that is no symbol ends the loop. -/
theorem loop_of_unknown
    (unknown : ¬ decoder.Knows bytes)
    (accumulator : Accumulator) :
    decoder.loop bytes accumulator = none := by
  induction bytes generalizing accumulator with
  | nil => exact absurd (fun byte member => by cases member) unknown
  | cons byte bytes inductionHypothesis =>
    rw [loop]
    cases isSpace : whitespace byte with
    | true =>
      rw [if_pos rfl]
      exact inductionHypothesis (fun known => unknown
        (List.forall_mem_cons.mpr ⟨.inl isSpace, known⟩)) accumulator
    | false =>
      rw [if_neg (by simp)]
      cases value : decoder.value byte with
      | none => rfl
      | some entry =>
        exact inductionHypothesis (fun known => unknown
          (List.forall_mem_cons.mpr ⟨.inr (by rw [value]; rfl), known⟩)) _

/-- Every symbol has an entry. -/
theorem length_entries
    (known : decoder.Knows bytes) :
    (decoder.entries bytes).length = (symbols bytes).length := by
  induction bytes with
  | nil => rfl
  | cons byte bytes inductionHypothesis =>
    have others := inductionHypothesis fun other member =>
      known other (List.mem_cons_of_mem _ member)
    rw [entries, symbols] at others ⊢
    cases isSpace : whitespace byte with
    | true => simpa [isSpace] using others
    | false =>
      rcases known byte List.mem_cons_self with space | isSymbol
      · rw [isSpace] at space
        cases space
      · obtain ⟨value, symbol⟩ := Option.isSome_iff_exists.mp isSymbol
        simpa [isSpace, symbol] using others

/-- The bytes written for a text are those of its whole groups. -/
theorem length_dest_start
    (known : decoder.Knows bytes) :
    (decoder.next start bytes).dest.length =
      decoder.shifts.length * ((symbols bytes).length / decoder.group) := by
  have written := @length_dest_foldl decoder start (by simp [start])
    (decoder.entries bytes)
  have counted := @count_next decoder start bytes
  change (decoder.next start bytes).dest.length = _ at written
  rw [written]
  change _ * ((decoder.next start bytes).count / _) = _
  rw [counted, length_entries known]
  change _ * ((0 + _) / _) = _
  rw [Nat.zero_add]

section OneRegion

variable
  (wellFormed : heap.WellFormed)
  (holds : heap.Holds data)
  (one : (heap.regions data).length = 1)

include wellFormed holds one

/-- The only region of an object is visited. -/
theorem apply_of_one :
    ∃ region,
      region.buffer = heap.bytes data ∧
        heap.apply (decoder.applier true) data ⟨heap, 0, 0, 0, emptyData⟩ =
          visit (decoder.applier true) [region]
            ⟨heap, 0, 0, 0, emptyData⟩ := by
  obtain ⟨region, regions, -, buffer, -⟩ := wellFormed.region_of_one holds one
  refine ⟨region, buffer, ?_⟩
  rw [wellFormed.apply holds, regions]

/-- The length underflows if the padding removes more than was written. -/
theorem decode_of_short
    (known : decoder.Knows (heap.bytes data))
    (short : ¬ decoder.Fits (decoder.next start (heap.bytes data))) :
    decoder.decode heap data true = .error .overrun := by
  obtain ⟨region, buffer, applies⟩ :=
    @apply_of_one heap data decoder wellFormed holds one
  have loops : decoder.loop region.buffer ⟨0, 0, 0, []⟩ =
      some (decoder.next start (heap.bytes data)) := by
    rw [buffer]
    exact loop_eq_foldl known start
  have less : (decoder.next start (heap.bytes data)).dest.length <
      decoder.removed (decoder.next start (heap.bytes data)).pad :=
    Nat.lt_of_not_le short
  have fails : decoder.applier true ⟨heap, 0, 0, 0, emptyData⟩ region =
      .error .overrun := by
    simp only [applier, if_pos, loops, if_pos less]
  rw [decode, applies, visit, fails]
  rfl

theorem decode_of_unknown
    (unknown : ¬ decoder.Knows (heap.bytes data)) :
    decoder.decode heap data true = .ok (heap, none) := by
  obtain ⟨region, buffer, applies⟩ :=
    @apply_of_one heap data decoder wellFormed holds one
  have loops : decoder.loop region.buffer ⟨0, 0, 0, []⟩ = none :=
    loop_of_unknown (buffer ▸ unknown) start
  have refuses : decoder.applier true ⟨heap, 0, 0, 0, emptyData⟩ region =
      .ok (⟨heap, 0, 0, 0, emptyData⟩, false) := by
    simp only [applier, if_pos, loops]
  rw [decode, applies, visit, refuses]
  rfl

theorem decode_of_fits
    (narrow : decoder.shifts.length ≤ decoder.group)
    (known : decoder.Knows (heap.bytes data))
    (fits : decoder.Fits (decoder.next start (heap.bytes data))) :
    ∃ after result,
      decoder.decode heap data true = .ok (after, some result) ∧
        after.bytes result =
          decoder.kept (decoder.next start (heap.bytes data)) := by
  obtain ⟨region, buffer, applies⟩ :=
    @apply_of_one heap data decoder wellFormed holds one
  have room : (heap.bytes emptyData).length +
      (decoder.next start region.buffer).dest.length < 2 ^ 64 := by
    have short := @length_dest_le decoder narrow (heap.bytes data)
    have small := (wellFormed.objects data holds).fits
    have length := wellFormed.length_bytes holds
    rw [wellFormed.bytes_empty, List.length_nil, buffer]
    omega
  have allocated : (heap.parts emptyData + 1) * recordSize + headerSize <
      2 ^ 64 := by
    rw [Heap.parts, wellFormed.empty.2]
    decide
  obtain ⟨after, concat, computes, returns, -⟩ :=
    applier_of_fits wellFormed wellFormed.empty.1 (buffer ▸ known) start
      (buffer ▸ fits) room allocated
  change decoder.applier true ⟨heap, 0, 0, 0, emptyData⟩ region = _
    at computes
  refine ⟨after, concat, ?_, ?_⟩
  · rw [decode, applies, visit, computes]
    rfl
  · rw [returns.denotes, wellFormed.bytes_empty, List.nil_append, buffer]

/-- An object in one region stays inside exactly if it is refused or what its
padding removes was written. -/
theorem staysInside_iff
    (narrow : decoder.shifts.length ≤ decoder.group) :
    decoder.StaysInside heap data ↔
      (decoder.Knows (heap.bytes data) →
        decoder.Fits (decoder.next start (heap.bytes data))) := by
  constructor
  · rintro ⟨after, result, computes, -⟩ known
    by_contra short
    rw [decode_of_short wellFormed holds one known short] at computes
    cases computes
  · intro fits
    by_cases known : decoder.Knows (heap.bytes data)
    · obtain ⟨after, result, computes, denotes⟩ :=
        decode_of_fits wellFormed holds one narrow known (fits known)
      refine ⟨after, some result, computes, ?_⟩
      intro object same
      cases same
      exact ⟨_, Nat.sub_le _ _, denotes⟩
    · exact ⟨heap, none, decode_of_unknown wellFormed holds one known,
        fun object same => by cases same⟩

end OneRegion

/-- The padding symbols are those that the decoder counts. -/
theorem count_entries_equalsSign
    (padding :
      ∀ byte, decoder.value byte = some (-2) ↔ byte = equalsSign)
    (bytes : List UInt8) :
    (decoder.entries bytes).count (-2) = bytes.count equalsSign := by
  induction bytes with
  | nil => rfl
  | cons byte bytes inductionHypothesis =>
    have split : decoder.entries (byte :: bytes) =
        decoder.entries [byte] ++ decoder.entries bytes :=
      entries_append [byte] bytes
    have own : byte :: bytes = [byte] ++ bytes := rfl
    rw [split, List.count_append, inductionHypothesis, own,
      List.count_append]
    congr 1
    by_cases sign : byte = equalsSign
    · have value := (padding byte).mpr sign
      have noSpace : whitespace equalsSign = false := rfl
      rw [sign] at value ⊢
      simp [entries, noSpace, value]
    · have value := mt (padding byte).mp sign
      cases isSpace : whitespace byte with
      | true => simp [entries, isSpace, sign]
      | false =>
        cases found : decoder.value byte with
        | none => simp [entries, isSpace, found, sign]
        | some entry =>
          rw [found, Option.some.injEq] at value
          simp [entries, isSpace, found, sign, value]

/-- What the padding of a text removes was written, as a condition on the
text. -/
theorem fits_iff
    (padding :
      ∀ byte, decoder.value byte = some (-2) ↔ byte = equalsSign)
    {text : List UInt8}
    (known : decoder.Knows text) :
    decoder.Fits (decoder.next start text) ↔
      decoder.removed (text.count equalsSign) ≤
        decoder.shifts.length * ((symbols text).length / decoder.group) := by
  rw [Fits, length_dest_start known, pad_next,
    count_entries_equalsSign padding]
  change decoder.removed (0 + _) ≤ _ ↔ _
  rw [Nat.zero_add]

end Decoder

/-- The decoder of base 32. -/
def base32Decoder : Decoder :=
  fromBase32WithTable base32DecodeTable base32DecodeTableSize

/-- The decoder of base 32 with the extended hex alphabet. -/
def base32hexDecoder : Decoder :=
  fromBase32WithTable base32hexDecodeTable base32hexDecodeTableSize

/-- No byte is a symbol of base 32 with the extended hex alphabet: the table is
taken to be too short. -/
theorem base32hexDecoder_value (byte : UInt8) :
    base32hexDecoder.value byte = none := by
  revert byte
  decide +kernel

/--
Base 64 text in one region is refused or decoded to some of the bytes written
for it exactly if it has a byte that is no symbol, or no more padding symbols
than three for every four symbols.  Base 32 text is so exactly if it has a byte
that is no symbol, or what its padding symbols remove is no more than five for
every eight symbols; base 32 text with the extended hex alphabet always is.
-/
theorem reachable_staysInside_iff
    (reached : Reachable (· = Heap.initial) Step heap)
    (holds : heap.Holds data)
    (one : (heap.regions data).length = 1) :
    (base64Decoder.StaysInside heap data ↔
      (base64Decoder.Knows (heap.bytes data) →
        (heap.bytes data).count equalsSign ≤
          3 * ((symbols (heap.bytes data)).length / 4))) ∧
    (base32Decoder.StaysInside heap data ↔
      (base32Decoder.Knows (heap.bytes data) →
        removed32 ((heap.bytes data).count equalsSign) ≤
          5 * ((symbols (heap.bytes data)).length / 8))) ∧
    base32hexDecoder.StaysInside heap data := by
  have wellFormed := reachable_wellFormed reached
  refine ⟨?_, ?_, ?_⟩
  · rw [Decoder.staysInside_iff wellFormed holds one (by decide)]
    exact forall_congr' fun known =>
      Decoder.fits_iff (by decide +kernel) known
  · rw [Decoder.staysInside_iff wellFormed holds one (by decide)]
    exact forall_congr' fun known =>
      Decoder.fits_iff (by decide +kernel) known
  · rw [Decoder.staysInside_iff wellFormed holds one (by decide)]
    intro _
    have none : base32hexDecoder.entries (heap.bytes data) = [] := by
      rw [Decoder.entries, List.filterMap_eq_nil_iff]
      exact fun byte _ => base32hexDecoder_value byte
    rw [Decoder.next, none]
    exact Nat.zero_le _

/-- The length of what is decoded from one padding symbol underflows. -/
theorem loneSign_overruns :
    ∃ heap,
      Reachable (· = Heap.initial) Step heap ∧ heap.bytes 1 = [equalsSign] ∧
        (heap.regions 1).length = 1 ∧
        fromBase64 heap 1 true = .error .overrun ∧
        fromBase32 heap 1 true = .error .overrun := by
  have created := reached_initial.next
    ⟨.createAlloc [equalsSign], by decide, rfl⟩
  have wellFormed := reachable_wellFormed created
  have known64 : base64Decoder.Knows [equalsSign] := by
    intro byte member
    rw [List.mem_singleton.mp member]
    exact .inr (by decide +kernel)
  have known32 : base32Decoder.Knows [equalsSign] := by
    intro byte member
    rw [List.mem_singleton.mp member]
    exact .inr (by decide +kernel)
  exact ⟨_, created, rfl, rfl,
    Decoder.decode_of_short wellFormed (show 1 < 2 by decide) rfl known64
      (by decide +kernel),
    Decoder.decode_of_short wellFormed (show 1 < 2 by decide) rfl known32
      (by decide +kernel)⟩

/-- Three symbols and a padding symbol stay inside. -/
theorem paddedGroup_staysInside :
    ∃ heap : Heap,
      heap.bytes 1 = [81, 85, 73, 61] ∧
        base64Decoder.StaysInside heap 1 := by
  have created := reached_initial.next
    ⟨.createAlloc [81, 85, 73, 61], by decide, rfl⟩
  have inside := reachable_staysInside_iff created (show 1 < 2 by decide) rfl
  exact ⟨_, rfl, inside.1.mpr (fun _ => by decide)⟩

end LibDispatch.Data
