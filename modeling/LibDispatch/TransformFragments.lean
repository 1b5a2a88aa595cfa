import LibDispatch.TransformRoundTrip
import Mathlib.Algebra.Order.BigOperators.Group.List

namespace LibDispatch.Data

/-!
# Decoding fragmented text

A decoder visits the regions of an object one after the other and carries its
accumulator over.  What it writes for a region is cut by the padding seen so
far, in this region or in an earlier one, so that the result depends on where
the padding symbols are cut: it is the result of the contiguous text exactly if
the padding up to the end of every region but the last removes nothing.
-/

variable {heap : Heap} {data : Nat}

/-- The accumulator with more bytes in front of its buffer. -/
def Accumulator.prepend
    (dest : List UInt8)
    (accumulator : Accumulator) : Accumulator :=
  { accumulator with dest := dest ++ accumulator.dest }

variable {bytes : List UInt8}

namespace Decoder

variable {decoder : Decoder}

/-! ## The accumulator at the end of each region -/

/-- The entries of the symbols of a text. -/
def entries (decoder : Decoder) (bytes : List UInt8) : List Int :=
  (bytes.filter fun byte => !whitespace byte).filterMap decoder.value

/-- A text without unknown bytes. -/
def Knows (decoder : Decoder) (bytes : List UInt8) : Prop :=
  ∀ byte ∈ bytes, whitespace byte = true ∨ (decoder.value byte).isSome

theorem entries_append
    (first second : List UInt8) :
    decoder.entries (first ++ second) =
      decoder.entries first ++ decoder.entries second := by
  simp [entries]

theorem loop_eq_foldl
    (known : decoder.Knows bytes)
    (accumulator : Accumulator) :
    decoder.loop bytes accumulator =
      some ((decoder.entries bytes).foldl decoder.push accumulator) := by
  induction bytes generalizing accumulator with
  | nil => rfl
  | cons byte bytes inductionHypothesis =>
    have others : decoder.Knows bytes := fun other member =>
      known other (List.mem_cons_of_mem _ member)
    rw [loop]
    cases isSpace : whitespace byte with
    | true =>
      rw [if_pos rfl, inductionHypothesis others]
      simp [entries, isSpace]
    | false =>
      rcases known byte List.mem_cons_self with space | isSymbol
      · rw [isSpace] at space
        cases space
      · obtain ⟨value, symbol⟩ := Option.isSome_iff_exists.mp isSymbol
        rw [if_neg (by simp), symbol]
        simp only [inductionHypothesis others]
        simp [entries, isSpace, symbol]

/-- The accumulator after a region, which begins with an empty buffer. -/
def next
    (decoder : Decoder)
    (accumulator : Accumulator)
    (bytes : List UInt8) : Accumulator :=
  (decoder.entries bytes).foldl decoder.push { accumulator with dest := [] }

/-- The accumulators after each of the given regions. -/
def scan
    (decoder : Decoder) : List (List UInt8) → Accumulator → List Accumulator
  | [], _ => []
  | bytes :: rest, accumulator =>
    decoder.next accumulator bytes ::
      decoder.scan rest (decoder.next accumulator bytes)

/-- What a region adds to the result. -/
def kept (decoder : Decoder) (accumulator : Accumulator) : List UInt8 :=
  accumulator.dest.take
    (accumulator.dest.length - decoder.removed accumulator.pad)

/-- The length of what a region adds does not underflow. -/
def Fits (decoder : Decoder) (accumulator : Accumulator) : Prop :=
  decoder.removed accumulator.pad ≤ accumulator.dest.length

instance (decoder : Decoder) (accumulator : Accumulator) :
    Decidable (decoder.Fits accumulator) :=
  inferInstanceAs (Decidable (_ ≤ _))

section

variable (accumulator : Accumulator)

/-- Symbols are pushed after what is in the buffer. -/
theorem push_prepend
    (dest : List UInt8)
    (value : Int) :
    decoder.push (accumulator.prepend dest) value =
      (decoder.push accumulator value).prepend dest := by
  by_cases ends : (accumulator.count + 1) % decoder.group = 0
  · have endsAfter :
        ((accumulator.prepend dest).count + 1) % decoder.group = 0 := ends
    rw [push, push, if_pos ends, if_pos endsAfter]
    simp only [Accumulator.prepend, List.append_assoc]
  · have goesOn :
        ¬ ((accumulator.prepend dest).count + 1) % decoder.group = 0 := ends
    rw [push, push, if_neg ends, if_neg goesOn]
    rfl

theorem foldl_prepend
    (dest : List UInt8)
    (values : List Int) :
    values.foldl decoder.push (accumulator.prepend dest) =
      (values.foldl decoder.push accumulator).prepend dest := by
  induction values generalizing accumulator with
  | nil => rfl
  | cons value values inductionHypothesis =>
    rw [List.foldl_cons, push_prepend, inductionHypothesis, List.foldl_cons]

theorem pad_next
    (bytes : List UInt8) :
    (decoder.next accumulator bytes).pad =
      accumulator.pad + (decoder.entries bytes).count (-2) :=
  foldl_pad _ _

theorem count_next
    (bytes : List UInt8) :
    (decoder.next accumulator bytes).count =
      accumulator.count + (decoder.entries bytes).length :=
  foldl_count _ _

/-- Two regions are read as one, but for the buffer. -/
theorem next_append
    (first second : List UInt8) :
    decoder.next accumulator (first ++ second) =
      (decoder.next (decoder.next accumulator first) second).prepend
        (decoder.next accumulator first).dest := by
  have emptied :
      ∀ middle : Accumulator,
        (decoder.entries second).foldl decoder.push middle =
          (decoder.next middle second).prepend middle.dest := by
    rintro ⟨x, count, pad, dest⟩
    rw [next, ← foldl_prepend]
    simp [Accumulator.prepend]
  rw [← emptied, next, entries_append, List.foldl_append]
  rfl

/-- The contiguous text is decoded to what the regions write together. -/
theorem dest_next_flatten
    (regions : List (List UInt8)) :
    (decoder.next accumulator regions.flatten).dest =
      ((decoder.scan regions accumulator).map Accumulator.dest).flatten := by
  induction regions generalizing accumulator with
  | nil => rfl
  | cons bytes rest inductionHypothesis =>
    rw [List.flatten_cons, next_append, scan, List.map_cons,
      List.flatten_cons, ← inductionHypothesis]
    rfl

end

variable {accumulator : Accumulator}

/-- The accumulator after so many regions. -/
theorem pad_scan
    {regions : List (List UInt8)}
    {after : Accumulator}
    {index : Nat}
    (found : (decoder.scan regions accumulator)[index]? = some after) :
    after.pad =
      accumulator.pad +
        (decoder.entries (regions.take (index + 1)).flatten).count (-2) := by
  induction regions generalizing accumulator index with
  | nil => simp [scan] at found
  | cons bytes rest inductionHypothesis =>
    cases index with
    | zero =>
      simp only [scan, List.getElem?_cons_zero, Option.some.injEq] at found
      rw [← found, pad_next]
      simp
    | succ index =>
      simp only [scan, List.getElem?_cons_succ] at found
      rw [inductionHypothesis found, pad_next, List.take_succ_cons,
        List.flatten_cons, entries_append, List.count_append]
      omega

variable (regions : List (List UInt8))

@[simp] theorem length_scan
    (accumulator : Accumulator) :
    (decoder.scan regions accumulator).length = regions.length := by
  induction regions generalizing accumulator with
  | nil => rfl
  | cons bytes rest inductionHypothesis =>
    rw [scan, List.length_cons, inductionHypothesis, List.length_cons]

/-- The regions but the last, and the last. -/
theorem scan_concat
    (bytes : List UInt8)
    (accumulator : Accumulator) :
    decoder.scan (regions ++ [bytes]) accumulator =
      decoder.scan regions accumulator ++
        [decoder.next
          ((decoder.scan regions accumulator).getLastD accumulator) bytes] := by
  induction regions generalizing accumulator with
  | nil => rfl
  | cons first rest inductionHypothesis =>
    rw [List.cons_append, scan, inductionHypothesis, scan, List.cons_append,
      List.getLastD_cons]

/-! ## Fragments and the whole -/

/-- The accumulator before the first symbol. -/
def start : Accumulator := ⟨0, 0, 0, []⟩

/-- The regions are decoded, and together to what the whole text is. -/
def Alike (decoder : Decoder) (regions : List (List UInt8)) : Prop :=
  (∀ after ∈ decoder.scan regions start, decoder.Fits after) ∧
    ((decoder.scan regions start).map decoder.kept).flatten =
      decoder.kept (decoder.next start regions.flatten)

theorem length_kept
    (fits : decoder.Fits accumulator) :
    (decoder.kept accumulator).length + decoder.removed accumulator.pad =
      accumulator.dest.length := by
  have inside : decoder.removed accumulator.pad ≤ accumulator.dest.length :=
    fits
  rw [kept, List.length_take]
  omega

theorem kept_of_removed_zero
    (nothing : decoder.removed accumulator.pad = 0) :
    decoder.kept accumulator = accumulator.dest := by
  rw [kept, nothing, Nat.sub_zero, List.take_length]

/-- What is kept and what is removed is what is written. -/
theorem sum_removed
    {accumulators : List Accumulator}
    (fits : ∀ after ∈ accumulators, decoder.Fits after) :
    (accumulators.map decoder.kept).flatten.length +
        (accumulators.map fun after => decoder.removed after.pad).sum =
      (accumulators.map Accumulator.dest).flatten.length := by
  induction accumulators with
  | nil => rfl
  | cons after accumulators inductionHypothesis =>
    have own := length_kept (fits after List.mem_cons_self)
    have others := inductionHypothesis fun other member =>
      fits other (List.mem_cons_of_mem _ member)
    simp only [List.map_cons, List.flatten_cons, List.length_append,
      List.sum_cons]
    omega

/-- The whole text ends as its last region does. -/
theorem next_flatten_concat
    (bytes : List UInt8)
    (accumulator : Accumulator) :
    ∃ before,
      decoder.next accumulator (regions ++ [bytes]).flatten =
        (decoder.next
          ((decoder.scan regions accumulator).getLastD accumulator)
          bytes).prepend before := by
  induction regions generalizing accumulator with
  | nil => exact ⟨[], by simp [scan, Accumulator.prepend]⟩
  | cons first rest inductionHypothesis =>
    obtain ⟨before, same⟩ :=
      inductionHypothesis (decoder.next accumulator first)
    refine ⟨(decoder.next accumulator first).dest ++ before, ?_⟩
    rw [List.cons_append, List.flatten_cons, next_append, same, scan,
      List.getLastD_cons]
    simp [Accumulator.prepend]

/-- The end of a group writes its bytes. -/
theorem length_dest_next
    (some : decoder.entries bytes ≠ [])
    (boundary :
      (decoder.next accumulator bytes).count % decoder.group = 0) :
    decoder.shifts.length ≤ (decoder.next accumulator bytes).dest.length := by
  rw [next] at boundary ⊢
  cases entries : decoder.entries bytes using List.reverseRecOn with
  | nil => exact absurd entries some
  | append_singleton values value _ =>
    rw [entries] at boundary
    simp only [List.foldl_append, List.foldl_cons, List.foldl_nil,
      push_count] at boundary ⊢
    rw [push, if_pos boundary]
    simp

/--
The result does not depend on the regions exactly if the padding at the end of
every region but the last removes nothing.
-/
theorem alike_concat_iff
    (bytes : List UInt8)
    (zero : decoder.removed 0 = 0)
    (boundary :
      (decoder.next start (regions ++ [bytes]).flatten).count %
        decoder.group = 0)
    (bounded :
      decoder.removed
          (decoder.next start (regions ++ [bytes]).flatten).pad ≤
        decoder.shifts.length) :
    decoder.Alike (regions ++ [bytes]) ↔
      ∀ after ∈ decoder.scan regions start,
        decoder.removed after.pad = 0 := by
  generalize split :
    decoder.next ((decoder.scan regions start).getLastD start) bytes = last
  obtain ⟨before, whole⟩ := @next_flatten_concat decoder
    regions bytes start
  have written := @dest_next_flatten decoder start (regions ++ [bytes])
  rw [Alike, scan_concat, split]
  rw [scan_concat, split] at written
  rw [split] at whole
  rw [whole] at boundary bounded written ⊢
  have samePad : (last.prepend before).pad = last.pad := rfl
  rw [samePad] at bounded
  constructor
  · rintro ⟨fits, same⟩
    have lengths := sum_removed fits
    have lastFits : decoder.removed last.pad ≤ last.dest.length :=
      fits last (by simp)
    have wholeFits : decoder.Fits (last.prepend before) := by
      change decoder.removed last.pad ≤ (before ++ last.dest).length
      rw [List.length_append]
      omega
    have wholeLength := length_kept wholeFits
    rw [← written, same, List.map_append, List.sum_append] at lengths
    have nothing :
        ((decoder.scan regions start).map fun after =>
          decoder.removed after.pad).sum = 0 := by
      simp only [List.map_cons, List.map_nil, List.sum_cons, List.sum_nil,
        samePad] at lengths wholeLength
      omega
    intro after member
    exact List.all_zero_of_le_zero_le_of_sum_eq_zero
      (fun _ _ => Nat.zero_le _) nothing (List.mem_map_of_mem member)
  · intro nothing
    have lastFits : decoder.removed last.pad ≤ last.dest.length := by
      by_cases some : decoder.entries bytes = []
      · have unchanged :
            decoder.removed last.pad = 0 := by
          rw [← split, pad_next, some, List.count_nil, Nat.add_zero]
          cases ends : decoder.scan regions start using
              List.reverseRecOn with
          | nil => exact zero
          | append_singleton earlier final _ =>
            rw [List.getLastD_concat]
            exact nothing final (by rw [ends]; simp)
        omega
      · rw [← split] at boundary bounded ⊢
        exact bounded.trans (length_dest_next some boundary)
    have keptEarlier :
        ((decoder.scan regions start).map decoder.kept).flatten =
          ((decoder.scan regions start).map Accumulator.dest).flatten := by
      congr 1
      exact List.map_congr_left fun after member =>
        kept_of_removed_zero (nothing after member)
    have beforeEq :
        before =
          ((decoder.scan regions start).map Accumulator.dest).flatten := by
      rw [List.map_append, List.flatten_append] at written
      simpa [Accumulator.prepend] using written
    constructor
    · intro after member
      rcases List.mem_append.mp member with earlier | isLast
      · rw [Fits, nothing after earlier]
        exact Nat.zero_le _
      · rw [List.mem_singleton.mp isLast]
        exact lastFits
    · rw [List.map_append, List.flatten_append, keptEarlier, ← beforeEq]
      simp only [List.map_cons, List.map_nil, List.flatten_cons,
        List.flatten_nil, List.append_nil, kept, Accumulator.prepend,
        List.length_append]
      rw [Nat.add_sub_assoc lastFits, List.take_length_add_append]

end Decoder

/-! ## Valid text -/

/-- A padded encoding with whitespace anywhere: symbols that fill whole groups
with their padding, of which there is as much as some bytes need. -/
def ValidText (code : BaseCode) (text : List UInt8) : Prop :=
  ∃ (digits : List Nat) (pads : Nat),
    (∀ digit ∈ digits, digit < 2 ^ code.bits) ∧
      (text.filter fun byte => !whitespace byte) =
        digits.map code.symbol ++ List.replicate pads code.padding ∧
      (digits.length + pads) % code.groupSymbols = 0 ∧
      (pads = 0 ∨
        ∃ count, 0 < count ∧ count < code.groupBytes ∧
          pads = code.groupSymbols - code.symbolsFor count)

/-- The bytes of a text in an encoding. -/
def SpelledByte (code : BaseCode) (byte : UInt8) : Prop :=
  whitespace byte = true ∨
    (∃ digit < 2 ^ code.bits, byte = code.symbol digit) ∨ byte = code.padding

variable {text : List UInt8}

theorem ValidText.spelled
    {code : BaseCode}
    (valid : ValidText code text) :
    ∀ byte ∈ text, SpelledByte code byte := by
  obtain ⟨digits, pads, small, spelled, -, -⟩ := valid
  intro byte member
  cases isSpace : whitespace byte with
  | true => exact .inl isSpace
  | false =>
    have kept : byte ∈ text.filter fun byte => !whitespace byte :=
      List.mem_filter.mpr ⟨member, by rw [isSpace]; rfl⟩
    rw [spelled] at kept
    rcases List.mem_append.mp kept with isSymbol | isPadding
    · obtain ⟨digit, isDigit, rfl⟩ := List.mem_map.mp isSymbol
      exact .inr (.inl ⟨digit, small digit isDigit, rfl⟩)
    · exact .inr (.inr (List.eq_of_mem_replicate isPadding))

/-- The encoding of any bytes is valid. -/
theorem validText_encode
    {code : BaseCode}
    (plain : (text.filter fun byte => !whitespace byte) = code.encode bytes) :
    ValidText code text := by
  rw [ValidText, plain]
  clear plain
  induction bytes using code.groups_induction with
  | nil => exact ⟨[], 0, by simp⟩
  | last chunk nonempty short =>
    have inGroup := Nat.le_of_lt short
    have enough := code.symbolsFor_le inGroup
    refine ⟨code.groupSymbolDigits chunk,
      code.groupSymbols - code.symbolsFor chunk.length, ?_, ?_, ?_, ?_⟩
    · intro digit member
      exact code.groupSymbolDigits_lt member
    · rw [code.encode_short nonempty inGroup]
      rfl
    · rw [code.length_groupSymbolDigits inGroup, Nat.add_sub_cancel' enough,
        Nat.mod_self]
    · exact .inr ⟨chunk.length, List.length_pos_iff.mpr nonempty, short,
        rfl⟩
  | group chunk rest full inductionHypothesis =>
    obtain ⟨digits, pads, small, spelled, filled, padded⟩ :=
      inductionHypothesis
    refine ⟨code.groupSymbolDigits chunk ++ digits, pads, ?_, ?_, ?_,
      padded⟩
    · intro digit member
      rcases List.mem_append.mp member with inGroup | inRest
      · exact code.groupSymbolDigits_lt inGroup
      · exact small digit inRest
    · rw [code.encode_append full, spelled, BaseCode.encodeGroup, full,
        code.symbolsFor_full, Nat.sub_self]
      simp
    · rw [List.length_append,
        code.length_groupSymbolDigits (Nat.le_of_eq full), full,
        code.symbolsFor_full, Nat.add_assoc, Nat.add_mod_left, filled]

namespace Decoder.Reads

variable {decoder : Decoder} {code : BaseCode}

variable (reads : decoder.Reads code)

include reads

theorem knows
    (spelled : ∀ byte ∈ bytes, SpelledByte code byte) :
    decoder.Knows bytes := by
  intro byte member
  rcases spelled byte member with space | ⟨digit, small, rfl⟩ | rfl
  · exact .inl space
  · exact .inr (by rw [(reads.symbol digit small).2]; rfl)
  · exact .inr (by rw [reads.padding.2]; rfl)

/-- The padding symbols are those that the decoder counts. -/
theorem count_entries
    (spelled : ∀ byte ∈ bytes, SpelledByte code byte) :
    (decoder.entries bytes).count (-2) = bytes.count code.padding := by
  induction bytes with
  | nil => rfl
  | cons byte bytes inductionHypothesis =>
    have others := inductionHypothesis fun other member =>
      spelled other (List.mem_cons_of_mem _ member)
    have split : decoder.entries (byte :: bytes) =
        decoder.entries [byte] ++ decoder.entries bytes :=
      entries_append [byte] bytes
    have own : byte :: bytes = [byte] ++ bytes := rfl
    rw [split, List.count_append, others, own, List.count_append]
    congr 1
    rcases spelled byte List.mem_cons_self with
      space | ⟨digit, small, rfl⟩ | rfl
    · have different : byte ≠ code.padding := by
        rintro rfl
        rw [reads.padding.1] at space
        cases space
      simp [entries, space, different]
    · obtain ⟨noSpace, value⟩ := reads.symbol digit small
      have different : code.symbol digit ≠ code.padding := by
        intro same
        rw [same, reads.padding.2] at value
        cases value
      simp [entries, noSpace, value, different]
    · simp [entries, reads.padding]

theorem length_shifts :
    decoder.shifts.length = code.groupBytes := by
  have same := congrArg List.length (reads.bytes 0)
  simpa using same

/-- Valid text fills whole groups, and its padding removes less than one. -/
theorem valid_spec
    (valid : ValidText code text) :
    (decoder.next start text).count % decoder.group = 0 ∧
      decoder.removed (decoder.next start text).pad ≤
        decoder.shifts.length := by
  obtain ⟨digits, pads, small, spelled, filled, padded⟩ := valid
  have symbols : ∀ digits : List Nat, (∀ digit ∈ digits, digit < 2 ^ code.bits) →
      (digits.map code.symbol).filterMap decoder.value =
        digits.map Int.ofNat := by
    intro digits
    induction digits with
    | nil => exact fun _ => rfl
    | cons digit digits inductionHypothesis =>
      intro small
      have own := reads.symbol digit (small digit List.mem_cons_self)
      rw [List.map_cons, List.filterMap_cons, own.2, List.map_cons,
        inductionHypothesis fun other member =>
          small other (List.mem_cons_of_mem _ member)]
      rfl
  have entries : decoder.entries text =
      digits.map Int.ofNat ++ List.replicate pads (-2) := by
    rw [Decoder.entries, spelled, List.filterMap_append, symbols digits small,
      List.filterMap_replicate, reads.padding.2]
  constructor
  · rw [count_next, entries, List.length_append, List.length_map,
      List.length_replicate, reads.group]
    change (0 + _) % _ = 0
    rw [Nat.zero_add, filled]
  · have counted : (decoder.next start text).pad = pads := by
      have noPadding : (digits.map Int.ofNat).count (-2) = 0 := by
        simp [List.count_eq_zero]
      rw [pad_next, entries, List.count_append, noPadding,
        List.count_replicate_self]
      change 0 + (0 + pads) = pads
      omega
    rw [counted, reads.length_shifts]
    rcases padded with rfl | ⟨count, positive, below, rfl⟩
    · rw [reads.removed_zero]
      exact Nat.zero_le _
    · rw [reads.removed count (Nat.le_of_lt below) positive]
      omega

/-- Valid text is decoded alike if no region but the last ends with padding that
removes something. -/
theorem alike_iff
    (regions : List (List UInt8))
    (valid : ValidText code regions.flatten) :
    decoder.Alike regions ↔
      ∀ index, index < regions.length →
        decoder.removed ((regions.take index).flatten.count code.padding) =
          0 := by
  have spelled := valid.spelled
  cases regions using List.reverseRecOn with
  | nil =>
    refine ⟨fun _ index below => absurd below (Nat.not_lt_zero index), ?_⟩
    intro _
    refine ⟨fun after member => ?_, ?_⟩
    · cases member
    · simp [scan, kept, next, Decoder.entries, start]
  | append_singleton regions bytes _ =>
    obtain ⟨boundary, bounded⟩ := reads.valid_spec valid
    rw [alike_concat_iff regions bytes reads.removed_zero boundary bounded]
    have counted : ∀ index, index < regions.length →
        ∃ after ∈ decoder.scan regions start,
          (decoder.scan regions start)[index]? = some after ∧
          after.pad = ((regions ++ [bytes]).take (index + 1)).flatten.count
            code.padding := by
      intro index below
      have inScan : index < (decoder.scan regions start).length := by
        rw [length_scan]
        exact below
      have found := List.getElem?_eq_getElem inScan
      refine ⟨_, List.getElem_mem inScan, found, ?_⟩
      have earlier : (regions ++ [bytes]).take (index + 1) =
          regions.take (index + 1) := List.take_append_of_le_length below
      rw [pad_scan found, earlier]
      change 0 + _ = _
      rw [Nat.zero_add]
      refine reads.count_entries fun byte member => spelled byte ?_
      rw [List.flatten_append]
      refine List.mem_append_left _ ?_
      obtain ⟨part, inParts, inPart⟩ := List.mem_flatten.mp member
      exact List.mem_flatten.mpr
        ⟨part, List.mem_of_mem_take inParts, inPart⟩
    constructor
    · intro nothing index below
      cases index with
      | zero => exact reads.removed_zero
      | succ index =>
        rw [List.length_append, List.length_singleton] at below
        obtain ⟨after, member, -, same⟩ := counted index (by omega)
        rw [← same]
        exact nothing after member
    · intro nothing after member
      obtain ⟨index, found⟩ := List.mem_iff_getElem?.mp member
      have below : index < regions.length := by
        have inScan := (List.getElem?_eq_some_iff.mp found).1
        rw [length_scan] at inScan
        exact inScan
      obtain ⟨other, -, otherFound, same⟩ := counted index below
      rw [found, Option.some.injEq] at otherFound
      rw [otherFound, same]
      refine nothing (index + 1) ?_
      rw [List.length_append, List.length_singleton]
      omega

end Decoder.Reads

end LibDispatch.Data
