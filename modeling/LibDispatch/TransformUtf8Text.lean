import LibDispatch.TransformUtf16Accepts

namespace LibDispatch.Data

/-!
# UTF-8 text

`_dispatch_transform_to_utf16` reads the characters of well-formed UTF-8 and
writes them in UTF-16.  It does not validate the sequences it reads; what it
writes is well-formed UTF-16 unless it reads the code of the last surrogate,
which its test for surrogates misses.
-/

open Text (Reader Reading drop_of_append)

variable {heap : Heap} {data : Nat}

/-! ## Sequences of characters -/

/-- The bytes of a character are a sequence that is read as its code. -/
theorem utf8EncodeChar_spec (char : Char) :
    ∃ byte bytes,
      String.utf8EncodeChar char = byte :: bytes ∧
        utf8Length byte = bytes.length + 1 ∧
        readUtf8Sequence (byte :: bytes) = .ok char.toNat := by
  have valid := toNat_cases char
  have value : char.toNat = char.val.toNat := rfl
  rw [value] at valid ⊢
  rw [String.utf8EncodeChar]
  generalize char.val.toNat = code at valid ⊢
  have toNat (value : Nat) : (UInt8.ofNat value).toNat = value % 256 := by
    simp
  by_cases one : code ≤ 127
  · have length : utf8Length (UInt8.ofNat code) = 1 := by
      rw [utf8Length_eq, toNat, if_pos (by omega)]
    simp only [if_pos one]
    refine ⟨_, _, rfl, length, ?_⟩
    rw [readUtf8Sequence_of_one length, toNat]
    congr 1
    omega
  · by_cases two : code ≤ 2047
    · have length : utf8Length (UInt8.ofNat (code / 64 % 32 + 192)) = 2 := by
        rw [utf8Length_eq, toNat, if_neg (by omega), if_neg (by omega),
          if_pos (by omega)]
      simp only [if_neg one, if_pos two]
      refine ⟨_, _, rfl, length, ?_⟩
      rw [readUtf8Sequence_of_more length (by simp)]
      simp only [sequenceCode, List.take_succ_cons, List.take_zero,
        List.foldl_cons, List.foldl_nil, toNat]
      congr 1
      omega
    · by_cases three : code ≤ 65535
      · have length :
            utf8Length (UInt8.ofNat (code / 4096 % 16 + 224)) = 3 := by
          rw [utf8Length_eq, toNat, if_neg (by omega), if_neg (by omega),
            if_neg (by omega), if_pos (by omega)]
        simp only [if_neg one, if_neg two, if_pos three]
        refine ⟨_, _, rfl, length, ?_⟩
        rw [readUtf8Sequence_of_more length (by simp)]
        simp only [sequenceCode, List.take_succ_cons, List.take_zero,
          List.foldl_cons, List.foldl_nil, toNat]
        congr 1
        omega
      · have length :
            utf8Length (UInt8.ofNat (code / 262144 % 8 + 240)) = 4 := by
          rw [utf8Length_eq, toNat, if_neg (by omega), if_neg (by omega),
            if_neg (by omega), if_neg (by omega), if_pos (by omega)]
        simp only [if_neg one, if_neg two, if_neg three]
        refine ⟨_, _, rfl, length, ?_⟩
        rw [readUtf8Sequence_of_more length (by simp)]
        simp only [sequenceCode, List.take_succ_cons, List.take_zero,
          List.foldl_cons, List.foldl_nil, toNat]
        congr 1
        omega

/-- The units that are written for a character. -/
theorem utf16Units_char (char : Char) :
    utf16Units char.toNat = some (utf16Encode char) := by
  have valid := toNat_cases char
  have mask (value : Nat) : value &&& 0x3ff = value % 1024 :=
    Nat.and_two_pow_sub_one_eq_mod value 10
  have half (value : Nat) : value &&& 0xffff = value % 65536 :=
    Nat.and_two_pow_sub_one_eq_mod value 16
  rw [utf16Units, if_neg (by omega), utf16Encode]
  by_cases small : char.toNat < 0x10000
  · rw [if_neg (by omega), if_pos small, half, Nat.mod_eq_of_lt small]
  · have high : (char.toNat - 0x10000) / 2 ^ 10 % 1024 + 0xd800 =
        0xd800 + (char.toNat - 0x10000) / 0x400 := by
      omega
    have low : (char.toNat - 0x10000) % 1024 + 0xdc00 =
        0xdc00 + (char.toNat - 0x10000) % 0x400 := by
      omega
    rw [if_pos (by omega), if_neg small, Nat.shiftRight_eq_div_pow, mask, mask,
      high, low]

/-- The units that are written are those of a character, but for the last
surrogate. -/
theorem char_of_utf16Units
    {code : Nat}
    {written : List Nat}
    (legal : utf16Units code = some written) :
    (code ≠ 0xdfff ∧ ∃ char, written = utf16Encode char) ∨
      (code = 0xdfff ∧ written = [0xdfff]) := by
  have mask (value : Nat) : value &&& 0x3ff = value % 1024 :=
    Nat.and_two_pow_sub_one_eq_mod value 10
  have half (value : Nat) : value &&& 0xffff = value % 65536 :=
    Nat.and_two_pow_sub_one_eq_mod value 16
  rw [utf16Units] at legal
  split_ifs at legal with surrogate large
  · cases legal
    refine .inl ⟨by omega, ?_⟩
    rw [mask, mask]
    obtain ⟨char, encodes, -⟩ := @exists_char_of_pair
      ((code - 0x10000) >>> 10 % 1024 + 0xd800)
      ((code - 0x10000) % 1024 + 0xdc00) ⟨by omega, by omega⟩
      ⟨by omega, by omega⟩
    exact ⟨char, encodes.symm⟩
  · cases legal
    rw [half, Nat.mod_eq_of_lt (by omega)]
    by_cases last : code = 0xdfff
    · exact .inr ⟨last, by rw [last]⟩
    · obtain ⟨char, same⟩ := @exists_char code (by omega) (by omega)
      refine .inl ⟨last, char, ?_⟩
      rw [utf16Encode_of_small (by omega), same]

/-! ## Reading in one region -/

variable {chars : List Char}

section OneRegion

variable {order : ByteOrder} {text others : List UInt8} {position : Nat}

/-- The code of a character that is read at its own offset. -/
theorem utf8Code_eq
    {byte : UInt8}
    {stop lag : Nat}
    (next : text.drop position = byte :: others)
    (positive : utf8Length byte ≠ 0)
    (within : stop ≤ text.length)
    (unmoved : lag = 0 ∨ position + utf8Length byte ≤ stop) :
    utf8Code text position stop lag (utf8Length byte) =
      if text.length < position + utf8Length byte then
        .ok none
      else
        (readUtf8Sequence (byte :: others)).map some := by
  rw [utf8Code]
  by_cases crosses : stop < position + utf8Length byte
  · obtain rfl : lag = 0 := unmoved.resolve_right (by omega)
    rw [if_pos crosses, Nat.sub_zero, next,
      readUtf8Sequence_take (Nat.pos_of_ne_zero positive)]
  · rw [if_neg crosses, if_neg (by omega), next,
      readUtf8Sequence_take (Nat.pos_of_ne_zero positive)]

/-- What is read at a sequence. -/
theorem readWhole_of_sequence
    {byte : UInt8}
    (next : text.drop position = byte :: others)
    (positive : utf8Length byte ≠ 0) :
    (utf8Reader order).readWhole text position =
      if text.length < position + utf8Length byte then
        .ok none
      else
        Reading.andThen ((readUtf8Sequence (byte :: others)).map some)
          fun code =>
            .ok ((utf16Output order code (position + utf8Length byte)).map
              fun output => (output, utf8Length byte)) := by
  change readUtf8 order text position text.length 0 = _
  rw [readUtf8_of_byte next positive,
    utf8Code_eq next positive (Nat.le_refl _) (.inl rfl)]
  by_cases beyond : text.length < position + utf8Length byte
  · rw [if_pos beyond, if_pos beyond]
    rfl
  · have ending : min text.length (position + utf8Length byte) - 0 =
        position + utf8Length byte := by
      omega
    rw [if_neg beyond, if_neg beyond, ending]

/-- What is read at a character. -/
theorem readWhole_of_utf8Char
    {char : Char}
    (next : text.drop position = String.utf8EncodeChar char ++ others)
    (noMark : position = 0 → char.toNat ≠ 0xfeff) :
    (utf8Reader order).readWhole text position =
      .ok (some (utf16Text order [char],
        (String.utf8EncodeChar char).length)) := by
  obtain ⟨byte, bytes, encodes, length, reads⟩ := utf8EncodeChar_spec char
  rw [encodes, List.cons_append] at next
  have total := congrArg List.length next
  rw [List.length_drop, List.length_cons, List.length_append] at total
  have sequence : readUtf8Sequence (byte :: (bytes ++ others)) =
      .ok char.toNat := by
    rw [← readUtf8Sequence_take (by omega), length, List.take_succ_cons,
      List.take_left, reads]
  have unmarked : ¬ (char.toNat = 0xfeff ∧ position + utf8Length byte = 3) := by
    rintro ⟨mark, three⟩
    refine noMark ?_ mark
    by_cases one : utf8Length byte = 1
    · rw [readUtf8Sequence_of_one one] at reads
      injection reads with same
      omega
    · by_cases two : utf8Length byte = 2
      · obtain ⟨second, rfl⟩ := List.length_eq_one_iff.mp
          (show bytes.length = 1 by omega)
        rw [readUtf8Sequence_of_more two (by simp)] at reads
        simp only [sequenceCode, List.take_succ_cons, List.take_zero,
          List.foldl_cons, List.foldl_nil] at reads
        injection reads with same
        omega
      · omega
  rw [readWhole_of_sequence next (by omega), if_neg (by omega), sequence,
    encodes, List.length_cons, ← length]
  change Reading.andThen (.ok (some char.toNat)) _ = _
  rw [Reading.andThen_some, utf16Output, if_neg unmarked, utf16Units_char]
  simp [utf16Text]

/-- Some characters and what is read after them. -/
theorem rest_of_utf8Chars
    (next : text.drop position = utf8Text chars)
    (within : position ≤ text.length)
    (noMark :
      position = 0 → ∀ char ∈ chars.head?, char.toNat ≠ 0xfeff) :
    (utf8Reader order).rest text position =
      .ok (some (chars.map fun char => utf16Text order [char])) := by
  induction chars generalizing position with
  | nil =>
    have length := congrArg List.length next
    rw [List.length_drop, utf8Text, List.flatMap_nil, List.length_nil]
      at length
    exact Reader.rest_of_done (by omega)
  | cons char chars inductionHypothesis =>
    have split : utf8Text (char :: chars) =
        String.utf8EncodeChar char ++ utf8Text chars := by
      simp [utf8Text]
    rw [split] at next
    have reads := @readWhole_of_utf8Char order text (utf8Text chars)
      position char next (fun zero => noMark zero char rfl)
    have positive := (utf8Reader order).advances reads
    have length := congrArg List.length next
    rw [List.length_drop, List.length_append] at length
    rw [Reader.rest_of_word next reads,
      inductionHypothesis (drop_of_append next) (by omega)
        (fun zero => by omega)]
    rfl

/-- The text of some characters is read as their units. -/
theorem whole_of_utf8Text
    (order : ByteOrder)
    (same : text = utf8Text chars)
    (noMark : ∀ char ∈ chars.head?, char.toNat ≠ 0xfeff) :
    ∃ outputs,
      (utf8Reader order).whole text = .ok (some outputs) ∧
        outputs.flatten = utf16Text order chars := by
  refine ⟨chars.map fun char => utf16Text order [char], ?_, ?_⟩
  · rw [Reader.whole_eq_rest]
    exact rest_of_utf8Chars (List.drop_zero.trans same) (Nat.zero_le _)
      (fun _ => noMark)
  · rw [← List.flatMap_def]
    simp [utf16Text]

/-- What is written at a position is nothing or the units of the code there. -/
theorem output_of_readWhole
    {output : List UInt8}
    {size : Nat}
    (reads :
      (utf8Reader order).readWhole text position =
        .ok (some (output, size))) :
    ∃ code,
      readUtf8Sequence (text.drop position) = .ok code ∧
        (output = [] ∧ code = 0xfeff ∨
          ∃ written, utf16Units code = some written ∧
            output = written.flatMap order.store) := by
  obtain ⟨byte, others, code, next, length, positive, readsCode, writes⟩ :=
    readUtf8_eq_some reads
  have inside := readUtf8_inside reads
  refine ⟨code, ?_, ?_⟩
  · have start : position < text.length := by
      have total := congrArg List.length next
      rw [List.length_drop, List.length_cons] at total
      omega
    rw [utf8Code, if_neg (by omega), next, ← length,
      readUtf8Sequence_take (by omega)] at readsCode
    rw [next]
    cases sequence : readUtf8Sequence (byte :: others) with
    | error failure =>
      rw [sequence] at readsCode
      cases readsCode
    | ok other =>
      rw [sequence] at readsCode
      cases readsCode
      rfl
  · rw [utf16Output] at writes
    split_ifs at writes with mark
    · cases writes
      exact .inl ⟨rfl, mark.1⟩
    · obtain ⟨written, legal, same⟩ := Option.map_eq_some_iff.mp writes
      exact .inr ⟨written, legal, same.symm⟩

/-- What is written has at most two bytes for each byte of the text. -/
theorem length_rest_le
    {outputs : List (List UInt8)}
    (reads : (utf8Reader order).rest text position = .ok (some outputs)) :
    outputs.flatten.length ≤ 2 * (text.length - position) := by
  replace reads := Reader.Reads.of_rest reads
  obtain ⟨last, reads⟩ := reads
  induction reads with
  | done => exact Nat.zero_le _
  | next _ readsFirst _ later =>
    obtain ⟨byte, bytes, code, -, sized, positive, readsCode, writes⟩ :=
      readUtf8_eq_some readsFirst
    have inside := readUtf8_inside readsFirst
    have short := utf8Length_le byte
    have few := (length_utf16Output_le readsCode positive (by omega) writes).1
    rw [List.flatten_cons, List.length_append]
    omega

end OneRegion

/-! ## The last surrogate -/

/-- From a position on, some character of the text is read as the last
surrogate. -/
def ReadsSurrogate
    (order : ByteOrder)
    (text : List UInt8)
    (first : Nat) : Prop :=
  ∃ position,
    first ≤ position ∧ position < text.length ∧
      (utf8Reader order).Starts text position ∧
      readUtf8Sequence (text.drop position) = .ok 0xdfff

/-- What is written is the text of characters up to the first surrogate that is
read, if there is one. -/
theorem rest_surrogates
    {order : ByteOrder}
    {text : List UInt8}
    {position : Nat}
    (starts : (utf8Reader order).Starts text position)
    {outputs : List (List UInt8)}
    (reads :
      (utf8Reader order).rest text position = .ok (some outputs)) :
    (¬ ReadsSurrogate order text position ∧
      ∃ chars, outputs.flatten = utf16Text order chars) ∨
    (ReadsSurrogate order text position ∧
      ∃ chars others, outputs.flatten =
        utf16Text order chars ++ (order.store 0xdfff ++ others)) := by
  replace reads := Reader.Reads.of_rest reads
  obtain ⟨textEnd, reads⟩ := reads
  induction reads with
  | done done =>
    refine .inl ⟨?_, [], rfl⟩
    rintro ⟨other, after, inside, -⟩
    omega
  | @next position size _ output others inside readsFirst _
      inductionHypothesis =>
    have later := inductionHypothesis (.next starts inside readsFirst)
    obtain ⟨code, sequence, written⟩ := output_of_readWhole readsFirst
    -- A surrogate after this character is one after the position.
    have earlier (surrogate : ReadsSurrogate order text (position + size)) :
        ReadsSurrogate order text position := by
      obtain ⟨other, after, before, otherStarts, last⟩ := surrogate
      exact ⟨other, by omega, before, otherStarts, last⟩
    have notHere (notLast : code ≠ 0xdfff)
        (none : ¬ ReadsSurrogate order text (position + size)) :
        ¬ ReadsSurrogate order text position := by
      rintro ⟨other, after, before, otherStarts, last⟩
      rcases Nat.eq_or_lt_of_le after with rfl | beyond
      · rw [sequence] at last
        cases last
        exact notLast rfl
      · obtain ⟨otherOutput, otherSize, -, otherReads, apart⟩ :=
          starts.apart otherStarts beyond
        rw [Reader.readWhole, readsFirst] at otherReads
        cases otherReads
        exact none ⟨other, apart, before, otherStarts, last⟩
    rw [List.flatten_cons]
    rcases written with ⟨rfl, mark⟩ | ⟨units, legal, rfl⟩
    · rcases later with ⟨none, chars, same⟩ | ⟨surrogate, chars, rest, same⟩
      · exact .inl ⟨notHere (by omega) none, chars, same⟩
      · exact .inr ⟨earlier surrogate, chars, rest, same⟩
    · rcases char_of_utf16Units legal with ⟨notLast, char, rfl⟩ |
        ⟨last, rfl⟩
      · have encoded : (utf16Encode char).flatMap order.store =
            utf16Text order [char] := by
          simp [utf16Text]
        rw [encoded]
        rcases later with ⟨none, chars, same⟩ |
          ⟨surrogate, chars, rest, same⟩
        · refine .inl ⟨notHere notLast none, char :: chars, ?_⟩
          rw [same, utf16Text_cons order char chars]
        · refine .inr ⟨earlier surrogate, char :: chars, rest, ?_⟩
          rw [same, utf16Text_cons order char chars, List.append_assoc]
      · refine .inr ⟨?_, [], others.flatten, ?_⟩
        · exact ⟨position, Nat.le_refl _, inside, starts, last ▸ sequence⟩
        · simp [utf16Text]

/-- The last unit of some characters does not begin a pair. -/
theorem getLast_of_chars
    {last : Nat}
    (isLast : (chars.flatMap utf16Encode).getLast? = some last) :
    ¬ IsHigh last := by
  cases chars using List.reverseRecOn with
  | nil => cases isLast
  | append_singleton chars char _ =>
    have valid := toNat_cases char
    rw [List.flatMap_append, List.flatMap_cons, List.flatMap_nil,
      List.append_nil] at isLast
    by_cases small : char.toNat < 0x10000
    · rw [utf16Encode_of_small small, List.getLast?_concat] at isLast
      cases isLast
      simp only [IsHigh]
      omega
    · obtain ⟨high, low, encodes, -, isLow, -⟩ :=
        utf16Encode_of_large (Nat.not_lt.mp small)
      rw [encodes] at isLast
      have same : low = last := by simpa using isLast
      have least := isLow.1
      rintro ⟨-, most⟩
      omega

theorem not_paired_of_surrogate
    (chars : List Char)
    (others : List Nat) :
    ¬ Paired (chars.flatMap utf16Encode ++ 0xdfff :: others) := by
  intro paired
  obtain ⟨last, isLast, isHigh⟩ := (paired _ _ _ rfl).2 ⟨by decide, by decide⟩
  exact getLast_of_chars isLast isHigh

/-- `BUFFER_MALLOC_MAX` is far below the sizes that overflow. -/
theorem storable_of_small
    {length : Nat}
    (small : length ≤ bufferMallocMax) :
    Storable (4 * length + 18) := by
  have most : bufferMallocMax = 104857600 := rfl
  simp only [Storable, recordSize, headerSize]
  omega

/-- What is written for a text in one region is read back. -/
theorem fromUtf16_of_marked
    (wellFormed : heap.WellFormed)
    (holds : heap.Holds data)
    (onePart : heap.parts data ≤ 1)
    (order : ByteOrder)
    (text : heap.bytes data = order.store 0xfeff ++ utf16Text order chars)
    (small : (heap.bytes data).length ≤ bufferMallocMax) :
    ∃ after result,
      fromUtf16 (some bufferMallocMax) order heap data true =
          .ok (after, some result) ∧
        after.WellFormed ∧ after.Holds result ∧
        after.bytes result = utf8Text chars := by
  obtain ⟨mark, code⟩ := @exists_char 0xfeff (by decide) (by decide)
  have marked : heap.bytes data = utf16Text order (mark :: chars) := by
    rw [text, utf16Text_of_mark code]
  have some : heap.bytes data ≠ [] := by
    intro none
    have length := congrArg List.length text
    rw [none, List.length_append, order.length_store, List.length_nil]
      at length
    omega
  have transforms := fromUtf16_transforms_of_mark wellFormed holds rfl
    (wellFormed.one_of_parts holds onePart some) (storable_of_small small)
    order text (by rw [marked]; exact length_utf16Text order _) small
  have notSwapped : NotSwapped (mark :: chars) := by
    intro char first
    cases first
    rw [code]
    decide
  obtain ⟨outputs, reads, same⟩ := whole_of_text marked notSwapped
  rw [withoutMark, if_pos code] at same
  rw [reads] at transforms
  generalize outcome : fromUtf16 _ _ _ _ _ = back at transforms
  cases transforms with
  | good followingWellFormed followingHolds denotes =>
    exact ⟨_, _, rfl, followingWellFormed, followingHolds,
      denotes.trans same⟩

/-- What is returned is well-formed UTF-16, and it is accepted. -/
def WellFormedOutput
    (order : ByteOrder)
    (heap : Heap)
    (data : Nat) : Prop :=
  Paired (units order (heap.bytes data)) ∧
    ∃ after result,
      fromUtf16 (some bufferMallocMax) order heap data true =
        .ok (after, some result)

/-- What is written for a text in one region, after the mark. -/
theorem toUtf16_transforms_of_one
    (wellFormed : heap.WellFormed)
    (holds : heap.Holds data)
    (one : (heap.regions data).length = 1)
    (order : ByteOrder)
    (small : (heap.bytes data).length * 2 + 2 ≤ bufferMallocMax) :
    Transforms (order.store 0xfeff)
      ((utf8Reader order).whole (heap.bytes data))
      (toUtf16 (some bufferMallocMax) order heap data true) := by
  have transforms := @toUtf16_transforms heap data (some bufferMallocMax)
    wellFormed holds (storable_of_small (by omega)) order
    (fun request least => decide_eq_true (by omega))
  rwa [wellFormed.run_of_one holds (Nat.le_of_eq one),
    if_neg (wellFormed.bytes_of_one holds one)] at transforms

/--
What is returned for a text in one region is well-formed UTF-16, and accepted as
such, exactly if no character of the text is read as the last surrogate.
-/
theorem reachable_wellFormedOutput_iff
    (reached : Reachable (· = Heap.initial) Step heap)
    (holds : heap.Holds data)
    (one : (heap.regions data).length = 1)
    (order : ByteOrder)
    {after : Heap}
    {result : Nat}
    (returns :
      toUtf16 (some bufferMallocMax) order heap data true =
        .ok (after, some result)) :
    WellFormedOutput order after result ↔
      ¬ ReadsSurrogate order (heap.bytes data) 0 := by
  have wellFormed := reachable_wellFormed reached
  obtain ⟨small, onePart⟩ := toUtf16_of_one wellFormed holds rfl one order
    (by decide) returns
  have transforms := toUtf16_transforms_of_one wellFormed holds one order small
  rw [returns] at transforms
  rcases reads : (utf8Reader order).whole (heap.bytes data) with
    failure | _ | outputs
  · rw [reads] at transforms
    cases transforms
  · rw [reads] at transforms
    cases transforms
  · rw [reads] at transforms
    obtain ⟨mark, code⟩ := @exists_char 0xfeff (by decide) (by decide)
    cases transforms with
    | good followingWellFormed followingHolds denotes =>
      rw [Reader.whole_eq_rest] at reads
      have length := length_rest_le reads
      have total := congrArg List.length denotes
      rw [List.length_append, order.length_store] at total
      rcases rest_surrogates .first reads with
        ⟨none, chars, same⟩ | ⟨surrogate, chars, others, same⟩
      · refine iff_of_true ?_ none
        have text : after.bytes result =
            order.store 0xfeff ++ utf16Text order chars := by
          rw [denotes, same]
        obtain ⟨again, back, accepted, -⟩ := fromUtf16_of_marked
          followingWellFormed followingHolds onePart order text (by omega)
        have marked := text.trans (utf16Text_of_mark code chars).symm
        exact ⟨(wellFormed_iff.mpr ⟨_, marked⟩).2, again, back, accepted⟩
      · refine iff_of_false ?_ (fun none => none surrogate)
        rintro ⟨paired, -⟩
        have split : order.store 0xfeff ++ (utf16Text order chars ++
            (order.store 0xdfff ++ others)) =
              utf16Text order (mark :: chars) ++
                (order.store 0xdfff ++ others) := by
          rw [utf16Text_of_mark code, List.append_assoc]
        rw [denotes, same, split, units_text, units_store (by decide)]
          at paired
        exact not_paired_of_surrogate _ _ paired

/-- The sequence of the last surrogate is written as a unit alone, and what is
written is refused. -/
theorem lastSurrogate_refused :
    ∃ heap after result again,
      Reachable (· = Heap.initial) Step heap ∧
        heap.bytes 1 = [0xed, 0xbf, 0xbf] ∧ (heap.regions 1).length = 1 ∧
        toUtf16 (some bufferMallocMax) .little heap 1 true =
          .ok (after, some result) ∧
        units .little (after.bytes result) = [0xfeff, 0xdfff] ∧
        fromUtf16 (some bufferMallocMax) .little after result true =
          .ok (again, none) := by
  have created := reached_initial.next
    ⟨.createAlloc [0xed, 0xbf, 0xbf], by decide, rfl⟩
  exact ⟨_, _, _, _, created, rfl, rfl, rfl, rfl, rfl⟩

/-- A letter and a character of four bytes are written as a unit and a pair. -/
theorem pair_wellFormedOutput :
    ∃ heap after result,
      Reachable (· = Heap.initial) Step heap ∧
        heap.bytes 1 = [0x61, 0xf0, 0x9f, 0x98, 0x80] ∧
        toUtf16 (some bufferMallocMax) .little heap 1 true =
          .ok (after, some result) ∧
        units .little (after.bytes result) =
          [0xfeff, 0x61, 0xd83d, 0xde00] ∧
        WellFormedOutput .little after result := by
  have created := reached_initial.next
    ⟨.createAlloc [0x61, 0xf0, 0x9f, 0x98, 0x80], by decide, rfl⟩
  obtain ⟨heap, reached, holds, one, text, after, result, returns,
      written⟩ :
      ∃ heap,
        Reachable (· = Heap.initial) Step heap ∧ heap.Holds 1 ∧
          (heap.regions 1).length = 1 ∧
          heap.bytes 1 = [0x61, 0xf0, 0x9f, 0x98, 0x80] ∧
          ∃ after result,
            toUtf16 (some bufferMallocMax) .little heap 1 true =
                .ok (after, some result) ∧
              units .little (after.bytes result) =
                [0xfeff, 0x61, 0xd83d, 0xde00] :=
    ⟨_, created, show 1 < 2 by decide, rfl, rfl, _, _, rfl, rfl⟩
  refine ⟨heap, after, result, reached, text, returns, written,
    (reachable_wellFormedOutput_iff reached holds one .little returns).mpr ?_⟩
  rintro ⟨position, -, inside, -, last⟩
  rw [text] at inside last
  change position < 5 at inside
  interval_cases position <;> exact absurd last (by decide)

end LibDispatch.Data
