import LibDispatch.TransformFromUtf16
import LibDispatch.TransformToUtf16

namespace LibDispatch.Data

/-!
# UTF-16 text

A byte string is well-formed UTF-16 if its units are those of some characters.
`_dispatch_transform_from_utf16` accepts exactly this text in one region, but
for text that is cut inside of a pair of surrogates in the middle of a unit,
where it reads beyond the region.
-/

open Text (Reader Reading drop_of_append)

/-! ## Characters and units -/

/-- The first unit of a pair. -/
def IsHigh (unit : Nat) : Prop :=
  0xd800 ≤ unit ∧ unit ≤ 0xdbff

/-- The second unit of a pair. -/
def IsLow (unit : Nat) : Prop :=
  0xdc00 ≤ unit ∧ unit ≤ 0xdfff

/-- The units of a character in UTF-16. -/
def utf16Encode (char : Char) : List Nat :=
  if char.toNat < 0x10000 then
    [char.toNat]
  else
    [0xd800 + (char.toNat - 0x10000) / 0x400,
      0xdc00 + (char.toNat - 0x10000) % 0x400]

variable (order : ByteOrder)

/-- The bytes of some characters in UTF-16. -/
def utf16Text (chars : List Char) : List UInt8 :=
  chars.flatMap fun char => (utf16Encode char).flatMap order.store

theorem utf16Text_cons
    (char : Char)
    (chars : List Char) :
    utf16Text order (char :: chars) =
      utf16Text order [char] ++ utf16Text order chars := by
  simp [utf16Text]

/-- The bytes of some characters in UTF-8. -/
def utf8Text (chars : List Char) : List UInt8 :=
  chars.flatMap String.utf8EncodeChar

theorem toNat_cases (char : Char) :
    char.toNat < 0xd800 ∨ 0xdfff < char.toNat ∧ char.toNat < 0x110000 :=
  char.valid

/-- A code that is not that of a surrogate is that of a character. -/
theorem exists_char
    {code : Nat}
    (small : code < 0x110000)
    (noSurrogate : code < 0xd800 ∨ 0xdfff < code) :
    ∃ char : Char, char.toNat = code := by
  have valid : code.isValidChar := by
    rcases noSurrogate with below | above
    · exact .inl below
    · exact .inr ⟨above, small⟩
  refine ⟨Char.ofNat code, ?_⟩
  rw [Char.ofNat, dif_pos valid]
  rfl

variable {char : Char}

theorem utf16Encode_of_small
    (small : char.toNat < 0x10000) :
    utf16Encode char = [char.toNat] :=
  if_pos small

/-- A character of two units. -/
theorem utf16Encode_of_large
    (large : 0x10000 ≤ char.toNat) :
    ∃ high low,
      utf16Encode char = [high, low] ∧ IsHigh high ∧ IsLow low ∧
        pairCode high low = char.toNat := by
  have valid := toNat_cases char
  refine ⟨_, _, if_neg (Nat.not_lt.mpr large), ⟨by omega, by omega⟩,
    ⟨by omega, by omega⟩, ?_⟩
  rw [pairCode_eq]
  omega

/-- A pair of units is a character. -/
theorem exists_char_of_pair
    {high low : Nat}
    (isHigh : IsHigh high)
    (isLow : IsLow low) :
    ∃ char : Char,
      utf16Encode char = [high, low] ∧ pairCode high low = char.toNat := by
  obtain ⟨highLeast, highMost⟩ := isHigh
  obtain ⟨lowLeast, lowMost⟩ := isLow
  have code := @pairCode_eq high low
  obtain ⟨char, same⟩ := @exists_char (pairCode high low) (by omega)
    (by omega)
  have first : 0xd800 + (char.toNat - 0x10000) / 0x400 = high := by omega
  have second : 0xdc00 + (char.toNat - 0x10000) % 0x400 = low := by omega
  refine ⟨char, ?_, same.symm⟩
  rw [utf16Encode, if_neg (by omega), first, second]

theorem utf8Bytes_eq (char : Char) :
    utf8Bytes char.toNat = String.utf8EncodeChar char := by
  have valid := toNat_cases char
  have mask (code : Nat) : code &&& 0x3f = code % 64 :=
    Nat.and_two_pow_sub_one_eq_mod code 6
  have lead (high bits : Nat) {low : Nat} (small : low < 2 ^ bits) :
      high * 2 ^ bits ||| low = low + high * 2 ^ bits :=
    calc
      high * 2 ^ bits ||| low = high <<< bits ||| low := by
        rw [Nat.shiftLeft_eq]
      _ = low + high * 2 ^ bits := by rw [shiftLeft_or small, Nat.add_comm]
  have follows (code : Nat) : 0x80 ||| code % 64 = code % 64 + 128 :=
    lead 2 6 (Nat.mod_lt code (by decide))
  change utf8Bytes char.val.toNat = _
  change char.val.toNat < _ ∨ _ < char.val.toNat ∧ char.val.toNat < _ at valid
  rw [utf8Bytes, String.utf8EncodeChar]
  generalize char.val.toNat = code at valid ⊢
  simp only [Nat.shiftRight_eq_div_pow, mask, follows]
  by_cases one : code < 0x80
  · have byte : code &&& 0xff = code := by
      rw [Nat.and_two_pow_sub_one_eq_mod code 8]
      omega
    rw [if_pos one, if_pos (show code ≤ 127 by omega), byte]
  · rw [if_neg one, if_neg (show ¬ code ≤ 127 by omega)]
    by_cases two : code < 0x800
    · have first : 0xc0 ||| code / 2 ^ 6 = code / 64 % 32 + 192 := by
        have split : 0xc0 ||| code / 2 ^ 6 = code / 2 ^ 6 + 0xc0 :=
          lead 6 5 (by omega)
        omega
      rw [if_pos two, if_pos (show code ≤ 2047 by omega), first]
    · rw [if_neg two, if_neg (show ¬ code ≤ 2047 by omega)]
      by_cases three : code < 0x10000
      · have first : 0xe0 ||| code / 2 ^ 12 = code / 4096 % 16 + 224 := by
          have split : 0xe0 ||| code / 2 ^ 12 = code / 2 ^ 12 + 0xe0 :=
            lead 14 4 (by omega)
          omega
        rw [if_pos three, if_pos (show code ≤ 65535 by omega), first]
      · have first : 0xf0 ||| code / 2 ^ 18 = code / 262144 % 8 + 240 := by
          have split : 0xf0 ||| code / 2 ^ 18 = code / 2 ^ 18 + 0xf0 :=
            lead 30 3 (by omega)
          omega
        rw [if_neg three, if_neg (show ¬ code ≤ 65535 by omega), first]

/-- Two bytes are a unit. -/
theorem ByteOrder.exists_unit
    (first second : UInt8) :
    ∃ unit < 0x10000, order.store unit = [first, second] := by
  have smallFirst := first.toNat_lt
  have smallSecond := second.toNat_lt
  cases order with
  | little =>
    refine ⟨first.toNat + second.toNat * 256, by omega, ?_⟩
    have high : (first.toNat + second.toNat * 256) / 256 = second.toNat := by
      omega
    rw [store, high, UInt8.ofNat_toNat]
    congr 1
    apply UInt8.toNat_inj.mp
    rw [UInt8.toNat_ofNat']
    omega
  | big =>
    refine ⟨first.toNat * 256 + second.toNat, by omega, ?_⟩
    have high : (first.toNat * 256 + second.toNat) / 256 = first.toNat := by
      omega
    rw [store, high, UInt8.ofNat_toNat]
    congr 2
    apply UInt8.toNat_inj.mp
    rw [UInt8.toNat_ofNat']
    omega

/-! ## Reading in one region -/

variable {byte : UInt8} {chars : List Char}

section OneRegion

variable {order : ByteOrder} {text others : List UInt8} {position unit : Nat}

theorem firstUnit_of_byte
    (next : text.drop position = [byte]) :
    firstUnit order text position text.length 0 = .ok none := by
  have length := congrArg List.length next
  rw [List.length_drop, List.length_singleton] at length
  rw [firstUnit, if_pos (by omega), mappedUnit, if_pos (by omega)]

section

variable (next : text.drop position = order.store unit ++ others)

include next

/-- A unit at a position is inside of the region, and is loaded from it. -/
theorem regionUnit_of_unit
    (small : unit < 0x10000) :
    position + 2 ≤ text.length ∧
      regionUnit order text position text.length = .ok (some unit) := by
  have length := congrArg List.length next
  rw [List.length_drop, List.length_append, order.length_store] at length
  have all : (text.drop position).take (text.length - position) =
      text.drop position :=
    List.take_of_length_le (by rw [List.length_drop])
  rw [regionUnit, all, next, order.load_store small]
  exact ⟨by omega, rfl⟩

theorem firstUnit_of_unit
    (small : unit < 0x10000) :
    firstUnit order text position text.length 0 = .ok (some unit) := by
  obtain ⟨inside, loads⟩ := regionUnit_of_unit next small
  rw [firstUnit, if_neg (by omega), loads]

omit next in
theorem secondUnit_of_end
    (after : text.length = position) :
    secondUnit order text position text.length 0 = .ok none := by
  rw [secondUnit, if_pos (by omega), mappedUnit, if_pos (by omega)]

omit next in
theorem secondUnit_of_byte
    (next : text.drop position = [byte]) :
    secondUnit order text position text.length 0 = .error .overrun := by
  have length := congrArg List.length next
  rw [List.length_drop, List.length_singleton] at length
  have all : (text.drop position).take (text.length - position) = [byte] := by
    rw [next, length]
    rfl
  rw [secondUnit, if_neg (by omega), regionUnit, all]
  rfl

theorem secondUnit_of_unit
    (small : unit < 0x10000) :
    secondUnit order text position text.length 0 = .ok (some unit) := by
  obtain ⟨inside, loads⟩ := regionUnit_of_unit next small
  rw [secondUnit, if_neg (by omega), loads]

/-- What is read at a unit, but for byte order marks at the beginning. -/
theorem readWhole_of_unit
    (small : unit < 0x10000)
    (noMark : position = 0 → unit ≠ 0xfeff ∧ unit ≠ 0xfffe) :
    (utf16Reader order).readWhole text position =
      utf8Output order text position text.length 0 unit := by
  change readUtf16 order text position text.length 0 = _
  rw [readUtf16, firstUnit_of_unit next small, Reading.andThen_some,
    if_neg (fun both => (noMark both.2).2 both.1),
    if_neg (fun both => (noMark both.2).1 both.1)]

end

/-- What is read at a character. -/
theorem readWhole_of_char
    (next : text.drop position = utf16Text order [char] ++ others)
    (noMark :
      position = 0 → char.toNat ≠ 0xfeff ∧ char.toNat ≠ 0xfffe) :
    (utf16Reader order).readWhole text position =
      .ok (some (String.utf8EncodeChar char,
        (utf16Text order [char]).length)) := by
  have valid := toNat_cases char
  rw [utf16Text, List.flatMap_cons, List.flatMap_nil, List.append_nil]
    at next ⊢
  by_cases small : char.toNat < 0x10000
  · rw [utf16Encode_of_small small, List.flatMap_cons, List.flatMap_nil,
      List.append_nil] at next ⊢
    rw [readWhole_of_unit next small noMark, utf8Output,
      if_neg (by omega), if_neg (by omega), utf8Bytes_eq, order.length_store]
  · obtain ⟨high, low, encodes, ⟨highLeast, highMost⟩, ⟨lowLeast, lowMost⟩,
      code⟩ := utf16Encode_of_large (Nat.not_lt.mp small)
    rw [encodes, List.flatMap_cons, List.flatMap_cons, List.flatMap_nil,
      List.append_nil] at next ⊢
    rw [List.append_assoc] at next
    have after := drop_of_append next
    rw [order.length_store] at after
    rw [readWhole_of_unit next (by omega) (fun _ => by omega), utf8Output,
      if_pos ⟨highLeast, highMost⟩,
      secondUnit_of_unit after (by omega), Reading.andThen_some,
      if_pos ⟨lowLeast, lowMost⟩, code, utf8Bytes_eq, List.length_append,
      order.length_store, order.length_store]

section

variable
  (noMark :
    position = 0 → ∀ char ∈ chars.head?,
      char.toNat ≠ 0xfeff ∧ char.toNat ≠ 0xfffe)

include noMark

/-- Some characters and what is read after them. -/
theorem rest_of_chars
    (next : text.drop position = utf16Text order chars ++ others) :
    (utf16Reader order).rest text position =
      ((utf16Reader order).rest text
        (position + (utf16Text order chars).length)).andThen fun outputs =>
          .ok (some (chars.map String.utf8EncodeChar ++ outputs)) := by
  induction chars generalizing position with
  | nil =>
    rcases reads : (utf16Reader order).rest text position with
      failure | _ | outputs <;> simp [utf16Text, reads]
  | cons char chars inductionHypothesis =>
    have split := utf16Text_cons order char chars
    rw [split, List.append_assoc] at next
    have reads := readWhole_of_char next
      (fun zero => noMark zero char rfl)
    have positive := (utf16Reader order).advances reads
    rw [Reader.rest_of_word next reads,
      inductionHypothesis (fun zero => by omega) (drop_of_append next), split,
      List.length_append, Nat.add_assoc, Reading.andThen_assoc]
    rfl

/-- Only characters. -/
theorem rest_of_text
    (next : text.drop position = utf16Text order chars)
    (within : position ≤ text.length) :
    (utf16Reader order).rest text position =
      .ok (some (chars.map String.utf8EncodeChar)) := by
  have length := congrArg List.length next
  rw [List.length_drop] at length
  have done : text.length ≤ position + (utf16Text order chars).length := by
    omega
  rw [rest_of_chars noMark (next.trans (List.append_nil _).symm),
    Reader.rest_of_done done, Reading.andThen_some, List.append_nil]

/-- Text that is cut in the second unit of a pair is read beyond its end. -/
theorem rest_of_cut
    (next :
      text.drop position =
        utf16Text order chars ++ (order.store unit ++ [byte]))
    (isHigh : IsHigh unit) :
    (utf16Reader order).rest text position = .error .overrun := by
  obtain ⟨least, most⟩ := isHigh
  have after := drop_of_append next
  have last := drop_of_append after
  rw [order.length_store] at last
  have inside : position + (utf16Text order chars).length < text.length := by
    have length := congrArg List.length last
    rw [List.length_drop, List.length_singleton] at length
    omega
  rw [rest_of_chars noMark next, Reader.rest_of_inside inside,
    readWhole_of_unit after (by omega) (fun _ => by omega), utf8Output,
    if_pos ⟨least, most⟩, secondUnit_of_byte last]
  rfl

end

/-- What the rest of a text is. -/
def RestIs (order : ByteOrder) (text : List UInt8) (position : Nat) : Prop :=
  (∃ chars, text.drop position = utf16Text order chars) ∨
    (∃ chars unit byte, IsHigh unit ∧
      text.drop position =
        utf16Text order chars ++ (order.store unit ++ [byte])) ∨
    (utf16Reader order).rest text position = .ok none

/-- A character is added in front. -/
theorem RestIs.cons
    (next : text.drop position = utf16Text order [char] ++ others)
    (noMark :
      position = 0 → char.toNat ≠ 0xfeff ∧ char.toNat ≠ 0xfffe)
    (later :
      RestIs order text (position + (utf16Text order [char]).length)) :
    RestIs order text position := by
  rw [RestIs, drop_of_append next] at later
  rcases later with ⟨chars, rfl⟩ | ⟨chars, unit, byte, isHigh, rfl⟩ | refused
  · exact .inl ⟨char :: chars, next.trans (utf16Text_cons order char chars).symm⟩
  · refine .inr (.inl ⟨char :: chars, unit, byte, isHigh, ?_⟩)
    rw [next, utf16Text_cons order char chars, List.append_assoc]
  · refine .inr (.inr ?_)
    rw [Reader.rest_of_word next (readWhole_of_char next noMark), refused]
    rfl

/-- Text that is neither well formed nor cut in a pair is refused. -/
theorem rest_cases
    (within : position ≤ text.length)
    (noMark :
      position = 0 → ∀ unit others, unit < 0x10000 →
        text = order.store unit ++ others → unit ≠ 0xfeff ∧ unit ≠ 0xfffe) :
    RestIs order text position := by
  generalize measure : text.length - position = length
  induction length using Nat.strongRecOn generalizing position with
  | ind length inductionHypothesis =>
  subst measure
  rcases next : text.drop position with _ | ⟨first, _ | ⟨second, others⟩⟩
  · exact .inl ⟨[], next⟩
  · have inside : position < text.length := by
      have length := congrArg List.length next
      rw [List.length_drop, List.length_singleton] at length
      omega
    refine .inr (.inr ?_)
    rw [Reader.rest_of_inside inside]
    change (readUtf16 order text position text.length 0).andThen _ = _
    rw [readUtf16, firstUnit_of_byte next]
    rfl
  · obtain ⟨unit, small, stores⟩ := order.exists_unit first second
    have here : text.drop position = order.store unit ++ others := by
      rw [next, stores]
      rfl
    have unitMark : position = 0 → unit ≠ 0xfeff ∧ unit ≠ 0xfffe := by
      intro zero
      refine noMark zero unit others small ?_
      rw [← here, zero, List.drop_zero]
    have length := congrArg List.length here
    rw [List.length_drop, List.length_append, order.length_store] at length
    have inside : position < text.length := by omega
    have reads := readWhole_of_unit here small unitMark
    have after := drop_of_append here
    rw [order.length_store] at after
    -- A refused first character refuses the rest.
    have refused (none : utf8Output order text position text.length 0 unit =
        .ok none) : RestIs order text position := by
      refine .inr (.inr ?_)
      rw [Reader.rest_of_inside inside, reads, none]
      rfl
    by_cases high : unit ≥ 0xd800 ∧ unit ≤ 0xdbff
    · rcases others with _ | ⟨third, _ | ⟨fourth, others⟩⟩
      · refine refused ?_
        rw [utf8Output, if_pos high,
          secondUnit_of_end (by rw [List.length_nil] at length; omega)]
        rfl
      · exact .inr (.inl ⟨[], unit, third, high, here⟩)
      · obtain ⟨another, otherSmall, otherStores⟩ :=
          order.exists_unit third fourth
        have there : text.drop (position + 2) =
            order.store another ++ others := by
          rw [after, otherStores]
          rfl
        by_cases low : another ≥ 0xdc00 ∧ another ≤ 0xdfff
        · obtain ⟨char, encodes, code⟩ := exists_char_of_pair high low
          have encoded : utf16Text order [char] =
              order.store unit ++ order.store another := by
            simp [utf16Text, encodes]
          have sized : (utf16Text order [char]).length = 4 := by
            rw [encoded, List.length_append, order.length_store,
              order.length_store]
          have large := @pairCode_eq unit another
          rw [List.length_cons, List.length_cons] at length
          have begins : text.drop position =
              utf16Text order [char] ++ others := by
            rw [here, encoded, List.append_assoc, ← there, after]
          refine RestIs.cons begins (fun _ => by omega) ?_
          rw [sized]
          exact inductionHypothesis _ (by omega) (by omega)
            (fun zero => by omega) rfl
        · refine refused ?_
          rw [utf8Output, if_pos high, secondUnit_of_unit there otherSmall,
            Reading.andThen_some, if_neg low]
    · by_cases low : unit ≥ 0xdc00 ∧ unit ≤ 0xdfff
      · refine refused ?_
        rw [utf8Output, if_neg high, if_pos low]
      · obtain ⟨char, code⟩ := @exists_char unit (by omega) (by omega)
        have encoded : utf16Text order [char] = order.store unit := by
          simp [utf16Text, utf16Encode, code, small]
        have sized : (utf16Text order [char]).length = 2 := by
          rw [encoded, order.length_store]
        have begins : text.drop position =
            utf16Text order [char] ++ others := by
          rw [here, encoded]
        refine RestIs.cons begins (code ▸ unitMark) ?_
        rw [sized]
        exact inductionHypothesis _ (by omega) (by omega)
          (fun zero => by omega) rfl

end OneRegion

/-! ## Byte order marks -/

/-- The characters after a byte order mark. -/
def withoutMark : List Char → List Char
  | [] => []
  | char :: chars => if char.toNat = 0xfeff then chars else char :: chars

/-- The text does not begin with a byte order mark of the other order. -/
def NotSwapped (chars : List Char) : Prop :=
  ∀ char ∈ chars.head?, char.toNat ≠ 0xfffe

section Marks

variable {order : ByteOrder} {text : List UInt8}

theorem whole_of_mark
    {others : List UInt8}
    (begins : text = order.store 0xfeff ++ others) :
    (utf16Reader order).whole text =
      ((utf16Reader order).rest text 2).andThen fun outputs =>
        .ok (some ([] :: outputs)) := by
  have inside : 0 < text.length := by
    rw [begins, List.length_append, order.length_store]
    omega
  have reads : (utf16Reader order).readWhole text 0 = .ok (some ([], 2)) := by
    change readUtf16 order text 0 text.length 0 = _
    rw [readUtf16, firstUnit_of_unit (List.drop_zero.trans begins)
      (by decide)]
    rfl
  rw [Reader.whole_eq_rest, Reader.rest_of_inside inside, reads]
  rfl

theorem whole_of_swapped
    {others : List UInt8}
    (begins : text = order.store 0xfffe ++ others) :
    (utf16Reader order).whole text = .ok none := by
  have inside : 0 < text.length := by
    rw [begins, List.length_append, order.length_store]
    omega
  have reads : (utf16Reader order).readWhole text 0 = .ok none := by
    change readUtf16 order text 0 text.length 0 = _
    rw [readUtf16, firstUnit_of_unit (List.drop_zero.trans begins)
      (by decide)]
    rfl
  rw [Reader.whole_eq_rest, Reader.rest_of_inside inside, reads]
  rfl

/-- A text that begins with the byte order mark. -/
theorem utf16Text_of_mark
    (mark : char.toNat = 0xfeff)
    (chars : List Char) :
    utf16Text order (char :: chars) =
      order.store 0xfeff ++ utf16Text order chars := by
  rw [utf16Text_cons]
  simp [utf16Text, utf16Encode, mark]

/-- The mark is the only character that is dropped. -/
theorem whole_of_text
    (same : text = utf16Text order chars)
    (notSwapped : NotSwapped chars) :
    ∃ outputs,
      (utf16Reader order).whole text = .ok (some outputs) ∧
        outputs.flatten = utf8Text (withoutMark chars) := by
  by_cases marked : ∃ char ∈ chars.head?, char.toNat = 0xfeff
  · obtain ⟨char, first, mark⟩ := marked
    obtain ⟨others, rfl⟩ : ∃ others, chars = char :: others :=
      ⟨_, (List.cons_head?_tail first).symm⟩
    rw [utf16Text_of_mark mark] at same
    have after : text.drop 2 = utf16Text order others := by
      rw [same, ← order.length_store 0xfeff, List.drop_left]
    have within : 2 ≤ text.length := by
      rw [same, List.length_append, order.length_store]
      omega
    refine ⟨[] :: others.map String.utf8EncodeChar, ?_, ?_⟩
    · rw [whole_of_mark same,
        rest_of_text (fun zero => absurd zero (by decide)) after within]
      rfl
    · rw [withoutMark, if_pos mark, List.flatten_cons, List.nil_append,
        utf8Text, List.flatMap_def]
  · refine ⟨chars.map String.utf8EncodeChar, ?_, ?_⟩
    · rw [Reader.whole_eq_rest]
      refine rest_of_text ?_ (List.drop_zero.trans same) (Nat.zero_le _)
      intro _ char first
      exact ⟨fun mark => marked ⟨char, first, mark⟩, notSwapped char first⟩
    · have unmarked : withoutMark chars = chars := by
        cases chars with
        | nil => rfl
        | cons char others =>
          exact if_neg fun mark => marked ⟨char, rfl, mark⟩
      rw [unmarked, utf8Text, List.flatMap_def]

theorem whole_of_cut
    {unit : Nat}
    (isHigh : IsHigh unit)
    (same : text = utf16Text order chars ++ (order.store unit ++ [byte]))
    (notSwapped : NotSwapped chars) :
    (utf16Reader order).whole text = .error .overrun := by
  by_cases marked : ∃ char ∈ chars.head?, char.toNat = 0xfeff
  · obtain ⟨char, first, mark⟩ := marked
    obtain ⟨others, rfl⟩ : ∃ others, chars = char :: others :=
      ⟨_, (List.cons_head?_tail first).symm⟩
    rw [utf16Text_of_mark mark, List.append_assoc] at same
    have after : text.drop 2 =
        utf16Text order others ++ (order.store unit ++ [byte]) := by
      rw [same, ← order.length_store 0xfeff, List.drop_left]
    rw [whole_of_mark same,
      rest_of_cut (fun zero => absurd zero (by decide)) after isHigh]
    rfl
  · rw [Reader.whole_eq_rest]
    refine rest_of_cut ?_ (List.drop_zero.trans same) isHigh
    intro _ char first
    exact ⟨fun mark => marked ⟨char, first, mark⟩, notSwapped char first⟩

/-- A text is well formed, cut in a pair or refused. -/
theorem whole_cases (order : ByteOrder) (text : List UInt8) :
    (∃ chars, text = utf16Text order chars ∧ NotSwapped chars) ∨
      (∃ chars unit byte, IsHigh unit ∧
        text = utf16Text order chars ++ (order.store unit ++ [byte]) ∧
        NotSwapped chars) ∨
      (utf16Reader order).whole text = .ok none := by
  by_cases swapped : ∃ others, text = order.store 0xfffe ++ others
  · obtain ⟨others, begins⟩ := swapped
    exact .inr (.inr (whole_of_swapped begins))
  · have notSwapped {chars : List Char} {others : List UInt8}
        (same : text = utf16Text order chars ++ others) :
        NotSwapped chars := by
      intro char first isSwapped
      obtain ⟨rest, rfl⟩ : ∃ rest, chars = char :: rest :=
        ⟨_, (List.cons_head?_tail first).symm⟩
      refine swapped ⟨utf16Text order rest ++ others, ?_⟩
      rw [same, utf16Text_cons, List.append_assoc]
      simp [utf16Text, utf16Encode, isSwapped]
    by_cases marked : ∃ others, text = order.store 0xfeff ++ others
    · obtain ⟨others, begins⟩ := marked
      obtain ⟨mark, code⟩ := @exists_char 0xfeff (by decide) (by decide)
      have within : 2 ≤ text.length := by
        rw [begins, List.length_append, order.length_store]
        omega
      have after : text.drop 2 = others := by
        rw [begins, ← order.length_store 0xfeff, List.drop_left]
      have cases := @rest_cases order text 2 within
        (fun zero => absurd zero (by decide))
      rw [RestIs, after] at cases
      rcases cases with ⟨chars, rfl⟩ | ⟨chars, unit, byte, isHigh, rfl⟩ |
        refused
      · have same : text = utf16Text order (mark :: chars) := by
          rw [begins, utf16Text_of_mark code]
        exact .inl ⟨mark :: chars, same,
          notSwapped (same.trans (List.append_nil _).symm)⟩
      · have same : text = utf16Text order (mark :: chars) ++
            (order.store unit ++ [byte]) := by
          rw [begins, utf16Text_of_mark code, List.append_assoc]
        exact .inr (.inl ⟨mark :: chars, unit, byte, isHigh, same,
          notSwapped same⟩)
      · refine .inr (.inr ?_)
        rw [whole_of_mark begins, refused]
        rfl
    · have cases := @rest_cases order text 0 (Nat.zero_le _)
        (fun _ unit others small begins =>
          ⟨fun mark => marked ⟨others, mark ▸ begins⟩,
            fun swap => swapped ⟨others, swap ▸ begins⟩⟩)
      rw [RestIs, List.drop_zero, ← Reader.whole_eq_rest] at cases
      rcases cases with ⟨chars, same⟩ | ⟨chars, unit, byte, isHigh, same⟩ |
        refused
      · exact .inl ⟨chars, same,
          notSwapped (same.trans (List.append_nil _).symm)⟩
      · exact .inr (.inl ⟨chars, unit, byte, isHigh, same, notSwapped same⟩)
      · exact .inr (.inr refused)

end Marks

end LibDispatch.Data
