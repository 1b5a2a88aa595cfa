import LibDispatch.TransformBuffer
import LibDispatch.TransformCharacters
import LibDispatch.TransformEncode

namespace LibDispatch.Data

/-!
# From UTF-16 to UTF-8

What `_dispatch_transform_from_utf16` writes for an object depends on the bytes
of the object and on the lengths of its regions.  A unit that crosses the end of
its region, and the second unit of a pair if it is not in the region, are read
as many bytes too early as were skipped at the beginning of the region.  A
second unit of which only the first byte is in the region is read beyond it.
-/

open Text (Reader Reading)

variable {heap : Heap} {data : Nat}

/-! ## Units -/

variable (order : ByteOrder)

/-- Only two bytes are read. -/
theorem ByteOrder.load_take
    (bytes : List UInt8) :
    order.load (bytes.take 2) = order.load bytes := by
  rcases bytes with _ | ⟨first, _ | ⟨second, others⟩⟩ <;> rfl

/-- A unit that is read from a map. -/
def mappedUnit
    (text : List UInt8)
    (position : Nat) : Reading Failure Nat :=
  if text.length < position + 2 then
    .ok none
  else
    (order.load (text.drop position)).map some

/-- A unit that is read from the rest of its region. -/
def regionUnit
    (text : List UInt8)
    (position stop : Nat) : Reading Failure Nat :=
  (order.load ((text.drop position).take (stop - position))).map some

/-- The first unit of a character. -/
def firstUnit
    (text : List UInt8)
    (position stop lag : Nat) : Reading Failure Nat :=
  if position + 1 = stop then
    mappedUnit order text (position - lag)
  else
    regionUnit order text position stop

/-- The second unit of a character. -/
def secondUnit
    (text : List UInt8)
    (position stop lag : Nat) : Reading Failure Nat :=
  if stop ≤ position then
    mappedUnit order text (position - lag)
  else
    regionUnit order text position stop

/-- The code of a pair of units. -/
def pairCode (first second : Nat) : Nat :=
  (((first - 0xd800) <<< 10) ||| (second &&& 0x3ff)) + 0x10000

variable {first : Nat}

theorem pairCode_eq
    {second : Nat} :
    pairCode first second =
      (first - 0xd800) * 1024 + second % 1024 + 0x10000 := by
  have low : second % 2 ^ 10 < 2 ^ 10 := Nat.mod_lt _ (by decide)
  have mask : second &&& 0x3ff = second % 2 ^ 10 :=
    Nat.and_two_pow_sub_one_eq_mod second 10
  rw [pairCode, mask, shiftLeft_or low]
  rfl

variable {text : List UInt8}

theorem firstUnit_lt
    {order : ByteOrder}
    {position stop lag unit : Nat}
    (reads : firstUnit order text position stop lag = .ok (some unit)) :
    unit < 0x10000 := by
  rw [firstUnit, mappedUnit, regionUnit] at reads
  split_ifs at reads
  · cases reads
  · exact ByteOrder.load_lt (Reading.eq_ok_of_map reads)
  · exact ByteOrder.load_lt (Reading.eq_ok_of_map reads)

/-- What is written for a character that begins with a unit, and the number of
its bytes. -/
def utf8Output
    (text : List UInt8)
    (position stop lag first : Nat) : Reading Failure (List UInt8 × Nat) :=
  if first ≥ 0xd800 ∧ first ≤ 0xdbff then
    (secondUnit order text (position + 2) stop lag).andThen fun second =>
      if second ≥ 0xdc00 ∧ second ≤ 0xdfff then
        .ok (some (utf8Bytes (pairCode first second), 4))
      else
        .ok none
  else if first ≥ 0xdc00 ∧ first ≤ 0xdfff then
    .ok none
  else
    .ok (some (utf8Bytes first, 2))

/-- What `_dispatch_transform_from_utf16` reads at a position: nothing for the
byte order mark at the beginning. -/
def readUtf16
    (text : List UInt8)
    (position stop lag : Nat) : Reading Failure (List UInt8 × Nat) :=
  (firstUnit order text position stop lag).andThen fun first =>
    if first = 0xfffe ∧ position = 0 then
      .ok none
    else if first = 0xfeff ∧ position = 0 then
      .ok (some ([], 2))
    else
      utf8Output order text position stop lag first

theorem utf8Output_size
    {order : ByteOrder}
    {output : List UInt8}
    {position stop lag size : Nat}
    (reads :
      utf8Output order text position stop lag first =
        .ok (some (output, size))) :
    size = 2 ∨ size = 4 := by
  rw [utf8Output] at reads
  split_ifs at reads
  · obtain ⟨second, -, reads⟩ := Reading.andThen_eq_some reads
    split_ifs at reads
    · injection reads with reads
      injection reads with reads
      injection reads with _ length
      exact .inr length.symm
    · cases reads
  · cases reads
  · cases reads
    exact .inl rfl

theorem readUtf16_size
    {order : ByteOrder}
    {output : List UInt8}
    {position stop lag size : Nat}
    (reads :
      readUtf16 order text position stop lag = .ok (some (output, size))) :
    size = 2 ∨ size = 4 := by
  obtain ⟨first, -, reads⟩ := Reading.andThen_eq_some reads
  split_ifs at reads
  · cases reads
  · cases reads
    exact .inl rfl
  · exact utf8Output_size reads

/-- The reader of `_dispatch_transform_from_utf16`. -/
def utf16Reader : Reader Failure UInt8 UInt8 where
  read := readUtf16 order
  advances := by
    intro text position stop lag output size reads
    have sizes := readUtf16_size reads
    omega

theorem utf8Bytes_length (code : Nat) :
    0 < (utf8Bytes code).length ∧ (utf8Bytes code).length ≤ 4 := by
  unfold utf8Bytes
  split_ifs <;> simp

theorem utf8Bytes_length_le
    {code : Nat}
    (small : code < 0x10000) :
    (utf8Bytes code).length ≤ 3 := by
  unfold utf8Bytes
  split_ifs <;> simp

/-! ## Regions -/

theorem unitCount_eq (size : Nat) :
    unitCount size = (size + 1) / 2 := by
  rw [unitCount]
  split_ifs <;> omega

variable
  (wellFormed : heap.WellFormed)
  (holds : heap.Holds data)
  (denotes : heap.bytes data = text)

include wellFormed holds denotes

theorem unitAhead_eq
    (offset : Nat)
    (order : ByteOrder) :
    unitAhead heap data offset order true =
      mappedUnit order text offset := by
  subst denotes
  rw [unitAhead, mappedUnit]
  by_cases beyond : (heap.bytes data).length < offset + 2
  · rw [if_pos beyond,
      wellFormed.subrangeMap_beyond holds beyond (by decide)]
    rfl
  · obtain ⟨pointer, maps, same⟩ :=
      wellFormed.subrangeMap holds (by decide) (Nat.le_of_not_lt beyond)
    rw [if_neg beyond, maps]
    simp only [bind, Except.bind, same, order.load_take]
    cases order.load ((heap.bytes data).drop offset) <;> rfl

section Region

variable {offset size lag position stop i : Nat}

variable (here : position = offset + lag + i * 2)

include here

variable (ends : stop = offset + lag + size)

include ends

theorem unitAt_eq
    (inside : position < stop)
    (order : ByteOrder) :
    unitAt heap data offset size order true
        ((text.drop (offset + lag)).take size) i =
      (firstUnit order text position stop lag).andThen
        fun first => .ok (some (first, position + 2 - stop)) := by
  rw [unitAt, firstUnit]
  have units := unitCount_eq size
  by_cases crosses : position + 1 = stop
  · have last : i = unitCount size - 1 ∧ unitCount size > size / 2 := by
      omega
    have early : position - lag = offset + i * 2 := by omega
    have ahead : position + 2 - stop = 1 := by omega
    rw [if_pos crosses, if_pos last, early, unitAhead_eq wellFormed holds denotes,
      ahead]
    rcases mappedUnit order text (offset + i * 2) with
      failure | _ | first <;> rfl
  · have inner : ¬ (i = unitCount size - 1 ∧ unitCount size > size / 2) := by
      omega
    have ahead : position + 2 - stop = 0 := by omega
    have count : size - i * 2 = stop - position := by omega
    rw [if_neg crosses, if_neg inner, ahead, regionUnit, List.drop_take,
      List.drop_drop, ← here, count]
    cases order.load ((text.drop position).take (stop - position)) <;> rfl

theorem secondUnitAt_eq :
    ∃ more,
      (stop ≤ position ∧ more = 2 ∨
        position < stop ∧ more = 0) ∧
      secondUnitAt heap data offset size order true
          ((text.drop (offset + lag)).take size) i =
        (secondUnit order text position stop lag).andThen
          fun second => .ok (some (second, more)) := by
  rw [secondUnitAt, secondUnit]
  have units := unitCount_eq size
  by_cases outside : stop ≤ position
  · have beyond : i ≥ unitCount size := by omega
    have early : position - lag = offset + i * 2 := by omega
    refine ⟨2, .inl ⟨outside, rfl⟩, ?_⟩
    rw [if_pos outside, if_pos beyond, early, unitAhead_eq wellFormed holds denotes]
    rcases mappedUnit order text (offset + i * 2) with
      failure | _ | second <;> rfl
  · have inner : ¬ i ≥ unitCount size := by omega
    have count : size - i * 2 = stop - position := by omega
    refine ⟨0, .inr ⟨Nat.lt_of_not_le outside, rfl⟩, ?_⟩
    rw [if_neg outside, if_neg inner, regionUnit, List.drop_take,
      List.drop_drop, ← here, count]
    cases order.load ((text.drop position).take (stop - position)) <;> rfl

omit ends in
omit here in
omit wellFormed holds denotes in
/-- A unit that is read from its region is in the region. -/
theorem le_of_regionUnit
    {order : ByteOrder}
    {unit : Nat}
    (reads : regionUnit order text position stop = .ok (some unit)) :
    position + 2 ≤ stop := by
  rw [regionUnit] at reads
  by_contra short
  have few : ((text.drop position).take (stop - position)).length ≤ 1 := by
    rw [List.length_take]
    omega
  generalize (text.drop position).take (stop - position) = bytes at reads few
  rcases bytes with _ | ⟨first, _ | ⟨second, others⟩⟩
  · cases reads
  · cases reads
  · simp at few

/-- The code of a character, the index of its last unit and the bytes that are
skipped, for what is written and the size. -/
inductive Codes (position stop i : Nat) :
    Reading Failure (List UInt8 × Nat) →
      Except Failure (Option (Nat × Nat × Nat)) → Prop where
  | failure
      {failure : Failure} :
      Codes position stop i (.error failure) (.error failure)
  | bad : Codes position stop i (.ok none) (.ok none)
  | good
      {code last more size : Nat}
      (follows : last * 2 + 2 = i * 2 + size)
      (skipped : position + 2 - stop + more = position + size - stop)
      (few : (utf8Bytes code).length ≤ size + 1 ∧
        (utf8Bytes code).length ≤ 4)
      (sizes : size = 2 ∨ size = 4) :
      Codes position stop i (.ok (some (utf8Bytes code, size)))
        (.ok (some (code, last, more)))

/-- The character that begins with a unit. -/
theorem codeAt_codes
    (inside : position < stop)
    (order : ByteOrder)
    (small : first < 0x10000) :
    Codes position stop i (utf8Output order text position stop lag first)
      (codeAt heap data offset size order true
        ((text.drop (offset + lag)).take size) i first) := by
  rw [codeAt, utf8Output]
  by_cases high : first ≥ 0xd800 ∧ first ≤ 0xdbff
  · obtain ⟨more, skipped, second⟩ := secondUnitAt_eq order wellFormed holds
      denotes (show position + 2 = offset + lag + (i + 1) * 2 by omega) ends
    rw [if_pos high, if_pos high, second]
    rcases reads : secondUnit order text (position + 2) stop
        lag with failure | _ | second
    · exact .failure
    · exact .bad
    · simp only [Reading.andThen_some, bind, Except.bind]
      by_cases low : second ≥ 0xdc00 ∧ second ≤ 0xdfff
      · rw [if_pos low, if_pos low]
        have whole : position + 2 < stop → position + 4 ≤ stop := by
          intro short
          rw [secondUnit, if_neg (Nat.not_le.mpr short)] at reads
          exact le_of_regionUnit reads
        have few := (utf8Bytes_length (pairCode first second)).2
        exact .good (by omega) (by omega) ⟨by omega, few⟩ (.inr rfl)
      · rw [if_neg low, if_neg low]
        exact .bad
  · rw [if_neg high, if_neg high]
    split_ifs
    · exact .bad
    · have few := utf8Bytes_length_le small
      exact .good rfl rfl ⟨few, by omega⟩ (.inl rfl)

end Region

variable {limit : Option Nat}

section Loop

variable
  {offset size lag stop : Nat}
  (ends : stop = offset + lag + size)
  (initial : offset = 0 → lag = 0)
  (within : stop ≤ text.length)
  (bounded : text.length < 2 ^ 62)
  (order : ByteOrder)

include ends initial within bounded

/-- One round of the loop over a region. -/
theorem fromUtf16Loop_rounds
    {position i : Nat}
    (here : position = offset + lag + i * 2)
    (inside : position < stop)
    (limit : Option Nat)
    (buffer : Buffer)
    (fuel : Nat) :
    Rounds limit buffer (3 + 2 * (unitCount size - i))
      (fun length after =>
        fromUtf16Loop heap data offset size order limit true
          ((text.drop (offset + lag)).take size) fuel
          (i + length / 2) ⟨position + length - stop, after⟩)
      (readUtf16 order text position stop lag)
      (fromUtf16Loop heap data offset size order limit true
        ((text.drop (offset + lag)).take size) (fuel + 1) i
        ⟨position - stop, buffer⟩) := by
  have start : offset = 0 ∧ i = 0 ↔ position = 0 := by omega
  have noSkip : position - stop = 0 := by omega
  have units := unitCount_eq size
  have before : i < unitCount size := by omega
  rw [fromUtf16Loop, if_pos before,
    unitAt_eq wellFormed holds denotes here ends inside order, noSkip, readUtf16]
  rcases reads : firstUnit order text position stop lag with
    failure | _ | first
  · exact .failure
  · exact .bad 0
  · simp only [Reading.andThen_some, bind, Except.bind, start, Nat.zero_add]
    by_cases swapped : first = 0xfffe ∧ position = 0
    · rw [if_pos swapped, if_pos swapped]
      exact .bad _
    · rw [if_neg swapped, if_neg swapped]
      by_cases mark : first = 0xfeff ∧ position = 0
      · rw [if_pos mark, if_pos mark]
        exact .silent (by decide)
      · rw [if_neg mark, if_neg mark]
        have codes := codeAt_codes wellFormed holds denotes here ends inside order
          (firstUnit_lt reads)
        generalize utf8Output order text position stop lag
          first = reading at codes ⊢
        generalize codeAt heap data offset size order true
          ((text.drop (offset + lag)).take size) i first =
            outcome at codes ⊢
        cases codes with
        | failure => exact .failure
        | bad => exact .bad _
        | @good code last more length follows skipped short sizes =>
          have positive := (utf8Bytes_length code).1
          have noOverflow : ¬ 2 ^ 64 ≤ (unitCount size - last) * 2 := by
            omega
          have next : last + 1 = i + length / 2 := by omega
          simp only [if_neg noOverflow, skipped, next]
          exact Rounds.written _ (List.ne_nil_of_length_pos positive)
            short.2 (by omega) (by omega) (by omega)

/-- The loop over the rest of a region writes what is read there. -/
theorem fromUtf16Loop_delivers
    (storable : Storable (4 * text.length + 18))
    {fuel position i : Nat}
    (here : position = offset + lag + i * 2)
    (enough : stop - position < fuel)
    {buffer : Buffer}
    {bytes : List UInt8}
    (first :
      i < unitCount size → buffer.size - buffer.written.length < 4 →
        ∀ request, request ≤ 3 + 2 * (unitCount size - i) →
          allows limit request = true)
    (allowed :
      i + 1 < unitCount size →
        ∀ request, request ≤ 3 + 2 * (unitCount size - (i + 1)) →
          allows limit request = true)
    (collects : buffer.Collects bytes)
    (few : bytes.length ≤ 4 * position + 2)
    (near : position < stop + 4) :
    Delivers bytes stop
      ((utf16Reader order).region text stop lag (stop - position)
        position)
      (fromUtf16Loop heap data offset size order limit true
        ((text.drop (offset + lag)).take size) fuel i
        ⟨position - stop, buffer⟩) := by
  have units := unitCount_eq size
  have storableBytes : Storable bytes.length := storable.mono (by omega)
  induction fuel generalizing position i buffer bytes with
  | zero => omega
  | succ fuel inductionHypothesis =>
    by_cases done : stop ≤ position
    · have finished : ¬ i < unitCount size := by omega
      rw [fromUtf16Loop, if_neg finished]
      exact collects.delivers storableBytes few done limit _ _ _
    · have inside : position < stop := Nat.lt_of_not_le done
      have bound : 3 + 2 * (unitCount size - i) < 2 ^ 64 := by omega
      have before : i < unitCount size := by omega
      rw [Reader.region_of_inside inside]
      refine (fromUtf16Loop_rounds wellFormed holds denotes ends initial within
        bounded order here inside limit buffer fuel).delivers
        (fun length => (utf16Reader order).region text stop lag
          (stop - (position + length)) (position + length))
        collects storableBytes few bound (first before) ?_
      intro output length after reads short collected fewer
      have sizes := readUtf16_size reads
      refine inductionHypothesis (by omega) (by omega) ?_ ?_ collected fewer
        (by omega) (storable.mono (by omega))
      · intro more _ request small
        exact allowed (by omega) request (by omega)
      · intro more request small
        exact allowed (by omega) request (by omega)

end Loop

/-! ## Objects -/

theorem fromUtf16Applier_transcodes
    (storable : Storable (4 * text.length + 18))
    (order : ByteOrder)
    (allowed :
      ∀ request, request ≤ text.length + 5 →
        allows limit request = true) :
    Transcodes (utf16Reader order)
      (fromUtf16Applier heap data order limit true) text [] where
  skips := by
    intro region skip buffer inside skipped
    simp only [fromUtf16Applier, fromUtf16Begin, if_neg inside, bind,
      Except.bind, ge_iff_le, if_pos skipped]
    rfl
  writes := by
    intro region skip buffer bytes own within reached initial collects few
    have bounded := storable.bounded
    obtain ⟨after, begins, collected⟩ : ∃ after,
        fromUtf16Begin region.offset region.size limit true buffer =
            .ok (after, true) ∧ after.Collects bytes := by
      rw [fromUtf16Begin]
      split_ifs
      · obtain ⟨after, computes, collected, -, -⟩ :=
          @Buffer.Collects.new limit buffer bytes collects
            (storable.mono (by omega))
            ((region.size + 2) % 2 ^ 64 / 3 * 2) 0 (by omega)
            (fun _ _ => allowed _ (by omega)) (fun _ => rfl)
        exact ⟨after, computes, collected⟩
      · exact ⟨buffer, rfl, collects⟩
    have requests : ∀ request,
        request ≤ 3 + 2 * (unitCount (region.size - skip) - 0) →
          allows limit request = true := by
      intro request least
      rw [unitCount_eq] at least
      exact allowed request (by omega)
    have delivers := fromUtf16Loop_delivers wellFormed holds denotes
      (show region.offset + region.size =
        region.offset + skip + (region.size - skip) by omega)
      (fun first => (initial first).1) within bounded order storable
      (show region.offset + skip = region.offset + skip + 0 * 2 by rfl)
      (show region.offset + region.size - (region.offset + skip) <
        region.size + 1 by omega)
      (fun _ _ => requests)
      (fun _ request small => requests request (by omega))
      collected few (by omega)
    have fuel : region.offset + region.size - (region.offset + skip) =
        region.size - skip := by
      omega
    have ahead : region.offset + skip - (region.offset + region.size) = 0 := by
      omega
    have source : region.buffer.drop skip =
        (text.drop (region.offset + skip)).take
          (region.size - skip) := by
      rw [own, List.drop_take, List.drop_drop]
    rw [ahead, fuel, ← source] at delivers
    simp only [fromUtf16Applier, begins, bind, Except.bind, ge_iff_le, if_pos,
      if_neg (Nat.not_le.mpr reached), ite_self, List.append_nil]
    exact delivers

omit denotes in
/-- What `_dispatch_transform_from_utf16` returns is what is read in the
regions. -/
theorem fromUtf16_transforms
    (storable : Storable (4 * (heap.bytes data).length + 18))
    (order : ByteOrder)
    (allowed :
      ∀ request, request ≤ (heap.bytes data).length + 5 →
        allows limit request = true) :
    Transforms []
      ((utf16Reader order).run (heap.bytes data)
        ((heap.regions data).map Region.size) 0 0)
      (fromUtf16 limit order heap data true) := by
  have transforms := Transcodes.transforms wellFormed holds
    (fromUtf16Applier_transcodes wellFormed holds rfl storable order allowed)
    limit
  rw [ite_self] at transforms
  exact transforms

/-! ## Marked text -/

/-- Text in one region that begins with the byte order mark reaches no limit if
its length does not exceed it. -/
theorem fromUtf16_transforms_of_mark
    (one : (heap.regions data).length = 1)
    (storable : Storable (4 * text.length + 18))
    (order : ByteOrder)
    {others : List UInt8}
    (marked : text = order.store 0xfeff ++ others)
    (even : text.length % 2 = 0)
    {limit : Nat}
    (small : text.length ≤ limit) :
    Transforms [] ((utf16Reader order).whole text)
      (fromUtf16 (some limit) order heap data true) := by
  obtain ⟨region, regions, start, buffer, length, positive⟩ :=
    wellFormed.region_of_one holds one
  rw [denotes] at buffer length positive
  have bounded := storable.bounded
  -- The first buffer is smaller than the text, with room for a character.
  have noWrap : (region.size + 2) % 2 ^ 64 = region.size + 2 :=
    Nat.mod_eq_of_lt (by omega)
  generalize request : (region.size + 2) % 2 ^ 64 / 3 * 2 = first
  have firstSize : 0 < first ∧ first ≤ text.length ∧
      (4 ≤ text.length → 4 ≤ first) := by
    rw [noWrap] at request
    omega
  obtain ⟨fresh, begins, collects, room, empty⟩ : ∃ fresh,
      fromUtf16Begin region.offset region.size (some limit) true
          (Buffer.initial heap) = .ok (fresh, true) ∧
        fresh.Collects [] ∧ fresh.size = first ∧ fresh.written = [] := by
    have allowed : allows (some limit) first = true :=
      decide_eq_true (by omega)
    refine ⟨⟨heap, emptyData, some [], first⟩, ?_, ?_, rfl, rfl⟩
    · rw [fromUtf16Begin, if_pos start, request,
        Buffer.new_initial heap firstSize.1 (by omega), if_pos allowed]
    · exact Buffer.first_collects wellFormed (some []) first
  have source : region.buffer.drop 0 =
      (text.drop (0 + 0)).take text.length := by
    rw [List.drop_zero, List.drop_zero, List.take_length, buffer]
  have mark : readUtf16 order text 0 text.length 0 = .ok (some ([], 2)) := by
    have unit : firstUnit order text 0 text.length 0 = .ok (some 0xfeff) := by
      rw [firstUnit, if_neg (by omega), regionUnit, List.drop_zero,
        Nat.sub_zero, List.take_length, marked,
        order.load_store (by decide)]
      rfl
    rw [readUtf16, unit]
    rfl
  have ends : text.length = 0 + 0 + text.length := by omega
  have rounds := fromUtf16Loop_rounds wellFormed holds denotes ends
    (fun _ => rfl) (Nat.le_refl _) bounded order
    (show 0 = 0 + 0 + 0 * 2 by rfl) positive (some limit) fresh text.length
  rw [mark, Nat.zero_sub] at rounds
  have visits : DeliversAll [] ((utf16Reader order).whole text)
      (visit (fromUtf16Applier heap data order (some limit) true) [region]
        ⟨0, Buffer.initial heap⟩) := by
    refine Delivers.one positive ?_
    simp only [fromUtf16Applier, begins, bind, Except.bind, ge_iff_le, if_pos]
    have inside := @Reader.region_of_inside _ _ _ (utf16Reader order) text
      text.length 0 0 positive
    rw [Nat.sub_zero] at inside
    rw [if_neg (by omega), start, length, Nat.sub_zero, source,
      rounds.eq_of_silent, inside]
    change Delivers [] _ ((readUtf16 order text 0 text.length 0).andThen _) _
    rw [mark]
    refine Delivers.cons ?_
    rw [List.append_nil]
    refine fromUtf16Loop_delivers wellFormed holds denotes ends
      (fun _ => rfl) (Nat.le_refl _) bounded order storable
      (show 0 + 2 = 0 + 0 + (0 + 2 / 2) * 2 by rfl)
      (show text.length - (0 + 2) < _ by omega)
      ?_ ?_ collects (Nat.zero_le _) (by omega)
    · intro more full
      rw [unitCount_eq] at more
      rw [room, empty, List.length_nil] at full
      omega
    · intro more request least
      rw [unitCount_eq] at more least
      exact decide_eq_true (by omega)
  have finished := visits.finish (some limit)
  rw [fromUtf16, wellFormed.apply holds, regions]
  exact finished

end LibDispatch.Data
