import LibDispatch.TransformBuffer
import LibDispatch.TransformCharacters
import LibDispatch.TransformEncode

namespace LibDispatch.Data

/-!
# From UTF-8 to UTF-16

What `_dispatch_transform_to_utf16` writes for an object depends on the bytes of
the object and on the lengths of its regions.  The characters are read one after
the other; one that crosses the end of its region is read as many bytes too
early as were skipped at the beginning of the region.
-/

open Text (Reader Reading)

variable {heap : Heap} {data : Nat}

/-! ## Characters -/

/-- The code of a character with the given number of bytes.  One that crosses
the stop is read before its position, by the lag. -/
def utf8Code
    (text : List UInt8)
    (position stop lag size : Nat) : Reading Failure Nat :=
  if stop < position + size then
    if text.length < position - lag + size then
      .ok none
    else
      (readUtf8Sequence ((text.drop (position - lag)).take size)).map some
  else
    (readUtf8Sequence ((text.drop position).take size)).map some

/-- What is written for a code that ends at a position: nothing for the first
byte order mark. -/
def utf16Output
    (order : ByteOrder)
    (code ending : Nat) : Option (List UInt8) :=
  if code = 0xfeff ∧ ending = 3 then
    some []
  else
    (utf16Units code).map fun units => units.flatMap order.store

/-- What `_dispatch_transform_to_utf16` reads at a position. -/
def readUtf8
    (order : ByteOrder)
    (text : List UInt8)
    (position stop lag : Nat) : Reading Failure (List UInt8 × Nat) :=
  match text.drop position with
  | [] => .error .overrun
  | byte :: _ =>
    if utf8Length byte = 0 then
      .ok none
    else
      (utf8Code text position stop lag (utf8Length byte)).andThen
        fun code =>
          .ok ((utf16Output order code
            (min stop (position + utf8Length byte) - lag)).map
              fun output => (output, utf8Length byte))

variable {text bytes : List UInt8} {position : Nat} {order : ByteOrder}

theorem readUtf8_of_byte
    {byte : UInt8}
    {stop lag : Nat}
    (next : text.drop position = byte :: bytes)
    (length : utf8Length byte ≠ 0) :
    readUtf8 order text position stop lag =
      (utf8Code text position stop lag (utf8Length byte)).andThen
        fun code =>
          .ok ((utf16Output order code
            (min stop (position + utf8Length byte) - lag)).map
              fun output => (output, utf8Length byte)) := by
  rw [readUtf8, next]
  exact if_neg length

variable {output : List UInt8}

/-- A character that is read, its code and what is written for it. -/
theorem readUtf8_eq_some
    {stop lag size : Nat}
    (reads :
      readUtf8 order text position stop lag = .ok (some (output, size))) :
    ∃ byte bytes code,
      text.drop position = byte :: bytes ∧ utf8Length byte = size ∧
        0 < size ∧
        utf8Code text position stop lag size = .ok (some code) ∧
        utf16Output order code (min stop (position + size) - lag) =
          some output := by
  cases next : text.drop position with
  | nil =>
    rw [readUtf8, next] at reads
    cases reads
  | cons byte bytes =>
    by_cases length : utf8Length byte = 0
    · rw [readUtf8, next] at reads
      simp only [if_pos length] at reads
      cases reads
    · rw [readUtf8_of_byte next length] at reads
      obtain ⟨code, readsCode, reads⟩ := Reading.andThen_eq_some reads
      injection reads with reads
      obtain ⟨written, writes, same⟩ := Option.map_eq_some_iff.mp reads
      cases same
      exact ⟨byte, bytes, code, rfl, rfl, Nat.pos_of_ne_zero length,
        readsCode, writes⟩

/-- A character that is read in the whole text is inside of it. -/
theorem readUtf8_inside
    {size : Nat}
    (reads :
      readUtf8 order text position text.length 0 =
        .ok (some (output, size))) :
    size ≤ text.length - position := by
  obtain ⟨byte, bytes, code, next, -, positive, readsCode, -⟩ :=
    readUtf8_eq_some reads
  rw [utf8Code] at readsCode
  split_ifs at readsCode
  · cases readsCode
  · omega
  · omega

/-- The reader of `_dispatch_transform_to_utf16`. -/
def utf8Reader (order : ByteOrder) : Reader Failure UInt8 UInt8 where
  read := readUtf8 order
  advances := by
    intro text position stop lag output size reads
    obtain ⟨byte, bytes, code, -, -, positive, -, -⟩ := readUtf8_eq_some reads
    exact positive

/-- A unit is two bytes. -/
theorem ByteOrder.length_store
    (order : ByteOrder)
    (unit : Nat) :
    (order.store unit).length = 2 := by
  cases order <;> rfl

variable {code : Nat}

/-- A code has one or two units. -/
theorem utf16Units_length
    {units : List Nat}
    (legal : utf16Units code = some units) :
    units.length = 1 ∨ units.length = 2 := by
  rw [utf16Units] at legal
  split_ifs at legal <;> cases legal <;> simp

theorem length_flatMap_store
    (order : ByteOrder)
    (units : List Nat) :
    (units.flatMap order.store).length = 2 * units.length := by
  induction units with
  | nil => rfl
  | cons unit units inductionHypothesis =>
    rw [List.flatMap_cons, List.length_append, order.length_store,
      inductionHypothesis, List.length_cons]
    omega

/-- Two units are written for four bytes only. -/
theorem size_of_utf8Code
    {stop lag size : Nat}
    (reads : utf8Code text position stop lag size = .ok (some code))
    (short : size ≤ 4)
    (large : 0x10000 ≤ code) :
    size = 4 := by
  have sequenceSize {bytes : List UInt8}
      (sequence : (readUtf8Sequence (bytes.take size)).map some =
        .ok (some code)) : size = 4 := by
    have taken := bytes.length_take_le size
    have least := (length_of_readUtf8Sequence (Reading.eq_ok_of_map sequence)
      (by omega)).2 large
    omega
  rw [utf8Code] at reads
  split_ifs at reads
  · cases reads
  · exact sequenceSize reads
  · exact sequenceSize reads

/-- What is written for a code has at most two bytes for each byte read. -/
theorem length_utf16Output_le
    {stop lag size ending : Nat}
    (reads : utf8Code text position stop lag size = .ok (some code))
    (positive : 0 < size)
    (short : size ≤ 4)
    (writes : utf16Output order code ending = some output) :
    output.length ≤ 2 * size ∧ output.length ≤ 4 := by
  rw [utf16Output] at writes
  split_ifs at writes
  · cases writes
    exact ⟨Nat.zero_le _, Nat.zero_le _⟩
  · obtain ⟨units, legal, rfl⟩ := Option.map_eq_some_iff.mp writes
    have counted := utf16Units_length legal
    have length := length_flatMap_store order units
    have two : units.length = 2 → size = 4 := by
      intro pair
      refine size_of_utf8Code reads short ?_
      rw [utf16Units] at legal
      split_ifs at legal with surrogate large
      · exact large
      · cases legal
        cases pair
    omega

/-! ## The beginning -/

variable {limit : Option Nat} {buffer : Buffer}

/-- The first region begins with the byte order mark. -/
theorem toUtf16Begin_collects
    {region : Region}
    {n : Nat}
    (within : region.offset + region.size ≤ n)
    (storable : Storable (4 * n + 18))
    (order : ByteOrder)
    (allowed : ∀ request, request ≤ n * 2 + 2 → allows limit request = true)
    (initial : region.offset = 0 → bytes = [])
    (collects : buffer.Collects bytes) :
    ∃ after,
      toUtf16Begin region.offset region.size order limit true buffer =
          .ok (after, true) ∧
        after.Collects
          (bytes ++ if region.offset = 0 then order.store 0xfeff else []) := by
  rw [toUtf16Begin]
  by_cases first : region.offset = 0
  · have bounded : ¬ 2 ^ 64 ≤ region.size * 2 + 2 := by
      simp only [Storable, recordSize] at storable
      omega
    have none := initial first
    subst none
    obtain ⟨after, computes, collected, -, -⟩ :=
      @Buffer.Collects.new limit buffer [] collects
        (storable.mono (Nat.zero_le _)) (region.size * 2 + 2) 0 (by omega)
        (fun _ _ => allowed _ (by omega)) (fun _ => rfl)
    refine ⟨after.write (order.store 0xfeff), ?_, ?_⟩
    · rw [if_pos first, if_neg bounded, computes]
      rfl
    · rw [if_pos first]
      exact collected.write _
  · rw [if_neg first, if_neg first, List.append_nil]
    exact ⟨buffer, rfl, collects⟩

/-- The first buffer, with the byte order mark. -/
theorem toUtf16Begin_of_le
    (heap : Heap)
    {size limit : Nat}
    (small : size * 2 + 2 ≤ limit)
    (bounded : limit < 2 ^ 64)
    (order : ByteOrder) :
    toUtf16Begin 0 size order (some limit) true (Buffer.initial heap) =
      .ok (⟨heap, emptyData, some (order.store 0xfeff), size * 2 + 2⟩,
        true) := by
  have allowed : allows (some limit) (size * 2 + 2) = true :=
    decide_eq_true small
  rw [toUtf16Begin, if_pos rfl, if_neg (by omega),
    Buffer.new_initial heap (Nat.succ_pos _) (by omega), if_pos allowed]
  rfl

/-- There is no buffer beyond the limit. -/
theorem toUtf16Begin_of_lt
    (heap : Heap)
    {size limit : Nat}
    (large : limit < size * 2 + 2)
    (order : ByteOrder) :
    ∃ buffer,
      toUtf16Begin 0 size order (some limit) true (Buffer.initial heap) =
        .ok (buffer, false) := by
  rw [toUtf16Begin, if_pos rfl]
  by_cases overflow : 2 ^ 64 ≤ size * 2 + 2
  · exact ⟨_, if_pos overflow⟩
  · have refused : ¬ allows (some limit) (size * 2 + 2) = true := by
      rw [allows, decide_eq_true_eq]
      omega
    rw [if_neg overflow, Buffer.new_initial heap (Nat.succ_pos _) (by omega),
      if_neg refused]
    exact ⟨_, rfl⟩

/-! ## Regions -/

/-- The rest of a region after some of its bytes. -/
theorem drop_take_region
    (text : List UInt8)
    (position after stop count : Nat)
    (same : after = position + count ∨
      (stop ≤ after ∧ stop ≤ position + count)) :
    ((text.drop position).take (stop - position)).drop count =
      (text.drop after).take (stop - after) := by
  rw [List.drop_take, List.drop_drop]
  rcases same with rfl | ⟨beyond, other⟩
  · congr 1
    omega
  · have none : stop - position - count = 0 := by omega
    have empty : stop - after = 0 := by omega
    rw [none, empty, List.take_zero, List.take_zero]

variable
  (wellFormed : heap.WellFormed)
  (holds : heap.Holds data)
  (denotes : heap.bytes data = text)

include wellFormed holds denotes

/-- The next character of a region. -/
theorem nextSequence_eq
    {offset size lag stop i : Nat}
    {byte : UInt8}
    (here : position = offset + lag + i)
    (ends : stop = offset + lag + size)
    (inside : i < size)
    (next : text.drop position = byte :: bytes)
    (length : utf8Length byte ≠ 0)
    (skip : Nat) :
    nextSequence heap data offset size true
        ((text.drop position).take (stop - position)) i skip =
      (utf8Code text position stop lag
        (utf8Length byte)).andThen fun code =>
          .ok (some (code, min size (i + utf8Length byte),
            skip + (position + utf8Length byte - stop))) := by
  subst denotes
  obtain ⟨count, more⟩ : ∃ count, stop - position = count + 1 :=
    ⟨stop - position - 1, by omega⟩
  have positive : 0 < utf8Length byte := by omega
  have early : position - lag = offset + i := by omega
  rw [next, more, List.take_succ_cons, nextSequence, utf8Code, early]
  simp only [if_neg length]
  by_cases crosses : utf8Length byte + i > size
  · rw [if_pos crosses, if_pos (by omega : stop < position + utf8Length byte)]
    have index : min size (i + utf8Length byte) = size := by omega
    have ahead : position + utf8Length byte - stop =
        utf8Length byte - (size - i) := by
      omega
    by_cases beyond :
        (heap.bytes data).length < offset + i + utf8Length byte
    · rw [if_pos beyond, wellFormed.subrangeMap_beyond holds beyond positive]
      rfl
    · obtain ⟨pointer, maps, same⟩ :=
        wellFormed.subrangeMap holds positive (Nat.le_of_not_lt beyond)
      rw [if_neg beyond, maps]
      simp only [bind, Except.bind, same, index, ahead]
      cases readUtf8Sequence
        (((heap.bytes data).drop (offset + i)).take (utf8Length byte)) <;> rfl
  · rw [if_neg crosses,
      if_neg (by omega : ¬ stop < position + utf8Length byte)]
    have index : min size (i + utf8Length byte) = i + utf8Length byte := by
      omega
    have ahead : position + utf8Length byte - stop = 0 := by omega
    have same : readUtf8Sequence (byte :: bytes.take count) =
        readUtf8Sequence ((byte :: bytes).take (utf8Length byte)) := by
      rw [← readUtf8Sequence_take positive, ← List.take_succ_cons,
        List.take_take, min_eq_left (by omega)]
    rw [same, next]
    simp only [bind, Except.bind, index, ahead]
    cases readUtf8Sequence ((byte :: bytes).take (utf8Length byte)) <;> rfl

section Loop

variable
  {offset size lag stop : Nat}
  (ends : stop = offset + lag + size)
  (within : stop ≤ text.length)
  (bounded : text.length < 2 ^ 62)
  (order : ByteOrder)

include ends within bounded

/-- One round of the loop over a region. -/
theorem toUtf16Loop_rounds
    (after : offset + lag ≤ position)
    (inside : position < stop)
    (limit : Option Nat)
    (buffer : Buffer)
    (fuel : Nat) :
    Rounds limit buffer (size * 2 + 2)
      (fun length following =>
        toUtf16Loop heap data offset size order limit true fuel
          ((text.drop (position + length)).take
            (stop - (position + length)))
          (min size (position + length - (offset + lag)))
          ⟨position + length - stop, following⟩)
      (readUtf8 order text position stop lag)
      (toUtf16Loop heap data offset size order limit true (fuel + 1)
        ((text.drop position).take (stop - position))
        (min size (position - (offset + lag)))
        ⟨position - stop, buffer⟩) := by
  have index : min size (position - (offset + lag)) =
      position - (offset + lag) := by
    omega
  have before : position - (offset + lag) < size := by omega
  have noSkip : position - stop = 0 := by omega
  rw [toUtf16Loop, index, if_pos before, noSkip]
  cases next : text.drop position with
  | nil =>
    have short := congrArg List.length next
    rw [List.length_drop, List.length_nil] at short
    omega
  | cons byte others =>
    by_cases bad : utf8Length byte = 0
    · obtain ⟨count, more⟩ : ∃ count, stop - position = count + 1 :=
        ⟨stop - position - 1, by omega⟩
      have nothing : readUtf8 order text position stop lag = .ok none := by
        rw [readUtf8, next]
        exact if_pos bad
      rw [nothing, more, List.take_succ_cons, nextSequence]
      simp only [if_pos bad]
      exact .bad 0
    · have small := utf8Length_le byte
      rw [← next, nextSequence_eq wellFormed holds denotes (by omega) ends before
        next bad, readUtf8_of_byte next bad, Nat.zero_add]
      have rest := drop_take_region text position
        (position + utf8Length byte) stop
        (min size (position - (offset + lag) + utf8Length byte) -
          (position - (offset + lag))) (by omega)
      have sameIndex :
          min size (position - (offset + lag) + utf8Length byte) =
            min size (position + utf8Length byte - (offset + lag)) := by
        omega
      have sameEnd :
          offset + min size (position + utf8Length byte -
              (offset + lag)) =
            min stop (position + utf8Length byte) - lag := by
        omega
      have noOverflow : ¬ 2 ^ 64 ≤
          (size - min size (position + utf8Length byte -
            (offset + lag))) * 2 := by
        omega
      rcases reads : utf8Code text position stop lag
          (utf8Length byte) with failure | _ | code
      · exact .failure
      · exact .bad 0
      · simp only [Reading.andThen_some, bind, Except.bind]
        rw [rest, sameIndex, if_neg noOverflow, sameEnd, utf16Output]
        by_cases mark : code = 0xfeff ∧
            min stop (position + utf8Length byte) - lag = 3
        · rw [if_pos mark, if_pos mark]
          exact .silent small
        · rw [if_neg mark, if_neg mark]
          cases legal : utf16Units code with
          | none => exact .bad _
          | some units =>
            have counted := utf16Units_length legal
            have length := length_flatMap_store order units
            have written : utf16Output order code
                (min stop (position + utf8Length byte) - lag) =
                  some (units.flatMap order.store) := by
              rw [utf16Output, if_neg mark, legal]
              rfl
            have fewer := length_utf16Output_le reads
              (Nat.pos_of_ne_zero bad) small written
            simp only [Option.map_some]
            exact Rounds.written _ (List.ne_nil_of_length_pos (by omega))
              (by omega) (by omega) (by omega) small

/-- The loop over the rest of a region writes what is read there. -/
theorem toUtf16Loop_delivers
    (storable : Storable (4 * text.length + 18))
    (allowed :
      ∀ request, request ≤ size * 2 + 2 → allows limit request = true)
    {fuel : Nat}
    (after : offset + lag ≤ position)
    (enough : stop - position < fuel)
    (collects : buffer.Collects bytes)
    (few : bytes.length ≤ 4 * position + 2)
    (near : position < stop + 4) :
    Delivers bytes stop
      ((utf8Reader order).region text stop lag (stop - position)
        position)
      (toUtf16Loop heap data offset size order limit true fuel
        ((text.drop position).take (stop - position))
        (min size (position - (offset + lag)))
        ⟨position - stop, buffer⟩) := by
  have storableBytes : Storable bytes.length := storable.mono (by omega)
  induction fuel generalizing position buffer bytes with
  | zero => omega
  | succ fuel inductionHypothesis =>
    by_cases done : stop ≤ position
    · have finished : ¬ min size (position - (offset + lag)) < size := by
        omega
      rw [toUtf16Loop, if_neg finished]
      exact collects.delivers storableBytes few done limit _ _ _
    · have inside : position < stop := Nat.lt_of_not_le done
      rw [Reader.region_of_inside inside]
      refine (toUtf16Loop_rounds wellFormed holds denotes ends within bounded order
        after inside limit buffer fuel).delivers
        (fun length => (utf8Reader order).region text stop lag
          (stop - (position + length)) (position + length))
        collects storableBytes few (by omega) (fun _ => allowed) ?_
      intro output length following reads short collected fewer
      have advances := (utf8Reader order).advances reads
      exact inductionHypothesis (by omega) (by omega) collected fewer
        (by omega) (storable.mono (by omega))

/-- The loop over the only region with room for it flushes once. -/
theorem toUtf16Loop_onePart
    (whole : stop = text.length)
    (noLag : lag = 0)
    (limit : Option Nat)
    (storable : Storable (4 * text.length + 18))
    (fuel : Nat)
    (after : offset + lag ≤ position)
    (reached : position ≤ stop)
    (collects : buffer.Collects bytes)
    (few : bytes.length ≤ 4 * position + 2)
    (roomy : buffer.Roomy (2 * (stop - position))) :
    OnePart
      (toUtf16Loop heap data offset size order limit true fuel
        ((text.drop position).take (stop - position))
        (min size (position - (offset + lag)))
        ⟨position - stop, buffer⟩) := by
  induction fuel generalizing position buffer bytes with
  | zero =>
    intro transcoding same
    cases same
  | succ fuel inductionHypothesis =>
    by_cases done : stop ≤ position
    · have finished : ¬ min size (position - (offset + lag)) < size := by
        omega
      obtain ⟨following, computes, -, parts, -⟩ :=
        collects.end (storable.mono (by omega)) limit
      rw [roomy.unflushed] at parts
      rw [toUtf16Loop, if_neg finished, computes]
      intro transcoding same
      cases same
      exact parts
    · have inside : position < stop := Nat.lt_of_not_le done
      refine (toUtf16Loop_rounds wellFormed holds denotes ends within bounded order
        after inside limit buffer fuel).onePart collects few roomy ?_ ?_
      · intro output length reads
        subst whole noLag
        exact readUtf8_inside reads
      · intro output length following reads collected fewer roomier
        subst whole noLag
        have least := readUtf8_inside reads
        refine inductionHypothesis (by omega) (by omega) collected fewer ?_
        exact roomier.mono (by omega)

end Loop

/-! ## Objects -/

theorem toUtf16Applier_transcodes
    (storable : Storable (4 * text.length + 18))
    (order : ByteOrder)
    (allowed :
      ∀ request, request ≤ text.length * 2 + 2 →
        allows limit request = true) :
    Transcodes (utf8Reader order) (toUtf16Applier heap data order limit true)
      text (order.store 0xfeff) where
  skips := by
    intro region skip buffer inside skipped
    simp only [toUtf16Applier, toUtf16Begin, if_neg inside, bind, Except.bind,
      ge_iff_le, if_pos skipped]
    rfl
  writes := by
    intro region skip buffer bytes own within reached initial collects few
    obtain ⟨after, begins, collected⟩ := toUtf16Begin_collects within
      storable order allowed (fun first => (initial first).2) collects
    have opened :
        (bytes ++ if region.offset = 0 then
          order.store 0xfeff else []).length ≤
        4 * (region.offset + skip) + 2 := by
      rw [List.length_append]
      split_ifs with first
      · rw [(initial first).2, order.length_store, List.length_nil]
        omega
      · rw [List.length_nil]
        omega
    have delivers := toUtf16Loop_delivers wellFormed holds denotes
      (show region.offset + region.size =
        region.offset + skip + (region.size - skip) by omega)
      within storable.bounded order storable
      (fun request small => allowed request (by omega)) (Nat.le_refl _)
      (show region.offset + region.size - (region.offset + skip) <
        region.size + 1 by omega)
      collected opened (by omega)
    have fuel : region.offset + region.size - (region.offset + skip) =
        region.size - skip := by
      omega
    have ahead : region.offset + skip - (region.offset + region.size) = 0 := by
      omega
    have source : region.buffer.drop skip =
        (text.drop (region.offset + skip)).take
          (region.size - skip) := by
      rw [own, List.drop_take, List.drop_drop]
    rw [Nat.sub_self, Nat.min_zero, ahead, fuel, ← source] at delivers
    simp only [toUtf16Applier, begins, bind, Except.bind, ge_iff_le, if_pos,
      if_neg (Nat.not_le.mpr reached)]
    exact delivers

omit denotes in
/-- What `_dispatch_transform_to_utf16` returns is what is read in the
regions. -/
theorem toUtf16_transforms
    (storable : Storable (4 * (heap.bytes data).length + 18))
    (order : ByteOrder)
    (allowed :
      ∀ request, request ≤ (heap.bytes data).length * 2 + 2 →
        allows limit request = true) :
    Transforms (if heap.bytes data = [] then [] else order.store 0xfeff)
      ((utf8Reader order).run (heap.bytes data)
        ((heap.regions data).map Region.size) 0 0)
      (toUtf16 limit order heap data true) :=
  Transcodes.transforms wellFormed holds
    (toUtf16Applier_transcodes wellFormed holds rfl storable order allowed) limit

/-! ## One region -/

/-- What is returned for an object in one region has one part, and the object
has no more bytes than the limit allows. -/
theorem toUtf16_of_one
    (one : (heap.regions data).length = 1)
    (order : ByteOrder)
    {limit : Nat}
    (bounded : limit < 2 ^ 56)
    {after : Heap}
    {result : Nat}
    (returns :
      toUtf16 (some limit) order heap data true =
        .ok (after, some result)) :
    text.length * 2 + 2 ≤ limit ∧ after.parts result ≤ 1 := by
  obtain ⟨region, regions, start, buffer, length, positive⟩ :=
    wellFormed.region_of_one holds one
  rw [denotes] at buffer length positive
  rw [toUtf16, wellFormed.apply holds, regions] at returns
  obtain ⟨last, applies, rfl, rfl⟩ := visit_of_finish returns
  by_cases large : limit < text.length * 2 + 2
  · obtain ⟨full, begins⟩ := toUtf16Begin_of_lt heap large order
    simp only [toUtf16Applier, start, length, begins, bind, Except.bind]
      at applies
    cases applies
  · refine ⟨Nat.not_lt.mp large, ?_⟩
    have begins := toUtf16Begin_of_le heap (Nat.not_lt.mp large)
      (by omega) order
    have collects := Buffer.first_collects wellFormed
      (some (order.store 0xfeff)) (text.length * 2 + 2)
    generalize fresh :
      (⟨heap, emptyData, some (order.store 0xfeff), text.length * 2 + 2⟩ :
        Buffer) = first at begins collects
    have roomy : first.Roomy (2 * (text.length - 0)) := by
      subst fresh
      refine ⟨by simp [Heap.parts, wellFormed.empty.2, emptyObject], ?_⟩
      change (order.store 0xfeff).length + 2 * (text.length - 0) ≤
        text.length * 2 + 2
      rw [order.length_store]
      omega
    have onePart := toUtf16Loop_onePart wellFormed holds denotes
      (show text.length = 0 + 0 + text.length by omega)
      (Nat.le_refl _) (by omega) order rfl rfl (some limit)
      (by simp only [Storable, recordSize, headerSize]; omega)
      (text.length + 1) (Nat.zero_le _) (Nat.zero_le _) collects
      (Nat.le_of_eq (order.length_store _)) roomy
    have source : region.buffer.drop 0 =
        (text.drop 0).take (text.length - 0) := by
      rw [List.drop_zero, List.drop_zero, Nat.sub_zero, List.take_length,
        buffer]
    simp only [toUtf16Applier, start, length, begins, bind, Except.bind,
      ge_iff_le, if_pos] at applies
    rw [if_neg (by omega), source] at applies
    rw [Nat.zero_sub, Nat.zero_sub, Nat.min_zero] at onePart
    exact onePart last applies

end LibDispatch.Data
