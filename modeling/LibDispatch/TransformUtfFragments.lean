import LibDispatch.TransformUtf8Text

namespace LibDispatch.Data

/-!
# Fragmented Unicode text

The transforms of Unicode text give the same result for an object and for its
bytes in one region if every character is read in its region as in the whole
text.  Most cuts are harmless.  A character that crosses the end of a region
which began with bytes read ahead is read at the wrong offset; the byte order
mark is missed if it is cut; and a second unit is read beyond the region that
holds one of its bytes.
-/

open Text (Reader Reading)

variable {heap : Heap} {data whole : Nat}

variable {order : ByteOrder} {text : List UInt8} {lengths : List Nat}
variable {position stop lag : Nat}

/-! ## To UTF-16 -/

/-- The length of a character in UTF-8, from its first byte. -/
def leadWidth : List UInt8 → Nat
  | [] => 0
  | byte :: _ => utf8Length byte

/-- No region that begins with bytes read ahead ends inside of a character, and
none ends inside of a U+FEFF that begins in the first three bytes. -/
def Utf8CutApart
    (order : ByteOrder)
    (text : List UInt8)
    (lengths : List Nat) : Prop :=
  (utf8Reader order).CutApart text leadWidth
    (fun position _ =>
      position < 3 ∧ readUtf8Sequence (text.drop position) = .ok 0xfeff)
    lengths 0

/-- The position where a code ends matters for the mark only. -/
theorem utf16Output_congr
    {code ending other : Nat}
    (same : code = 0xfeff → (ending = 3 ↔ other = 3)) :
    utf16Output order code ending = utf16Output order code other := by
  by_cases mark : code = 0xfeff
  · simp only [utf16Output, same mark]
  · simp [utf16Output, mark]

/-- All bytes of a character that is not beyond the end are there. -/
theorem exists_code
    {byte : UInt8}
    {bytes : List UInt8}
    (positive : utf8Length byte ≠ 0)
    (enough : utf8Length byte ≤ bytes.length + 1) :
    ∃ code, readUtf8Sequence (byte :: bytes) = .ok code := by
  by_cases one : utf8Length byte = 1
  · exact ⟨_, readUtf8Sequence_of_one one bytes⟩
  · obtain ⟨count, length⟩ : ∃ count, utf8Length byte = count + 2 :=
      ⟨utf8Length byte - 2, by omega⟩
    exact ⟨_, readUtf8Sequence_of_more length (by omega)⟩

/-- A character whose offset is right is read as in the whole text, unless a
mark ends at the third byte for one of them only. -/
theorem readUtf8_eq_whole
    (before : position < stop)
    (within : stop ≤ text.length)
    (unmoved : lag = 0 ∨ position + leadWidth (text.drop position) ≤ stop)
    (marks :
      position + leadWidth (text.drop position) ≤ text.length →
        0 < leadWidth (text.drop position) →
        readUtf8Sequence (text.drop position) = .ok 0xfeff →
        (min stop (position + leadWidth (text.drop position)) - lag = 3 ↔
          position + leadWidth (text.drop position) = 3)) :
    (utf8Reader order).read text position stop lag =
        (utf8Reader order).readWhole text position ∧
      ((utf8Reader order).readWhole text position).Succeeds := by
  cases next : text.drop position with
  | nil =>
    have none := List.drop_eq_nil_iff.mp next
    omega
  | cons byte bytes =>
    have total := congrArg List.length next
    rw [List.length_drop, List.length_cons] at total
    rw [next] at unmoved marks
    change readUtf8 order text position stop lag = _ ∧ _
    by_cases zero : utf8Length byte = 0
    · have refused (stop lag : Nat) :
          readUtf8 order text position stop lag = .ok none := by
        rw [readUtf8, next]
        exact if_pos zero
      rw [refused, Reader.readWhole]
      exact ⟨(refused _ _).symm, by
        rw [show (utf8Reader order).read text position text.length 0 = _
          from refused _ _]
        exact Reading.succeeds_ok none⟩
    · simp only [leadWidth] at unmoved marks
      rw [readWhole_of_sequence next zero, readUtf8_of_byte next zero,
        utf8Code_eq next zero within unmoved]
      by_cases beyond : text.length < position + utf8Length byte
      · rw [if_pos beyond, if_pos beyond]
        exact ⟨rfl, Reading.succeeds_ok none⟩
      · obtain ⟨code, reads⟩ :=
          exists_code zero (by omega : _ ≤ bytes.length + 1)
        rw [if_neg beyond, if_neg beyond, reads]
        refine ⟨?_, Reading.succeeds_ok _⟩
        change Except.ok (Option.map _ (utf16Output order code _)) =
          Except.ok (Option.map _ (utf16Output order code _))
        rw [utf16Output_congr fun mark => marks (by omega)
          (Nat.pos_of_ne_zero zero) (by rw [reads, mark])]

/-- The mark has three bytes. -/
theorem three_le_leadWidth
    {bytes : List UInt8}
    (positive : 0 < leadWidth bytes)
    (mark : readUtf8Sequence bytes = .ok 0xfeff) :
    3 ≤ leadWidth bytes := by
  cases bytes with
  | nil => cases mark
  | cons byte bytes =>
    rw [← readUtf8Sequence_take positive] at mark
    have taken := (byte :: bytes).length_take_le (utf8Length byte)
    have small := utf8Length_le byte
    have long := (length_of_readUtf8Sequence mark (by omega)).1 (by decide)
    exact Nat.le_trans long taken

theorem Utf8CutApart.steady
    (apart : Utf8CutApart order text lengths)
    (total : lengths.sum = text.length) :
    (utf8Reader order).Steady text lengths 0 := by
  refine Reader.CutApart.steady ?uncut ?cut apart (by omega)
  case uncut =>
    intro position stop lag before within fits lagging
    refine readUtf8_eq_whole before within (.inr fits) ?_
    intro _ positive mark
    -- The mark has three bytes, so that what was read ahead shifts nothing.
    have long := three_le_leadWidth positive mark
    omega
  case cut =>
    intro position stop before within crosses unspoilt
    refine readUtf8_eq_whole before within (.inl rfl) ?_
    intro _ positive mark
    have later : ¬ position < 3 := fun early => unspoilt ⟨early, mark⟩
    omega

/-! ## From UTF-16 -/

/-- The length of a character in UTF-16, from its first unit. -/
def unitWidth (order : ByteOrder) (bytes : List UInt8) : Nat :=
  match order.load bytes with
  | .ok unit => if 0xd800 ≤ unit ∧ unit ≤ 0xdbff then 4 else 2
  | .error _ => 2

/-- No region that begins with bytes read ahead ends inside of a character, and
neither a region nor the text ends inside of a second unit. -/
def Utf16CutApart
    (order : ByteOrder)
    (text : List UInt8)
    (lengths : List Nat) : Prop :=
  (utf16Reader order).CutApart text (unitWidth order)
    (fun position stop =>
      unitWidth order (text.drop position) = 4 ∧
        (stop = position + 3 ∨ text.length = position + 3))
    lengths 0

/-- A unit inside of its region, or mapped from the right offset. -/
theorem regionUnit_eq
    (inside : position + 2 ≤ stop)
    (within : stop ≤ text.length) :
    regionUnit order text position stop = mappedUnit order text position := by
  rw [regionUnit, mappedUnit, if_neg (by omega), ← order.load_take,
    List.take_take, Nat.min_eq_left (by omega), order.load_take]

theorem firstUnit_eq
    (before : position < stop)
    (within : stop ≤ text.length)
    (unmoved : lag = 0 ∨ position + 2 ≤ stop) :
    firstUnit order text position stop lag =
      mappedUnit order text position := by
  rw [firstUnit]
  split_ifs with crosses
  · obtain rfl : lag = 0 := unmoved.resolve_right (by omega)
    rfl
  · exact regionUnit_eq (by omega) within

theorem secondUnit_eq
    (within : stop ≤ text.length)
    (uncut : stop ≠ position + 1)
    (unmoved : lag = 0 ∨ position + 2 ≤ stop) :
    secondUnit order text position stop lag =
      mappedUnit order text position := by
  rw [secondUnit]
  split_ifs with crosses
  · obtain rfl : lag = 0 := unmoved.resolve_right (by omega)
    rfl
  · exact regionUnit_eq (by omega) within

theorem succeeds_mappedUnit
    (order : ByteOrder)
    (text : List UInt8)
    (position : Nat) :
    (mappedUnit order text position).Succeeds := by
  rw [mappedUnit]
  split_ifs with beyond
  · exact Reading.succeeds_ok none
  · have length : (text.drop position).length = _ := List.length_drop
    generalize text.drop position = bytes at length ⊢
    rcases bytes with _ | ⟨first, _ | ⟨second, others⟩⟩
    · simp only [List.length_nil] at length
      omega
    · simp only [List.length_cons, List.length_nil] at length
      omega
    · cases order <;> exact Reading.succeeds_ok _

/-- What is read where both units of a character are read at their place. -/
theorem readUtf16_eq_whole
    (before : position < stop)
    (within : stop ≤ text.length)
    (unmoved : lag = 0 ∨ position + unitWidth order (text.drop position) ≤ stop)
    (whole :
      unitWidth order (text.drop position) = 4 →
        stop ≠ position + 3 ∧ text.length ≠ position + 3) :
    (utf16Reader order).read text position stop lag =
        (utf16Reader order).readWhole text position ∧
      ((utf16Reader order).readWhole text position).Succeeds := by
  have wide : 2 ≤ unitWidth order (text.drop position) := by
    rw [unitWidth]
    split
    · split_ifs <;> decide
    · decide
  change readUtf16 order text position stop lag =
      readUtf16 order text position text.length 0 ∧
    (readUtf16 order text position text.length 0).Succeeds
  rw [readUtf16, readUtf16, firstUnit_eq before within (by omega),
    firstUnit_eq (by omega) (Nat.le_refl _) (.inl rfl)]
  have pair {first : Nat}
      (reads : mappedUnit order text position = .ok (some first)) :
      utf8Output order text position stop lag first =
          utf8Output order text position text.length 0 first ∧
        (utf8Output order text position text.length 0 first).Succeeds := by
    have loads : order.load (text.drop position) = .ok first := by
      rw [mappedUnit] at reads
      split_ifs at reads
      · cases reads
      · exact Reading.eq_ok_of_map reads
    rw [utf8Output, utf8Output]
    split_ifs with isHigh isLow
    · have four : unitWidth order (text.drop position) = 4 := by
        rw [unitWidth, loads]
        exact if_pos isHigh
      obtain ⟨uncut, uncutText⟩ := whole four
      rw [secondUnit_eq within (by omega) (by omega),
        secondUnit_eq (Nat.le_refl _) (by omega) (.inl rfl)]
      refine ⟨rfl, (succeeds_mappedUnit order text _).andThen ?_⟩
      intro second _
      split_ifs <;> exact Reading.succeeds_ok _
    · exact ⟨rfl, Reading.succeeds_ok _⟩
    · exact ⟨rfl, Reading.succeeds_ok _⟩
  rcases reads : mappedUnit order text position with failure | _ | first
  · exact absurd reads (succeeds_mappedUnit order text position failure)
  · exact ⟨rfl, Reading.succeeds_ok none⟩
  · simp only [Reading.andThen_some]
    split_ifs
    · exact ⟨rfl, Reading.succeeds_ok none⟩
    · exact ⟨rfl, Reading.succeeds_ok _⟩
    · exact pair reads

theorem Utf16CutApart.steady
    (apart : Utf16CutApart order text lengths)
    (total : lengths.sum = text.length) :
    (utf16Reader order).Steady text lengths 0 := by
  refine Reader.CutApart.steady ?uncut ?cut apart (by omega)
  case uncut =>
    intro position stop lag before within fits _
    exact readUtf16_eq_whole before within (.inr fits) fun _ => by omega
  case cut =>
    intro position stop before within _ unspoilt
    refine readUtf16_eq_whole before within (.inl rfl) fun four => ?_
    exact not_or.mp fun cut => unspoilt ⟨four, cut⟩

/-- Characters of UTF-16 begin at even positions. -/
theorem starts_even
    (starts : (utf16Reader order).Starts text position) :
    position % 2 = 0 := by
  induction starts with
  | first => rfl
  | next _ _ reads even =>
    have size := readUtf16_size reads
    omega

/-! ## Objects with the same bytes -/

/-- A transform does the same to two objects: it refuses both, or what it
returns for them has the same bytes. -/
def ActsAlike
    (transform : Transform)
    (heap : Heap)
    (data whole : Nat) : Prop :=
  ∃ bytes,
    resultBytes (transform heap data true) = .ok bytes ∧
      resultBytes (transform heap whole true) = .ok bytes

/-- Transforms that follow readings act alike if the text is read alike. -/
theorem actsAlike_of_steady
    {transform : Option Nat → Transform}
    (limitFree : LimitFree transform heap data)
    (wholeFree : LimitFree transform heap whole)
    {reader : Reader Failure UInt8 UInt8}
    {opening : List UInt8}
    (total : lengths.sum = text.length)
    (steady : reader.Steady text lengths 0)
    (transforms :
      Transforms opening (reader.run text lengths 0 0)
        (transform none heap data true))
    (transformsWhole :
      Transforms opening (reader.whole text)
        (transform none heap whole true)) :
    ActsAlike (transform (some bufferMallocMax)) heap data whole := by
  obtain ⟨same, succeeds⟩ := steady.run_eq_whole total
  rw [ActsAlike, limitFree, wholeFree, transforms.bytes,
    transformsWhole.bytes, same]
  cases reads : reader.whole text with
  | error failure => exact absurd reads (succeeds failure)
  | ok outputs => exact ⟨_, rfl, rfl⟩

/--
However its bytes are cut, an object is transformed as the same bytes in one
region if no region that begins with bytes read ahead ends inside of a
character, and the cuts spare the first mark and the second units.
-/
theorem reachable_actsAlike
    (reached : Reachable (· = Heap.initial) Step heap)
    (holds : heap.Holds data)
    (holdsWhole : heap.Holds whole)
    (one : (heap.regions whole).length ≤ 1)
    (same : heap.bytes whole = heap.bytes data)
    (storable : Storable (4 * (heap.bytes data).length + 18))
    (order : ByteOrder) :
    (LimitFree (fun limit => toUtf16 limit order) heap data →
      LimitFree (fun limit => toUtf16 limit order) heap whole →
      Utf8CutApart order (heap.bytes data)
        ((heap.regions data).map Region.size) →
      ActsAlike (toUtf16 (some bufferMallocMax) order) heap data whole) ∧
    (LimitFree (fun limit => fromUtf16 limit order) heap data →
      LimitFree (fun limit => fromUtf16 limit order) heap whole →
      Utf16CutApart order (heap.bytes data)
        ((heap.regions data).map Region.size) →
      ActsAlike (fromUtf16 (some bufferMallocMax) order) heap data whole) := by
  have wellFormed := reachable_wellFormed reached
  have total := wellFormed.sum_sizes holds
  constructor
  · intro limitFree wholeFree apart
    have transforms := @toUtf16_transforms heap data none wellFormed holds
      storable order (fun _ _ => rfl)
    have transformsWhole := @toUtf16_transforms heap whole none wellFormed
      holdsWhole (by rwa [same]) order (fun _ _ => rfl)
    rw [wellFormed.run_of_one holdsWhole one, same] at transformsWhole
    exact actsAlike_of_steady limitFree wholeFree total (apart.steady total)
      transforms transformsWhole
  · intro limitFree wholeFree apart
    have transforms := @fromUtf16_transforms heap data wellFormed holds none
      storable order (fun _ _ => rfl)
    have transformsWhole := @fromUtf16_transforms heap whole wellFormed
      holdsWhole none (by rwa [same]) order (fun _ _ => rfl)
    rw [wellFormed.run_of_one holdsWhole one, same] at transformsWhole
    exact actsAlike_of_steady limitFree wholeFree total (apart.steady total)
      transforms transformsWhole

/-- Two characters that cross the ends of one region: the second is read at the
wrong offset, in UTF-8 and in UTF-16. -/
theorem twiceCut_readsWrong :
    (∃ heap,
      Reachable (· = Heap.initial) Step heap ∧
        heap.bytes 5 = [0xc3, 0xa9, 0x61, 0xc3, 0xa9] ∧
        heap.bytes 6 = heap.bytes 5 ∧
        (heap.regions 5).map Region.size = [1, 3, 1] ∧
        (heap.regions 6).map Region.size = [5] ∧
        resultBytes (toUtf16 (some bufferMallocMax) .little heap 5 true) =
          .ok (some [0xff, 0xfe, 0xe9, 0x00, 0x61, 0x00, 0x61, 0x00]) ∧
        resultBytes (toUtf16 (some bufferMallocMax) .little heap 6 true) =
          .ok (some [0xff, 0xfe, 0xe9, 0x00, 0x61, 0x00, 0xe9, 0x00])) ∧
    (∃ heap,
      Reachable (· = Heap.initial) Step heap ∧
        heap.bytes 5 = [0x61, 0x00, 0x62, 0x00] ∧
        heap.bytes 6 = heap.bytes 5 ∧
        (heap.regions 5).map Region.size = [1, 2, 1] ∧
        (heap.regions 6).map Region.size = [4] ∧
        resultBytes (fromUtf16 (some bufferMallocMax) .little heap 5 true) =
          .ok (some [0x61, 0xe6, 0x88, 0x80]) ∧
        resultBytes (fromUtf16 (some bufferMallocMax) .little heap 6 true) =
          .ok (some [0x61, 0x62])) := by
  constructor
  · have first := reached_initial.next ⟨.createAlloc [0xc3], by decide, rfl⟩
    have second := first.next ⟨.createAlloc [0xa9, 0x61, 0xc3], by decide, rfl⟩
    have third := second.next ⟨.createAlloc [0xa9], by decide, rfl⟩
    have front := third.next ⟨.createConcat 1 2, by decide, rfl⟩
    have cut := front.next ⟨.createConcat 4 3, by decide, rfl⟩
    have whole := cut.next
      ⟨.createAlloc [0xc3, 0xa9, 0x61, 0xc3, 0xa9], by decide, rfl⟩
    exact ⟨_, whole, rfl, rfl, rfl, rfl, rfl, rfl⟩
  · have first := reached_initial.next ⟨.createAlloc [0x61], by decide, rfl⟩
    have second := first.next ⟨.createAlloc [0x00, 0x62], by decide, rfl⟩
    have third := second.next ⟨.createAlloc [0x00], by decide, rfl⟩
    have front := third.next ⟨.createConcat 1 2, by decide, rfl⟩
    have cut := front.next ⟨.createConcat 4 3, by decide, rfl⟩
    have whole := cut.next
      ⟨.createAlloc [0x61, 0x00, 0x62, 0x00], by decide, rfl⟩
    exact ⟨_, whole, rfl, rfl, rfl, rfl, by decide +kernel,
      by decide +kernel⟩

/-- A character that crosses into the next region, once: the bytes are read
alike as UTF-8 and as UTF-16. -/
theorem onceCut_actsAlike :
    ∃ heap : Heap,
      Reachable (· = Heap.initial) Step heap ∧
        heap.bytes 3 = [0x61, 0x62, 0xc3, 0xa9, 0x63, 0x64] ∧
        (heap.regions 3).map Region.size = [3, 3] ∧
        ActsAlike (toUtf16 (some bufferMallocMax) .little) heap 3 4 ∧
        ActsAlike (fromUtf16 (some bufferMallocMax) .little) heap 3 4 := by
  have first := reached_initial.next
    ⟨.createAlloc [0x61, 0x62, 0xc3], by decide, rfl⟩
  have second := first.next ⟨.createAlloc [0xa9, 0x63, 0x64], by decide, rfl⟩
  have concat := second.next ⟨.createConcat 1 2, by decide, rfl⟩
  have created := concat.next
    ⟨.createAlloc [0x61, 0x62, 0xc3, 0xa9, 0x63, 0x64],
      by decide, rfl⟩
  obtain ⟨heap, reached, holds, holdsWhole, text, wholeText, regions,
      oneRegion, limitFree⟩ :
      ∃ heap,
        Reachable (· = Heap.initial) Step heap ∧ heap.Holds 3 ∧
          heap.Holds 4 ∧
          heap.bytes 3 = [0x61, 0x62, 0xc3, 0xa9, 0x63, 0x64] ∧
          heap.bytes 4 = [0x61, 0x62, 0xc3, 0xa9, 0x63, 0x64] ∧
          (heap.regions 3).map Region.size = [3, 3] ∧
          (heap.regions 4).length ≤ 1 ∧
          ∀ data ∈ [3, 4],
            LimitFree (toUtf16 · .little) heap data ∧
              LimitFree (fromUtf16 · .little) heap data :=
    ⟨_, created, show 3 < 5 by decide, show 4 < 5 by decide, rfl, rfl, rfl,
      by decide, by decide +kernel⟩
  have small : (heap.bytes 3).length = 6 := by rw [text]; rfl
  have most : bufferMallocMax = 104857600 := rfl
  obtain ⟨toUtf16Alike, fromUtf16Alike⟩ := reachable_actsAlike reached
    holds holdsWhole oneRegion (wholeText.trans text.symm)
    (storable_of_small (by omega)) .little
  rw [text, regions] at toUtf16Alike fromUtf16Alike
  have free := limitFree 3 (by decide)
  have wholeFree := limitFree 4 (by decide)
  refine ⟨heap, reached, text, regions,
    toUtf16Alike free.1 wholeFree.1 ⟨?_, ?_, trivial⟩,
    fromUtf16Alike free.2 wholeFree.2 ⟨?_, ?_, trivial⟩⟩
  · intro entry position isEntry _ _ before _
    refine ⟨Nat.le_zero.mp (isEntry.first 0 .first (Nat.le_refl 0)), ?_⟩
    rintro ⟨_, mark⟩
    interval_cases position <;> exact absurd mark (by decide)
  · intro entry position isEntry _ after before crosses
    have past := isEntry.after
    have below : 3 ≤ position := by omega
    interval_cases position <;> exact absurd crosses (by decide)
  · intro entry position isEntry _ _ before _
    refine ⟨Nat.le_zero.mp (isEntry.first 0 .first (Nat.le_refl 0)), ?_⟩
    rintro ⟨wide, _⟩
    interval_cases position <;> exact absurd wide (by decide)
  · intro entry position isEntry starts after before crosses
    have past := isEntry.after
    have even := starts_even starts
    obtain rfl : position = 4 := by omega
    exact absurd crosses (by decide)

end LibDispatch.Data
