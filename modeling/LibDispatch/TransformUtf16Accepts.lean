import LibDispatch.TransformUtf16Text

namespace LibDispatch.Data

/-!
# The UTF-16 text that is accepted

`_dispatch_transform_from_utf16` accepts a text in one region exactly if its
length is even, it has no unpaired surrogate and it does not begin with a byte
order mark of the other order.  The exception is a text that ends with the first
unit of a pair and one byte: the second unit is then read beyond the region.
-/

variable {heap : Heap} {data : Nat}

/-! ## Units -/

/-- The units of a text, without a byte that is left. -/
def units (order : ByteOrder) : List UInt8 → List Nat
  | first :: second :: others =>
    (match order with
      | .little => first.toNat + second.toNat * 256
      | .big => first.toNat * 256 + second.toNat) :: units order others
  | _ => []

/-- There is no unpaired surrogate: every first unit of a pair is followed by a
second unit, and every second unit is after a first unit. -/
def Paired (units : List Nat) : Prop :=
  ∀ before unit after, units = before ++ unit :: after →
    (IsHigh unit → ∃ next, after.head? = some next ∧ IsLow next) ∧
      (IsLow unit → ∃ last, before.getLast? = some last ∧ IsHigh last)

variable {unit : Nat}

section Units

variable {order : ByteOrder}

theorem units_store
    (small : unit < 0x10000)
    (others : List UInt8) :
    units order (order.store unit ++ others) = unit :: units order others := by
  have low : (UInt8.ofNat unit).toNat = unit % 256 := by simp
  have high : (UInt8.ofNat (unit / 256)).toNat = unit / 256 % 256 := by simp
  cases order with
  | little | big =>
    simp only [ByteOrder.store, List.cons_append, List.nil_append, units,
      low, high]
    congr 1
    omega

theorem units_lt
    {text : List UInt8}
    (member : unit ∈ units order text) :
    unit < 0x10000 := by
  fun_induction units order text with
  | case1 first second others inductionHypothesis =>
    have smallFirst := first.toNat_lt
    have smallSecond := second.toNat_lt
    rcases List.mem_cons.mp member with rfl | later
    · cases order <;> simp only <;> omega
    · exact inductionHypothesis later
  | case2 => cases member

/-- The text is its units and a byte that may be left. -/
theorem store_units (order : ByteOrder) (text : List UInt8) :
    ∃ left,
      text = (units order text).flatMap order.store ++ left ∧
        left.length = text.length % 2 := by
  generalize measure : text.length = length
  induction length using Nat.strongRecOn generalizing text with
  | ind length inductionHypothesis =>
  subst measure
  rcases text with _ | ⟨first, _ | ⟨second, others⟩⟩
  · exact ⟨[], rfl, rfl⟩
  · exact ⟨[first], rfl, rfl⟩
  · obtain ⟨left, same, length⟩ := inductionHypothesis others.length
      (by simp only [List.length_cons]; omega) others rfl
    obtain ⟨unit, small, stores⟩ := order.exists_unit first second
    have split : first :: second :: others = order.store unit ++ others := by
      rw [stores]
      rfl
    refine ⟨left, ?_, by simp only [List.length_cons]; omega⟩
    rw [split, units_store small, List.flatMap_cons, List.append_assoc, ← same]

end Units

/-! ## Pairs -/

/-- Nothing but characters is paired. -/
theorem Paired.tail
    {before units : List Nat}
    (paired : Paired (before ++ units))
    (closed : ∀ last, before.getLast? = some last → ¬ IsHigh last) :
    Paired units := by
  intro earlier unit after same
  have whole := paired (before ++ earlier) unit after
    (by rw [same, List.append_assoc])
  refine ⟨whole.1, fun isLow => ?_⟩
  obtain ⟨last, found, isHigh⟩ := whole.2 isLow
  cases earlier with
  | nil =>
    rw [List.append_nil] at found
    exact absurd isHigh (closed last found)
  | cons first others =>
    refine ⟨last, ?_, isHigh⟩
    rw [List.getLast?_append_of_ne_nil _ (List.cons_ne_nil _ _)] at found
    exact found

theorem exists_chars_of_paired
    {units : List Nat}
    (small : ∀ unit ∈ units, unit < 0x10000)
    (paired : Paired units) :
    ∃ chars : List Char, units = chars.flatMap utf16Encode := by
  generalize measure : units.length = length
  induction length using Nat.strongRecOn generalizing units with
  | ind length inductionHypothesis =>
  subst measure
  cases units with
  | nil => exact ⟨[], rfl⟩
  | cons unit others =>
    have first := paired [] unit others rfl
    have smallUnit := small unit List.mem_cons_self
    have notLow : ¬ IsLow unit := by
      intro isLow
      obtain ⟨last, found, -⟩ := first.2 isLow
      cases found
    by_cases isHigh : IsHigh unit
    · obtain ⟨next, found, isLow⟩ := first.1 isHigh
      obtain ⟨rest, rfl⟩ : ∃ rest, others = next :: rest :=
        ⟨_, (List.cons_head?_tail found).symm⟩
      obtain ⟨char, encodes, -⟩ := exists_char_of_pair isHigh isLow
      have later : Paired rest := by
        refine @Paired.tail [unit, next] rest paired ?_
        intro last isLast
        have same : next = last := by simpa using isLast
        rintro ⟨-, most⟩
        have least := isLow.1
        omega
      obtain ⟨chars, rfl⟩ := inductionHypothesis rest.length
        (by simp only [List.length_cons]; omega)
        (fun other member => small other
          (List.mem_cons_of_mem _ (List.mem_cons_of_mem _ member)))
        later rfl
      exact ⟨char :: chars, by rw [List.flatMap_cons, encodes]; rfl⟩
    · simp only [IsHigh, IsLow] at isHigh notLow
      obtain ⟨char, code⟩ := @exists_char unit (by omega) (by omega)
      have later : Paired others := by
        refine @Paired.tail [unit] others paired ?_
        intro last isLast
        have same : unit = last := by simpa using isLast
        simp only [IsHigh]
        omega
      obtain ⟨chars, rfl⟩ := inductionHypothesis others.length
        (by simp only [List.length_cons]; omega)
        (fun other member => small other (List.mem_cons_of_mem _ member))
        later rfl
      refine ⟨char :: chars, ?_⟩
      rw [List.flatMap_cons, utf16Encode_of_small (code ▸ smallUnit), code]
      rfl

/-- A unit that is no surrogate is paired in front. -/
theorem Paired.cons
    {units : List Nat}
    (notHigh : ¬ IsHigh unit)
    (notLow : ¬ IsLow unit)
    (paired : Paired units) :
    Paired (unit :: units) := by
  intro before other after same
  cases before with
  | nil =>
    cases same
    exact ⟨fun isHigh => absurd isHigh notHigh,
      fun isLow => absurd isLow notLow⟩
  | cons first before =>
    cases same
    have later := paired before other after rfl
    refine ⟨later.1, fun isLow => ?_⟩
    obtain ⟨last, found, isHigh⟩ := later.2 isLow
    exact ⟨last, by simp [List.getLast?_cons, found], isHigh⟩

theorem Paired.pair
    {high low : Nat}
    {units : List Nat}
    (isHigh : IsHigh high)
    (isLow : IsLow low)
    (paired : Paired units) :
    Paired (high :: low :: units) := by
  have disjoint : ∀ unit, IsHigh unit → ¬ IsLow unit := by
    simp only [IsHigh, IsLow]
    omega
  intro before other after same
  rcases before with _ | ⟨first, _ | ⟨second, before⟩⟩
  · cases same
    exact ⟨fun _ => ⟨low, rfl, isLow⟩,
      fun otherLow => absurd otherLow (disjoint _ isHigh)⟩
  · cases same
    exact ⟨fun otherHigh => absurd isLow (disjoint _ otherHigh),
      fun _ => ⟨high, rfl, isHigh⟩⟩
  · cases same
    have later := paired before other after rfl
    refine ⟨later.1, fun otherLow => ?_⟩
    obtain ⟨last, found, lastHigh⟩ := later.2 otherLow
    exact ⟨last, by simp [List.getLast?_cons, found], lastHigh⟩

theorem paired_of_chars (chars : List Char) :
    Paired (chars.flatMap utf16Encode) := by
  induction chars with
  | nil =>
    intro before unit after same
    cases before <;> cases same
  | cons char chars inductionHypothesis =>
    have valid := toNat_cases char
    rw [List.flatMap_cons]
    by_cases small : char.toNat < 0x10000
    · rw [utf16Encode_of_small small]
      refine Paired.cons ?_ ?_ inductionHypothesis <;>
        simp only [IsHigh, IsLow] <;> omega
    · obtain ⟨high, low, encodes, isHigh, isLow, -⟩ :=
        utf16Encode_of_large (Nat.not_lt.mp small)
      rw [encodes]
      exact Paired.pair isHigh isLow inductionHypothesis

/-! ## Text -/

section Text

variable {order : ByteOrder} {text : List UInt8}

theorem units_text
    (order : ByteOrder)
    (chars : List Char)
    (others : List UInt8) :
    units order (utf16Text order chars ++ others) =
      chars.flatMap utf16Encode ++ units order others := by
  induction chars with
  | nil => rfl
  | cons char chars inductionHypothesis =>
    rw [utf16Text_cons, List.append_assoc, List.flatMap_cons,
      List.append_assoc, ← inductionHypothesis]
    rw [utf16Text, List.flatMap_cons, List.flatMap_nil, List.append_nil]
    by_cases small : char.toNat < 0x10000
    · rw [utf16Encode_of_small small, List.flatMap_cons, List.flatMap_nil,
        List.append_nil, units_store small]
      rfl
    · obtain ⟨high, low, encodes, ⟨-, highMost⟩, ⟨-, lowMost⟩, -⟩ :=
        utf16Encode_of_large (Nat.not_lt.mp small)
      rw [encodes, List.flatMap_cons, List.flatMap_cons, List.flatMap_nil,
        List.append_nil, List.append_assoc, units_store (by omega),
        units_store (by omega)]
      rfl

theorem units_utf16Text
    (order : ByteOrder)
    (chars : List Char) :
    units order (utf16Text order chars) = chars.flatMap utf16Encode := by
  have same := units_text order chars []
  have nothing : units order [] = [] := rfl
  rw [List.append_nil, nothing, List.append_nil] at same
  exact same

/-- The bytes of the units of some characters are their text. -/
theorem flatMap_store_chars
    (order : ByteOrder)
    (chars : List Char) :
    (chars.flatMap utf16Encode).flatMap order.store =
      utf16Text order chars := by
  rw [utf16Text, List.flatMap_assoc]

theorem length_utf16Text
    (order : ByteOrder)
    (chars : List Char) :
    (utf16Text order chars).length % 2 = 0 := by
  rw [← flatMap_store_chars, length_flatMap_store]
  omega

/-- A text of an even length is known from its units. -/
theorem eq_utf16Text
    {chars : List Char}
    (even : text.length % 2 = 0)
    (same : units order text = chars.flatMap utf16Encode) :
    text = utf16Text order chars := by
  obtain ⟨left, whole, length⟩ := store_units order text
  rw [even, List.length_eq_zero_iff] at length
  rw [whole, length, List.append_nil, same, flatMap_store_chars]

/-- The first unit of a text is the other byte order mark exactly if its first
character is. -/
theorem notSwapped_iff
    (chars : List Char) :
    NotSwapped chars ↔ (chars.flatMap utf16Encode).head? ≠ some 0xfffe := by
  cases chars with
  | nil => simp [NotSwapped]
  | cons char chars =>
    have head : NotSwapped (char :: chars) ↔ char.toNat ≠ 0xfffe := by
      simp [NotSwapped]
    rw [head, List.flatMap_cons]
    by_cases small : char.toNat < 0x10000
    · rw [utf16Encode_of_small small]
      simp
    · obtain ⟨high, low, encodes, ⟨-, most⟩, -, -⟩ :=
        utf16Encode_of_large (Nat.not_lt.mp small)
      rw [encodes]
      simp only [List.cons_append, List.head?_cons, ne_eq,
        Option.some.injEq]
      omega

/-- Well-formed UTF-16 is the text of some characters. -/
theorem wellFormed_iff :
    (text.length % 2 = 0 ∧ Paired (units order text)) ↔
      ∃ chars, text = utf16Text order chars := by
  constructor
  · rintro ⟨even, paired⟩
    obtain ⟨chars, same⟩ :=
      exists_chars_of_paired (fun unit member => units_lt member) paired
    exact ⟨chars, eq_utf16Text even same⟩
  · rintro ⟨chars, rfl⟩
    refine ⟨length_utf16Text order chars, ?_⟩
    have same := units_text order chars []
    rw [List.append_nil] at same
    have nothing : units order [] = [] := rfl
    rw [same, nothing, List.append_nil]
    exact paired_of_chars chars

/-- A text ends with the first unit of a pair and the first byte of the second
one, and is well formed up to there. -/
def CutInPair (order : ByteOrder) (text : List UInt8) : Prop :=
  text.length % 2 = 1 ∧ (units order text).head? ≠ some 0xfffe ∧
    ∃ before unit,
      units order text = before ++ [unit] ∧ IsHigh unit ∧ Paired before

theorem cutInPair_iff :
    CutInPair order text ↔
      ∃ chars unit byte, IsHigh unit ∧
        text = utf16Text order chars ++ (order.store unit ++ [byte]) ∧
        NotSwapped chars := by
  constructor
  · rintro ⟨odd, first, before, unit, same, isHigh, paired⟩
    have small : ∀ other ∈ before, other < 0x10000 := by
      intro other member
      refine @units_lt other order text ?_
      rw [same]
      exact List.mem_append_left _ member
    obtain ⟨chars, rfl⟩ := exists_chars_of_paired small paired
    obtain ⟨left, whole, length⟩ := store_units order text
    rw [odd] at length
    obtain ⟨byte, rfl⟩ := List.length_eq_one_iff.mp length
    refine ⟨chars, unit, byte, isHigh, ?_, ?_⟩
    · rw [whole, same, List.flatMap_append, flatMap_store_chars,
        List.append_assoc]
      simp
    · rw [notSwapped_iff]
      intro swapped
      refine first ?_
      rw [same, List.head?_append, swapped]
      rfl
  · rintro ⟨chars, unit, byte, isHigh, rfl, notSwapped⟩
    have most := isHigh.2
    have split : units order
        (utf16Text order chars ++ (order.store unit ++ [byte])) =
          chars.flatMap utf16Encode ++ [unit] := by
      rw [units_text, units_store (by omega), units]
      intro first second others same
      cases same
    refine ⟨?_, ?_, _, unit, split, isHigh, paired_of_chars chars⟩
    · have even := length_utf16Text order chars
      simp only [List.length_append, List.length_singleton,
        order.length_store]
      omega
    · rw [split, List.head?_append]
      rw [notSwapped_iff] at notSwapped
      cases found : (chars.flatMap utf16Encode).head? with
      | none =>
        simp only [Option.none_or, List.head?_cons, ne_eq,
          Option.some.injEq]
        omega
      | some other =>
        rw [found] at notSwapped
        exact notSwapped

end Text

/-! ## Objects -/

/-- An object is transformed, and exactly if it is well-formed UTF-16 that does
not begin with the other byte order mark; the result is the same text in UTF-8,
without a byte order mark at its beginning. -/
def AcceptsExactly
    (order : ByteOrder)
    (heap : Heap)
    (data : Nat) : Prop :=
  ∃ after result,
    fromUtf16 (some bufferMallocMax) order heap data true =
        .ok (after, result) ∧
      (result.isSome ↔
        (heap.bytes data).length % 2 = 0 ∧
          Paired (units order (heap.bytes data)) ∧
          (units order (heap.bytes data)).head? ≠ some 0xfffe) ∧
      ∀ object chars, result = some object →
        units order (heap.bytes data) = chars.flatMap utf16Encode →
        after.bytes object = utf8Text (withoutMark chars)

/--
Text in one region is accepted exactly as it should be if it is not cut in a
pair; if it is, the transform reads beyond the region.
-/
theorem reachable_acceptsExactly_iff
    (reached : Reachable (· = Heap.initial) Step heap)
    (holds : heap.Holds data)
    (one : (heap.regions data).length = 1)
    (order : ByteOrder)
    (limitFree : LimitFree (fun limit => fromUtf16 limit order) heap data)
    (storable : Storable (4 * (heap.bytes data).length + 18)) :
    AcceptsExactly order heap data ↔
      ¬ CutInPair order (heap.bytes data) := by
  have wellFormed := reachable_wellFormed reached
  have transforms := @fromUtf16_transforms heap data wellFormed holds none
    storable order (fun _ _ => rfl)
  rw [wellFormed.run_of_one holds (Nat.le_of_eq one)] at transforms
  have returned := limitFree.trans transforms.bytes
  rcases whole_cases order (heap.bytes data) with
    ⟨chars, same, notSwapped⟩ |
    ⟨chars, unit, byte, isHigh, same, notSwapped⟩ | refused
  · obtain ⟨even, paired⟩ := wellFormed_iff.mpr ⟨chars, same⟩
    refine iff_of_true ?_ (fun cut => by have odd := cut.1; omega)
    obtain ⟨outputs, reads, -⟩ := whole_of_text same notSwapped
    rw [reads] at returned
    obtain ⟨after, object, returns, denotes⟩ :=
      resultBytes_eq_some returned
    have known : units order (heap.bytes data) =
        chars.flatMap utf16Encode := by
      rw [same, units_utf16Text]
    refine ⟨_, _, returns, iff_of_true rfl ⟨even, paired, ?_⟩, ?_⟩
    · rw [known]
      exact (notSwapped_iff chars).mp notSwapped
    · intro object others isResult otherKnown
      cases isResult
      have otherSame := eq_utf16Text even otherKnown
      have otherSwapped : NotSwapped others := by
        rw [notSwapped_iff, ← otherKnown, known]
        exact (notSwapped_iff chars).mp notSwapped
      obtain ⟨otherOutputs, otherReads, flat⟩ :=
        whole_of_text otherSame otherSwapped
      rw [reads] at otherReads
      cases otherReads
      exact denotes.trans flat
  · refine iff_of_false ?_ (fun uncut => uncut ?_)
    · rintro ⟨after, result, returns, -⟩
      rw [whole_of_cut isHigh same notSwapped] at returned
      simp only [returns] at returned
      cases returned
    · exact cutInPair_iff.mpr ⟨chars, unit, byte, isHigh, same, notSwapped⟩
  · refine iff_of_true ?_ ?_
    · rw [refused] at returned
      obtain ⟨after, returns⟩ := resultBytes_eq_none returned
      refine ⟨_, _, returns, iff_of_false (by simp) ?_, ?_⟩
      · rintro ⟨even, paired, first⟩
        obtain ⟨chars, same⟩ := wellFormed_iff.mp ⟨even, paired⟩
        rw [same, units_utf16Text, ← notSwapped_iff] at first
        obtain ⟨outputs, reads, -⟩ := whole_of_text same first
        rw [refused] at reads
        cases reads
      · intro object chars isResult
        cases isResult
    · intro cut
      obtain ⟨chars, unit, byte, isHigh, same, notSwapped⟩ :=
        cutInPair_iff.mp cut
      rw [whole_of_cut isHigh same notSwapped] at refused
      cases refused

/-- The first unit of a pair and one more byte are read beyond the end. -/
theorem cutPair_overruns :
    ∃ heap,
      Reachable (· = Heap.initial) Step heap ∧
        heap.bytes 1 = [0x00, 0xd8, 0x61] ∧ (heap.regions 1).length = 1 ∧
        fromUtf16 (some bufferMallocMax) .little heap 1 true =
          .error .overrun := by
  have created := reached_initial.next
    ⟨.createAlloc [0x00, 0xd8, 0x61], by decide, rfl⟩
  exact ⟨_, created, rfl, rfl, rfl⟩

/-- A letter and a pair in UTF-16 are accepted. -/
theorem pair_acceptsExactly :
    ∃ heap : Heap,
      Reachable (· = Heap.initial) Step heap ∧
        heap.bytes 1 = [0x61, 0x00, 0x3d, 0xd8, 0x00, 0xde] ∧
        resultBytes (fromUtf16 (some bufferMallocMax) .little heap 1 true) =
          .ok (some [0x61, 0xf0, 0x9f, 0x98, 0x80]) ∧
        AcceptsExactly .little heap 1 := by
  have created := reached_initial.next
    ⟨.createAlloc [0x61, 0x00, 0x3d, 0xd8, 0x00, 0xde], by decide, rfl⟩
  have storable : Storable (4 * 6 + 18) := by
    simp only [Storable, recordSize, headerSize]
    decide
  refine ⟨_, created, rfl, by decide +kernel,
    (reachable_acceptsExactly_iff created (show 1 < 2 by decide) rfl .little
      (by decide +kernel) storable).mpr ?_⟩
  rintro ⟨odd, -⟩
  exact absurd odd (by decide)

end LibDispatch.Data
