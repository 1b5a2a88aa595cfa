import Mathlib.Data.Nat.Bitwise

namespace LibDispatch

/-!
# Fields of packed words

A packed word is read as a sequence of fields, each a run of bits taken as a
number.  Masks act on a field by keeping, clearing or filling it; additions and
subtractions act on the word as a number.
-/

variable (low length : Nat)

/-- The bits from `low` on, `length` many, as a number. -/
def field (word : UInt64) : Nat :=
  word.toNat / 2 ^ low % 2 ^ length

theorem field_lt
    (word : UInt64) :
    field low length word < 2 ^ length :=
  Nat.mod_lt _ (Nat.two_pow_pos length)

theorem field_and
    (word mask : UInt64) :
    field low length (word &&& mask) =
      field low length word &&& field low length mask := by
  simp [field, Nat.and_div_two_pow, Nat.and_mod_two_pow]

theorem field_or
    (word mask : UInt64) :
    field low length (word ||| mask) =
      field low length word ||| field low length mask := by
  simp [field, Nat.or_div_two_pow, Nat.or_mod_two_pow]

theorem field_xor
    (word mask : UInt64) :
    field low length (word ^^^ mask) =
      field low length word ^^^ field low length mask := by
  simp [field, Nat.xor_div_two_pow, Nat.xor_mod_two_pow]

variable {low length : Nat} {mask : UInt64}

/-- A mask that covers a field keeps it. -/
theorem field_and_of_full
    (full : field low length mask = 2 ^ length - 1)
    (word : UInt64) :
    field low length (word &&& mask) = field low length word := by
  rw [field_and, full]
  exact Nat.and_two_pow_sub_one_of_lt_two_pow (field_lt low length word)

/-- A mask outside a field clears it. -/
theorem field_and_of_clear
    (clear : field low length mask = 0)
    (word : UInt64) :
    field low length (word &&& mask) = 0 := by
  rw [field_and, clear, Nat.and_zero]

/-- Setting bits outside a field keeps it. -/
theorem field_or_of_clear
    (clear : field low length mask = 0)
    (word : UInt64) :
    field low length (word ||| mask) = field low length word := by
  rw [field_or, clear, Nat.or_zero]

/-- Setting a bit. -/
theorem field_or_of_set
    (set : field low 1 mask = 1)
    (word : UInt64) :
    field low 1 (word ||| mask) = 1 := by
  have bound := field_lt low 1 word
  rw [field_or, set]
  rcases (by omega : field low 1 word = 0 ∨ field low 1 word = 1) with
    clear | isSet
  · rw [clear]
    rfl
  · rw [isSet]
    rfl

variable {first second : UInt64}

/-- A word is determined by its numbers above and below a position. -/
theorem eq_of_fields
    (low : Nat)
    (inWord : low ≤ 64)
    (sameBelow : field 0 low first = field 0 low second)
    (sameAbove : field low (64 - low) first = field low (64 - low) second) :
    first = second := by
  have bounded : ∀ word : UInt64,
      word.toNat / 2 ^ low % 2 ^ (64 - low) = word.toNat / 2 ^ low := by
    intro word
    refine Nat.mod_eq_of_lt ?_
    rw [Nat.div_lt_iff_lt_mul (Nat.two_pow_pos low), ← Nat.pow_add,
      Nat.sub_add_cancel inWord]
    exact word.toNat_lt
  simp only [field, bounded, Nat.pow_zero, Nat.div_one] at sameBelow sameAbove
  rw [← UInt64.toNat_inj, ← Nat.div_add_mod first.toNat (2 ^ low), sameAbove,
    sameBelow, Nat.div_add_mod]

/-- Testing a word against a one-bit mask reads that bit. -/
theorem and_bit_ne_zero_iff
    {position : Nat}
    (oneBit : mask.toNat = 2 ^ position)
    (word : UInt64) :
    word &&& mask ≠ 0 ↔ field position 1 word = 1 := by
  rw [ne_eq, ← UInt64.toNat_inj, UInt64.toNat_and, oneBit, Nat.and_two_pow,
    field, Nat.pow_one, Nat.testBit_eq_decide_div_mod_eq]
  by_cases isSet : word.toNat / 2 ^ position % 2 = 1
  · simp [isSet]
  · simp [isSet]

/-- Bits outside a mask do not show through it. -/
theorem or_and_of_disjoint
    (disjoint : second &&& mask = 0) :
    (first ||| second) &&& mask = first &&& mask := by
  rw [← UInt64.toNat_inj] at disjoint ⊢
  simp only [UInt64.toNat_and, UInt64.toNat_or, UInt64.toNat_zero] at disjoint ⊢
  refine Nat.eq_of_testBit_eq fun position => ?_
  have absent := congrArg (Nat.testBit · position) disjoint
  simp only [Nat.testBit_and, Nat.zero_testBit] at absent
  simp only [Nat.testBit_and, Nat.testBit_or, Bool.and_or_distrib_right,
    absent, Bool.or_false]

/-! ## Arithmetic that reports overflow -/

/-- The sum, unless it does not fit in the word. -/
def addOverflow (first second : UInt64) : Option UInt64 :=
  if second ≤ ~~~first then some (first + second) else none

/-- The sum of half words, unless it does not fit. -/
def addOverflow32 (first second : UInt32) : Option UInt32 :=
  if second ≤ ~~~first then some (first + second) else none

/-- The difference, unless it is negative. -/
def subOverflow (first second : UInt64) : Option UInt64 :=
  if second ≤ first then some (first - second) else none

theorem addOverflow_eq_some_iff
    {sum : UInt64} :
    addOverflow first second = some sum ↔
      sum.toNat = first.toNat + second.toNat := by
  have bound := sum.toNat_lt
  have firstBound := first.toNat_lt
  rw [addOverflow]
  split_ifs with fits
  · rw [UInt64.le_iff_toNat_le, UInt64.toNat_not, UInt64.size] at fits
    rw [Option.some.injEq, ← UInt64.toNat_inj, UInt64.toNat_add]
    omega
  · rw [UInt64.le_iff_toNat_le, UInt64.toNat_not, UInt64.size] at fits
    simp only [false_iff]
    omega

theorem addOverflow32_eq_some_iff
    {first second sum : UInt32} :
    addOverflow32 first second = some sum ↔
      sum.toNat = first.toNat + second.toNat := by
  have bound := sum.toNat_lt
  have firstBound := first.toNat_lt
  rw [addOverflow32]
  split_ifs with fits
  · rw [UInt32.le_iff_toNat_le, UInt32.toNat_not, UInt32.size] at fits
    rw [Option.some.injEq, ← UInt32.toNat_inj, UInt32.toNat_add]
    omega
  · rw [UInt32.le_iff_toNat_le, UInt32.toNat_not, UInt32.size] at fits
    simp only [false_iff]
    omega

theorem addOverflow32_eq_none_iff
    {first second : UInt32} :
    addOverflow32 first second = none ↔
      2 ^ 32 ≤ first.toNat + second.toNat := by
  have firstBound := first.toNat_lt
  rw [addOverflow32]
  split_ifs with fits
  · rw [UInt32.le_iff_toNat_le, UInt32.toNat_not, UInt32.size] at fits
    simp only [false_iff]
    omega
  · rw [UInt32.le_iff_toNat_le, UInt32.toNat_not, UInt32.size] at fits
    simp only [true_iff]
    omega

theorem subOverflow_eq_some_iff
    {difference : UInt64} :
    subOverflow first second = some difference ↔
      difference.toNat + second.toNat = first.toNat := by
  rw [subOverflow]
  split_ifs with fits
  · have subtracted := UInt64.toNat_sub_of_le first second fits
    rw [UInt64.le_iff_toNat_le] at fits
    rw [Option.some.injEq, ← UInt64.toNat_inj, subtracted]
    omega
  · rw [UInt64.le_iff_toNat_le] at fits
    simp only [false_iff]
    omega

theorem subOverflow_eq_none_iff :
    subOverflow first second = none ↔ first.toNat < second.toNat := by
  rw [subOverflow]
  split_ifs with fits
  · rw [UInt64.le_iff_toNat_le] at fits
    simp only [false_iff]
    omega
  · rw [UInt64.le_iff_toNat_le] at fits
    simp only [true_iff]
    omega

end LibDispatch
