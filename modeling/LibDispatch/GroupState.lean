import LibDispatch.WordFields

namespace LibDispatch.Group

/-!
# The state word of a group

`dg_state` of `src/semaphore_internal.h`: a generation in the upper half, below
it the number of enters as a negative number of 30 bits, and two flags.
-/

/-! ## Constants -/

def genMask : UInt64 := 0xffffffff00000000

def valueMask : UInt64 := 0x00000000fffffffc

def valueInterval : UInt64 := 4

def value1 : UInt64 := valueMask

def valueMax : UInt64 := valueInterval

def hasNotifs : UInt64 := 2

def hasWaiters : UInt64 := 1

/-- `_dg_state_gen`. -/
def stateGen (dgState : UInt64) : UInt32 :=
  (dgState >>> 32).toUInt32

/-! ## Updates -/

/-- The decrement of `dispatch_group_enter`, on the lower half only. -/
def enterWord (dgState : UInt64) : UInt64 :=
  (dgState &&& genMask) |||
    (dgState.toUInt32 - valueInterval.toUInt32).toUInt64

/-- The increment of `dispatch_group_leave`, whose carry is a new
generation. -/
def leaveWord (dgState : UInt64) : UInt64 :=
  dgState + valueInterval

/-- What the loop of `dispatch_group_leave` tries to store. -/
def clearWord (oldState : UInt64) : UInt64 :=
  if oldState &&& valueMask = 0 then
    oldState &&& ~~~hasWaiters &&& ~~~hasNotifs
  else
    oldState &&& ~~~hasNotifs

/-! ## The word as fields -/

/-- What a state word says. -/
@[ext] structure Bits where
  gen : Nat
  count : Nat
  notifs : Nat
  waiters : Nat
  deriving DecidableEq

/-- The fields of a state word; the count is stored negated. -/
def bits (dgState : UInt64) : Bits where
  gen := field 32 32 dgState
  count := (2 ^ 30 - field 2 30 dgState) % 2 ^ 30
  notifs := field 1 1 dgState
  waiters := field 0 1 dgState

variable (dgState : UInt64)

include dgState

theorem bits_bounds :
    (bits dgState).gen < 2 ^ 32 ∧ (bits dgState).count < 2 ^ 30 ∧
      (bits dgState).notifs < 2 ∧ (bits dgState).waiters < 2 :=
  ⟨field_lt 32 32 dgState, Nat.mod_lt _ (Nat.two_pow_pos 30),
    field_lt 1 1 dgState, field_lt 0 1 dgState⟩

/-- The fields make up the word. -/
theorem toNat_eq_fields :
    dgState.toNat =
      2 ^ 32 * field 32 32 dgState + 4 * field 2 30 dgState +
        2 * field 1 1 dgState + field 0 1 dgState := by
  have bound := dgState.toNat_lt
  simp only [field]
  omega

omit dgState in
/-- A word is determined by its fields. -/
theorem eq_of_bits
    {first second : UInt64}
    (same : bits first = bits second) :
    first = second := by
  have sameGen := congrArg Bits.gen same
  have sameCount := congrArg Bits.count same
  have sameNotifs := congrArg Bits.notifs same
  have sameWaiters := congrArg Bits.waiters same
  have firstBound := field_lt 2 30 first
  have secondBound := field_lt 2 30 second
  simp only [bits] at sameGen sameCount sameNotifs sameWaiters
  rw [← UInt64.toNat_inj, toNat_eq_fields first, toNat_eq_fields second]
  omega

theorem stateGen_toNat :
    (stateGen dgState).toNat = (bits dgState).gen := by
  have position : (32 : UInt64).toNat % 64 = 32 := by decide
  simp only [stateGen, bits, field, UInt64.toNat_toUInt32,
    UInt64.toNat_shiftRight, position, Nat.shiftRight_eq_div_pow]

/-! ## Tests -/

/-- The value bits alone. -/
theorem toNat_and_valueMask :
    (dgState &&& valueMask).toNat = 4 * field 2 30 dgState := by
  rw [toNat_eq_fields, field_and_of_clear (by decide),
    field_and_of_full (by decide), field_and_of_clear (by decide),
    field_and_of_clear (by decide)]
  omega

theorem value_eq_zero_iff :
    dgState &&& valueMask = 0 ↔ (bits dgState).count = 0 := by
  have bound := field_lt 2 30 dgState
  rw [← UInt64.toNat_inj, toNat_and_valueMask]
  simp only [bits, UInt64.toNat_zero]
  omega

theorem value_eq_one_iff :
    dgState &&& valueMask = value1 ↔ (bits dgState).count = 1 := by
  have bound := field_lt 2 30 dgState
  have number : value1.toNat = 4 * (2 ^ 30 - 1) := by decide
  rw [← UInt64.toNat_inj, toNat_and_valueMask, number]
  simp only [bits]
  omega

theorem value_eq_max_iff :
    dgState &&& valueMask = valueMax ↔
      (bits dgState).count = 2 ^ 30 - 1 := by
  have bound := field_lt 2 30 dgState
  have number : valueMax.toNat = 4 := by decide
  rw [← UInt64.toNat_inj, toNat_and_valueMask, number]
  simp only [bits]
  omega

theorem hasNotifs_iff :
    dgState &&& hasNotifs ≠ 0 ↔ (bits dgState).notifs = 1 := by
  have oneBit : hasNotifs.toNat = 2 ^ 1 := by decide
  exact and_bit_ne_zero_iff oneBit dgState

theorem hasWaiters_iff :
    dgState &&& hasWaiters ≠ 0 ↔ (bits dgState).waiters = 1 := by
  have oneBit : hasWaiters.toNat = 2 ^ 0 := by decide
  exact and_bit_ne_zero_iff oneBit dgState

/-- `(uint32_t)dg_state == 0`. -/
theorem lowerHalf_eq_zero_iff :
    dgState.toUInt32 = 0 ↔
      (bits dgState).count = 0 ∧ (bits dgState).notifs = 0 ∧
        (bits dgState).waiters = 0 := by
  rw [← UInt32.toNat_inj, UInt64.toNat_toUInt32]
  simp only [bits, field, UInt32.toNat_zero]
  omega

/-! ## What the updates do -/

/-- The lower half of a word after an enter. -/
theorem toNat_enterWord :
    (enterWord dgState).toNat =
      2 ^ 32 * field 32 32 dgState +
        (2 ^ 32 - 4 + dgState.toNat) % 2 ^ 32 := by
  have upper : (dgState &&& genMask).toNat =
      2 ^ 32 * field 32 32 dgState := by
    rw [toNat_eq_fields, field_and_of_full (by decide),
      field_and_of_clear (by decide), field_and_of_clear (by decide),
      field_and_of_clear (by decide)]
    omega
  have lower :
      (dgState.toUInt32 - valueInterval.toUInt32).toUInt64.toNat =
        (2 ^ 32 - 4 + dgState.toNat) % 2 ^ 32 := by
    have interval : valueInterval.toUInt32.toNat = 4 := by decide
    rw [UInt32.toNat_toUInt64, UInt32.toNat_sub, interval,
      UInt64.toNat_toUInt32, Nat.add_mod_mod]
  rw [enterWord, UInt64.toNat_or, upper, lower]
  exact (Nat.two_pow_add_eq_or_of_lt (Nat.mod_lt _ (by decide)) _).symm

omit dgState in
/-- An enter counts one more and keeps the generation and the flags. -/
theorem bits_enterWord
    {dgState : UInt64}
    (notFull : (bits dgState).count ≠ 2 ^ 30 - 1) :
    bits (enterWord dgState) =
      { bits dgState with count := (bits dgState).count + 1 } := by
  have difference := toNat_enterWord dgState
  simp only [bits, field] at notFull difference
  refine Bits.ext ?_ ?_ ?_ ?_
  · simp only [bits, field, difference]
    omega
  · simp only [bits, field, difference]
    omega
  · simp only [bits, field, difference]
    omega
  · simp only [bits, field, difference]
    omega

omit dgState in
/-- A leave counts one less; with the last one the generation changes. -/
theorem bits_leaveWord
    {dgState : UInt64}
    (entered : (bits dgState).count ≠ 0) :
    bits (leaveWord dgState) =
      { bits dgState with
        gen :=
          if (bits dgState).count = 1 then ((bits dgState).gen + 1) % 2 ^ 32
          else (bits dgState).gen
        count := (bits dgState).count - 1 } := by
  have interval : valueInterval.toNat = 4 := by decide
  have sum : (leaveWord dgState).toNat = (dgState.toNat + 4) % 2 ^ 64 := by
    rw [leaveWord, UInt64.toNat_add, interval]
  refine Bits.ext ?_ ?_ ?_ ?_
  · by_cases last : (bits dgState).count = 1
    · simp only [if_pos last]
      simp only [bits, field] at last ⊢
      omega
    · simp only [if_neg last]
      simp only [bits, field] at last entered ⊢
      omega
  · simp only [bits, field] at entered ⊢
    omega
  · simp only [bits, field, sum]
    omega
  · simp only [bits, field, sum]
    omega

/-- The loop of a leave drops the notifications, and the waiters unless the
group was entered again. -/
theorem bits_clearWord :
    bits (clearWord dgState) =
      { bits dgState with
        notifs := 0
        waiters :=
          if (bits dgState).count = 0 then 0 else (bits dgState).waiters } := by
  unfold clearWord
  by_cases isZero : (bits dgState).count = 0
  · rw [if_pos ((value_eq_zero_iff dgState).mpr isZero)]
    simp only [if_pos isZero]
    simp only [bits]
    rw [field_and_of_full (by decide), field_and_of_full (by decide),
      field_and_of_full (by decide), field_and_of_full (by decide),
      field_and_of_clear (by decide), field_and_of_full (by decide),
      field_and_of_clear (by decide)]
  · rw [if_neg (isZero ∘ (value_eq_zero_iff dgState).mp)]
    simp only [if_neg isZero]
    simp only [bits]
    rw [field_and_of_full (by decide), field_and_of_full (by decide),
      field_and_of_clear (by decide), field_and_of_full (by decide)]

/-- When the loop of a leave has nothing to store. -/
theorem clearWord_eq_iff :
    clearWord dgState = dgState ↔
      (bits dgState).notifs = 0 ∧
        ((bits dgState).count = 0 → (bits dgState).waiters = 0) := by
  constructor
  · intro same
    have cleared := bits_clearWord dgState
    rw [same] at cleared
    refine ⟨congrArg Bits.notifs cleared, ?_⟩
    intro isZero
    have waiters := congrArg Bits.waiters cleared
    simp only [if_pos isZero] at waiters
    exact waiters
  · rintro ⟨noNotifs, noWaiters⟩
    refine eq_of_bits ?_
    rw [bits_clearWord]
    refine Bits.ext rfl rfl noNotifs.symm ?_
    by_cases isZero : (bits dgState).count = 0
    · simp only [if_pos isZero, noWaiters isZero]
    · simp only [if_neg isZero]

theorem bits_or_hasNotifs :
    bits (dgState ||| hasNotifs) = { bits dgState with notifs := 1 } := by
  simp only [bits]
  rw [field_or_of_clear (by decide), field_or_of_clear (by decide),
    field_or_of_set (by decide), field_or_of_clear (by decide)]

theorem bits_or_hasWaiters :
    bits (dgState ||| hasWaiters) = { bits dgState with waiters := 1 } := by
  simp only [bits]
  rw [field_or_of_clear (by decide), field_or_of_clear (by decide),
    field_or_of_clear (by decide), field_or_of_set (by decide)]

end LibDispatch.Group
