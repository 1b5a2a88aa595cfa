import Mathlib.Data.List.Basic

namespace LibDispatch

/-!
# Single bits of machine words

Event masks and state words are tested one bit at a time.  The lemmas here
turn a test of a word against a one-bit mask into a Boolean and push that
Boolean through the bitwise operators.
-/

/-- One bit of a 32-bit word. -/
def bit32 (word : UInt32) (position : Nat) : Bool :=
  word.toBitVec.getLsbD position

@[simp] theorem bit32_and
    (first second : UInt32)
    (position : Nat) :
    bit32 (first &&& second) position =
      (bit32 first position && bit32 second position) := by
  simp [bit32]

@[simp] theorem bit32_or
    (first second : UInt32)
    (position : Nat) :
    bit32 (first ||| second) position =
      (bit32 first position || bit32 second position) := by
  simp [bit32]

@[simp] theorem bit32_not
    (word : UInt32)
    (position : Nat) :
    bit32 (~~~word) position =
      (decide (position < 32) && !bit32 word position) := by
  simp [bit32]

variable {position : Nat}

theorem bit32_of_le
    {word : UInt32}
    (beyond : 32 ≤ position) :
    bit32 word position = false := by
  simp [bit32, BitVec.getLsbD_of_ge _ _ beyond]

/-- Clearing the bits of a mask. -/
theorem bit32_and_not
    (word mask : UInt32)
    (position : Nat) :
    bit32 (word &&& ~~~mask) position =
      (bit32 word position && !bit32 mask position) := by
  by_cases inWord : position < 32
  · simp [inWord]
  · simp [bit32_of_le (by omega : 32 ≤ position)]

/-- One bit of a 16-bit word. -/
def bit16 (word : UInt16) (position : Nat) : Bool :=
  word.toBitVec.getLsbD position

theorem bit16_of_le
    {word : UInt16}
    (beyond : 16 ≤ position) :
    bit16 word position = false := by
  simp [bit16, BitVec.getLsbD_of_ge _ _ beyond]

@[simp] theorem bit32_ofUInt16
    (word : UInt16)
    (position : Nat) :
    bit32 word.toUInt32 position =
      (decide (position < 32) && bit16 word position) := by
  simp [bit32, bit16]

@[simp] theorem bit16_ofUInt32
    (word : UInt32)
    (position : Nat) :
    bit16 word.toUInt16 position =
      (decide (position < 16) && bit32 word position) := by
  simp [bit32, bit16]

/-- Testing a word against a one-bit mask reads that bit. -/
theorem and_mask_ne_zero_iff
    {mask : UInt32}
    (oneBit : mask.toBitVec = BitVec.twoPow 32 position)
    (inWord : position < 32)
    (word : UInt32) :
    word &&& mask ≠ 0 ↔ bit32 word position = true := by
  rw [Ne, ← UInt32.toBitVec_inj, UInt32.toBitVec_and, oneBit,
    BitVec.and_twoPow]
  cases present : word.toBitVec.getLsbD position with
  | false =>
    simp [bit32, present]
  | true =>
    have nonzero : BitVec.twoPow 32 position ≠ 0#32 := by
      intro isZero
      have atPosition :=
        congrArg (fun bits => bits.getLsbD position) isZero
      simp [inWord] at atPosition
    simpa [bit32, present] using nonzero

/-- A word is nonzero exactly when one of its bits is set. -/
theorem ne_zero_iff_bit32
    (word : UInt32) :
    word ≠ 0 ↔ ∃ position, bit32 word position = true := by
  rw [Ne, ← UInt32.toBitVec_inj]
  constructor
  · intro nonzero
    by_contra noBit
    apply nonzero
    apply BitVec.eq_of_getLsbD_eq
    intro position _
    have unset : bit32 word position = false := by
      cases value : bit32 word position with
      | false => rfl
      | true => exact (noBit ⟨position, value⟩).elim
    simpa [bit32] using unset
  · rintro ⟨position, set⟩ isZero
    simp [bit32, isZero] at set

/-- Words that agree on every bit are equal. -/
theorem eq_of_bit32
    {first second : UInt32}
    (agree :
      ∀ position, position < 32 →
        bit32 first position = bit32 second position) :
    first = second := by
  rw [← UInt32.toBitVec_inj]
  apply BitVec.eq_of_getLsbD_eq
  intro position inWord
  exact agree position inWord

end LibDispatch
