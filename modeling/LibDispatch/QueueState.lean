import LibDispatch.WordFields

namespace LibDispatch.QueueState

/-!
# The state word of a queue

The bits of `dq_state` as `src/queue_internal.h` defines them, and the
predicates of `src/inline_internal.h` that read them.  The lock bits are those
of a Linux build.
-/

/-! ## Bits -/

def suspendInterval : UInt64 := 0x0400000000000000

def suspendHalf : UInt32 := 0x20

def hasSideSuspendCntBit : UInt64 := 0x0200000000000000

def inactiveBit : UInt64 := 0x0100000000000000

def needsActivationBit : UInt64 := 0x0080000000000000

def suspendBitsMask : UInt64 := 0xff80000000000000

def inBarrier : UInt64 := 0x0040000000000000

def widthFullBit : UInt64 := 0x0020000000000000

def widthFull : UInt64 := 0x1000

def widthInterval : UInt64 := 0x0000020000000000

def widthMask : UInt64 := 0x003ffe0000000000

def pendingBarrier : UInt64 := 0x0000010000000000

def dirty : UInt64 := 0x0000008000000000

def enqueuedOnMgr : UInt64 := 0x0000004000000000

def roleMask : UInt64 := 0x0000003000000000

def receivedOverride : UInt64 := 0x0000000800000000

def receivedSyncWait : UInt64 := 0x0000000800000000

def maxQosMask : UInt64 := 0x0000000700000000

def drainOwnerMask : UInt64 := 0x3fffffff

def syncTransfer : UInt64 := 0x40000000

def enqueued : UInt64 := 0x80000000

def drainPreservedBitsMask : UInt64 :=
  enqueuedOnMgr ||| enqueued ||| roleMask ||| maxQosMask

def drainUnlockMask : UInt64 :=
  drainOwnerMask ||| receivedOverride ||| receivedSyncWait ||| syncTransfer

/-- `DISPATCH_QUEUE_STATE_INIT_VALUE`. -/
def initValue (width : UInt16) : UInt64 :=
  (widthFull - width.toUInt64) <<< 41

/-- `_dispatch_lock_value_from_tid`. -/
def lockValueFromTid (tid : UInt32) : UInt64 :=
  tid.toUInt64 &&& drainOwnerMask

/-! ## Predicates -/

variable (dqState : UInt64)

def suspendCnt : UInt32 :=
  (dqState / suspendInterval).toUInt32

def hasSideSuspendCnt : Bool :=
  dqState &&& hasSideSuspendCntBit != 0

def isSuspended : Bool :=
  needsActivationBit ≤ dqState

def isInactive : Bool :=
  dqState &&& inactiveBit != 0

def hasPendingBarrier : Bool :=
  dqState &&& pendingBarrier != 0

def drainLocked : Bool :=
  dqState &&& drainOwnerMask != 0

def isRunnable : Bool :=
  dqState < widthFullBit

/-- The width reserved for a pending barrier. -/
def pendingBarrierWidth (width : UInt16) : UInt64 :=
  (width.toUInt64 - 1) * widthInterval

/-! ## Predicates as fields -/

theorem suspendCnt_toNat :
    (suspendCnt dqState).toNat = field 58 6 dqState := by
  have bound := dqState.toNat_lt
  have interval : suspendInterval.toNat = 2 ^ 58 := by decide
  simp only [suspendCnt, field, UInt64.toNat_toUInt32, UInt64.toNat_div,
    interval]
  omega

theorem isSuspended_iff :
    isSuspended dqState = true ↔ field 55 9 dqState ≠ 0 := by
  have bound := dqState.toNat_lt
  have bit : needsActivationBit.toNat = 2 ^ 55 := by decide
  simp only [isSuspended, decide_eq_true_eq, UInt64.le_iff_toNat_le, bit,
    field]
  omega

theorem hasSideSuspendCnt_iff :
    hasSideSuspendCnt dqState = true ↔ field 57 1 dqState = 1 := by
  have bit : hasSideSuspendCntBit.toNat = 2 ^ 57 := by decide
  rw [← and_bit_ne_zero_iff bit]
  simp [hasSideSuspendCnt]

theorem isInactive_iff :
    isInactive dqState = true ↔ field 56 1 dqState = 1 := by
  have bit : inactiveBit.toNat = 2 ^ 56 := by decide
  rw [← and_bit_ne_zero_iff bit]
  simp [isInactive]

theorem isRunnable_iff :
    isRunnable dqState = true ↔ field 53 11 dqState = 0 := by
  have bound := dqState.toNat_lt
  have bit : widthFullBit.toNat = 2 ^ 53 := by decide
  simp only [isRunnable, decide_eq_true_eq, UInt64.lt_iff_toNat_lt, bit, field]
  omega

/-- The initial value of a queue of a valid width. -/
theorem initValue_toNat
    {width : UInt16}
    (inRange : width.toNat < 0x1000) :
    (initValue width).toNat = (0x1000 - width.toNat) * 2 ^ 41 := by
  have full : widthFull.toNat = 0x1000 := by decide
  have difference : (widthFull - width.toUInt64).toNat =
      0x1000 - width.toNat := by
    rw [UInt64.toNat_sub_of_le _ _ (by
      rw [UInt64.le_iff_toNat_le, UInt16.toNat_toUInt64, full]
      omega), UInt16.toNat_toUInt64, full]
  rw [initValue, UInt64.toNat_shiftLeft, difference, Nat.shiftLeft_eq]
  have position : (41 : UInt64).toNat % 64 = 41 := by decide
  rw [position]
  omega

/-- Comparing the suspend bits. -/
theorem suspendBits_eq_iff
    {value : UInt64}
    (noLowBits : field 0 55 value = 0)
    (dqState : UInt64) :
    dqState &&& suspendBitsMask = value ↔
      field 55 9 dqState = field 55 9 value := by
  have kept : field 55 9 (dqState &&& suspendBitsMask) = field 55 9 dqState :=
    field_and_of_full (by decide) dqState
  constructor
  · rintro rfl
    exact kept.symm
  · intro same
    refine eq_of_fields 55 (by decide) ?_ (kept.trans same)
    rw [noLowBits]
    exact field_and_of_clear (by decide) dqState

end LibDispatch.QueueState
