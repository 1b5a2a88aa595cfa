import LibDispatch.SuspendResume

namespace LibDispatch.Suspension

open QueueState

/-!
# What the updates do to the suspend bits

One lemma for each update of the state word.  The bits of the suspension are
kept apart from the bits below them, which only the last resume changes.
-/

/-- The fields of the suspend bits. -/
@[ext] structure SuspendBits where
  count : Nat
  side : Nat
  inactive : Nat
  needsActivation : Nat

variable (dqState : UInt64)

/-- The suspend bits of a state word. -/
def suspendBits : SuspendBits where
  count := field 58 6 dqState
  side := field 57 1 dqState
  inactive := field 56 1 dqState
  needsActivation := field 55 1 dqState

/-- The suspend bits as one number. -/
theorem suspendBits_number :
    field 55 9 dqState =
      8 * (suspendBits dqState).count + 4 * (suspendBits dqState).side +
        2 * (suspendBits dqState).inactive +
        (suspendBits dqState).needsActivation := by
  simp only [suspendBits, field]
  omega

theorem suspendBits_bounds :
    (suspendBits dqState).count < 64 ∧ (suspendBits dqState).side < 2 ∧
      (suspendBits dqState).inactive < 2 ∧
      (suspendBits dqState).needsActivation < 2 :=
  ⟨field_lt 58 6 dqState, field_lt 57 1 dqState, field_lt 56 1 dqState,
    field_lt 55 1 dqState⟩

/-- The number gives back the fields. -/
theorem suspendBits_eq :
    suspendBits dqState =
      ⟨field 55 9 dqState / 8, field 55 9 dqState / 4 % 2,
        field 55 9 dqState / 2 % 2, field 55 9 dqState % 2⟩ := by
  have bounds := suspendBits_bounds dqState
  rw [suspendBits_number]
  ext <;> simp only <;> omega

/-- The number determines the fields. -/
theorem suspendBits_eq_of_number
    {first second : UInt64}
    (same : field 55 9 first = field 55 9 second) :
    suspendBits first = suspendBits second := by
  rw [suspendBits_eq, suspendBits_eq, same]

/-- Two words with the same bits below the suspend bits. -/
def SameBelow (first second : UInt64) : Prop :=
  field 0 55 first = field 0 55 second

variable {oldState newState : UInt64} {amount : Nat}

/-- Adding to the suspend bits. -/
theorem number_of_add
    (added : newState.toNat = oldState.toNat + amount * 2 ^ 55) :
    field 55 9 newState = field 55 9 oldState + amount ∧
      SameBelow newState oldState := by
  have bound := newState.toNat_lt
  simp only [SameBelow, field]
  omega

/-- Subtracting from the suspend bits. -/
theorem number_of_sub
    (subtracted : newState.toNat + amount * 2 ^ 55 = oldState.toNat) :
    field 55 9 newState + amount = field 55 9 oldState ∧
      SameBelow newState oldState := by
  obtain ⟨number, below⟩ := number_of_add subtracted.symm
  exact ⟨number.symm, below.symm⟩

/-- The slow paths move whole suspend counts. -/
theorem suspendSlowDelta_amount
    (sideSuspendCnt : UInt32) :
    ∃ amount, (suspendSlowDelta sideSuspendCnt).toNat = amount * 2 ^ 55 := by
  rw [suspendSlowDelta]
  split_ifs
  · exact ⟨244, by decide⟩
  · exact ⟨248, by decide⟩

variable {sideSuspendCnt : UInt32} {delta : UInt64}

@[inherit_doc suspendSlowDelta_amount]
theorem resumeSlowDelta_amount
    (isDelta : resumeSlowDelta sideSuspendCnt = some delta) :
    ∃ amount, delta.toNat = amount * 2 ^ 55 := by
  rw [resumeSlowDelta] at isDelta
  split_ifs at isDelta <;> cases isDelta
  · exact ⟨244, by decide⟩
  · exact ⟨248, by decide⟩

/-- The slow resume needs something on the side. -/
theorem resumeSlowDelta_pos
    (isDelta : resumeSlowDelta sideSuspendCnt = some delta) :
    sideSuspendCnt.toNat ≠ 0 := by
  rw [resumeSlowDelta] at isDelta
  split_ifs at isDelta with isZero isHalf
  · rw [isHalf]
    decide
  · intro noCount
    exact isZero (UInt32.toNat_inj.mp noCount)

/-- Two words with the same bits below look the same there. -/
theorem SameBelow.and_not_suspendBitsMask
    {first second : UInt64}
    (same : SameBelow first second) :
    first &&& ~~~suspendBitsMask = second &&& ~~~suspendBitsMask := by
  refine eq_of_fields 55 (by decide) ?_ ?_
  · rw [field_and_of_full (by decide), field_and_of_full (by decide)]
    exact same
  · rw [field_and_of_clear (by decide), field_and_of_clear (by decide)]

/-- A suspend that fits adds one to the inline count. -/
theorem suspendUpdate_some
    (updated : suspendUpdate oldState = some newState) :
    suspendBits newState =
        { suspendBits oldState with
          count := (suspendBits oldState).count + 1 } ∧
      SameBelow newState oldState := by
  have sum := addOverflow_eq_some_iff.mp updated
  have interval : suspendInterval.toNat = 8 * 2 ^ 55 := by decide
  rw [interval] at sum
  obtain ⟨number, below⟩ := number_of_add sum
  refine ⟨?_, below⟩
  simp only [suspendBits_eq, number, SuspendBits.mk.injEq]
  omega

/-- The slow suspend takes 31 counts out of the state word, provided that the
side flag is right. -/
theorem suspendSlow_some
    (flagged : (suspendBits oldState).side = 1 ↔ sideSuspendCnt ≠ 0)
    (updated : subOverflow oldState (suspendSlowDelta sideSuspendCnt) =
      some newState) :
    31 ≤ (suspendBits oldState).count ∧
      suspendBits newState =
        { suspendBits oldState with
          count := (suspendBits oldState).count - 31
          side := 1 } ∧
      SameBelow newState oldState := by
  have difference := subOverflow_eq_some_iff.mp updated
  simp only [suspendBits_eq] at flagged
  simp only [suspendBits_eq, SuspendBits.mk.injEq]
  by_cases isZero : sideSuspendCnt = 0
  · have delta : (suspendSlowDelta sideSuspendCnt).toNat = 244 * 2 ^ 55 := by
      rw [isZero]
      decide
    have unset : field 55 9 oldState / 4 % 2 ≠ 1 := by
      rw [ne_eq, flagged]
      exact fun nonzero => nonzero isZero
    rw [delta] at difference
    obtain ⟨number, below⟩ := number_of_sub difference
    refine ⟨?_, ?_, below⟩ <;> omega
  · have delta : (suspendSlowDelta sideSuspendCnt).toNat = 248 * 2 ^ 55 := by
      rw [suspendSlowDelta, if_neg isZero]
      decide
    have isSet := flagged.mpr isZero
    rw [delta] at difference
    obtain ⟨number, below⟩ := number_of_sub difference
    refine ⟨?_, ?_, below⟩ <;> omega

/-- The slow resume puts 31 counts back into the state word and drops the side
flag with the last of them. -/
theorem resumeSlow_some
    (flagged : (suspendBits oldState).side = 1)
    (isDelta : resumeSlowDelta sideSuspendCnt = some delta)
    (updated : addOverflow oldState delta = some newState) :
    suspendBits newState =
        { suspendBits oldState with
          count := (suspendBits oldState).count + 31
          side := if sideSuspendCnt = suspendHalf then 0 else 1 } ∧
      SameBelow newState oldState := by
  have sum := addOverflow_eq_some_iff.mp updated
  simp only [suspendBits_eq] at flagged
  simp only [suspendBits_eq, SuspendBits.mk.injEq]
  rw [resumeSlowDelta] at isDelta
  split_ifs at isDelta with isZero isHalf
  · cases isDelta
    have value : (suspendHalf.toUInt64 * suspendInterval - suspendInterval -
        hasSideSuspendCntBit).toNat = 244 * 2 ^ 55 := by decide
    rw [value] at sum
    obtain ⟨number, below⟩ := number_of_add sum
    rw [if_pos isHalf]
    refine ⟨?_, below⟩
    omega
  · cases isDelta
    have value : (suspendHalf.toUInt64 * suspendInterval -
        suspendInterval).toNat = 248 * 2 ^ 55 := by decide
    rw [value] at sum
    obtain ⟨number, below⟩ := number_of_add sum
    rw [if_neg isHalf]
    refine ⟨?_, below⟩
    omega

/-- Turning the two activation bits into a suspend count. -/
theorem convertActivation
    (inactive : field 55 9 oldState = 3) :
    suspendBits (oldState - inactiveBit - needsActivationBit +
        suspendInterval) = ⟨1, 0, 0, 0⟩ ∧
      SameBelow (oldState - inactiveBit - needsActivationBit +
        suspendInterval) oldState := by
  have bound := oldState.toNat_lt
  have inactiveValue : inactiveBit.toNat = 2 ^ 56 := by decide
  have needsValue : needsActivationBit.toNat = 2 ^ 55 := by decide
  have intervalValue : suspendInterval.toNat = 2 ^ 58 := by decide
  have sum : (oldState - inactiveBit - needsActivationBit +
      suspendInterval).toNat = oldState.toNat + 5 * 2 ^ 55 := by
    simp only [field] at inactive
    have first := UInt64.toNat_sub_of_le oldState inactiveBit (by
      rw [UInt64.le_iff_toNat_le]
      omega)
    have second := UInt64.toNat_sub_of_le (oldState - inactiveBit)
      needsActivationBit (by
        rw [UInt64.le_iff_toNat_le]
        omega)
    rw [UInt64.toNat_add]
    omega
  obtain ⟨number, below⟩ := number_of_add sum
  refine ⟨?_, below⟩
  simp [suspendBits_eq, number, inactive]

/-- Dropping one of the activation bits. -/
theorem dropBit
    {bit : UInt64}
    (isBit : bit.toNat = amount * 2 ^ 55)
    (present : amount ≤ field 55 9 oldState) :
    field 55 9 (oldState - bit) + amount = field 55 9 oldState ∧
      SameBelow (oldState - bit) oldState := by
  have enough : bit ≤ oldState := by
    rw [UInt64.le_iff_toNat_le, isBit]
    simp only [field] at present
    omega
  refine number_of_sub ?_
  rw [UInt64.toNat_sub_of_le oldState bit enough, isBit]
  rw [UInt64.le_iff_toNat_le, isBit] at enough
  omega

/-- The suspend bits of an object in given circumstances, as one number. -/
theorem number_eq_iff
    (bits : SuspendBits)
    (bounds : bits.count < 64 ∧ bits.side < 2 ∧ bits.inactive < 2 ∧
      bits.needsActivation < 2) :
    field 55 9 dqState = 8 * bits.count + 4 * bits.side + 2 * bits.inactive +
        bits.needsActivation ↔ suspendBits dqState = bits := by
  rw [suspendBits_number]
  obtain ⟨countBound, sideBound, inactiveBound, needsBound⟩ := bounds
  have own := suspendBits_bounds dqState
  constructor
  · intro same
    ext <;> omega
  · rintro rfl
    rfl

/-- An object that was created inactive and never used. -/
theorem isUntouched_iff :
    dqState &&& suspendBitsMask = needsActivationBit + inactiveBit ↔
      suspendBits dqState = ⟨0, 0, 1, 1⟩ := by
  rw [suspendBits_eq_iff (by decide)]
  exact number_eq_iff dqState ⟨0, 0, 1, 1⟩ (by decide)

/-- An object whose last suspension keeps the activation from happening. -/
theorem isLastBeforeActivation_iff :
    dqState &&& suspendBitsMask = suspendInterval + needsActivationBit ↔
      suspendBits dqState = ⟨1, 0, 0, 1⟩ := by
  rw [suspendBits_eq_iff (by decide)]
  exact number_eq_iff dqState ⟨1, 0, 0, 1⟩ (by decide)

theorem isSuspended_iff_bits :
    isSuspended dqState = true ↔ suspendBits dqState ≠ ⟨0, 0, 0, 0⟩ := by
  have noBits := number_eq_iff dqState ⟨0, 0, 0, 0⟩ (by decide)
  rw [isSuspended_iff]
  exact not_congr noBits

/-- What an activation does to an object that is not active yet. -/
theorem activateUpdate_some
    (updated : activateUpdate oldState = some newState) :
    (suspendBits oldState).inactive = 1 ∧ SameBelow newState oldState ∧
      (suspendBits oldState = ⟨0, 0, 1, 1⟩ ∧
          suspendBits newState = ⟨1, 0, 0, 0⟩ ∨
        suspendBits oldState ≠ ⟨0, 0, 1, 1⟩ ∧
          suspendBits newState = { suspendBits oldState with inactive := 0 }) := by
  rw [activateUpdate] at updated
  split_ifs at updated with isUntouched stillInactive
  · obtain rfl := Option.some.inj updated
    have number := (suspendBits_eq_iff (by decide) oldState).mp isUntouched
    rw [isUntouched_iff] at isUntouched
    obtain ⟨converted, below⟩ := convertActivation number
    exact ⟨by rw [isUntouched], below, Or.inl ⟨isUntouched, converted⟩⟩
  · obtain rfl := Option.some.inj updated
    rw [isUntouched_iff] at isUntouched
    have isSet : (suspendBits oldState).inactive = 1 :=
      (isInactive_iff oldState).mp stillInactive
    simp only [suspendBits_eq] at isSet
    obtain ⟨number, below⟩ :=
      dropBit (by decide : inactiveBit.toNat = 2 * 2 ^ 55)
        (by omega : 2 ≤ field 55 9 oldState)
    refine ⟨(isInactive_iff oldState).mp stillInactive, below,
      Or.inr ⟨isUntouched, ?_⟩⟩
    simp only [suspendBits_eq, SuspendBits.mk.injEq]
    omega

/-- An activation leaves only active objects alone. -/
theorem activateUpdate_none
    (notUpdated : activateUpdate oldState = none) :
    (suspendBits oldState).inactive = 0 := by
  rw [activateUpdate] at notUpdated
  split_ifs at notUpdated with isUntouched stillInactive
  rw [isInactive_iff] at stillInactive
  have bound := (suspendBits_bounds oldState).2.2.1
  simp only [suspendBits] at bound ⊢
  omega

/-- The end of a resume keeps the suspend bits. -/
theorem resumeFinish_bits
    (config : Config)
    (tid : UInt32)
    (newState : UInt64) :
    suspendBits (resumeFinish config tid newState) = suspendBits newState := by
  refine suspendBits_eq_of_number ?_
  rw [resumeFinish]
  split_ifs with notRunnable locked takesLock
  · exact field_or_of_clear (by decide) newState
  · exact field_or_of_clear (by decide) newState
  · have runnable : field 53 11 newState = 0 := by
      rw [← isRunnable_iff]
      simpa using notRunnable
    have noSuspension : field 55 9 newState = 0 := by
      simp only [field] at runnable ⊢
      omega
    have ownerBits : field 55 9 (lockValueFromTid tid) = 0 :=
      field_and_of_clear (by decide) tid.toUInt64
    have setBits : field 55 9
        (lockValueFromTid tid ||| widthFullBit ||| inBarrier) = 0 := by
      rw [field_or_of_clear (by decide), field_or_of_clear (by decide),
        ownerBits]
    rw [field_or_of_clear setBits, field_and_of_clear (by decide),
      noSuspension]
  · rw [field_and_of_full (by decide), field_and_of_full (by decide)]

variable {config : Config} {tid : UInt32}

/-- A resume that leaves the object suspended marks it dirty and changes nothing
else. -/
theorem resumeFinish_suspended
    (suspended : isSuspended newState = true) :
    resumeFinish config tid newState = newState ||| dirty := by
  have notRunnable : isRunnable newState = false := by
    rw [← Bool.not_eq_true, isRunnable_iff]
    rw [isSuspended_iff] at suspended
    simp only [field] at suspended ⊢
    omega
  simp [resumeFinish, notRunnable]

/-- The outcomes of a resume. -/
inductive ResumeCase
    (config : Config)
    (oldState newState : UInt64) : Prop where
  | lastBeforeActivation
      (before : suspendBits oldState = ⟨1, 0, 0, 1⟩)
      (after : suspendBits newState = ⟨1, 0, 0, 0⟩)
      (below : SameBelow newState oldState)
  | standsForActivation
      (isSource : config.isSource = true)
      (before : suspendBits oldState = ⟨0, 0, 1, 1⟩)
      (after : suspendBits newState = ⟨1, 0, 0, 0⟩)
      (below : SameBelow newState oldState)
  | counted
      (notLast : suspendBits oldState ≠ ⟨1, 0, 0, 1⟩)
      (before : 0 < (suspendBits oldState).count)
      (after : suspendBits newState =
        { suspendBits oldState with
          count := (suspendBits oldState).count - 1 })
      (below : isSuspended newState = true →
        ∃ middle, SameBelow middle oldState ∧ newState = middle ||| dirty)

theorem resumeUpdate_store
    (updated : resumeUpdate config tid oldState = .store newState) :
    ResumeCase config oldState newState := by
  rw [resumeUpdate] at updated
  by_cases isLast : oldState &&& suspendBitsMask =
      suspendInterval + needsActivationBit
  · rw [if_pos isLast] at updated
    obtain rfl := ResumeUpdate.store.inj updated
    rw [isLastBeforeActivation_iff] at isLast
    have numberBefore :=
      (number_eq_iff oldState ⟨1, 0, 0, 1⟩ (by decide)).mpr isLast
    simp only at numberBefore
    obtain ⟨number, below⟩ :=
      dropBit (by decide : needsActivationBit.toNat = 1 * 2 ^ 55)
        (by omega : 1 ≤ field 55 9 oldState)
    refine .lastBeforeActivation isLast ?_ below
    refine (number_eq_iff _ ⟨1, 0, 0, 0⟩ (by decide)).mp ?_
    simp only
    omega
  rw [if_neg isLast] at updated
  by_cases isUntouched : (config.isSource &&
      oldState &&& suspendBitsMask == needsActivationBit + inactiveBit) = true
  · rw [if_pos isUntouched] at updated
    obtain rfl := ResumeUpdate.store.inj updated
    simp only [Bool.and_eq_true, beq_iff_eq] at isUntouched
    obtain ⟨isSource, untouched⟩ := isUntouched
    have number := (suspendBits_eq_iff (by decide) oldState).mp untouched
    rw [isUntouched_iff] at untouched
    obtain ⟨converted, below⟩ := convertActivation number
    exact .standsForActivation isSource untouched converted below
  rw [if_neg isUntouched] at updated
  cases subtracted : subOverflow oldState suspendInterval with
  | none =>
    simp only [subtracted] at updated
    split_ifs at updated
  | some middle =>
    simp only [subtracted] at updated
    obtain rfl := ResumeUpdate.store.inj updated
    have difference := subOverflow_eq_some_iff.mp subtracted
    have interval : suspendInterval.toNat = 8 * 2 ^ 55 := by decide
    rw [interval] at difference
    obtain ⟨number, below⟩ := number_of_sub difference
    rw [isLastBeforeActivation_iff] at isLast
    refine .counted isLast ?_ ?_ ?_
    · simp only [suspendBits_eq]
      omega
    · rw [resumeFinish_bits]
      simp only [suspendBits_eq, SuspendBits.mk.injEq]
      omega
    · intro suspended
      rw [isSuspended_iff_bits, resumeFinish_bits,
        ← isSuspended_iff_bits] at suspended
      exact ⟨middle, below, resumeFinish_suspended suspended⟩

/-- A resume turns to the slow path or gives up when there is no inline
count. -/
theorem resumeUpdate_not_store :
    (resumeUpdate config tid oldState = .slow ↔
        (suspendBits oldState).count = 0 ∧ (suspendBits oldState).side = 1) ∧
      (resumeUpdate config tid oldState = .overResume ↔
        (suspendBits oldState).count = 0 ∧ (suspendBits oldState).side = 0 ∧
          ¬resumeActivates config oldState = true) := by
  have sideBound := (suspendBits_bounds oldState).2.1
  have interval : suspendInterval.toNat = 2 ^ 58 := by decide
  have bound := oldState.toNat_lt
  rw [resumeUpdate]
  by_cases isLast : oldState &&& suspendBitsMask =
      suspendInterval + needsActivationBit
  · rw [if_pos isLast]
    rw [isLastBeforeActivation_iff] at isLast
    simp [isLast]
  rw [if_neg isLast, ← resumeActivates]
  by_cases isUntouched : resumeActivates config oldState = true
  · have untouched : suspendBits oldState = ⟨0, 0, 1, 1⟩ := by
      rw [resumeActivates, Bool.and_eq_true, beq_iff_eq,
        isUntouched_iff] at isUntouched
      exact isUntouched.2
    simp [untouched, isUntouched]
  rw [if_neg isUntouched]
  cases subtracted : subOverflow oldState suspendInterval with
  | none =>
    have small := subOverflow_eq_none_iff.mp subtracted
    rw [interval] at small
    have noCount : (suspendBits oldState).count = 0 := by
      simp only [suspendBits, field]
      omega
    have sideIff : hasSideSuspendCnt oldState = true ↔
        (suspendBits oldState).side = 1 := hasSideSuspendCnt_iff oldState
    by_cases hasSide : hasSideSuspendCnt oldState = true
    · have isSet := sideIff.mp hasSide
      simp [hasSide, noCount, isSet]
    · have unset : (suspendBits oldState).side = 0 := by
        rw [sideIff] at hasSide
        omega
      simp [hasSide, noCount, unset, isUntouched]
  | some middle =>
    have difference := subOverflow_eq_some_iff.mp subtracted
    rw [interval] at difference
    have someCount : (suspendBits oldState).count ≠ 0 := by
      simp only [suspendBits, field]
      omega
    simp [someCount]

/-- What follows an update of `_dispatch_lane_resume`. -/
theorem afterResume_cases
    (activating : Bool)
    (oldState newState : UInt64) :
    ((suspendBits oldState).needsActivation ≠
        (suspendBits newState).needsActivation ∧
      afterResume activating oldState newState = .ok (some .resumeActivate)) ∨
    (suspendBits oldState).needsActivation =
        (suspendBits newState).needsActivation ∧
      (isSuspended newState = true ∧
          afterResume activating oldState newState = .ok none ∨
        isSuspended newState = false ∧
          (activating = true ∨
            afterResume activating oldState newState = .ok (some .release2) ∨
            ∃ barrierComplete, afterResume activating oldState newState =
              .ok (some (.wakeup barrierComplete)))) := by
  have changed : (oldState ^^^ newState) &&& needsActivationBit ≠ 0 ↔
      (suspendBits oldState).needsActivation ≠
        (suspendBits newState).needsActivation := by
    rw [and_bit_ne_zero_iff (by decide : needsActivationBit.toNat = 2 ^ 55),
      field_xor]
    have oldBound := field_lt 55 1 oldState
    have newBound := field_lt 55 1 newState
    simp only [suspendBits]
    generalize field 55 1 oldState = first at oldBound ⊢
    generalize field 55 1 newState = second at newBound ⊢
    rcases (by omega : first = 0 ∨ first = 1) with rfl | rfl <;>
      rcases (by omega : second = 0 ∨ second = 1) with rfl | rfl <;> decide
  rw [afterResume]
  split_ifs with different isActivating suspended suspended inBarrier runnable
  · exact Or.inl ⟨changed.mp (by simpa using different), rfl⟩
  all_goals
    have same : (suspendBits oldState).needsActivation =
        (suspendBits newState).needsActivation := by
      by_contra differ
      exact different (by simpa using changed.mpr differ)
  · exact Or.inr ⟨same, Or.inl ⟨suspended, rfl⟩⟩
  · exact Or.inr ⟨same, Or.inr ⟨by simpa using suspended, Or.inl isActivating⟩⟩
  · exact Or.inr ⟨same, Or.inl ⟨suspended, rfl⟩⟩
  · exact Or.inr ⟨same, Or.inr ⟨by simpa using suspended,
      Or.inr (Or.inr ⟨true, rfl⟩)⟩⟩
  · exact Or.inr ⟨same, Or.inr ⟨by simpa using suspended,
      Or.inr (Or.inr ⟨false, rfl⟩)⟩⟩
  · exact Or.inr ⟨same, Or.inr ⟨by simpa using suspended,
      Or.inr (Or.inl rfl)⟩⟩

end LibDispatch.Suspension
