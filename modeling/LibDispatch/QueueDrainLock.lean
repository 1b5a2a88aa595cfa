import LibDispatch.QueueState

namespace LibDispatch.QueueState

/-!
# Giving back the drain lock of a queue

A thread that invokes a queue locks its state word, and what it owns is a
difference of two words.  When the queue has another target by then, nothing is
drained and `_dispatch_queue_invoke_finish` subtracts what is owned.  Taking the
lock clears PENDING_BARRIER but leaves the width of the pending barrier in the
word.
-/

/-- The invocation flags that the lock reads. -/
structure InvokeFlags where
  stealing : Bool
  managerDrain : Bool
  deriving Repr, DecidableEq

/-- The states that `_dispatch_queue_drain_try_lock` does not lock. -/
def lockFailMask (flags : InvokeFlags) : UInt64 :=
  let mask := ~~~(widthFullBit - 1) ||| drainOwnerMask
  if flags.stealing then mask ||| enqueuedOnMgr
  else if flags.managerDrain then mask
  else mask ||| enqueuedOnMgr

/-- The bit that the invocation takes over from the thread that enqueued. -/
def dequeueMask (flags : InvokeFlags) : UInt64 :=
  if flags.stealing then 0
  else if flags.managerDrain then enqueuedOnMgr
  else enqueued

/-- The state of a queue that was locked.  An override of the priority of the
thread, after which the loop is tried again, does not change the word. -/
def drainLock (width : UInt16) (tid : UInt32) (oldState : UInt64) : UInt64 :=
  let newState :=
    oldState &&& drainPreservedBitsMask |||
      (lockValueFromTid tid ||| widthFullBit)
  if hasPendingBarrier oldState ||
      oldState + pendingBarrierWidth width < widthFullBit then
    newState ||| inBarrier
  else newState

/-- `_dispatch_queue_drain_try_lock`: the next state, and what the caller owns
of it. -/
def drainTryLock
    (width : UInt16)
    (tid : UInt32)
    (flags : InvokeFlags)
    (oldState : UInt64) : UInt64 × UInt64 :=
  if oldState &&& lockFailMask flags = 0 then
    let newState := drainLock width tid oldState
    (newState,
      (newState &&& (inBarrier ||| widthFullBit ||| dequeueMask flags)) -
        (oldState &&& widthMask))
  else (oldState ^^^ dequeueMask flags, 0)

/-- `_dispatch_queue_invoke_finish` without a barrier waiter. -/
def invokeFinish (toManager : Bool) (owned oldState : UInt64) : UInt64 :=
  let newState := (oldState - owned) &&& ~~~drainUnlockMask ||| dirty
  if isRunnable newState ∧ newState &&& (enqueued ||| enqueuedOnMgr) = 0 then
    newState ||| (if toManager then enqueuedOnMgr else enqueued)
  else newState

/-! ## What the width counts -/

/-- The width of a queue that is not locked counts the items in flight, and the
reservation of a pending barrier when PENDING_BARRIER is set. -/
structure Accounts (width inFlight : Nat) (dqState : UInt64) : Prop where
  width :
    field 41 13 dqState + width =
      0x1000 + inFlight + (width - 1) * field 40 1 dqState
  noBarrier : field 54 1 dqState = 0

/-- Once nothing is in flight or pending, all slots are available. -/
theorem Accounts.idle
    {width : UInt16}
    {dqState : UInt64}
    (inRange : width.toNat < 0x1000)
    (accounts : Accounts width.toNat 0 dqState)
    (notPending : field 40 1 dqState = 0) :
    field 41 13 dqState = field 41 13 (initValue width) := by
  have counted := accounts.width
  rw [notPending] at counted
  have initial :
      field 41 13 (initValue width) = (0x1000 - width.toNat) % 2 ^ 13 := by
    rw [field, initValue_toNat inRange, Nat.mul_div_cancel _ (by decide)]
  omega

/-- What other threads may do to a locked state: items end, and `dispatch_apply`
takes and gives back width, while the bits of the lock and of the enqueued queue
stay as they are.  Everything else in the word is arbitrary. -/
structure Elsewhere
    (inFlight stillInFlight : Nat)
    (dequeued locked between : UInt64) : Prop where
  width :
    field 41 13 between + inFlight = field 41 13 locked + stillInFlight
  pending : field 40 1 between = field 40 1 locked
  barrier : field 54 1 between = field 54 1 locked
  enqueued : between &&& dequeued = dequeued

/-! ## What is owned -/

theorem hasPendingBarrier_iff (dqState : UInt64) :
    hasPendingBarrier dqState = true ↔ field 40 1 dqState = 1 := by
  have bit : pendingBarrier.toNat = 2 ^ 40 := by decide
  rw [← and_bit_ne_zero_iff bit]
  simp [hasPendingBarrier]

section Locked

variable
  {width : UInt16}
  {tid : UInt32}
  {flags : InvokeFlags}
  {oldState : UInt64}

/-- The width of a locked state is full, and nothing is pending. -/
theorem drainLock_full (width : UInt16) (tid : UInt32) (oldState : UInt64) :
    field 40 14 (drainLock width tid oldState) = 0x2000 := by
  have owner : field 40 14 (lockValueFromTid tid) = 0 :=
    field_and_of_clear (by decide) _
  have kept : field 40 14 (oldState &&& drainPreservedBitsMask) = 0 :=
    field_and_of_clear (by decide) _
  have full :
      field 40 14
          (oldState &&& drainPreservedBitsMask |||
            (lockValueFromTid tid ||| widthFullBit)) = 0x2000 := by
    rw [field_or, field_or, kept, owner]
    decide
  unfold drainLock
  split_ifs
  · rw [field_or_of_clear (by decide), full]
  · exact full

/-- A state that is locked had width left. -/
theorem field_of_lockable
    (lockable : oldState &&& lockFailMask flags = 0) :
    field 53 11 oldState = 0 := by
  have masked := congrArg (field 53 11) lockable
  have whole : field 53 11 (lockFailMask flags) = 2 ^ 11 - 1 := by
    obtain ⟨stealing, managerDrain⟩ := flags
    cases stealing <;> cases managerDrain <;> decide
  rw [field_and_of_full whole] at masked
  exact masked

/-- The bits that the owner of a locked queue keeps. -/
theorem field_ownedMask (flags : InvokeFlags) :
    field 55 9 (inBarrier ||| widthFullBit ||| dequeueMask flags) = 0 ∧
    field 54 1 (inBarrier ||| widthFullBit ||| dequeueMask flags) = 1 ∧
    field 40 14 (inBarrier ||| widthFullBit ||| dequeueMask flags) = 0x2000 ∧
    field 0 40 (inBarrier ||| widthFullBit ||| dequeueMask flags) =
      field 0 40 (dequeueMask flags) := by
  obtain ⟨stealing, managerDrain⟩ := flags
  cases stealing <;> cases managerDrain <;> decide

/-- The owner of a locked queue owns the width that was left, the barrier and
at most the bit that enqueues the queue. -/
theorem drainTryLock_owned
    (lockable : oldState &&& lockFailMask flags = 0) :
    ∃ taken ≤ field 0 40 (dequeueMask flags),
      (drainTryLock width tid flags oldState).2.toNat +
          field 41 13 oldState * 2 ^ 41 =
        field 54 1 (drainLock width tid oldState) * 2 ^ 54 + 2 ^ 53 + taken := by
  have unused := field_of_lockable lockable
  have full := drainLock_full width tid oldState
  rw [drainTryLock, if_pos lockable]
  dsimp only
  generalize drainLock width tid oldState = locked at *
  obtain ⟨above, barrier, width, below⟩ := field_ownedMask flags
  generalize inBarrier ||| widthFullBit ||| dequeueMask flags = mask at *
  have newWidth := field_and 40 14 locked mask
  rw [full, width, Nat.and_self] at newWidth
  have newAbove := field_and_of_clear above locked
  have newBarrier := field_and_of_full barrier locked
  have newBelow :
      field 0 40 (locked &&& mask) ≤ field 0 40 (dequeueMask flags) := by
    rw [field_and, below]
    exact Nat.and_le_right
  have oldWidth : field 41 13 (oldState &&& widthMask) = field 41 13 oldState :=
    field_and_of_full (by decide) _
  have oldBelow : field 0 41 (oldState &&& widthMask) = 0 :=
    field_and_of_clear (by decide) _
  have oldAbove : field 54 10 (oldState &&& widthMask) = 0 :=
    field_and_of_clear (by decide) _
  refine ⟨_, newBelow, ?_⟩
  generalize locked &&& mask = new at *
  generalize oldState &&& widthMask = old at *
  rw [← newBarrier]
  simp only [field] at *
  have newBound := new.toNat_lt
  have oldBound := old.toNat_lt
  have fits : old ≤ new := by
    rw [UInt64.le_iff_toNat_le]
    omega
  rw [UInt64.toNat_sub_of_le _ _ fits]
  omega

/-- Finishing an invocation changes the width only by what was owned. -/
theorem field_invokeFinish
    (toManager : Bool)
    (owned between : UInt64) :
    field 40 24 (invokeFinish toManager owned between) =
      field 40 24 (between - owned) := by
  have unlocked :
      field 40 24 ((between - owned) &&& ~~~drainUnlockMask ||| dirty) =
        field 40 24 (between - owned) := by
    rw [field_or_of_clear (by decide), field_and_of_full (by decide)]
  unfold invokeFinish
  dsimp only
  split_ifs
  · rw [field_or_of_clear (by decide), unlocked]
  · rw [field_or_of_clear (by decide), unlocked]
  · exact unlocked

/-- The width that an invocation which drains nothing leaves. -/
theorem fields_of_giveBack
    {inFlight stillInFlight : Nat}
    {between : UInt64}
    (valid : width.toNat ≤ 0x1000)
    (accounts : Accounts width.toNat inFlight oldState)
    (lockable : oldState &&& lockFailMask flags = 0)
    (others :
      Elsewhere inFlight stillInFlight (dequeueMask flags)
        (drainLock width tid oldState) between)
    (toManager : Bool) :
    let final :=
      invokeFinish toManager (drainTryLock width tid flags oldState).2 between
    field 41 13 final + inFlight = field 41 13 oldState + stillInFlight ∧
      field 40 1 final = 0 ∧
      field 54 1 final = 0 := by
  intro final
  obtain ⟨taken, atMost, owned⟩ :=
    @drainTryLock_owned width tid flags oldState lockable
  have unused := field_of_lockable lockable
  have full := drainLock_full width tid oldState
  have counted :
      0x1000 + inFlight ≤ field 41 13 oldState + width.toNat := by
    rw [accounts.width]
    exact Nat.le_add_right _ _
  have given :
      field 0 40 (dequeueMask flags) ≤ field 0 40 between := by
    rw [← others.enqueued, field_and]
    exact Nat.and_le_left
  have upper : field 40 24 final = field 40 24 (between - _) :=
    field_invokeFinish toManager _ between
  obtain ⟨width, pending, barrier, -⟩ := others
  generalize (drainTryLock _ tid flags oldState).2 = ownedWord at *
  generalize drainLock _ tid oldState = locked at *
  clear_value final
  simp only [field] at *
  have bound := between.toNat_lt
  have fits : ownedWord ≤ between := by
    rw [UInt64.le_iff_toNat_le]
    omega
  rw [UInt64.toNat_sub_of_le _ _ fits] at upper
  omega

/-- An invocation that drains nothing leaves a width that counts exactly the
items in flight, and all slots available when there are none, exactly when no
barrier was pending or the queue is serial. -/
theorem giveBack_accounts_iff
    {toManager : Bool}
    {inFlight stillInFlight : Nat}
    {locked owned between : UInt64}
    (positive : 1 ≤ width.toNat)
    (inRange : width.toNat < 0x1000)
    (accounts : Accounts width.toNat inFlight oldState)
    (taken : drainTryLock width tid flags oldState = (locked, owned))
    (isTaken : owned ≠ 0)
    (others :
      Elsewhere inFlight stillInFlight (dequeueMask flags) locked between) :
    (Accounts width.toNat stillInFlight
          (invokeFinish toManager owned between) ∧
        (stillInFlight = 0 →
          field 41 13 (invokeFinish toManager owned between) =
            field 41 13 (initValue width))) ↔
      hasPendingBarrier oldState = false ∨ width.toNat = 1 := by
  have lockable : oldState &&& lockFailMask flags = 0 := by
    by_contra failed
    rw [drainTryLock, if_neg failed] at taken
    exact isTaken (congrArg Prod.snd taken).symm
  have isOwned := congrArg Prod.snd taken
  have isLocked := congrArg Prod.fst taken
  rw [drainTryLock, if_pos lockable] at isLocked
  obtain rfl := isLocked
  obtain rfl := isOwned
  obtain ⟨left, notPending, noBarrier⟩ :=
    fields_of_giveBack inRange.le accounts lockable others toManager
  have counted := accounts.width
  rw [← Bool.not_eq_true, hasPendingBarrier_iff]
  have bit := field_lt 40 1 oldState
  constructor
  · rintro ⟨⟨width, -⟩, -⟩
    rw [notPending] at width
    by_contra neither
    obtain ⟨pending, parallel⟩ := not_or.mp neither
    rw [not_not.mp pending] at counted
    omega
  · intro harmless
    have nothing : (width.toNat - 1) * field 40 1 oldState = 0 := by
      rcases harmless with clear | serial
      · rw [(by omega : field 40 1 oldState = 0), Nat.mul_zero]
      · rw [serial, Nat.zero_mul]
    have afterwards :
        Accounts width.toNat stillInFlight
          (invokeFinish toManager
            (drainTryLock width tid flags oldState).2 between) := by
      refine ⟨?_, noBarrier⟩
      rw [notPending, Nat.mul_zero]
      omega
    refine ⟨afterwards, ?_⟩
    rintro rfl
    exact afterwards.idle inRange notPending

end Locked

/-- A queue of width two with one item in flight, which ends while the queue is
locked: both slots are available again. -/
theorem oneInFlight_accounts :
    let oldState := initValue 2 + widthInterval ||| enqueued
    let (locked, owned) := drainTryLock 2 7 ⟨false, false⟩ oldState
    Accounts 2 0 (invokeFinish false owned (locked - widthInterval ||| dirty)) ∧
      (0 = 0 →
        field 41 13
            (invokeFinish false owned (locked - widthInterval ||| dirty)) =
          field 41 13 (initValue 2)) :=
  (@giveBack_accounts_iff 2 7 ⟨false, false⟩
    (initValue 2 + widthInterval ||| enqueued) false 1 0 _ _ _
    (by decide) (by decide) ⟨by decide, by decide⟩ rfl (by decide)
    ⟨by decide, by decide, by decide, by decide⟩).mpr (.inl (by decide))

/-- A queue of width two that was retargeted while a barrier was next: one of its
two slots is lost when a stealer that runs on the old target gives the lock
back. -/
theorem pendingBarrier_losesWidth :
    let oldState :=
      initValue 2 + pendingBarrierWidth 2 |||
        (pendingBarrier ||| dirty ||| enqueued)
    let (locked, owned) := drainTryLock 2 7 ⟨true, false⟩ oldState
    let final := invokeFinish false owned locked
    Accounts 2 0 oldState ∧
      owned ≠ 0 ∧
      Elsewhere 0 0 (dequeueMask ⟨true, false⟩) locked locked ∧
      final = initValue 1 ||| (dirty ||| enqueued) ∧
      ¬ Accounts 2 0 final := by
  refine ⟨⟨by decide, by decide⟩, by decide,
    ⟨rfl, rfl, rfl, by decide⟩, by decide, ?_⟩
  intro accounts
  exact absurd accounts.width (by decide)

end LibDispatch.QueueState
