import LibDispatch.Reachability
import Mathlib.Data.Nat.Bitwise

namespace LibDispatch.Once

/-!
# One-time initialisation

`dispatch_once_f` of `src/once.c` and the gate it rests on, in `shims/lock.h`
and `shims/lock.c`, as built on Linux.  The predicate is a word that is zero,
holds the thread id of the thread that runs the initializer, or is done.  A
waiter sets a bit next to the thread id and sleeps on the low half of the word.

Calls, not threads, are the units of the model: a thread makes one call after
another, and an initializer may call `dispatch_once_f` on its own predicate.
Every atomic access to the word, every call of the kernel and both ends of the
initializer are one step of a call.
-/

/-- `DLOCK_ONCE_UNLOCKED`. -/
def onceUnlocked : UInt64 := 0

/-- `DLOCK_ONCE_DONE`. -/
def onceDone : UInt64 := 0xffffffffffffffff

/-- `DLOCK_WAITERS_BIT`, which is `FUTEX_WAITERS`. -/
def waitersBit : UInt32 := 0x80000000

/-- `DLOCK_OWNER_MASK`, which is `FUTEX_TID_MASK`. -/
def ownerMask : UInt32 := 0x3fffffff

/-- `_dispatch_lock_is_locked_by`. -/
def lockIsLockedBy (lockValue tid : UInt32) : Bool :=
  (lockValue ^^^ tid) &&& ownerMask = 0

/-- Where a call of `dispatch_once_f` stands. -/
inductive Stage where
  /-- The call has not been made. -/
  | idle
  /-- At the load that looks for a finished initialisation. -/
  | loading
  /-- At the compare-and-swap of `_dispatch_once_gate_tryenter`. -/
  | entering
  /-- In `_dispatch_once_callout`, before the initializer is called. -/
  | invoking
  /-- The initializer runs. -/
  | initializing
  /-- At the exchange of `_dispatch_once_mark_done`. -/
  | finishing
  /-- In `_dispatch_gate_broadcast_slow`, with the value swapped out. -/
  | broadcasting (old : UInt64)
  /-- In `_dispatch_once_wait`, at the load of the loop. -/
  | waitLoading
  /-- At the compare-and-swap that sets the waiters bit. -/
  | waitSwapping (old : UInt64)
  /-- At the test for a recursive call. -/
  | waitChecking (old new : UInt64)
  /-- At the wait in the kernel, with the value to compare. -/
  | parking (new : UInt64)
  | asleep
  | returned
  deriving DecidableEq, Repr

/-- What the environment decides: a weak compare-and-swap may fail and a
sleeping thread may wake up for no reason. -/
inductive Choice where
  | proceed
  | spurious
  deriving DecidableEq, Repr

/-- What a step does apart from the word and the stage of its call. -/
inductive Effect where
  | quiet
  | invoke
  | complete
  /-- Every thread asleep on the word is woken up. -/
  | wakeAll
  /-- `DISPATCH_CLIENT_CRASH`. -/
  | crash
  deriving DecidableEq, Repr

/-- The result of one step of a call. -/
structure Outcome where
  once : UInt64
  stage : Stage
  effect : Effect
  deriving DecidableEq, Repr

/-- One iteration of the loop of `_dispatch_once_wait`, up to its
compare-and-swap. -/
def waitAttempt (old : UInt64) : Stage :=
  if old = onceDone then
    .returned
  else if old ||| waitersBit.toUInt64 = old then
    .waitChecking old old
  else
    .waitSwapping old

/-- One step of a call by the thread `self`; none when the call is not in
progress or is asleep. -/
def advance
    (self : UInt32)
    (once : UInt64)
    (choice : Choice) :
    Stage → Option Outcome
  | .idle => none
  | .loading =>
    if once = onceDone then
      some ⟨once, .returned, .quiet⟩
    else
      some ⟨once, .entering, .quiet⟩
  | .entering =>
    if once = onceUnlocked then
      some ⟨self.toUInt64, .invoking, .quiet⟩
    else
      some ⟨once, .waitLoading, .quiet⟩
  | .invoking => some ⟨once, .initializing, .invoke⟩
  | .initializing => some ⟨once, .finishing, .complete⟩
  | .finishing =>
    if once.toUInt32 = self then
      some ⟨onceDone, .returned, .quiet⟩
    else
      some ⟨onceDone, .broadcasting once, .quiet⟩
  | .broadcasting old =>
    if lockIsLockedBy old.toUInt32 self then
      some ⟨once, .returned, .wakeAll⟩
    else
      some ⟨once, .broadcasting old, .crash⟩
  | .waitLoading => some ⟨once, waitAttempt once, .quiet⟩
  | .waitSwapping old =>
    if choice = .proceed ∧ once = old then
      some ⟨old ||| waitersBit.toUInt64,
        .waitChecking old (old ||| waitersBit.toUInt64), .quiet⟩
    else
      some ⟨once, waitAttempt once, .quiet⟩
  | .waitChecking old new =>
    if lockIsLockedBy old.toUInt32 self then
      some ⟨once, .waitChecking old new, .crash⟩
    else
      some ⟨once, .parking new, .quiet⟩
  | .parking new =>
    -- the kernel compares the 32 bits at the address of the lock
    if once.toUInt32 = new.toUInt32 then
      some ⟨once, .asleep, .quiet⟩
    else
      some ⟨once, .waitLoading, .quiet⟩
  | .asleep =>
    match choice with
    | .proceed => none
    | .spurious => some ⟨once, .waitLoading, .quiet⟩
  | .returned => none

/-- The predicate, its calls and the history of the initializer. -/
structure State (Call : Type) where
  once : UInt64
  stage : Call → Stage
  /-- How often the initializer was called. -/
  invocations : Nat
  /-- How often it has returned. -/
  completions : Nat
  crashed : Bool

/-- The thread ids of the threads that make the calls. -/
structure Callers (Call : Type) where
  tid : Call → UInt32
  /-- A thread id of the kernel is positive and has 30 bits. -/
  valid : ∀ call, 0 < (tid call).toNat ∧ (tid call).toNat < 2 ^ 30

variable {Call : Type} [DecidableEq Call]

/-- A call in progress. -/
def Stage.Active (stage : Stage) : Prop :=
  stage ≠ .idle ∧ stage ≠ .returned

instance
    (stage : Stage) :
    Decidable stage.Active :=
  inferInstanceAs (Decidable (_ ∧ _))

/-- The stage of a call that sleeps on the word, once it is woken up. -/
def Stage.woken : Stage → Stage
  | .asleep => .waitLoading
  | stage => stage

/-- The state after a call has moved to a stage. -/
def State.move
    (state : State Call)
    (call : Call)
    (stage : Stage) :
    State Call :=
  { state with stage := Function.update state.stage call stage }

/-- The state after a step of a call. -/
def State.apply
    (state : State Call)
    (call : Call)
    (outcome : Outcome) :
    State Call :=
  let moved := { state.move call outcome.stage with once := outcome.once }
  match outcome.effect with
  | .quiet => moved
  | .invoke => { moved with invocations := state.invocations + 1 }
  | .complete => { moved with completions := state.completions + 1 }
  | .wakeAll => { moved with stage := fun other => (moved.stage other).woken }
  | .crash => { moved with crashed := true }

/-- No other call of the same thread is in progress. -/
def State.Alone
    (callers : Callers Call)
    (state : State Call)
    (call : Call) : Prop :=
  ∀ other, other ≠ call → callers.tid other = callers.tid call →
    ¬ (state.stage other).Active

/-- The steps of all calls, interleaved. -/
inductive Step
    (callers : Callers Call) :
    State Call → State Call → Prop where
  /-- A thread calls `dispatch_once_f`, unless it is busy with another call; in
  an initializer it is free to do so.  Where the fast path is inlined into the
  caller, the call starts after the load. -/
  | call
      {state : State Call}
      {call : Call}
      {entry : Stage}
      (running : state.crashed = false)
      (fresh : state.stage call = .idle)
      (free : ∀ other, callers.tid other = callers.tid call →
        (state.stage other).Active → state.stage other = .initializing)
      (entry_eq : entry = .loading ∨ entry = .entering) :
      Step callers state (state.move call entry)
  /-- A call takes its next step; an initializer does not return before the
  calls it has made. -/
  | advance
      {state : State Call}
      {call : Call}
      {choice : Choice}
      {outcome : Outcome}
      (running : state.crashed = false)
      (unnested : state.stage call = .initializing → state.Alone callers call)
      (acts :
        advance (callers.tid call) state.once choice (state.stage call) =
          some outcome) :
      Step callers state (state.apply call outcome)

/-- A zero-initialised predicate on which no call has been made. -/
def Initial (state : State Call) : Prop :=
  state.once = onceUnlocked ∧ (∀ call, state.stage call = .idle) ∧
    state.invocations = 0 ∧ state.completions = 0 ∧ state.crashed = false

/-! ## The words of a locked gate -/

/-- The word of a gate that the thread `tid` has entered. -/
def gateWord
    (tid : UInt32)
    (waiters : Bool) :
    UInt64 :=
  if waiters then
    tid.toUInt64 ||| waitersBit.toUInt64
  else
    tid.toUInt64

variable {tid : UInt32}

variable (valid : tid.toNat < 2 ^ 30)

include valid

variable (waiters : Bool)

theorem toNat_gateWord :
    (gateWord tid waiters).toNat =
      tid.toNat + if waiters then 2 ^ 31 else 0 := by
  cases waiters with
  | false => simp [gateWord]
  | true =>
    have small : tid.toNat < 2 ^ 31 := by
      omega
    have sum := Nat.two_pow_add_eq_or_of_lt small 1
    simp only [gateWord, if_true, UInt64.toNat_or, UInt32.toNat_toUInt64]
    change tid.toNat ||| 2 ^ 31 * 1 = _
    rw [Nat.or_comm, ← sum]
    omega

theorem toNat_toUInt32_gateWord :
    (gateWord tid waiters).toUInt32.toNat =
      tid.toNat + if waiters then 2 ^ 31 else 0 := by
  rw [UInt64.toNat_toUInt32, toNat_gateWord valid]
  split <;> omega

theorem gateWord_ne_onceDone :
    gateWord tid waiters ≠ onceDone := by
  intro same
  have word := toNat_gateWord valid waiters
  rw [same] at word
  change 2 ^ 64 - 1 = _ at word
  split at word <;> omega

omit valid in
theorem gateWord_ne_onceUnlocked
    (valid : 0 < tid.toNat ∧ tid.toNat < 2 ^ 30)
    (waiters : Bool) :
    gateWord tid waiters ≠ onceUnlocked := by
  intro same
  have word := toNat_gateWord valid.2 waiters
  rw [same] at word
  change 0 = _ at word
  omega

omit valid in
/-- Setting the waiters bit of a locked gate. -/
theorem gateWord_or_waitersBit
    (tid : UInt32)
    (waiters : Bool) :
    gateWord tid waiters ||| waitersBit.toUInt64 = gateWord tid true := by
  cases waiters with
  | false => simp [gateWord]
  | true => simp [gateWord, UInt64.or_assoc]

theorem gateWord_true_ne_false :
    gateWord tid true ≠ gateWord tid false := by
  intro same
  have words := congrArg UInt64.toNat same
  rw [toNat_gateWord valid, toNat_gateWord valid] at words
  simp at words

theorem toUInt32_onceDone_ne :
    onceDone.toUInt32 ≠ (gateWord tid waiters).toUInt32 := by
  intro same
  have low := congrArg UInt32.toNat same
  rw [toNat_toUInt32_gateWord valid] at low
  change 2 ^ 32 - 1 = _ at low
  split at low <;> omega

/-- The owner finds its own value exactly if no waiter has set the bit. -/
theorem toUInt32_gateWord_eq_iff :
    (gateWord tid waiters).toUInt32 = tid ↔ waiters = false := by
  rw [← UInt32.toNat_inj, toNat_toUInt32_gateWord valid]
  cases waiters with
  | false | true => simp

/-- The owner of a locked gate is the thread that entered it. -/
theorem lockIsLockedBy_gateWord_iff
    {self : UInt32}
    (selfValid : self.toNat < 2 ^ 30)
    (waiters : Bool) :
    lockIsLockedBy (gateWord tid waiters).toUInt32 self ↔ tid = self := by
  have masked :
      ((gateWord tid waiters).toUInt32.toNat ^^^ self.toNat) % 2 ^ 30 =
        tid.toNat ^^^ self.toNat := by
    rw [Nat.xor_mod_two_pow, toNat_toUInt32_gateWord valid]
    congr 1
    · split <;> omega
    · omega
  have owner :
      ((((gateWord tid waiters).toUInt32 ^^^ self) &&& ownerMask)).toNat =
        tid.toNat ^^^ self.toNat := by
    rw [UInt32.toNat_and, UInt32.toNat_xor]
    change (_ ^^^ _) &&& (2 ^ 30 - 1) = _
    rw [Nat.and_two_pow_sub_one_eq_mod, masked]
  rw [lockIsLockedBy, decide_eq_true_iff, ← UInt32.toNat_inj, owner,
    ← UInt32.toNat_inj]
  exact Nat.xor_eq_zero_iff

end LibDispatch.Once
