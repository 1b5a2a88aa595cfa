import LibDispatch.GroupRun

namespace LibDispatch.Group

/-!
# The accounts of a group

Three debts are carried from thread to thread: who is to drain the notify list,
who is to clear the flags of a group whose count is zero, and who is to take or
give back a reference.  Each is a sum over the calls in progress, and every step
of every call keeps the balance.
-/

/-! ## What the calls in progress account for -/

/-- The quantities a call in progress contributes to. -/
inductive Quantity where
  /-- Leaves that have not taken effect. -/
  | leaving
  /-- Threads that have to drain the notify list or to pass that on. -/
  | draining
  /-- Leaves that will clear the flags of an idle group. -/
  | clearing
  /-- References still to be taken. -/
  | retaining
  /-- References still to be given back. -/
  | releasing
  /-- A continuation held by the thread. -/
  | carrying (continuation : Continuation)

/-- The contribution of a call at each of its stages. -/
def Call.weight : Call → Quantity → Int
  | leave, .leaving => 1
  | notifyRetain _, .draining => 1
  | notifyLink _ wasEmpty, .draining => wasEmpty.toNat
  | notifyMark, .draining => 1
  | wake dgState _, .draining => (bits dgState).notifs
  | captureHead _ _, .draining => 1
  | captureTail _ _, .draining => 1
  | leaveLoop oldState, .clearing =>
    if (bits oldState).count = 0 ∧
        (bits oldState).notifs + (bits oldState).waiters ≠ 0 then 1
    else 0
  | enterRetain, .retaining => 1
  | notifyRetain _, .retaining => 1
  | leaveLoop _, .releasing => 1
  | wake _ needsRelease, .releasing => needsRelease.toNat
  | captureHead _ needsRelease, .releasing => needsRelease.toNat
  | captureTail _ needsRelease, .releasing => needsRelease.toNat
  | submit _ needsRelease _, .releasing => needsRelease.toNat + 1
  | wakeAddress _ refs, .releasing => refs
  | release refs, .releasing => refs
  | notify own, .carrying continuation => [own].count continuation
  | submit _ _ snapshot, .carrying continuation =>
    snapshot.count continuation
  | _, _ => 0

/-- The contribution of an activity. -/
def Activity.weight (activity : Activity) (quantity : Quantity) : Int :=
  activity.call.weight quantity

theorem Call.weight_nonneg
    (call : Call)
    (quantity : Quantity) :
    0 ≤ call.weight quantity := by
  unfold Call.weight
  split <;> omega

@[inherit_doc LibDispatch.withCall]
abbrev withCall := LibDispatch.withCall Call.weight

/-- One while a list has elements: the reference its first element took. -/
def occupied (continuations : List Continuation) : Int :=
  if continuations = [] then 0 else 1

/-- One while the count is not zero: the reference its first enter took. -/
def entered (dgState : UInt64) : Int :=
  if (bits dgState).count = 0 then 0 else 1

/-- How often a continuation has been submitted. -/
def submissions
    (submitted : List Submission)
    (continuation : Continuation) : Nat :=
  (submitted.map Submission.continuation).count continuation

/-- The accounts of a group, given the references held by others and the sums
over the calls in progress. -/
structure Balanced
    (base : Int)
    (state : State)
    (sums : Quantity → Int) : Prop where
  count : (bits state.dgState).count + state.leaves = state.enters
  calls : (state.leaveCalls : Int) = state.leaves + sums .leaving
  matched : state.leaveCalls ≤ state.enters
  draining :
    sums .draining + (bits state.dgState).notifs = occupied state.notifyList
  clearing :
    (bits state.dgState).count = 0 →
      (bits state.dgState).notifs + (bits state.dgState).waiters ≠ 0 →
        1 ≤ sums .clearing
  references :
    state.references + sums .retaining =
      base + entered state.dgState + occupied state.notifyList +
        sums .releasing
  carrying :
    ∀ continuation,
      (state.notified.count continuation : Int) =
        submissions state.submitted continuation +
          state.notifyList.count continuation +
          sums (.carrying continuation)

/-- What holds of the sums over the calls of any threads but one. -/
def Coherent (others : Quantity → Int) : Prop :=
  ∀ quantity, 0 ≤ others quantity

namespace Balanced

variable {base : Int} {state after : State}
  {others : Quantity → Int} {continued : Option Call}

variable {call : Call}

/-- A call goes on to a stage with the same debts. -/
theorem goOn
    (balanced : Balanced base state (withCall others (some call)))
    (same : ∀ quantity,
      withCall others continued quantity =
        withCall others (some call) quantity) :
    Balanced base state (withCall others continued) := by
  have sums : withCall others continued = withCall others (some call) :=
    funext same
  rw [sums]
  exact balanced

/-- An enter counts one more; the first one has a reference to take. -/
theorem enter
    (balanced : Balanced base state (withCall others (some .enter)))
    (finished : state.enter = (after, continued))
    (running : after.crashed = false) :
    Balanced base after (withCall others continued) := by
  have count := balanced.count
  have matched := balanced.matched
  have draining := balanced.draining
  have references := balanced.references
  simp only [withCall_some, Call.weight] at draining references
  have notFull : (bits state.dgState).count ≠ 2 ^ 30 - 1 := by
    intro full
    have notZero : ¬ state.dgState &&& valueMask = 0 := by
      rw [value_eq_zero_iff]
      omega
    rw [State.enter, if_neg notZero,
      if_pos ((value_eq_max_iff _).mpr full)] at finished
    obtain ⟨rfl, -⟩ := finished
    cases running
  have word := bits_enterWord notFull
  have nowEntered : entered (enterWord state.dgState) = 1 := by
    simp [entered, word]
  by_cases first : (bits state.dgState).count = 0
  · rw [State.enter, if_pos ((value_eq_zero_iff _).mpr first)] at finished
    cases finished
    simp only [entered, if_pos first] at references
    exact
      { balanced with
        count := by
          simp only [word]
          omega
        matched := by
          simp only
          omega
        draining := by
          simpa [Call.weight, word] using draining
        clearing := by
          simp [word]
        references := by
          simp only [withCall_some, Call.weight, nowEntered]
          omega }
  · have notFirst : ¬ state.dgState &&& valueMask = 0 :=
      first ∘ (value_eq_zero_iff _).mp
    have notMax : ¬ state.dgState &&& valueMask = valueMax :=
      notFull ∘ (value_eq_max_iff _).mp
    rw [State.enter, if_neg notFirst, if_neg notMax] at finished
    cases finished
    simp only [entered, if_neg first] at references
    exact
      { balanced with
        count := by
          simp only [word]
          omega
        matched := by
          simp only
          omega
        draining := by
          simpa [word] using draining
        clearing := by
          simp [word]
        references := by
          simp only [withCall_none, nowEntered]
          omega }

/-- A leave has an enter that it undoes. -/
theorem count_ne_zero_of_leave
    (balanced : Balanced base state (withCall others (some .leave)))
    (coherent : Coherent others) :
    (bits state.dgState).count ≠ 0 := by
  have count := balanced.count
  have calls := balanced.calls
  have matched := balanced.matched
  have otherLeaves := coherent .leaving
  simp only [withCall_some, Call.weight] at calls
  omega

/-- A leave counts one less; the last one has a reference to give back and the
flags to clear. -/
theorem leave
    {tid : UInt32}
    (balanced : Balanced base state (withCall others (some .leave)))
    (coherent : Coherent others)
    (finished : state.leave tid = (after, continued)) :
    Balanced base after (withCall others continued) := by
  have notZero := balanced.count_ne_zero_of_leave coherent
  have word := bits_leaveWord notZero
  have wasEntered : entered state.dgState = 1 := by
    simp [entered, notZero]
  have count := balanced.count
  have calls := balanced.calls
  have draining := balanced.draining
  have references := balanced.references
  simp only [withCall_some, Call.weight, wasEntered]
    at calls draining references
  by_cases last : (bits state.dgState).count = 1
  · rw [State.leave, if_pos ((value_eq_one_iff _).mpr last)] at finished
    cases finished
    have nowZero : (bits (leaveWord state.dgState)).count = 0 := by
      simp [word, last]
    have left : entered (leaveWord state.dgState) = 0 := by
      simp [entered, nowZero]
    exact
      { balanced with
        count := by
          simp only [word]
          omega
        calls := by
          simp only [withCall_some, Call.weight]
          omega
        draining := by
          simpa [Call.weight, word] using draining
        clearing := by
          intro _ flagged
          have otherLeaves := coherent .clearing
          simp only [withCall_some, Call.weight, if_pos (And.intro nowZero
            flagged)]
          omega
        references := by
          simp only [withCall_some, Call.weight, left]
          omega }
  · have notLast : ¬ state.dgState &&& valueMask = value1 :=
      last ∘ (value_eq_one_iff _).mp
    have balancedLeave : ¬ state.dgState &&& valueMask = 0 :=
      notZero ∘ (value_eq_zero_iff _).mp
    rw [State.leave, if_neg notLast, if_neg balancedLeave] at finished
    cases finished
    have stillEntered : (bits (leaveWord state.dgState)).count ≠ 0 := by
      simp only [word]
      omega
    exact
      { balanced with
        count := by
          simp only [word]
          omega
        calls := by
          simp only [withCall_none]
          omega
        draining := by
          simpa [word] using draining
        clearing := fun nowZero => absurd nowZero stillEntered
        references := by
          simp only [withCall_none, entered, if_neg stillEntered]
          omega }

/-- The loop of a leave clears the flags it has read, or reads them again. -/
theorem leaveLoop
    {oldState : UInt64}
    (balanced : Balanced base state
      (withCall others (some (.leaveLoop oldState))))
    (coherent : Coherent others)
    (finished : state.leaveLoop oldState = (after, continued)) :
    Balanced base after (withCall others continued) := by
  have draining := balanced.draining
  have clearing := balanced.clearing
  have references := balanced.references
  simp only [withCall_some, Call.weight] at draining clearing references
  unfold State.leaveLoop at finished
  by_cases nothing : oldState = clearWord oldState
  · simp only [if_pos nothing] at finished
    cases finished
    obtain ⟨noNotifs, noWaiters⟩ := (clearWord_eq_iff _).mp nothing.symm
    have notClearing :
        ¬ ((bits oldState).count = 0 ∧
          (bits oldState).notifs + (bits oldState).waiters ≠ 0) := by
      rintro ⟨isZero, flagged⟩
      have := noWaiters isZero
      omega
    rw [if_neg notClearing] at clearing
    exact
      { balanced with
        draining := by
          simpa [Call.weight, noNotifs] using draining
        clearing := clearing
        references := by
          simpa [Call.weight] using references }
  · simp only [if_neg nothing] at finished
    by_cases unchanged : state.dgState = oldState
    · simp only [if_pos unchanged] at finished
      subst unchanged
      cases finished
      have word := bits_clearWord state.dgState
      exact
        { balanced with
          count := by
            simpa only [word] using balanced.count
          draining := by
            simp only [withCall_some, Call.weight, word]
            omega
          clearing := by
            intro isZero flagged
            simp only [word] at isZero flagged
            simp [isZero] at flagged
          references := by
            simpa [Call.weight, entered, word] using references }
    · simp only [if_neg unchanged] at finished
      cases finished
      exact
        { balanced with
          clearing := by
            intro isZero flagged
            have otherLeaves := coherent .clearing
            simp only [withCall_some, Call.weight,
              if_pos (And.intro isZero flagged)]
            omega }

variable {dgState : UInt64} {needsRelease : Bool}

/-- A thread that wakes a group with notifications is the one to drain them. -/
theorem wake
    (balanced : Balanced base state
      (withCall others (some (.wake dgState needsRelease))))
    (finished : state.wake dgState needsRelease = (after, continued)) :
    Balanced base after (withCall others continued) := by
  have bounds := bits_bounds dgState
  unfold State.wake at finished
  by_cases notifs : (bits dgState).notifs = 1
  · rw [if_pos ((hasNotifs_iff _).mpr notifs)] at finished
    cases finished
    refine balanced.goOn fun quantity => ?_
    cases quantity <;> simp [Call.weight, notifs]
  · rw [if_neg (notifs ∘ (hasNotifs_iff _).mp)] at finished
    cases finished
    refine balanced.goOn fun quantity => ?_
    have none : (bits dgState).notifs = 0 := by omega
    cases quantity <;> simp [Call.weight, none]

/-- The list that the thread had to drain is now its own, and so is the
reference that came with it. -/
theorem captureTail
    (balanced : Balanced base state
      (withCall others (some (.captureTail dgState needsRelease))))
    (coherent : Coherent others)
    (finished :
      state.captureTail dgState needsRelease = (after, continued)) :
    Balanced base after (withCall others continued) := by
  have draining := balanced.draining
  have references := balanced.references
  simp only [withCall_some, Call.weight] at draining references
  cases finished
  have otherDrains := coherent .draining
  have full : occupied state.notifyList = 1 := by
    by_cases empty : state.notifyList = []
    · simp only [occupied, if_pos empty] at draining
      omega
    · simp [occupied, empty]
  rw [full] at draining references
  have empty : occupied [] = 0 := rfl
  exact
    { balanced with
      draining := by
        simp only [withCall_some, Call.weight, empty]
        omega
      references := by
        simp only [withCall_some, Call.weight, empty]
        omega
      carrying := by
        intro continuation
        have own := balanced.carrying continuation
        simp only [withCall_some, Call.weight, List.count_nil,
          submissions] at own ⊢
        omega }

/-- A continuation of the snapshot is submitted. -/
theorem submit
    {snapshot : List Continuation}
    (balanced : Balanced base state
      (withCall others (some (.submit dgState needsRelease snapshot))))
    (accepted : state.submit dgState needsRelease snapshot =
      some (after, continued)) :
    Balanced base after (withCall others continued) := by
  obtain ⟨continuation, rest, rfl, rfl, next⟩ := State.submit_cases accepted
  have carried (other : Continuation) :
      (state.notified.count other : Int) =
        submissions
            (state.submitted ++ [⟨continuation, state.zeros⟩]) other +
          state.notifyList.count other +
          (others (.carrying other) + rest.count other) := by
    have own := balanced.carrying other
    simp only [withCall_some, Call.weight] at own
    rw [← List.singleton_append, List.count_append] at own
    simp only [submissions, List.map_append, List.map_cons, List.map_nil,
      List.count_append] at own ⊢
    omega
  rcases next with ⟨rfl, rfl⟩ | rfl
  · exact { balanced with carrying := carried }
  · exact { balanced with carrying := carried }

/-- Waking the sleeping threads settles nothing of the accounts. -/
theorem wakeAddress
    {refs : Nat}
    (balanced : Balanced base state
      (withCall others (some (.wakeAddress dgState refs))))
    (finished : state.wakeAddress dgState refs = (after, continued)) :
    Balanced base after (withCall others continued) := by
  unfold State.wakeAddress at finished
  split at finished
  · cases finished
    exact { balanced with }
  · cases finished
    exact { balanced with }

/-- The first continuation of a list has a reference to take and its thread has
to see that the list is drained. -/
theorem notify
    {continuation : Continuation}
    (balanced : Balanced base state
      (withCall others (some (.notify continuation))))
    (finished : state.notify continuation = (after, continued)) :
    Balanced base after (withCall others continued) := by
  have draining := balanced.draining
  have references := balanced.references
  simp only [withCall_some, Call.weight] at draining references
  have full : occupied (state.notifyList ++ [continuation]) = 1 := by
    simp [occupied]
  have moved (other : Continuation) :
      (state.notified.count other : Int) =
        submissions state.submitted other +
          (state.notifyList ++ [continuation]).count other +
          others (.carrying other) := by
    have own := balanced.carrying other
    simp only [withCall_some, Call.weight] at own
    rw [List.count_append]
    omega
  unfold State.notify at finished
  by_cases wasEmpty : state.notifyList = []
  · simp only [if_pos wasEmpty] at finished
    cases finished
    have empty : occupied state.notifyList = 0 := by
      simp [occupied, wasEmpty]
    rw [empty] at draining references
    exact
      { balanced with
        draining := by
          simp only [withCall_some, Call.weight, full]
          omega
        references := by
          simp only [withCall_some, Call.weight, full]
          omega
        carrying := by
          simpa [Call.weight, submissions] using moved }
  · simp only [if_neg wasEmpty] at finished
    cases finished
    have already : occupied state.notifyList = 1 := by
      simp [occupied, wasEmpty]
    rw [already] at draining references
    exact
      { balanced with
        draining := by
          simpa [Call.weight, full] using draining
        references := by
          simpa [Call.weight, full] using references
        carrying := by
          simpa [Call.weight, submissions] using moved }

/-- The thread that pushed the first continuation leaves the draining to the next
leave, or drains the list of an idle group itself. -/
theorem notifyMark
    (balanced : Balanced base state (withCall others (some .notifyMark)))
    (coherent : Coherent others)
    (finished : state.notifyMark = (after, continued)) :
    Balanced base after (withCall others continued) := by
  have word := bits_or_hasNotifs state.dgState
  unfold State.notifyMark at finished
  by_cases idle : state.dgState.toUInt32 = 0
  · simp only [if_pos idle] at finished
    cases finished
    refine balanced.goOn fun quantity => ?_
    cases quantity <;> simp [Call.weight, word]
  · simp only [if_neg idle] at finished
    cases finished
    have draining := balanced.draining
    have references := balanced.references
    simp only [withCall_some, Call.weight] at draining references
    -- the thread was the one to drain, so the flag cannot have been set
    have otherDrains := coherent .draining
    have atMostOne : occupied state.notifyList ≤ 1 := by
      unfold occupied
      split <;> omega
    have bounds := bits_bounds state.dgState
    exact
      { balanced with
        count := by
          simpa only [word] using balanced.count
        draining := by
          simp only [withCall_none, word]
          omega
        clearing := by
          intro isZero _
          simp only [word] at isZero
          rw [lowerHalf_eq_zero_iff] at idle
          exact balanced.clearing isZero (by omega)
        references := by
          simpa [entered, word] using references }

/-- A wait sets the waiters flag of a group that is not idle, or returns. -/
theorem wait
    {timeout : Semaphore.Timeout}
    {began : Moment}
    (balanced : Balanced base state
      (withCall others (some (.wait timeout began))))
    (finished : state.wait timeout began = (after, continued)) :
    Balanced base after (withCall others continued) := by
  rcases State.wait_cases finished with
    ⟨result, rfl, rfl, -⟩ | ⟨notZero, rfl, rfl⟩
  · exact { balanced with }
  · have draining := balanced.draining
    have references := balanced.references
    have word := bits_or_hasWaiters state.dgState
    exact
      { balanced with
        count := by
          simpa only [word] using balanced.count
        draining := by
          simpa [Call.weight, word] using draining
        clearing := by
          intro nowZero _
          simp only [word] at nowZero
          exact absurd nowZero notZero
        references := by
          simpa [Call.weight, entered, word] using references }

end Balanced

end LibDispatch.Group
