import LibDispatch.GroupAccounts

namespace LibDispatch.Group

/-!
# Notifications of a group

No continuation passed to `dispatch_group_notify` is lost or submitted twice,
and an idle group holds no flag and no reference of its own.  A continuation can
be submitted too early, though: the leave that brings the count to zero captures
the notify list only later, when the group may have been entered again.
-/

/-! ## Every step keeps the accounts -/

variable {call : Call} {tid : UInt32}

namespace Balanced

variable {base : Int} {state after : State}
  {others : Quantity → Int} {continued : Option Call}

/-- Every step of every call keeps the accounts. -/
theorem advance
    {choice : Choice}
    (balanced : Balanced base state (withCall others (some call)))
    (coherent : Coherent others)
    (accepted : state.advance tid choice call = some (after, continued))
    (running : after.crashed = false) :
    Balanced base after (withCall others continued) := by
  cases call with
  | enter =>
    exact balanced.enter (Option.some.inj accepted) running
  | enterRetain | release _ =>
    cases accepted
    have references := balanced.references
    simp only [withCall_some, Call.weight] at references
    exact
      { balanced with
        references := by
          simp only [withCall_none]
          omega }
  | leave =>
    exact balanced.leave coherent (Option.some.inj accepted)
  | leaveLoop oldState =>
    exact balanced.leaveLoop coherent (Option.some.inj accepted)
  | wake dgState needsRelease =>
    exact balanced.wake (Option.some.inj accepted)
  | captureHead dgState needsRelease =>
    obtain ⟨rfl, rfl⟩ := State.captureHead_cases accepted
    exact { balanced with }
  | captureTail dgState needsRelease =>
    exact balanced.captureTail coherent (Option.some.inj accepted)
  | submit dgState needsRelease snapshot =>
    exact balanced.submit accepted
  | wakeAddress dgState refs =>
    exact balanced.wakeAddress (Option.some.inj accepted)
  | notify continuation =>
    exact balanced.notify (Option.some.inj accepted)
  | notifyRetain continuation =>
    cases accepted
    have references := balanced.references
    simp only [withCall_some, Call.weight] at references
    exact
      { balanced with
        references := by
          simp only [withCall_some, Call.weight]
          omega }
  | notifyLink continuation wasEmpty =>
    have same (quantity : Quantity) :
        withCall others (if wasEmpty then some .notifyMark else none)
            quantity =
          withCall others (some (.notifyLink continuation wasEmpty))
            quantity := by
      cases wasEmpty <;> cases quantity <;> simp [Call.weight]
    cases accepted
    exact { balanced.goOn same with }
  | notifyMark =>
    exact balanced.notifyMark coherent (Option.some.inj accepted)
  | wait timeout began =>
    exact balanced.wait (Option.some.inj accepted)
  | waitOnAddress waiter =>
    obtain ⟨rfl, ⟨-, rfl⟩ | ⟨timedOut, rfl⟩⟩ :=
      State.waitOnAddress_cases accepted
    · exact { balanced with }
    · exact { balanced with }
  | sleeping waiter wakes =>
    obtain ⟨rfl, timedOut, rfl⟩ := State.sleeping_cases accepted
    exact { balanced with }
  | waitCheck waiter timedOut =>
    rcases State.waitCheck_cases (Option.some.inj accepted) with
      ⟨result, rfl, rfl, -⟩ | ⟨rfl, rfl⟩
    · exact { balanced with }
    · exact { balanced with }

end Balanced

/-! ## Runs -/

/-- What holds between the steps of any threads. -/
structure State.Invariant (base : Int) (state : State) : Prop where
  distinct : (state.notified.map Continuation.id).Nodup
  balanced :
    state.crashed = false →
      Balanced base state (ledger Activity.weight state.activities)

/-- The state word of a new group. -/
theorem Created.word
    {base : Int}
    {state : State}
    (created : Created base state) :
    ∃ count : UInt32,
      state = create base count ∧
        bits state.dgState = ⟨0, count.toNat, 0, 0⟩ ∧
        (count = 0 ↔ count.toNat = 0) := by
  have empty : bits (-0 * valueInterval.toUInt32).toUInt64 = ⟨0, 0, 0, 0⟩ := by
    decide
  have once : bits (-1 * valueInterval.toUInt32).toUInt64 = ⟨0, 1, 0, 0⟩ := by
    decide
  rcases created with rfl | rfl
  · exact ⟨0, rfl, empty, by decide⟩
  · exact ⟨1, rfl, once, by decide⟩

theorem create_invariant
    {base : Int}
    {state : State}
    (created : Created base state) :
    state.Invariant base := by
  obtain ⟨count, rfl, word, isZero⟩ := created.word
  have noSums (quantity : Quantity) :
      ledger Activity.weight [] quantity = 0 := rfl
  exact
    { distinct := List.nodup_nil
      balanced := fun _ =>
        { count := by
            rw [word]
            rfl
          calls := rfl
          matched := Nat.zero_le _
          draining := by
            rw [word]
            rfl
          clearing := by
            simp [word]
          references := by
            rw [entered, word]
            simp only [create, noSums, occupied, isZero, ↓reduceIte]
            omega
          carrying := fun _ => rfl } }

variable {sums : Quantity → Int}

/-- Every member of the notify list was passed to notify. -/
theorem Balanced.notified_of_mem
    {base : Int}
    {state : State}
    (balanced : Balanced base state sums)
    (nonneg : ∀ quantity, 0 ≤ sums quantity)
    {continuation : Continuation}
    (member : continuation ∈ state.notifyList) :
    continuation ∈ state.notified := by
  have own := balanced.carrying continuation
  have held := nonneg (.carrying continuation)
  have present := List.count_pos_iff.mpr member
  refine List.count_pos_iff.mp ?_
  omega

theorem ledger_weight_nonneg
    (activities : List Activity)
    (quantity : Quantity) :
    0 ≤ ledger Activity.weight activities quantity :=
  ledger_nonneg (fun activity => activity.call.weight_nonneg quantity) _

/-- The accounts of a call about to take a step, apart from the others. -/
theorem State.Invariant.ofCall
    {base : Int}
    {state : State}
    (invariant : state.Invariant base)
    (running : state.crashed = false)
    {earlier later : List Activity}
    {activity : Activity}
    (scheduled : state.activities = earlier ++ activity :: later) :
    Balanced base state
      (withCall (ledger Activity.weight (earlier ++ later))
        (some activity.call)) := by
  have balanced := invariant.balanced running
  rw [scheduled, ledger_middle] at balanced
  exact balanced

/-! ## What a step can do to the histories -/

/-- The call is between bringing the count to zero, or finding it zero, and
capturing the notify list.  A leave that has nothing to clear in the word it has
read captures nothing. -/
def Call.isClosing : Call → Bool
  | leaveLoop oldState => clearWord oldState ≠ oldState
  | wake dgState _ => dgState &&& hasNotifs ≠ 0
  | captureHead _ _ => true
  | captureTail _ _ => true
  | _ => false

/-- The continuations that a call is about to submit. -/
def Call.snapshot : Call → List Continuation
  | submit _ _ snapshot => snapshot
  | _ => []

/-- What a step of a call can do to the count, to the notify list and to the
histories. -/
structure Effect
    (state : State)
    (call : Call)
    (after : State)
    (continued : Option Call) : Prop where
  notified : after.notified = state.notified
  zeros : state.zeros ≤ after.zeros
  count :
    after.zeros = state.zeros → 0 < state.count → 0 < after.count
  closing :
    ∀ next, continued = some next → next.isClosing = true →
      call.isClosing = true ∨ state.zeros < after.zeros ∨
        state.count = 0
  held :
    ∀ next, continued = some next →
      ∀ continuation ∈ next.snapshot,
        continuation ∈ call.snapshot ∨
          call.isClosing = true ∧ continuation ∈ state.notifyList
  submitted :
    ∀ submission ∈ after.submitted,
      submission ∈ state.submitted ∨
        submission.continuation ∈ call.snapshot ∧
          submission.zeros = after.zeros

section

variable {base : Int} {state after : State}
  {others : Quantity → Int} {continued : Option Call}

/-- The histories, but for the notify list. -/
def State.histories (state : State) :
    List Continuation × List UInt32 × Nat × Nat × List Submission :=
  (state.notified, state.closers, state.enters, state.leaves,
    state.submitted)

/-- A step that leaves the histories alone and goes on. -/
theorem Effect.goesOn
    {next : Call}
    (closing :
      next.isClosing = true → call.isClosing = true ∨ state.count = 0)
    (nothing : next.snapshot = [])
    (same : after.histories = state.histories) :
    Effect state call after (some next) := by
  simp only [State.histories, Prod.mk.injEq] at same
  obtain ⟨notified, closers, enters, leaves, submitted⟩ := same
  exact
    { notified := notified
      zeros := by
        simp only [State.zeros, closers, Nat.le_refl]
      count := by
        simp only [State.count, enters, leaves]
        exact fun _ positive => positive
      closing := by
        rintro next ⟨⟩ isClosing
        exact (closing isClosing).elim .inl (.inr ∘ .inr)
      held := by
        rintro next ⟨⟩ continuation member
        rw [nothing] at member
        cases member
      submitted := by
        intro submission member
        rw [submitted] at member
        exact .inl member }

/-- A step that leaves the histories alone and is the last one. -/
theorem Effect.ends
    (same : after.histories = state.histories) :
    Effect state call after none :=
  { @Effect.goesOn call state after .enter nofun rfl same with
    closing := nofun
    held := nofun }

theorem Effect.enter
    (finished : state.enter = (after, continued)) :
    Effect state .enter after continued := by
  have only :
      after.notified = state.notified ∧
        after.closers = state.closers ∧
        after.enters = state.enters + 1 ∧
        after.leaves = state.leaves ∧
        after.submitted = state.submitted ∧
        ∀ next, continued = some next → next = .enterRetain := by
    simp only [State.enter] at finished
    split_ifs at finished <;> cases finished <;> simp
  obtain ⟨notified, closers, enters, leaves, submitted, next⟩ := only
  exact
    { notified := notified
      zeros := by
        simp only [State.zeros, closers, Nat.le_refl]
      count := by
        simp only [State.count, enters, leaves]
        omega
      closing := by
        intro call isNext isClosing
        rw [next call isNext] at isClosing
        cases isClosing
      held := by
        intro call isNext continuation member
        rw [next call isNext] at member
        cases member
      submitted := by
        intro submission member
        rw [submitted] at member
        exact .inl member }

/-- Only the leave that brings the count to zero has a list to capture. -/
theorem Effect.leave
    (balanced : Balanced base state (withCall others (some .leave)))
    (coherent : Coherent others)
    (finished : state.leave tid = (after, continued)) :
    Effect state .leave after continued := by
  have notZero := balanced.count_ne_zero_of_leave coherent
  have count := balanced.count
  unfold State.leave at finished
  by_cases last : (bits state.dgState).count = 1
  · rw [if_pos ((value_eq_one_iff _).mpr last)] at finished
    cases finished
    exact
      { notified := rfl
        zeros := by
          simp [State.zeros]
        count := by
          simp [State.zeros]
        closing := fun _ _ _ => .inr (.inl (by simp [State.zeros]))
        held := by
          rintro next ⟨⟩ continuation ⟨⟩
        submitted := fun _ => .inl }
  · have notLast : ¬ state.dgState &&& valueMask = value1 :=
      last ∘ (value_eq_one_iff _).mp
    have balancedLeave : ¬ state.dgState &&& valueMask = 0 :=
      notZero ∘ (value_eq_zero_iff _).mp
    rw [if_neg notLast, if_neg balancedLeave] at finished
    cases finished
    exact
      { notified := rfl
        zeros := Nat.le_refl _
        count := by
          simp only [State.count]
          omega
        closing := by
          rintro next ⟨⟩
        held := by
          rintro next ⟨⟩
        submitted := fun _ => .inl }

theorem Effect.submit
    {dgState : UInt64}
    {needsRelease : Bool}
    {snapshot : List Continuation}
    (accepted : state.submit dgState needsRelease snapshot =
      some (after, continued)) :
    Effect state (.submit dgState needsRelease snapshot) after
      continued := by
  obtain ⟨continuation, rest, rfl, rfl, next⟩ := State.submit_cases accepted
  exact
    { notified := rfl
      zeros := Nat.le_refl _
      count := fun _ positive => positive
      closing := by
        rcases next with ⟨-, rfl⟩ | rfl <;> rintro next ⟨⟩ ⟨⟩
      held := by
        rcases next with ⟨-, rfl⟩ | rfl
        · rintro next ⟨⟩ other ⟨⟩
        · rintro next ⟨⟩ other member
          exact .inl (List.mem_cons_of_mem _ member)
      submitted := by
        intro submission member
        rcases List.mem_append.mp member with old | new
        · exact .inl old
        · rw [List.mem_singleton.mp new]
          exact .inr ⟨List.mem_cons_self, rfl⟩ }

/-- What the steps of the calls do. -/
theorem Effect.advance
    {choice : Choice}
    (balanced : Balanced base state (withCall others (some call)))
    (coherent : Coherent others)
    (accepted : state.advance tid choice call = some (after, continued)) :
    Effect state call after continued := by
  cases call with
  | enter =>
    exact Effect.enter (Option.some.inj accepted)
  | enterRetain | release _ =>
    cases accepted
    exact .ends rfl
  | leave =>
    exact Effect.leave balanced coherent (Option.some.inj accepted)
  | leaveLoop oldState =>
    simp only [State.advance, State.leaveLoop, Option.some.injEq] at accepted
    have clears (notifs : (Call.wake oldState true).isClosing = true) :
        (Call.leaveLoop oldState).isClosing = true := by
      simp only [Call.isClosing, decide_eq_true_eq, hasNotifs_iff,
        ne_eq, clearWord_eq_iff] at notifs ⊢
      omega
    split_ifs at accepted with same <;> cases accepted
    · exact .goesOn (fun notifs => .inl (clears notifs)) rfl rfl
    · exact .goesOn (fun notifs => .inl (clears notifs)) rfl rfl
    · exact .goesOn (fun _ => .inl (decide_eq_true (Ne.symm same))) rfl rfl
  | wake dgState needsRelease =>
    simp only [State.advance, State.wake, Option.some.injEq] at accepted
    split_ifs at accepted with notifs <;> cases accepted
    · exact .goesOn
        (fun _ => .inl (by simpa [Call.isClosing] using notifs)) rfl rfl
    · exact .goesOn nofun rfl rfl
  | captureHead dgState needsRelease =>
    obtain ⟨rfl, rfl⟩ := State.captureHead_cases accepted
    exact .goesOn (fun _ => .inl rfl) rfl rfl
  | captureTail dgState needsRelease =>
    cases accepted
    exact
      { notified := rfl
        zeros := Nat.le_refl _
        count := fun _ positive => positive
        closing := by
          rintro next ⟨⟩ ⟨⟩
        held := by
          rintro next ⟨⟩ continuation member
          exact .inr ⟨rfl, member⟩
        submitted := fun _ => .inl }
  | submit dgState needsRelease snapshot =>
    exact Effect.submit accepted
  | wakeAddress dgState refs =>
    simp only [State.advance, State.wakeAddress, Option.some.injEq]
      at accepted
    split_ifs at accepted <;> cases accepted <;> exact .goesOn nofun rfl rfl
  | notify continuation =>
    cases accepted
    refine .goesOn ?_ ?_ rfl
    · intro isClosing
      split at isClosing <;> cases isClosing
    · split <;> rfl
  | notifyRetain continuation =>
    cases accepted
    exact .goesOn nofun rfl rfl
  | notifyLink continuation wasEmpty =>
    cases accepted
    cases wasEmpty
    · exact .ends rfl
    · exact .goesOn nofun rfl rfl
  | notifyMark =>
    have count := balanced.count
    simp only [State.advance, State.notifyMark, Option.some.injEq]
      at accepted
    split_ifs at accepted with idle <;> cases accepted
    · refine .goesOn (fun _ => .inr ?_) rfl rfl
      rw [lowerHalf_eq_zero_iff] at idle
      simp only [State.count]
      omega
    · exact .ends rfl
  | wait timeout began =>
    rcases State.wait_cases (Option.some.inj accepted) with
      ⟨result, rfl, rfl, -⟩ | ⟨-, rfl, rfl⟩
    · exact .ends rfl
    · exact .goesOn nofun rfl rfl
  | waitOnAddress waiter =>
    obtain ⟨rfl, ⟨-, rfl⟩ | ⟨timedOut, rfl⟩⟩ :=
      State.waitOnAddress_cases accepted
    · exact .goesOn nofun rfl rfl
    · exact .goesOn nofun rfl rfl
  | sleeping waiter wakes =>
    obtain ⟨rfl, timedOut, rfl⟩ := State.sleeping_cases accepted
    exact .goesOn nofun rfl rfl
  | waitCheck waiter timedOut =>
    rcases State.waitCheck_cases (Option.some.inj accepted) with
      ⟨result, rfl, rfl, -⟩ | ⟨rfl, rfl⟩
    · exact .ends rfl
    · exact .goesOn nofun rfl rfl

end

/-! ## No continuation is lost or submitted twice -/

variable {base : Int}

/-- A call that starts has no debts but its own. -/
theorem Balanced.request
    {state after : State}
    {request : Request}
    (balanced : Balanced base state sums)
    (accepted : state.request request = some (after, call)) :
    Balanced base after (withCall sums (some call)) := by
  have idle : Balanced base state (withCall sums none) := by
    rw [show withCall sums none = sums from funext (withCall_none sums)]
    exact balanced
  cases request with
  | enter | wait _ =>
    cases accepted
    exact { idle with }
  | leave =>
    simp only [State.request, Option.ite_none_right_eq_some,
      Option.some.injEq] at accepted
    obtain ⟨allowed, accepted⟩ := accepted
    cases accepted
    have calls := balanced.calls
    exact
      { idle with
        calls := by
          simp only [withCall_some, Call.weight]
          omega
        matched := allowed }
  | notify id =>
    simp only [State.request, Option.ite_none_left_eq_some,
      Option.some.injEq] at accepted
    obtain ⟨-, accepted⟩ := accepted
    cases accepted
    exact
      { idle with
        carrying := by
          intro continuation
          have own := balanced.carrying continuation
          simp only [withCall_some, Call.weight, List.count_append]
          omega }

theorem State.Invariant.step
    {state after : State}
    (invariant : state.Invariant base)
    (stepped : Step state after) :
    after.Invariant base := by
  cases stepped with
  | «begin» tid request call running outside accepted =>
    refine { distinct := ?distinct, balanced := ?balanced }
    case distinct =>
      obtain ⟨leaveCalls, notified, rfl, -, rfl | ⟨id, fresh, rfl⟩⟩ :=
        State.request_cases accepted
      · exact invariant.distinct
      · simp only [List.map_append]
        refine List.nodup_append.mpr ⟨invariant.distinct, by simp, ?_⟩
        rintro _ old _ new rfl
        rw [List.map_singleton, List.mem_singleton] at new
        rw [new] at old
        exact fresh old
    case balanced =>
      intro _
      have kept := (invariant.balanced running).request accepted
      have sums :
          ledger Activity.weight (⟨tid, call⟩ :: state.activities) =
            withCall (ledger Activity.weight state.activities)
              (some call) := by
        funext quantity
        simp only [ledger, sumOf_cons, withCall_some, Activity.weight]
        omega
      simp only [sums]
      exact { kept with }
  | @advance advanced earlier later activity choice continued running
      scheduled accepted =>
      have balanced := invariant.ofCall running scheduled
      have coherent : Coherent
          (ledger Activity.weight (earlier ++ later)) :=
        ledger_weight_nonneg _
      refine { distinct := ?distinct, balanced := ?balanced }
      case distinct =>
        show (advanced.notified.map Continuation.id).Nodup
        rw [(Effect.advance balanced coherent accepted).notified]
        exact invariant.distinct
      case balanced =>
        intro stillRunning
        have kept := balanced.advance coherent accepted stillRunning
        rw [ledger_continued fun _ => rfl]
        exact { kept with }

theorem reachable_invariant
    {state : State}
    (reached : Reachable (Created base) Step state) :
    state.Invariant base :=
  reached.invariant create_invariant fun invariant stepped =>
    invariant.step stepped

/-- What a group guarantees of the continuations passed to notify, when others
hold the given number of references. -/
structure NotifiesOnce (base : Int) (state : State) : Prop where
  atMostOnce :
    (state.submitted.map fun submission =>
      submission.continuation.id).Nodup
  /-- What is left behind when no call is in progress and the count is zero. -/
  quiet :
    state.activities = [] → state.count = 0 →
      (state.submitted.map Submission.continuation).Perm state.notified ∧
      (state.notified.map Continuation.id).Nodup ∧
      state.notifyList = [] ∧
      state.dgState &&& hasNotifs = 0 ∧
      state.dgState &&& hasWaiters = 0 ∧
      state.references = base

/-- No continuation is submitted more often than it was passed to notify. -/
theorem Balanced.submitted_subperm
    {state : State}
    (balanced : Balanced base state sums)
    (nonneg : ∀ quantity, 0 ≤ sums quantity) :
    List.Subperm (state.submitted.map Submission.continuation)
      state.notified := by
  refine List.subperm_ext_iff.mpr fun continuation _ => ?_
  have own := balanced.carrying continuation
  have held := nonneg (.carrying continuation)
  simp only [submissions] at own
  omega

/-- An idle group without calls has no flag set, so nobody is left to drain its
list. -/
theorem Balanced.quiet
    {state : State}
    (balanced : Balanced base state sums)
    (nothing : ∀ quantity, sums quantity = 0)
    (idle : state.count = 0) :
    (state.submitted.map Submission.continuation).Perm state.notified ∧
      state.notifyList = [] ∧ (bits state.dgState).notifs = 0 ∧
      (bits state.dgState).waiters = 0 ∧ state.references = base := by
  obtain ⟨count, -, -, draining, clearing, references, carrying⟩ := balanced
  simp only [nothing, Int.add_zero, Int.zero_add]
    at draining clearing references carrying
  have isZero : (bits state.dgState).count = 0 := by
    simp only [State.count] at idle
    omega
  have noFlags :
      (bits state.dgState).notifs + (bits state.dgState).waiters = 0 := by
    by_contra flagged
    exact absurd (clearing isZero flagged) (by decide)
  have noList : state.notifyList = [] := by
    by_contra full
    simp only [occupied, if_neg full] at draining
    omega
  refine ⟨?_, noList, by omega, by omega, ?_⟩
  · refine List.perm_iff_count.mpr fun continuation => ?_
    have own := carrying continuation
    simp only [noList, List.count_nil, submissions] at own
    omega
  · simp only [entered, isZero, noList, occupied, ↓reduceIte] at references
    omega

/-- Every interleaving of enters, leaves, notifies and waits submits each
continuation at most once, and an idle group has submitted all. -/
theorem reachable_notifiesOnce
    {base : Int}
    {state : State}
    (reached : Reachable (Created base) Step state)
    (running : state.crashed = false) :
    NotifiesOnce base state := by
  have invariant := reachable_invariant reached
  have balanced := invariant.balanced running
  refine { atMostOnce := ?_, quiet := ?_ }
  · obtain ⟨part, same, inside⟩ :=
      balanced.submitted_subperm (ledger_weight_nonneg _)
    have ids := (same.map Continuation.id).symm
    rw [List.map_map] at ids
    exact ids.nodup_iff.mpr
      ((inside.map Continuation.id).nodup invariant.distinct)
  · intro noCalls idle
    rw [noCalls] at balanced
    obtain ⟨once, noList, noNotifs, noWaiters, references⟩ :=
      balanced.quiet (fun _ => rfl) idle
    have notifs := hasNotifs_iff state.dgState
    have waiters := hasWaiters_iff state.dgState
    refine ⟨once, invariant.distinct, noList, ?_, ?_, references⟩
    · by_contra set
      rw [notifs.mp set] at noNotifs
      cases noNotifs
    · by_contra set
      rw [waiters.mp set] at noWaiters
      cases noWaiters

/-- A run in which the group is idle again: the continuation has been submitted
and the references are given back. -/
theorem notifiedOnce_quiet :
    ∃ state : State,
      Reachable (Created 1) Step state ∧
        state.notified = [⟨7, ⟨0, false⟩⟩] ∧ state.activities = [] ∧
        state.count = 0 ∧ NotifiesOnce 1 state := by
  obtain ⟨state, runs, facts⟩ : ∃ state,
      afterEvents State.next (create 1 1)
        (makes 2 (.notify 7) 4 ++ makes 1 .leave 8) = some state ∧
      state.notified = [⟨7, ⟨0, false⟩⟩] ∧ state.activities = [] ∧
        state.count = 0 ∧ state.crashed = false :=
    ⟨_, rfl, rfl, rfl, rfl, rfl⟩
  obtain ⟨notified, activities, count, running⟩ := facts
  have reached := State.reachable_of_schedule runs
    (fun _ _ _ => State.next_steps)
  exact ⟨state, reached, notified, activities, count,
    reachable_notifiesOnce reached running⟩

end LibDispatch.Group
