import LibDispatch.SuspendInvariant

namespace LibDispatch.Suspension

open QueueState

/-!
# Accounting of suspend, resume and activate

Every step of every call keeps the accounts balanced, whatever the other calls
and the rest of the library do in between.
-/

variable {call : Call} {tid : UInt32} {newState : UInt64} {finalizing : Bool}

namespace Balanced

variable {config : Config} {state following : State}
  {others : Quantity → Int} {continued : Option Call}

/-- A call that has not done anything yet. -/
theorem weight_resume
    (quantity : Quantity) :
    (Call.resume false).weight quantity = 0 := by
  cases quantity <;> rfl

theorem weight_activate
    (quantity : Quantity) :
    Call.activate.weight quantity = 0 := by
  cases quantity <;> rfl

/-- The rest of the library does not disturb the accounts. -/
theorem elsewhere
    {sums : Quantity → Int}
    (balanced : Balanced config state sums)
    (same : suspendBits newState = suspendBits state.dqState) :
    Balanced config { state with dqState := newState } sums := by
  have suspended : isSuspended newState = isSuspended state.dqState := by
    rw [Bool.eq_iff_iff, isSuspended_iff_bits, isSuspended_iff_bits, same]
  exact
    { balanced with
      count := by rw [same]; exact balanced.count
      sideFlag := by rw [same]; exact balanced.sideFlag
      needsActivation := by rw [same]; exact balanced.needsActivation
      inactiveLe := by rw [same]; exact balanced.inactiveLe
      waiting := by rw [same]; exact balanced.waiting
      asked := by rw [same]; exact balanced.asked
      references := by rw [suspended]; exact balanced.references }

variable (coherent : Coherent others)

include coherent

/-- With neither inline nor side counts nothing is outstanding. -/
theorem nothingOutstanding
    {count : Nat}
    (balanced : Balanced config state (withCall others (some call)))
    (noWeight : ∀ quantity, call.weight quantity = 0)
    (bits : ∃ inactive,
      suspendBits state.dqState = ⟨count, 0, inactive, 1⟩) :
    (state.suspends : Int) - state.resumes = count := by
  obtain ⟨inactive, bits⟩ := bits
  obtain ⟨-, notActivating, -⟩ := balanced.nothingGranted (by rw [bits])
  have sum := balanced.count
  have sideFlag := balanced.sideFlag
  have sideNonneg := balanced.sideNonneg
  have activating := coherent.activating
  simp only [bits, withCall_some, noWeight, State.outstanding, Int.add_zero,
    Nat.zero_ne_one, false_iff] at sum notActivating sideFlag sideNonneg
  omega

/-- The finalizer's own resume never meets an activation that is due. -/
theorem notFinalizing
    (balanced : Balanced config state
      (withCall others (some (.resume finalizing))))
    (due : (suspendBits state.dqState).needsActivation = 1) :
    finalizing = false := by
  obtain ⟨-, notActivating, -⟩ := balanced.nothingGranted due
  have activating := coherent.activating
  cases finalizing with
  | false => rfl
  | true =>
    simp only [withCall_some, Call.weight, Bool.toNat_true] at notActivating
    omega

/-- A resume keeps the accounts. -/
theorem resume
    (balanced : Balanced config state
      (withCall others (some (.resume finalizing))))
    (running : state.crash = none)
    (finished : state.resume config tid finalizing =
      (following, continued)) :
    Balanced config following (withCall others continued) := by
  rw [State.resume] at finished
  cases updated : resumeUpdate config tid state.dqState with
  | overResume =>
    simp only [updated] at finished
    cases finished
    refine { balanced with sound := ?_, bounded := ?_ }
    · simp only
      split_ifs <;> simp
    · simp only
      split_ifs <;> simp
  | slow =>
    simp only [updated] at finished
    cases finished
    exact { balanced with }
  | store newState =>
    simp only [updated] at finished
    cases resumeUpdate_store updated with
    | lastBeforeActivation before after below =>
      have due : (suspendBits state.dqState).needsActivation = 1 := by
        rw [before]
      have notUntouched : resumeActivates config state.dqState = false := by
        simp [resumeActivates, isUntouched_iff, before]
      obtain rfl := balanced.notFinalizing coherent due
      obtain ⟨-, -, created⟩ := balanced.nothingGranted due
      have asked := (balanced.asked created).mp (by rw [before])
      have outstanding := balanced.nothingOutstanding coherent
        weight_resume ⟨0, before⟩
      have settled :
          (state.suspends : Int) - (state.resumes + 1) = 0 := by
        omega
      have activates := balanced.activates coherent running weight_resume
        due (by rw [before]) after settled
      rw [notUntouched, if_neg (by simp), State.finishResume_granted (by
        rw [after]
        simp [State.countResume, due])] at finished
      cases finished
      simpa [State.countResume, State.outstanding, asked, settled]
        using activates
    | standsForActivation isSource before after below =>
      have due : (suspendBits state.dqState).needsActivation = 1 := by
        rw [before]
      have untouched : resumeActivates config state.dqState = true := by
        simp [resumeActivates, isUntouched_iff, before, isSource]
      obtain rfl := balanced.notFinalizing coherent due
      have settled := balanced.nothingOutstanding coherent weight_resume
        ⟨1, before⟩
      have activates := balanced.activates coherent running weight_resume
        due (by rw [before]) after settled
      rw [untouched, if_pos rfl, State.finishResume_granted (by
        rw [after]
        simp [due])] at finished
      cases finished
      simp only [State.outstanding, settled]
      exact { activates with }
    | counted notLast before after below =>
      have notUntouched : resumeActivates config state.dqState = false := by
        by_contra untouched
        rw [Bool.not_eq_false, resumeActivates, Bool.and_eq_true,
          beq_iff_eq, isUntouched_iff] at untouched
        rw [untouched.2] at before
        cases before
      rw [notUntouched, if_neg (by simp)] at finished
      exact balanced.resumeCounted coherent running notLast before after
        finished

/-- An activation keeps the accounts. -/
theorem activate
    (balanced : Balanced config state (withCall others (some .activate)))
    (running : state.crash = none)
    (finished : state.activate = (following, continued)) :
    Balanced config following (withCall others continued) := by
  rw [State.activate] at finished
  cases updated : activateUpdate state.dqState with
  | none =>
    simp only [updated] at finished
    cases finished
    have isActive := activateUpdate_none updated
    exact { balanced with asked := fun _ => by simp [isActive] }
  | some newState =>
    simp only [updated] at finished
    obtain ⟨inactive, -, ⟨before, after⟩ | ⟨notUntouched, after⟩⟩ :=
      activateUpdate_some updated
    · have due : (suspendBits state.dqState).needsActivation = 1 := by
        rw [before]
      have settled := balanced.nothingOutstanding coherent weight_activate
        ⟨1, before⟩
      have activates := balanced.activates coherent running weight_activate
        due (by rw [before]) after settled
      rw [State.finishResume_granted (by
        rw [after]
        simp [due])] at finished
      cases finished
      simp only [State.outstanding, settled]
      exact { activates with }
    · have asks : Balanced config
          { state with activations := state.activations + 1 }
          (withCall others (some .activate)) := { balanced with }
      exact asks.activationWaits coherent inactive notUntouched after finished

/-- Every step of a call keeps the accounts. -/
theorem advance
    (balanced : Balanced config state (withCall others (some call)))
    (running : state.crash = none)
    (staged : call.Staged state.sideSuspendCnt)
    (accepted : state.advance config tid call = some (following, continued)) :
    Balanced config following (withCall others continued) := by
  have lock := balanced.lock
  cases call with
  | suspend =>
    have finished := Option.some.inj accepted
    rw [State.suspend] at finished
    split at finished <;> cases finished
    · exact { balanced with }
    · rename_i newState updated
      exact balanced.suspendFits running updated
  | suspendRetain | release2 | wakeup _ =>
    cases accepted
    refine { balanced with references := ?_ }
    have references := balanced.references
    simp only [withCall_some, withCall_none, Call.weight] at references ⊢
    omega
  | suspendSlowLock | resumeSlowLock _ =>
    rw [State.advance] at accepted
    split_ifs at accepted with taken
    cases accepted
    refine { balanced with lock := ?_ }
    simp only [withCall_some, Call.weight, taken, Bool.false_eq_true,
      ↓reduceIte] at lock ⊢
    omega
  | suspendSlowReadSide | finalizer =>
    cases accepted
    exact { balanced with }
  | suspendSlowTransfer delta =>
    have finished := Option.some.inj accepted
    rw [State.suspendSlowTransfer] at finished
    split at finished <;> cases finished
    · exact { balanced with }
    · rename_i newState updated
      exact balanced.suspendTransfers coherent running staged updated
  | suspendSlowCount =>
    have finished := Option.some.inj accepted
    rw [State.suspendSlowCount] at finished
    split at finished <;> cases finished
    · rename_i tooMany
      exact balanced.suspendTooMany coherent tooMany
    · rename_i sum fits
      exact balanced.suspendCounts fits
  | suspendSlowUnlock retry =>
    cases accepted
    have unlocked := balanced.unlocked coherent rfl
    cases retry
    all_goals
      refine { balanced with lock := ?_ }
      simp [Call.weight, unlocked]
  | resume finalizing =>
    exact balanced.resume coherent running (Option.some.inj accepted)
  | resumeSlowReadSide finalizing =>
    cases accepted
    cases isDelta : resumeSlowDelta state.sideSuspendCnt with
    | none | some _ =>
      simp only [State.resumeSlowReadSide, isDelta]
      exact { balanced with }
  | resumeSlowTransfer finalizing delta =>
    have finished := Option.some.inj accepted
    rw [State.resumeSlowTransfer] at finished
    split at finished <;> cases finished
    · exact { balanced with }
    · rename_i newState updated
      exact balanced.resumeTransfers coherent running staged updated
  | resumeSlowCount =>
    cases accepted
    exact balanced.resumeCounts staged
  | resumeSlowRetry _ | resumeSlowUnlock =>
    cases accepted
    have unlocked := balanced.unlocked coherent rfl
    refine { balanced with lock := ?_ }
    simp [Call.weight, unlocked]
  | activate =>
    exact balanced.activate coherent running (Option.some.inj accepted)
  | resumeActivate =>
    cases accepted
    refine { balanced with runs := ?_ }
    have runs := balanced.runs
    simp only [withCall_some, Call.weight] at runs ⊢
    omega

end Balanced

/-! ## Calls and their effects -/

/-- How often what was asked for has been done. -/
def State.effects (state : State) : Request → Nat
  | .suspend => state.suspends
  | .resume => state.resumes + state.standIns
  | .activate => state.activations

/-- The calls that have not done what they were asked for, with one call, if it
has not returned. -/
def pendingWith
    (others : Request → Nat)
    (call : Option Call)
    (request : Request) : Nat :=
  others request + if call.bind Call.pending = some request then 1 else 0

/-- The history of an object, given the calls that are pending. -/
structure Recorded
    (config : Config)
    (state : State)
    (pending : Request → Nat) : Prop where
  called : ∀ request,
    state.calls request = state.effects request + pending request
  asked : state.activated = true ↔ 0 < state.activations + state.standIns
  standIns : state.standIns ≤ state.grants.length
  isSource : 0 < state.standIns → config.isSource = true

namespace Recorded

variable {config : Config} {state following : State}
  {others : Request → Nat} {continued : Option Call}

/-- A call has done what it was asked for. -/
theorem takesEffect
    {done : Request}
    (recorded : Recorded config state (pendingWith others (some call)))
    (isPending : call.pending = some done)
    (notPending : continued.bind Call.pending = none)
    (sameCalls : following.calls = state.calls)
    (effects : ∀ request, following.effects request =
      state.effects request + if some done = some request then 1 else 0)
    (request : Request) :
    following.calls request =
      following.effects request + pendingWith others continued request := by
  rw [sameCalls, recorded.called, effects, pendingWith, pendingWith,
    notPending, Option.bind_some, isPending]
  simp only [reduceCtorEq, ↓reduceIte]
  omega

/-- A resume is counted, unless it is the end of an activation. -/
theorem countResume
    (recorded : Recorded config state (pendingWith others (some call)))
    (isPending : call.pending = if finalizing then none else some .resume) :
    Recorded config { state.countResume finalizing with dqState := newState }
      (pendingWith others none) := by
  cases finalizing with
  | false =>
    refine { recorded with called := recorded.takesEffect isPending rfl rfl ?_ }
    intro request
    cases request
    · rfl
    · exact Nat.add_right_comm _ 1 _
    · rfl
  | true =>
    have same : pendingWith others (some call) = pendingWith others none := by
      funext request
      rw [pendingWith, Option.bind_some, isPending]
      rfl
    exact { same ▸ recorded with }

/-- The end of a resume that has taken effect. -/
theorem finishResume
    {activating : Bool}
    (recorded : Recorded config state (pendingWith others none))
    (finished :
      state.finishResume activating newState = (following, continued)) :
    Recorded config following (pendingWith others continued) := by
  have standIns := recorded.standIns
  simp only [State.finishResume, afterResume] at finished
  split_ifs at finished <;> cases finished <;>
    refine { recorded with standIns := ?_ } <;> simp <;> omega

/-- A resume is counted, or stands for the activation, just if it does not
retry. -/
theorem resume
    (recorded : Recorded config state
      (pendingWith others (some (.resume finalizing))))
    (due : (suspendBits state.dqState).needsActivation = 1 →
      finalizing = false)
    (finished : state.resume config tid finalizing =
      (following, continued)) :
    Recorded config following (pendingWith others continued) := by
  rw [State.resume] at finished
  split at finished
  · cases finished
    exact { recorded with }
  · cases finished
    cases finalizing <;> exact { recorded with }
  · rename_i newState updated
    split_ifs at finished with untouched
    · cases resumeUpdate_store updated with
      | standsForActivation isSource before after below =>
        obtain rfl := due (by rw [before])
        rw [State.finishResume_granted (by rw [before, after]; decide)]
          at finished
        cases finished
        exact
          { called := recorded.takesEffect rfl rfl rfl fun request => by
              cases request <;> rfl
            asked := iff_of_true rfl (by simp only; omega)
            standIns := by simpa using recorded.standIns
            isSource := fun _ => isSource }
      | lastBeforeActivation before after below
      | counted notLast before after below =>
        rw [resumeActivates, Bool.and_eq_true, beq_iff_eq, isUntouched_iff]
          at untouched
        simp [untouched.2] at before
    · refine (recorded.countResume ?_).finishResume finished
      cases finalizing <;> rfl

/-- Every step of a call is recorded. -/
theorem advance
    (recorded : Recorded config state (pendingWith others (some call)))
    (due : ∀ {finalizing}, call = .resume finalizing →
      (suspendBits state.dqState).needsActivation = 1 → finalizing = false)
    (accepted : state.advance config tid call = some (following, continued)) :
    Recorded config following (pendingWith others continued) := by
  cases call with
  | suspend =>
    have finished := Option.some.inj accepted
    rw [State.suspend] at finished
    split at finished <;> cases finished
    · exact { recorded with }
    · refine
        { recorded with
          called := recorded.takesEffect rfl ?_ rfl fun request => by
            cases request <;> rfl }
      split_ifs <;> rfl
  | suspendSlowTransfer delta =>
    have finished := Option.some.inj accepted
    rw [State.suspendSlowTransfer] at finished
    split at finished <;> cases finished
    · exact { recorded with }
    · exact
        { recorded with
          called := recorded.takesEffect rfl rfl rfl fun request => by
            cases request <;> rfl }
  | suspendSlowCount =>
    have finished := Option.some.inj accepted
    rw [State.suspendSlowCount] at finished
    split at finished <;> cases finished <;> exact { recorded with }
  | resume finalizing =>
    exact recorded.resume (due rfl) (Option.some.inj accepted)
  | resumeSlowReadSide finalizing =>
    cases accepted
    rw [State.resumeSlowReadSide]
    cases finalizing <;> split <;> exact { recorded with }
  | resumeSlowTransfer finalizing delta =>
    have finished := Option.some.inj accepted
    rw [State.resumeSlowTransfer] at finished
    split at finished <;> cases finished
    · cases finalizing <;> exact { recorded with }
    · refine recorded.countResume ?_
      cases finalizing <;> rfl
  | activate =>
    have asks : Recorded config
        { state with activated := true, activations := state.activations + 1 }
        (pendingWith others none) :=
      { called := recorded.takesEffect rfl rfl rfl fun request => by
          cases request <;> rfl
        asked := iff_of_true rfl (by simp only; omega)
        standIns := recorded.standIns
        isSource := recorded.isSource }
    have finished := Option.some.inj accepted
    rw [State.activate] at finished
    split at finished
    · cases finished
      exact { asks with }
    · exact asks.finishResume finished
  | suspendSlowLock =>
    rw [State.advance] at accepted
    split_ifs at accepted
    cases accepted
    exact { recorded with }
  | resumeSlowLock finalizing =>
    rw [State.advance] at accepted
    split_ifs at accepted
    cases accepted
    cases finalizing <;> exact { recorded with }
  | suspendSlowUnlock retry =>
    cases accepted
    cases retry <;> exact { recorded with }
  | resumeSlowRetry finalizing =>
    cases accepted
    cases finalizing <;> exact { recorded with }
  | _ =>
    cases accepted
    exact { recorded with }

end Recorded

/-! ## Whole runs -/

/-- The contribution of an activity. -/
def Activity.weight (activity : Activity) (quantity : Quantity) : Int :=
  activity.call.weight quantity

/-- The calls in progress that have not done what they were asked for. -/
def State.pending (state : State) (request : Request) : Nat :=
  state.activities.countP fun activity => activity.call.pending = some request

/-- The invariant of every run. -/
structure State.Invariant (config : Config) (state : State) : Prop where
  balanced : Balanced config state (ledger Activity.weight state.activities)
  recorded : Recorded config state state.pending
  staged : ∀ activity ∈ state.activities,
    activity.call.Staged state.sideSuspendCnt

theorem Activity.critical_nonneg
    (activity : Activity) :
    0 ≤ activity.weight .critical := by
  obtain ⟨tid, call⟩ := activity
  cases call <;> simp [Activity.weight, Call.weight]

/-- The sums over any calls are coherent. -/
theorem coherent_ledger
    (activities : List Activity) :
    Coherent (ledger Activity.weight activities) where
  critical := sumOf_nonneg Activity.critical_nonneg activities
  activating := by
    refine sumOf_nonneg ?_ activities
    rintro ⟨tid, call⟩
    cases call <;> simp [Activity.weight, Call.weight]
  quiet := by
    refine sumOf_eq_zero Activity.critical_nonneg ?_
    rintro ⟨tid, call⟩
    cases call <;> simp [Activity.weight, Call.weight]

/-- A call that does not hold the side lock relies on nothing. -/
theorem Call.staged_of_weight
    (notHolding : call.weight .critical = 0)
    (sideSuspendCnt : UInt32) :
    call.Staged sideSuspendCnt := by
  cases call with
  | suspendSlowTransfer _ | resumeSlowTransfer _ _ | resumeSlowCount =>
    cases notHolding
  | _ => trivial

/-- The end of a resume does not touch the side count and leaves the call
outside the side lock. -/
theorem State.finishResume_side
    {state following : State}
    {activating : Bool}
    {continued : Option Call}
    (finished :
      state.finishResume activating newState = (following, continued)) :
    following.sideSuspendCnt = state.sideSuspendCnt ∧
      ∀ call, continued = some call → call.weight .critical = 0 := by
  simp only [State.finishResume, afterResume] at finished
  split_ifs at finished <;> cases finished <;> simp [Call.weight]

/-- A step of a call leaves the next stage with what it relies on; only the
holder of the side lock changes the side count. -/
theorem Call.Staged.advance
    {config : Config}
    {state following : State}
    {continued : Option Call}
    (staged : call.Staged state.sideSuspendCnt)
    (round : state.sideSuspendCnt.toNat % 32 = 0)
    (accepted : state.advance config tid call = some (following, continued)) :
    (∀ next, continued = some next → next.Staged following.sideSuspendCnt) ∧
      (following.sideSuspendCnt = state.sideSuspendCnt ∨
        call.weight .critical = 1) := by
  have outside : ∀ {next : Option Call} (sideSuspendCnt : UInt32),
      (∀ call, next = some call → call.weight .critical = 0) →
      ∀ call, next = some call → call.Staged sideSuspendCnt := by
    intro next sideSuspendCnt notHolding call isNext
    exact Call.staged_of_weight (notHolding call isNext) sideSuspendCnt
  cases call with
  | suspend =>
    have finished := Option.some.inj accepted
    rw [State.suspend] at finished
    split at finished <;> cases finished
    · exact ⟨outside _ (by rintro _ ⟨⟩; rfl), Or.inl rfl⟩
    · refine ⟨outside _ ?_, Or.inl rfl⟩
      split_ifs <;> simp [Call.weight]
  | suspendRetain | resumeSlowUnlock | release2 | wakeup _ =>
    cases accepted
    exact ⟨by simp, Or.inl rfl⟩
  | suspendSlowLock | resumeSlowLock _ =>
    rw [State.advance] at accepted
    split_ifs at accepted
    cases accepted
    exact ⟨by rintro _ ⟨⟩; trivial, Or.inl rfl⟩
  | suspendSlowReadSide =>
    cases accepted
    exact ⟨by rintro _ ⟨⟩; rfl, Or.inl rfl⟩
  | suspendSlowTransfer delta =>
    have finished := Option.some.inj accepted
    rw [State.suspendSlowTransfer] at finished
    split at finished <;> cases finished
    · exact ⟨by rintro _ ⟨⟩; trivial, Or.inl rfl⟩
    · exact ⟨by rintro _ ⟨⟩; trivial, Or.inl rfl⟩
  | suspendSlowCount =>
    have finished := Option.some.inj accepted
    rw [State.suspendSlowCount] at finished
    split at finished <;> cases finished
    · exact ⟨by rintro _ ⟨⟩; trivial, Or.inr rfl⟩
    · exact ⟨by rintro _ ⟨⟩; trivial, Or.inr rfl⟩
  | suspendSlowUnlock retry =>
    cases accepted
    refine ⟨outside _ ?_, Or.inl rfl⟩
    split_ifs <;> simp [Call.weight]
  | resume finalizing =>
    have finished := Option.some.inj accepted
    rw [State.resume] at finished
    split at finished
    · cases finished
      exact ⟨by rintro _ ⟨⟩; trivial, Or.inl rfl⟩
    · cases finished
      exact ⟨by rintro _ ⟨⟩; trivial, Or.inl rfl⟩
    · split_ifs at finished
      · have ends := State.finishResume_side finished
        exact ⟨outside _ ends.2, Or.inl ends.1⟩
      · have ends := State.finishResume_side finished
        exact ⟨outside _ ends.2, Or.inl ends.1⟩
  | resumeSlowReadSide finalizing =>
    cases accepted
    refine ⟨?_, Or.inl rfl⟩
    intro next isNext
    rw [State.resumeSlowReadSide] at isNext
    split at isNext <;> cases isNext
    · trivial
    · rename_i delta isDelta
      exact isDelta
  | resumeSlowTransfer finalizing delta =>
    have finished := Option.some.inj accepted
    rw [State.resumeSlowTransfer] at finished
    split at finished <;> cases finished
    · exact ⟨by rintro _ ⟨⟩; trivial, Or.inl rfl⟩
    · have positive := resumeSlowDelta_pos staged
      have enough : 32 ≤ state.sideSuspendCnt.toNat := by omega
      refine ⟨?_, Or.inl rfl⟩
      intro next isNext
      cases isNext
      exact enough
  | resumeSlowCount =>
    cases accepted
    exact ⟨by rintro _ ⟨⟩; trivial, Or.inr rfl⟩
  | resumeSlowRetry _ | resumeActivate | finalizer =>
    cases accepted
    exact ⟨by rintro _ ⟨⟩; trivial, Or.inl rfl⟩
  | activate =>
    have finished := Option.some.inj accepted
    rw [State.activate] at finished
    split at finished
    · cases finished
      exact ⟨by simp, Or.inl rfl⟩
    · have ends := State.finishResume_side finished
      exact ⟨outside _ ends.2, Or.inl ends.1⟩

/-- Every step keeps the invariant. -/
theorem State.Invariant.step
    {config : Config}
    {state following : State}
    (invariant : state.Invariant config)
    (stepped : Step config state following) :
    following.Invariant config := by
  cases stepped with
  | begin tid call running isCall =>
    have weightless : ∀ quantity, call.weight quantity = 0 := by
      intro quantity
      rcases isCall with rfl | rfl | rfl <;> cases quantity <;> rfl
    have sameSums : ledger Activity.weight (⟨tid, call⟩ :: state.activities) =
        ledger Activity.weight state.activities := by
      funext quantity
      simp [ledger, Activity.weight, weightless]
    refine ⟨?_, ?_, ?_⟩
    · simp only [State.begin, sameSums]
      exact { invariant.balanced with }
    · refine { invariant.recorded with called := ?_ }
      intro request
      have sum := invariant.recorded.called request
      have same : (state.begin tid call).effects request =
          state.effects request := rfl
      rw [same]
      simp only [State.begin, State.pending, List.countP_cons,
        decide_eq_true_eq] at sum ⊢
      omega
    · exact List.forall_mem_cons.mpr
        ⟨Call.staged_of_weight (weightless _) _, invariant.staged⟩
  | @advance reached earlier later activity continued running scheduled
      accepted =>
      have balanced := invariant.balanced
      have coherent := coherent_ledger (earlier ++ later)
      rw [scheduled, ledger_middle] at balanced
      change Balanced config state
        (withCall (ledger Activity.weight (earlier ++ later))
          (some activity.call)) at balanced
      have staged := invariant.staged activity (by simp [scheduled])
      have advanced := balanced.advance coherent running staged accepted
      obtain ⟨nextStaged, sameSide⟩ :=
        staged.advance balanced.sideRound accepted
      have recorded : Recorded config state (pendingWith
          (fun request => (earlier ++ later).countP fun other =>
            other.call.pending = some request) (some activity.call)) := by
        refine { invariant.recorded with called := ?_ }
        intro request
        have sum := invariant.recorded.called request
        simp only [State.pending, scheduled, List.countP_append,
          List.countP_cons, decide_eq_true_eq, pendingWith, Option.bind_some]
          at sum ⊢
        omega
      have nextRecorded := recorded.advance (by
        rintro finalizing isResume due
        rw [isResume] at balanced
        exact balanced.notFinalizing coherent due) accepted
      refine ⟨?_, ?_, ?_⟩
      · rw [ledger_continued fun _ => rfl]
        exact { advanced with }
      · refine { nextRecorded with called := ?_ }
        intro request
        refine (nextRecorded.called request).trans (congrArg (_ + ·) ?_)
        cases continued with
        | none => simp [State.pending, pendingWith]
        | some next =>
          simp only [State.pending, pendingWith, Option.map_some,
            Option.toList_some, List.countP_append, List.countP_cons,
            List.countP_nil, decide_eq_true_eq, Option.bind_some]
          omega
      · intro other member
        simp only [List.mem_append, Option.mem_toList,
          Option.map_eq_some_iff] at member
        have stays : other ∈ earlier ++ later →
            other.call.Staged reached.sideSuspendCnt := by
          intro isOther
          rcases sameSide with same | holdsLock
          · rw [same]
            refine invariant.staged other ?_
            rw [scheduled]
            simp only [List.mem_append, List.mem_cons] at isOther ⊢
            exact isOther.imp id Or.inr
          · refine Call.staged_of_weight ?_ _
            have nobody := balanced.unlocked coherent holdsLock
            have atMost := le_sumOf Activity.critical_nonneg isOther
            exact Int.le_antisymm (atMost.trans nobody.le)
              other.critical_nonneg
        rcases member with inEarlier | ⟨call, isNext, rfl⟩ | inLater
        · exact stays (List.mem_append_left _ inEarlier)
        · exact nextStaged call isNext
        · exact stays (List.mem_append_right _ inLater)
  | elsewhere newState running sameSuspension =>
    refine ⟨invariant.balanced.elsewhere ?_, { invariant.recorded with },
      invariant.staged⟩
    refine suspendBits_eq_of_number ?_
    rw [← field_and_of_full (by decide : field 55 9 suspendBitsMask = _),
      sameSuspension, field_and_of_full (by decide)]

end LibDispatch.Suspension
