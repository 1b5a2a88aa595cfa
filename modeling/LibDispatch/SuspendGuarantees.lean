import LibDispatch.SuspendAccounting

namespace LibDispatch.Suspension

open QueueState

/-!
# What callers of suspend, resume and activate may rely on
-/

/-- The suspend bits of a new object. -/
theorem State.initial_bits
    (config : Config) :
    suspendBits (State.initial config).dqState =
      ⟨0, 0, config.createdInactive.toNat, config.createdInactive.toNat⟩ := by
  have value := initValue_toNat config.widthInRange
  have noBits : field 55 9 (initValue config.width) = 0 := by
    rw [field, value]
    omega
  have roleBits : field 55 9 (config.role &&& roleMask) = 0 :=
    field_and_of_clear (by decide) config.role
  cases created : config.createdInactive with
  | false =>
    refine (number_eq_iff _ ⟨0, 0, 0, 0⟩ (by decide)).mp ?_
    simp only [State.initial, created, Bool.false_eq_true, ↓reduceIte]
    rw [field_or_of_clear roleBits, noBits]
  | true =>
    refine (number_eq_iff _ ⟨0, 0, 1, 1⟩ (by decide)).mp ?_
    simp only [State.initial, created, ↓reduceIte]
    rw [field_or_of_clear roleBits, field_or, noBits]
    decide

theorem State.initial_invariant
    (config : Config) :
    (State.initial config).Invariant config := by
  have bits := State.initial_bits config
  have recorded : Recorded config (State.initial config)
      (State.initial config).pending :=
    { called := fun request => by cases request <;> rfl
      asked := by simp [State.initial]
      standIns := le_rfl
      isSource := nofun }
  refine ⟨?_, recorded, by simp [State.initial]⟩
  have suspended : isSuspended (State.initial config).dqState =
      config.createdInactive := by
    rw [Bool.eq_iff_iff, isSuspended_iff_bits, bits]
    cases config.createdInactive <;> simp
  have noSums : ∀ quantity,
      ledger Activity.weight (State.initial config).activities quantity = 0 :=
    fun _ => rfl
  refine
    { lock := rfl
      count := ?count
      sideFlag := ?sideFlag
      sideNonneg := le_rfl
      sideRound := rfl
      activatingLe := le_rfl
      runs := rfl
      needsActivation := ?needsActivation
      inactiveLe := ?inactiveLe
      waiting := ?waiting
      asked := ?asked
      grants := nofun
      references := ?references
      sound := nofun
      bounded := nofun }
  all_goals
    simp only [bits, noSums, suspended]
  case count => rfl
  case sideFlag => simp [State.initial]
  case needsActivation => cases config.createdInactive <;> rfl
  case inactiveLe => exact le_rfl
  case waiting => cases config.createdInactive <;> simp
  case asked =>
    intro created
    simp [created, State.initial]
  case references =>
    cases created : config.createdInactive <;> simp [State.initial, created]

/-! ## Bits below the suspend bits -/

/-- The bits below the suspend bits other than the dirty bit. -/
def quietMask : UInt64 := ~~~(suspendBitsMask ||| dirty)

/-- An update that keeps the bits below the suspend bits, except that a resume
may mark the object dirty. -/
def KeepsBelow (call : Call) (oldState newState : UInt64) : Prop :=
  (call = .suspend ∨ (∃ delta, call = .suspendSlowTransfer delta) →
      newState &&& ~~~suspendBitsMask = oldState &&& ~~~suspendBitsMask) ∧
    (isSuspended newState = true →
      newState &&& quietMask = oldState &&& quietMask)

variable {newState : UInt64}

theorem SameBelow.and_quietMask
    {oldState : UInt64}
    (same : SameBelow newState oldState) :
    newState &&& quietMask = oldState &&& quietMask := by
  have split : quietMask = ~~~suspendBitsMask &&& ~~~dirty := by decide
  rw [split, ← UInt64.and_assoc, ← UInt64.and_assoc,
    same.and_not_suspendBitsMask]

theorem SameBelow.keepsBelow
    {oldState : UInt64}
    (same : SameBelow newState oldState)
    (call : Call) :
    KeepsBelow call oldState newState :=
  ⟨fun _ => same.and_not_suspendBitsMask, fun _ => same.and_quietMask⟩

variable {config : Config} {state : State} {following : State}

theorem State.finishResume_dqState
    {activating : Bool}
    {continued : Option Call}
    (finished :
      state.finishResume activating newState = (following, continued)) :
    following.dqState = newState := by
  simp only [State.finishResume] at finished
  split at finished <;> cases finished <;> rfl

/-- No step of a call disturbs the bits below while the object stays
suspended. -/
theorem State.advance_keepsBelow
    {tid : UInt32}
    {call : Call}
    {continued : Option Call}
    (staged : call.Staged state.sideSuspendCnt)
    (accepted : state.advance config tid call = some (following, continued)) :
    KeepsBelow call state.dqState following.dqState := by
  have unchanged : SameBelow state.dqState state.dqState := rfl
  cases call with
  | suspend =>
    have finished := Option.some.inj accepted
    rw [State.suspend] at finished
    split at finished <;> cases finished
    · exact unchanged.keepsBelow _
    · rename_i newState updated
      exact (suspendUpdate_some updated).2.keepsBelow _
  | suspendSlowTransfer delta =>
    have finished := Option.some.inj accepted
    rw [State.suspendSlowTransfer] at finished
    split at finished <;> cases finished
    · exact unchanged.keepsBelow _
    · rename_i newState updated
      obtain rfl : delta = suspendSlowDelta state.sideSuspendCnt := staged
      obtain ⟨amount, value⟩ :=
        suspendSlowDelta_amount state.sideSuspendCnt
      have difference := subOverflow_eq_some_iff.mp updated
      rw [value] at difference
      exact (number_of_sub difference).2.keepsBelow _
  | resume finalizing =>
    have finished := Option.some.inj accepted
    rw [State.resume] at finished
    cases updated : resumeUpdate config tid state.dqState with
    | overResume | slow =>
      simp only [updated] at finished
      cases finished
      exact unchanged.keepsBelow _
    | store newState =>
      simp only [updated] at finished
      have isNew : following.dqState = newState := by
        split_ifs at finished
        · exact State.finishResume_dqState finished
        · exact State.finishResume_dqState finished
      rw [isNew]
      cases resumeUpdate_store updated with
      | lastBeforeActivation before after below =>
        exact below.keepsBelow _
      | standsForActivation isSource before after below =>
        exact below.keepsBelow _
      | counted notLast before after below =>
        refine ⟨by simp, ?_⟩
        intro suspended
        obtain ⟨middle, same, rfl⟩ := below suspended
        rw [or_and_of_disjoint (by decide)]
        exact same.and_quietMask
  | resumeSlowTransfer finalizing delta =>
    have finished := Option.some.inj accepted
    rw [State.resumeSlowTransfer] at finished
    split at finished <;> cases finished
    · exact unchanged.keepsBelow _
    · rename_i newState updated
      obtain ⟨amount, value⟩ := resumeSlowDelta_amount staged
      have sum := addOverflow_eq_some_iff.mp updated
      rw [value] at sum
      exact (number_of_add sum).2.keepsBelow _
  | activate =>
    have finished := Option.some.inj accepted
    rw [State.activate] at finished
    split at finished
    · cases finished
      exact unchanged.keepsBelow _
    · rename_i newState updated
      rw [State.finishResume_dqState finished]
      exact (activateUpdate_some updated).2.1.keepsBelow _
  | suspendSlowLock | resumeSlowLock _ =>
    rw [State.advance] at accepted
    split_ifs at accepted
    cases accepted
    exact unchanged.keepsBelow _
  | suspendSlowCount =>
    have finished := Option.some.inj accepted
    rw [State.suspendSlowCount] at finished
    split at finished <;> cases finished <;> exact unchanged.keepsBelow _
  | _ =>
    cases accepted
    exact unchanged.keepsBelow _

/-! ## Guarantees -/

/-- Activations whose suspend count has not been consumed yet. -/
def State.finalizing (state : State) : Int :=
  ledger Activity.weight state.activities .activating

/-- Suspends that still have to take their references. -/
def State.retaining (state : State) : Int :=
  ledger Activity.weight state.activities .retains

/-- Resumes that still have to give the references back. -/
def State.releasing (state : State) : Int :=
  ledger Activity.weight state.activities .releases

/-- The suspensions of the callers and of the activation together. -/
def State.total (state : State) : Int :=
  state.outstanding + state.finalizing

/-- What callers may rely on. -/
structure Accounted (config : Config) (state : State) : Prop where
  /-- Every call that has begun has taken effect, or is still on its way to its
  update of the state word. -/
  called : ∀ request,
    state.calls request = state.effects request + state.pending request
  asked : state.activated = true ↔ 0 < state.activations + state.standIns
  standIns :
    state.standIns ≤ (config.isSource && config.createdInactive).toNat
  count : state.sidelock = false →
    ((suspendCnt state.dqState).toNat : Int) + state.sideSuspendCnt.toNat =
      state.suspends - state.resumes + state.finalizing
  oneFinalizer : 0 ≤ state.finalizing ∧ state.finalizing ≤ 1
  sideFlag : state.sidelock = false →
    (hasSideSuspendCnt state.dqState = true ↔ 0 < state.sideSuspendCnt.toNat)
  below : ∀ activity ∈ state.activities, ∀ following continued,
    state.advance config activity.tid activity.call =
        some (following, continued) →
      KeepsBelow activity.call state.dqState following.dqState
  finalizerAtMostOnce : state.finalizerRuns ≤ state.grants.length ∧
    state.grants.length ≤ config.createdInactive.toNat
  finalizerAfterActivation :
    ∀ grant ∈ state.grants, grant.activated = true ∧ grant.outstanding = 0
  finalizerRuns : config.createdInactive = true → state.activated = true →
    state.outstanding = 0 → state.grants.length = 1 ∧
      (state.activities = [] → state.finalizerRuns = 1)
  overResume : state.crash = none → ∀ tid finalizing,
    ⟨tid, .resume finalizing⟩ ∈ state.activities →
      ((state.resume config tid finalizing).1.crash ≠ none ↔
        state.total = 0 ∧
          ¬(config.isSource = true ∧ isInactive state.dqState = true))
  references :
    state.references + 2 * state.retaining =
      config.otherReferences +
        2 * (if isSuspended state.dqState then 1 else 0) + 2 * state.releasing
  otherCrashes : state.crash ≠ some .invalidSuspensionState ∧
    (state.crash = some .tooManySuspends → 2 ^ 31 ≤ state.outstanding)

/-- A resume crashes exactly when it finds nothing to resume. -/
theorem State.resume_crash_iff
    (running : state.crash = none)
    (tid : UInt32)
    (finalizing : Bool) :
    (state.resume config tid finalizing).1.crash ≠ none ↔
      resumeUpdate config tid state.dqState = .overResume := by
  have noCrash : ∀ (before : State) newState, before.crash = none →
      (before.finishResume false newState).1.crash = none := by
    intro before newState notCrashed
    simp only [State.finishResume, afterResume, Bool.false_eq_true, ↓reduceIte]
    split_ifs <;> exact notCrashed
  rw [State.resume]
  cases updated : resumeUpdate config tid state.dqState with
  | overResume => simp
  | slow => simp [running]
  | store newState =>
    simp only [reduceCtorEq, iff_false, not_not]
    split_ifs
    · exact noCrash _ _ running
    · exact noCrash _ _ running

theorem State.Invariant.accounted
    (invariant : state.Invariant config) :
    Accounted config state := by
  have balanced := invariant.balanced
  have coherent := coherent_ledger state.activities
  have needs := balanced.needsActivation
  have runs := balanced.runs
  have awaiting : 0 ≤ ledger Activity.weight state.activities .awaiting := by
    refine sumOf_nonneg ?_ state.activities
    rintro ⟨tid, call⟩
    cases call <;> simp [Activity.weight, Call.weight]
  have granted : state.grants.length ≤ config.createdInactive.toNat := by
    cases created : config.createdInactive <;>
      simp only [created, Bool.false_eq_true, ↓reduceIte, Bool.toNat_false,
        Bool.toNat_true] at needs ⊢ <;> omega
  have quiet : state.sidelock = false →
      ledger Activity.weight state.activities .sidePending = 0 := by
    intro free
    refine coherent.quiet ?_
    simp [balanced.lock, free]
  have sideBound := (suspendBits_bounds state.dqState).2.1
  refine
    { balanced with
      called := invariant.recorded.called
      asked := invariant.recorded.asked
      standIns := ?standIns
      count := ?count
      oneFinalizer := ?oneFinalizer
      sideFlag := ?sideFlag
      below := ?below
      finalizerAtMostOnce := ⟨by omega, granted⟩
      finalizerAfterActivation := balanced.grants
      finalizerRuns := ?finalizerRuns
      overResume := ?overResume
      otherCrashes := ⟨balanced.sound, balanced.bounded⟩ }
  case standIns =>
    have standIns := invariant.recorded.standIns
    cases isSource : config.isSource with
    | true =>
      rw [Bool.true_and]
      exact standIns.trans granted
    | false =>
      refine Nat.le_of_not_lt fun some => ?_
      have := invariant.recorded.isSource (Nat.zero_lt_of_lt some)
      simp [isSource] at this
  case count =>
    intro free
    have sum := balanced.count
    rw [quiet free, Int.add_zero] at sum
    rw [suspendCnt_toNat]
    exact sum
  case oneFinalizer =>
    refine ⟨coherent.activating, ?_⟩
    have atMost := balanced.activatingLe
    have one := Bool.toNat_le config.createdInactive
    rw [State.finalizing]
    omega
  case sideFlag =>
    intro free
    have flag := balanced.sideFlag
    rw [quiet free, Int.add_zero] at flag
    rw [hasSideSuspendCnt_iff]
    exact flag.trans Int.natCast_pos
  case below =>
    intro activity member following continued accepted
    exact State.advance_keepsBelow (invariant.staged activity member) accepted
  case finalizerRuns =>
    intro created asked settled
    have isActive := (balanced.asked created).mpr asked
    have notDue : (suspendBits state.dqState).needsActivation ≠ 1 := by
      intro due
      have positive := balanced.waiting isActive due
      omega
    have bound := (suspendBits_bounds state.dqState).2.2.2
    simp only [created, ↓reduceIte] at needs
    refine ⟨by omega, ?_⟩
    intro noCalls
    simp only [noCalls, ledger, sumOf_nil] at runs
    omega
  case overResume =>
    intro running tid finalizing member
    rw [State.resume_crash_iff running, resumeUpdate_not_store.2]
    have sum := balanced.count
    have sideFlag := balanced.sideFlag
    have sideNonneg := balanced.sideNonneg
    have total : state.total =
        (suspendBits state.dqState).count + (state.sideSuspendCnt.toNat +
          ledger Activity.weight state.activities .sidePending) := by
      rw [State.total, State.finalizing]
      omega
    have isZero : state.total = 0 ↔ (suspendBits state.dqState).count = 0 ∧
        (suspendBits state.dqState).side = 0 := by
      rw [total]
      omega
    rw [isZero, and_assoc]
    refine and_congr_right fun noCount => and_congr_right fun noSide => ?_
    rw [resumeActivates, Bool.and_eq_true, beq_iff_eq, isUntouched_iff]
    refine not_congr (and_congr_right fun _ => ?_)
    have inactiveLe := balanced.inactiveLe
    have needsBound := (suspendBits_bounds state.dqState).2.2.2
    have inactiveIff : isInactive state.dqState = true ↔
        (suspendBits state.dqState).inactive = 1 :=
      isInactive_iff state.dqState
    rw [inactiveIff]
    constructor
    · intro untouched
      rw [untouched]
    · intro inactive
      refine SuspendBits.ext noCount noSide inactive ?_
      simp only
      omega

/-- A call begins, or the first call in progress takes a step. -/
def State.next
    (config : Config)
    (state : State) : Option Request → Option State
  | some request =>
    if state.crash = none then
      some (state.begin 1 (match request with
        | .suspend => .suspend
        | .resume => .resume false
        | .activate => .activate))
    else none
  | none =>
    match state.activities with
    | [] => none
    | activity :: later =>
      if state.crash = none then
        (state.advance config activity.tid activity.call).map
          fun advanced =>
            { advanced.1 with
              activities := (advanced.2.map
                (Activity.mk activity.tid)).toList ++ later }
      else none

end LibDispatch.Suspension
