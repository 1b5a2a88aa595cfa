import LibDispatch.SuspendUpdates

namespace LibDispatch.Suspension

open QueueState

/-!
# The accounts of suspension

What a call in progress owes to the object is a weight of its stage.  The
accounts relate the state word, the side count and the history to the sums of
these weights.
-/

/-- The quantities a call in progress contributes to. -/
inductive Quantity where
  /-- Holding the side lock. -/
  | critical
  /-- Counts on their way to the side count. -/
  | sidePending
  /-- The count taken by an activation and not given back. -/
  | activating
  /-- A finalizer that is about to run. -/
  | awaiting
  /-- References to be taken, in pairs. -/
  | retains
  /-- References to be given back, in pairs. -/
  | releases

/-- The contribution of a call at each of its stages. -/
def Call.weight : Call → Quantity → Int
  | suspendRetain, .retains => 1
  | suspendSlowReadSide, .critical => 1
  | suspendSlowTransfer _, .critical => 1
  | suspendSlowCount, .critical => 1
  | suspendSlowCount, .sidePending => 32
  | suspendSlowUnlock _, .critical => 1
  | resume finalizing, .activating => finalizing.toNat
  | resumeSlowLock finalizing, .activating => finalizing.toNat
  | resumeSlowReadSide _, .critical => 1
  | resumeSlowReadSide finalizing, .activating => finalizing.toNat
  | resumeSlowTransfer _ _, .critical => 1
  | resumeSlowTransfer finalizing _, .activating => finalizing.toNat
  | resumeSlowCount, .critical => 1
  | resumeSlowCount, .sidePending => -32
  | resumeSlowRetry _, .critical => 1
  | resumeSlowRetry finalizing, .activating => finalizing.toNat
  | resumeSlowUnlock, .critical => 1
  | resumeActivate, .activating => 1
  | resumeActivate, .awaiting => 1
  | finalizer, .activating => 1
  | release2, .releases => 1
  | wakeup _, .releases => 1
  | _, _ => 0

/-- What a call relies on while it holds the side lock. -/
def Call.Staged (sideSuspendCnt : UInt32) : Call → Prop
  | suspendSlowTransfer delta => delta = suspendSlowDelta sideSuspendCnt
  | resumeSlowTransfer _ delta => resumeSlowDelta sideSuspendCnt = some delta
  | resumeSlowCount => 32 ≤ sideSuspendCnt.toNat
  | _ => True

/-- The accounts of an object, given the sums over the calls in progress. -/
structure Balanced
    (config : Config)
    (state : State)
    (sums : Quantity → Int) : Prop where
  lock : sums .critical = if state.sidelock then 1 else 0
  count :
    ((suspendBits state.dqState).count : Int) + state.sideSuspendCnt.toNat +
      sums .sidePending = state.outstanding + sums .activating
  sideFlag :
    (suspendBits state.dqState).side = 1 ↔
      0 < state.sideSuspendCnt.toNat + sums .sidePending
  sideNonneg : 0 ≤ state.sideSuspendCnt.toNat + sums .sidePending
  sideRound : state.sideSuspendCnt.toNat % 32 = 0
  activatingLe : sums .activating ≤ state.grants.length
  runs : state.finalizerRuns + sums .awaiting = state.grants.length
  needsActivation :
    (suspendBits state.dqState).needsActivation + state.grants.length =
      if config.createdInactive then 1 else 0
  inactiveLe :
    (suspendBits state.dqState).inactive ≤
      (suspendBits state.dqState).needsActivation
  waiting :
    (suspendBits state.dqState).inactive = 0 →
      (suspendBits state.dqState).needsActivation = 1 → 0 < state.outstanding
  asked :
    config.createdInactive = true →
      ((suspendBits state.dqState).inactive = 0 ↔ state.activated = true)
  grants :
    ∀ grant ∈ state.grants, grant.activated = true ∧ grant.outstanding = 0
  references :
    state.references + 2 * sums .retains =
      config.otherReferences +
        2 * (if isSuspended state.dqState then 1 else 0) + 2 * sums .releases
  sound : state.crash ≠ some .invalidSuspensionState
  bounded : state.crash = some .tooManySuspends → 2 ^ 31 ≤ state.outstanding

@[inherit_doc LibDispatch.withCall]
abbrev withCall := LibDispatch.withCall Call.weight

/-! ## The end of a resume -/

variable {newState : UInt64}

/-- An update that clears the activation bit gives the right to run the
finalizer. -/
theorem State.finishResume_granted
    {state : State}
    {activating : Bool}
    (differs : (suspendBits state.dqState).needsActivation ≠
      (suspendBits newState).needsActivation) :
    state.finishResume activating newState =
      ({ state with
        dqState := newState
        grants := state.grants ++ [⟨state.activated, state.outstanding⟩] },
        some .resumeActivate) := by
  rcases afterResume_cases activating state.dqState newState with
    ⟨-, granted⟩ | ⟨same, -⟩
  · simp only [State.finishResume, granted]
  · exact (differs same).elim

variable {after : State} {continued : Option Call}

/-- Any other update returns, or gives the references back once the object is
not suspended any more. -/
theorem State.finishResume_kept
    {state : State}
    {activating : Bool}
    (same : (suspendBits newState).needsActivation =
      (suspendBits state.dqState).needsActivation)
    (consistent : activating = true → isSuspended newState = true)
    (finished : state.finishResume activating newState =
      (after, continued)) :
    after = { state with dqState := newState } ∧
      ∀ others quantity, withCall others continued quantity =
        others quantity +
          if isSuspended newState then 0 else Call.release2.weight quantity := by
  rcases afterResume_cases activating state.dqState newState with
    ⟨differs, -⟩ | ⟨-, ⟨suspended, next⟩ | ⟨notSuspended, next⟩⟩
  · exact (differs same.symm).elim
  · simp only [State.finishResume, next, Prod.mk.injEq] at finished
    obtain ⟨rfl, rfl⟩ := finished
    exact ⟨rfl, by simp [suspended]⟩
  · rcases next with isActivating | next | ⟨barrierComplete, next⟩
    · rw [consistent isActivating] at notSuspended
      cases notSuspended
    · simp only [State.finishResume, next, Prod.mk.injEq] at finished
      obtain ⟨rfl, rfl⟩ := finished
      exact ⟨rfl, by simp [notSuspended]⟩
    · simp only [State.finishResume, next, Prod.mk.injEq] at finished
      obtain ⟨rfl, rfl⟩ := finished
      refine ⟨rfl, ?_⟩
      intro others quantity
      cases quantity <;> simp [notSuspended, Call.weight]

/-! ## Steps -/

/-- What holds of the sums over any calls. -/
structure Coherent (others : Quantity → Int) : Prop where
  critical : 0 ≤ others .critical
  activating : 0 ≤ others .activating
  quiet : others .critical = 0 → others .sidePending = 0

namespace Balanced

variable {config : Config} {state : State} {sums others : Quantity → Int}

/-- No finalizer has been granted while the activation is due. -/
theorem nothingGranted
    (balanced : Balanced config state sums)
    (due : (suspendBits state.dqState).needsActivation = 1) :
    state.grants = [] ∧ sums .activating ≤ 0 ∧
      config.createdInactive = true := by
  have needs := balanced.needsActivation
  have activating := balanced.activatingLe
  rw [due] at needs
  cases created : config.createdInactive with
  | false =>
    simp only [created, Bool.false_eq_true, ↓reduceIte] at needs
    omega
  | true =>
    simp only [created, ↓reduceIte] at needs
    have empty : state.grants.length = 0 := by omega
    refine ⟨List.eq_nil_of_length_eq_zero empty, ?_, rfl⟩
    omega

/-! ## Suspending -/

/-- A suspend that fits in the state word. -/
theorem suspendFits
    (balanced : Balanced config state (withCall others (some .suspend)))
    (running : state.crash = none)
    (updated : suspendUpdate state.dqState = some newState) :
    Balanced config
      { state with dqState := newState, suspends := state.suspends + 1 }
      (withCall others
        (if isSuspended state.dqState then none else some .suspendRetain)) := by
  obtain ⟨bits, -⟩ := suspendUpdate_some updated
  have nowSuspended : isSuspended newState = true := by
    rw [isSuspended_iff_bits, bits]
    simp
  have count := balanced.count
  have references := balanced.references
  have waiting := balanced.waiting
  simp only [withCall_some, Call.weight, State.outstanding]
    at count references waiting
  cases suspended : isSuspended state.dqState
  all_goals
    simp only [suspended, Bool.false_eq_true, ↓reduceIte] at references ⊢
    refine
      { balanced with
        count := ?_
        sideFlag := by rw [bits]; exact balanced.sideFlag
        needsActivation := by rw [bits]; exact balanced.needsActivation
        inactiveLe := by rw [bits]; exact balanced.inactiveLe
        waiting := ?_
        asked := by rw [bits]; exact balanced.asked
        references := ?_
        bounded := by simp [running] }
    all_goals
      simp only [bits, nowSuspended, State.outstanding, withCall_some,
        withCall_none, Call.weight, ↓reduceIte]
      omega

variable {call : Call} (coherent : Coherent others)

include coherent

/-- The holder of the side lock is the only one. -/
theorem unlocked
    (balanced : Balanced config state (withCall others (some call)))
    (holdsLock : call.weight .critical = 1) :
    others .critical = 0 := by
  have lock := balanced.lock
  have critical := coherent.critical
  simp only [withCall_some, holdsLock] at lock
  split_ifs at lock <;> omega

/-- A call that holds the side lock is the only one that moves counts. -/
theorem nobodyElse
    (balanced : Balanced config state (withCall others (some call)))
    (holdsLock : call.weight .critical = 1) :
    others .sidePending = 0 :=
  coherent.quiet (balanced.unlocked coherent holdsLock)

/-- Half of the inline counts moves towards the side count. -/
theorem suspendTransfers
    {delta : UInt64}
    (balanced : Balanced config state
      (withCall others (some (.suspendSlowTransfer delta))))
    (running : state.crash = none)
    (staged : delta = suspendSlowDelta state.sideSuspendCnt)
    (updated : subOverflow state.dqState delta = some newState) :
    Balanced config
      { state with dqState := newState, suspends := state.suspends + 1 }
      (withCall others (some .suspendSlowCount)) := by
  have nobodyElse := balanced.nobodyElse coherent rfl
  have count := balanced.count
  have references := balanced.references
  have sideFlag := balanced.sideFlag
  simp only [withCall_some, Call.weight] at count references sideFlag
  have flagged : (suspendBits state.dqState).side = 1 ↔
      state.sideSuspendCnt ≠ 0 := by
    have isZero : state.sideSuspendCnt = 0 ↔
        state.sideSuspendCnt.toNat = 0 := UInt32.toNat_inj.symm
    rw [sideFlag, ne_eq, isZero]
    omega
  rw [staged] at updated
  obtain ⟨enough, bits, -⟩ := suspendSlow_some flagged updated
  have wasSuspended : isSuspended state.dqState = true := by
    rw [isSuspended_iff_bits]
    intro noBits
    rw [noBits] at enough
    cases enough
  have nowSuspended : isSuspended newState = true := by
    rw [isSuspended_iff_bits, bits]
    simp
  have waiting := balanced.waiting
  refine
    { balanced with
      count := ?_
      sideFlag := ?_
      sideNonneg := ?_
      needsActivation := by rw [bits]; exact balanced.needsActivation
      inactiveLe := by rw [bits]; exact balanced.inactiveLe
      waiting := ?_
      asked := by rw [bits]; exact balanced.asked
      references := ?_
      bounded := by simp [running] }
  all_goals
    simp only [bits, wasSuspended, nowSuspended, State.outstanding,
      withCall_some, Call.weight, true_iff,
      ↓reduceIte] at count references waiting ⊢
  all_goals omega

omit coherent in
/-- The moved counts arrive at the side count. -/
theorem suspendCounts
    {sideSuspendCnt : UInt32}
    (balanced : Balanced config state
      (withCall others (some .suspendSlowCount)))
    (fits : addOverflow32 state.sideSuspendCnt suspendHalf =
      some sideSuspendCnt) :
    Balanced config { state with sideSuspendCnt := sideSuspendCnt }
      (withCall others (some (.suspendSlowUnlock false))) := by
  have half : suspendHalf.toNat = 32 := by decide
  have sum := addOverflow32_eq_some_iff.mp fits
  rw [half] at sum
  have count := balanced.count
  have sideFlag := balanced.sideFlag
  have sideNonneg := balanced.sideNonneg
  have sideRound := balanced.sideRound
  refine
    { balanced with
      count := ?_
      sideFlag := ?_
      sideNonneg := ?_
      sideRound := ?_ }
  all_goals
    simp only [sum, State.outstanding, withCall_some,
      Call.weight] at count sideFlag sideNonneg ⊢
  all_goals omega

/-- When the side count does not fit, there are more than `2 ^ 31`
suspensions. -/
theorem suspendTooMany
    (balanced : Balanced config state
      (withCall others (some .suspendSlowCount)))
    (overflow : addOverflow32 state.sideSuspendCnt suspendHalf = none) :
    Balanced config { state with crash := some .tooManySuspends }
      (withCall others (some .suspendSlowCount)) := by
  have half : suspendHalf.toNat = 32 := by decide
  have tooMuch := addOverflow32_eq_none_iff.mp overflow
  rw [half] at tooMuch
  have nobodyElse := balanced.nobodyElse coherent rfl
  have count := balanced.count
  have activating := balanced.activatingLe
  have needs := balanced.needsActivation
  simp only [withCall_some, Call.weight] at count activating
  have granted : state.grants.length ≤ 1 := by
    split_ifs at needs <;> omega
  refine
    { balanced with
      sound := nofun
      bounded := ?_ }
  intro _
  simp only [State.outstanding] at count ⊢
  omega

/-! ## Resuming -/

/-- Counts move back from the side count. -/
theorem resumeTransfers
    {delta : UInt64}
    {finalizing : Bool}
    (balanced : Balanced config state
      (withCall others (some (.resumeSlowTransfer finalizing delta))))
    (running : state.crash = none)
    (staged : resumeSlowDelta state.sideSuspendCnt = some delta)
    (updated : addOverflow state.dqState delta = some newState) :
    Balanced config
      { state.countResume finalizing with dqState := newState }
      (withCall others (some .resumeSlowCount)) := by
  have nobodyElse := balanced.nobodyElse coherent rfl
  have count := balanced.count
  have references := balanced.references
  have sideFlag := balanced.sideFlag
  have sideRound := balanced.sideRound
  have activatingLe := balanced.activatingLe
  have waiting := balanced.waiting
  have notGranted := fun due => (balanced.nothingGranted due).2.1
  simp only [withCall_some, Call.weight] at *
  have positive := resumeSlowDelta_pos staged
  have flagged : (suspendBits state.dqState).side = 1 := by
    rw [sideFlag]
    omega
  obtain ⟨bits, -⟩ := resumeSlow_some flagged staged updated
  have isHalf : state.sideSuspendCnt = suspendHalf ↔
      state.sideSuspendCnt.toNat = 32 := by
    rw [← UInt32.toNat_inj]
    exact Iff.rfl
  have wasSuspended : isSuspended state.dqState = true := by
    rw [isSuspended_iff_bits]
    intro noBits
    rw [noBits] at flagged
    cases flagged
  have nowSuspended : isSuspended newState = true := by
    rw [isSuspended_iff_bits, bits]
    simp
  refine
    { balanced with
      count := ?_
      sideFlag := ?sideFlag
      sideNonneg := ?_
      activatingLe := ?_
      needsActivation := by rw [bits]; exact balanced.needsActivation
      inactiveLe := by rw [bits]; exact balanced.inactiveLe
      waiting := ?_
      asked := by rw [bits]; exact balanced.asked
      references := ?_
      bounded := by simp [State.countResume, running] }
  case sideFlag =>
    simp only [bits, isHalf, withCall_some, Call.weight, State.countResume]
    split_ifs <;> simp only [false_iff, true_iff] <;> omega
  all_goals
    simp only [bits, wasSuspended, nowSuspended, State.outstanding,
      State.countResume, withCall_some, Call.weight,
      ↓reduceIte] at count references waiting ⊢
  all_goals
    cases finalizing <;>
      simp only [Bool.toNat_false, Bool.toNat_true, Bool.false_eq_true,
        ↓reduceIte] at count notGranted activatingLe ⊢
  all_goals omega

omit coherent in
/-- The moved counts leave the side count. -/
theorem resumeCounts
    (balanced : Balanced config state
      (withCall others (some .resumeSlowCount)))
    (staged : 32 ≤ state.sideSuspendCnt.toNat) :
    Balanced config
      { state with sideSuspendCnt := state.sideSuspendCnt - suspendHalf }
      (withCall others (some .resumeSlowUnlock)) := by
  have half : suspendHalf.toNat = 32 := by decide
  have difference : (state.sideSuspendCnt - suspendHalf).toNat =
      state.sideSuspendCnt.toNat - 32 := by
    rw [UInt32.toNat_sub_of_le _ _ (by
      rw [UInt32.le_iff_toNat_le, half]
      exact staged), half]
  have count := balanced.count
  have sideFlag := balanced.sideFlag
  have sideNonneg := balanced.sideNonneg
  have sideRound := balanced.sideRound
  refine
    { balanced with
      count := ?_
      sideFlag := ?_
      sideNonneg := ?_
      sideRound := ?_ }
  all_goals
    simp only [difference, State.outstanding, withCall_some,
      Call.weight] at count sideFlag sideNonneg ⊢
  all_goals omega

/-- A resume that takes one count off the state word. -/
theorem resumeCounted
    {finalizing : Bool}
    (balanced : Balanced config state
      (withCall others (some (.resume finalizing))))
    (running : state.crash = none)
    (notLast : suspendBits state.dqState ≠ ⟨1, 0, 0, 1⟩)
    (present : 0 < (suspendBits state.dqState).count)
    (bits : suspendBits newState =
      { suspendBits state.dqState with
        count := (suspendBits state.dqState).count - 1 })
    (finished : (state.countResume finalizing).finishResume false newState =
      (after, continued)) :
    Balanced config after (withCall others continued) := by
  have count := balanced.count
  have references := balanced.references
  have lock := balanced.lock
  have sideFlag := balanced.sideFlag
  have sideNonneg := balanced.sideNonneg
  have inactiveLe := balanced.inactiveLe
  have activatingLe := balanced.activatingLe
  have runs := balanced.runs
  have waiting := balanced.waiting
  have activating := coherent.activating
  have notGranted := fun due => (balanced.nothingGranted due).2.1
  have sideBound := (suspendBits_bounds state.dqState).2.1
  have wasSuspended : isSuspended state.dqState = true := by
    rw [isSuspended_iff_bits]
    intro noBits
    rw [noBits] at present
    cases present
  simp only [withCall_some, Call.weight, wasSuspended, ↓reduceIte]
    at count references lock sideFlag sideNonneg activatingLe runs notGranted
  -- one of several counts, or there would be nothing left to wait for
  have several : (suspendBits state.dqState).inactive = 0 →
      (suspendBits state.dqState).needsActivation = 1 →
      1 < (suspendBits state.dqState).count ∨
        (suspendBits state.dqState).side = 1 := by
    intro isActive isDue
    by_contra lastOne
    refine notLast (SuspendBits.ext ?_ ?_ ?_ ?_) <;> simp only <;> omega
  have same : (suspendBits newState).needsActivation =
      (suspendBits (state.countResume finalizing).dqState).needsActivation := by
    rw [bits]
    rfl
  obtain ⟨rfl, sums⟩ := State.finishResume_kept same (by simp) finished
  refine
    { balanced with
      lock := ?lock
      count := ?_
      sideFlag := ?_
      sideNonneg := ?_
      activatingLe := ?_
      runs := ?_
      needsActivation := by rw [bits]; exact balanced.needsActivation
      inactiveLe := by rw [bits]; exact inactiveLe
      waiting := ?_
      asked := by rw [bits]; exact balanced.asked
      references := ?references
      bounded := by simp [State.countResume, running] }
  all_goals
    simp only [bits, sums, State.outstanding, State.countResume, Call.weight,
      ite_self] at count waiting ⊢
  case lock => exact lock
  case references =>
    split_ifs <;> omega
  all_goals
    cases finalizing <;>
      simp only [Bool.toNat_false, Bool.toNat_true, Bool.false_eq_true,
        ↓reduceIte] at count notGranted activatingLe ⊢
  all_goals omega

/-! ## Activating -/

/-- The activation bit turns into a suspend count, which the finalizer holds. -/
theorem activates
    {resumes : Nat}
    (balanced : Balanced config state (withCall others (some call)))
    (running : state.crash = none)
    (noWeight : ∀ quantity, call.weight quantity = 0)
    (due : (suspendBits state.dqState).needsActivation = 1)
    (noSide : (suspendBits state.dqState).side = 0)
    (bits : suspendBits newState = ⟨1, 0, 0, 0⟩)
    (settled : (state.suspends : Int) - resumes = 0) :
    Balanced config
      { state with
        dqState := newState
        resumes := resumes
        activated := true
        grants := state.grants ++ [⟨true, 0⟩] }
      (withCall others (some .resumeActivate)) := by
  obtain ⟨noGrants, notActivating, created⟩ := balanced.nothingGranted due
  have references := balanced.references
  have lock := balanced.lock
  have sideFlag := balanced.sideFlag
  have sideNonneg := balanced.sideNonneg
  have runs := balanced.runs
  have activating := coherent.activating
  have wasSuspended : isSuspended state.dqState = true := by
    rw [isSuspended_iff_bits]
    intro noBits
    rw [noBits] at due
    cases due
  have nowSuspended : isSuspended newState = true := by
    rw [isSuspended_iff_bits, bits]
    simp
  simp only [withCall_some, noWeight, noSide, wasSuspended, noGrants,
    ↓reduceIte, List.length_nil, Nat.zero_ne_one,
    false_iff] at references lock sideFlag sideNonneg runs notActivating
  refine
    { balanced with
      lock := ?lock
      count := ?count
      sideFlag := ?sideFlag
      sideNonneg := ?sideNonneg
      activatingLe := ?activatingLe
      runs := ?runs
      needsActivation := ?needsActivation
      inactiveLe := ?inactiveLe
      waiting := ?waiting
      asked := fun _ => by simp [bits]
      grants := ?grants
      references := ?references
      sound := ?sound
      bounded := ?bounded }
  case grants =>
    simp [noGrants]
  case sound =>
    simp [running]
  case bounded =>
    simp [running]
  all_goals
    simp only [bits, nowSuspended, created, noGrants, State.outstanding,
      withCall_some, Call.weight, List.nil_append, List.length_cons,
      List.length_nil, ↓reduceIte]
  all_goals omega

/-- An activation that has to wait for the object to be resumed. -/
theorem activationWaits
    (balanced : Balanced config state (withCall others (some .activate)))
    (isInactive : (suspendBits state.dqState).inactive = 1)
    (notUntouched : suspendBits state.dqState ≠ ⟨0, 0, 1, 1⟩)
    (bits : suspendBits newState =
      { suspendBits state.dqState with inactive := 0 })
    (finished : { state with activated := true }.finishResume true newState =
      (after, continued)) :
    Balanced config after (withCall others continued) := by
  have inactiveLe := balanced.inactiveLe
  obtain ⟨countBound, sideBound, -, needsBound⟩ :=
    suspendBits_bounds state.dqState
  have due : (suspendBits state.dqState).needsActivation = 1 := by omega
  obtain ⟨-, notActivating, -⟩ := balanced.nothingGranted due
  have activating := coherent.activating
  have count := balanced.count
  have references := balanced.references
  have sideFlag := balanced.sideFlag
  have sideNonneg := balanced.sideNonneg
  have wasSuspended : isSuspended state.dqState = true := by
    rw [isSuspended_iff_bits]
    intro noBits
    rw [noBits] at due
    cases due
  have nowSuspended : isSuspended newState = true := by
    rw [isSuspended_iff_bits, bits]
    simp [due]
  have someCount : 0 < (suspendBits state.dqState).count ∨
      (suspendBits state.dqState).side = 1 := by
    by_contra noCount
    refine notUntouched (SuspendBits.ext ?_ ?_ ?_ ?_) <;> simp only <;> omega
  obtain ⟨rfl, sums⟩ := State.finishResume_kept (by rw [bits])
    (fun _ => nowSuspended) finished
  simp only [nowSuspended, ↓reduceIte, Int.add_zero] at sums
  refine
    { balanced with
      lock := ?lock
      count := ?count
      sideFlag := ?sideFlag
      sideNonneg := ?sideNonneg
      activatingLe := ?activatingLe
      runs := ?runs
      needsActivation := ?needsActivation
      inactiveLe := ?inactiveLe
      waiting := ?waiting
      asked := fun _ => by simp [bits]
      references := ?references }
  all_goals
    simp only [bits, sums, nowSuspended, wasSuspended, due, withCall_some,
      Call.weight, State.outstanding, Int.add_zero,
      ↓reduceIte] at count notActivating sideFlag sideNonneg references ⊢
  case lock =>
    simpa [Call.weight] using balanced.lock
  case activatingLe =>
    simpa [Call.weight] using balanced.activatingLe
  case runs =>
    simpa [Call.weight] using balanced.runs
  case needsActivation =>
    simpa [due] using balanced.needsActivation
  all_goals omega

end Balanced

end LibDispatch.Suspension
