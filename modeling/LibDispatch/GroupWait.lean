import LibDispatch.GroupPunctual

namespace LibDispatch.Group

/-!
# Waiting for a group

A wait that returns 0 has seen the count at zero, as long as fewer than `2 ^ 32`
generations pass during it.  A thread that sleeps on a generation that is over
is about to be woken, not always by the leave that ended the generation: of two
leaves in their loops either one may clear the waiters flag for both.
-/

/-- The call has seen the waiters flag and has still to wake the sleeping
threads. -/
def Call.willWake : Call → Bool
  | wake dgState _ => dgState &&& hasWaiters ≠ 0
  | captureHead dgState _ => dgState &&& hasWaiters ≠ 0
  | captureTail dgState _ => dgState &&& hasWaiters ≠ 0
  | submit dgState _ _ => dgState &&& hasWaiters ≠ 0
  | wakeAddress dgState _ => dgState &&& hasWaiters ≠ 0
  | _ => false

/-- The call is in the loop of a leave and has read the waiters flag. -/
def Call.observes : Call → Bool
  | leaveLoop oldState => oldState &&& hasWaiters ≠ 0
  | _ => false

/-- Some call has still to wake the sleeping threads: it has left the loop of its
leave with the waiters flag, or is in the loop with the flag, which is set. -/
def Attended (state : State) : Prop :=
  (∃ activity ∈ state.activities, activity.call.willWake = true) ∨
    state.dgState &&& hasWaiters ≠ 0 ∧
      ∃ activity ∈ state.activities, activity.call.observes = true

/-- The start of a wait in progress. -/
def Call.waitBegan : Call → Option Moment
  | wait _ began => some began
  | waitOnAddress waiter => some waiter.began
  | sleeping waiter _ => some waiter.began
  | waitCheck waiter _ => some waiter.began
  | _ => none

/-- Fewer than `2 ^ 32` generations have passed since any wait in progress
started. -/
def State.Timely (state : State) : Prop :=
  ∀ activity ∈ state.activities, ∀ began,
    activity.call.waitBegan = some began →
      state.zeros < began.zeros + 2 ^ 32

/-- A step of a run in which no wait lasts `2 ^ 32` generations. -/
def TimelyStep (state after : State) : Prop :=
  Step state after ∧ after.Timely

/-! ## What a step can do to the waits -/

/-- What a step of a call can do to the generation, to the waiters flag and to
the wake-ups that are due. -/
structure WakeEffect
    (state : State)
    (call : Call)
    (after : State)
    (continued : Option Call) : Prop where
  zeros : state.zeros ≤ after.zeros
  wakes : state.wakes ≤ after.wakes
  gen :
    (bits state.dgState).gen = state.zeros % 2 ^ 32 →
      (bits after.dgState).gen = after.zeros % 2 ^ 32
  entered :
    after.zeros = state.zeros → (bits state.dgState).count ≠ 0 →
      (bits after.dgState).count ≠ 0 ∧
        (bits state.dgState).waiters ≤ (bits after.dgState).waiters
  closed :
    state.zeros < after.zeros → (bits state.dgState).waiters = 1 →
      (bits after.dgState).waiters = 1 ∧
        ∃ next, continued = some next ∧ next.observes = true
  cleared :
    (bits state.dgState).waiters = 1 →
      (bits after.dgState).waiters = 1 ∨
        ∃ next, continued = some next ∧ next.willWake = true
  waking :
    call.willWake = true →
      state.wakes < after.wakes ∨
        ∃ next, continued = some next ∧ next.willWake = true
  observing :
    call.observes = true → (bits after.dgState).waiters = 1 →
      ∃ next, continued = some next ∧
        (next.observes = true ∨ next.willWake = true)

variable {tid : UInt32} {began : Moment}

namespace WakeEffect

variable {base : Int} {state after : State}
  {others : Quantity → Int} {continued : Option Call}

section

variable {call : Call}

/-- A step that stays in its generation and sets the waiters flag at most. -/
theorem ofSameGeneration
    (zeros : after.zeros = state.zeros)
    (wakes : state.wakes ≤ after.wakes)
    (gen : (bits after.dgState).gen = (bits state.dgState).gen)
    (entered : (bits state.dgState).count ≠ 0 →
      (bits after.dgState).count ≠ 0)
    (waiters :
      (bits state.dgState).waiters ≤ (bits after.dgState).waiters)
    (waking : call.willWake = true →
      state.wakes < after.wakes ∨
        ∃ next, continued = some next ∧ next.willWake = true)
    (observing : call.observes = true → (bits after.dgState).waiters = 1 →
      ∃ next, continued = some next ∧
        (next.observes = true ∨ next.willWake = true)) :
    WakeEffect state call after continued where
  zeros := Nat.le_of_eq zeros.symm
  wakes := wakes
  gen := by
    rw [gen, zeros]
    exact id
  entered := fun _ notZero => ⟨entered notZero, waiters⟩
  closed := fun more => absurd zeros.symm (Nat.ne_of_lt more)
  cleared := by
    have bounds := bits_bounds after.dgState
    exact fun set => .inl (by omega)
  waking := waking
  observing := observing

/-- A step that leaves the word, the generations and the wake-ups alone. -/
theorem ofUnchanged
    (sameWord : after.dgState = state.dgState)
    (sameClosers : after.closers = state.closers)
    (sameWakes : after.wakes = state.wakes)
    (waking : call.willWake = true →
      ∃ next, continued = some next ∧ next.willWake = true)
    (observing : call.observes = false) :
    WakeEffect state call after continued := by
  refine .ofSameGeneration (congrArg List.length sameClosers)
    (Nat.le_of_eq sameWakes.symm) ?_ ?_ ?_ (.inr ∘ waking) ?_
  · rw [sameWord]
  · rw [sameWord]
    exact id
  · rw [sameWord]
  · rw [observing]
    rintro ⟨⟩

end

theorem enter
    (finished : state.enter = (after, continued))
    (running : after.crashed = false) :
    WakeEffect state .enter after continued := by
  have only :
      after.dgState = enterWord state.dgState ∧
        after.closers = state.closers ∧
        after.wakes = state.wakes ∧
        (bits state.dgState).count ≠ 2 ^ 30 - 1 := by
    simp only [State.enter] at finished
    split_ifs at finished with isZero isMax <;> cases finished
    · refine ⟨rfl, rfl, rfl, ?_⟩
      rw [(value_eq_zero_iff _).mp isZero]
      decide
    · cases running
    · exact ⟨rfl, rfl, rfl, isMax ∘ (value_eq_max_iff _).mpr⟩
  obtain ⟨sameWord, closers, wakes, notFull⟩ := only
  have word := bits_enterWord notFull
  rw [← sameWord] at word
  refine .ofSameGeneration (congrArg List.length closers)
    (Nat.le_of_eq wakes.symm) ?_ ?_ ?_ (by rintro ⟨⟩) (by rintro ⟨⟩)
  · rw [word]
  · simp [word]
  · rw [word]

/-- The leave that brings the count to zero begins a generation and has read the
flag that the waiters of the one before have set. -/
theorem leave
    (balanced : Balanced base state (withCall others (some .leave)))
    (coherent : Coherent others)
    (finished : state.leave tid = (after, continued)) :
    WakeEffect state .leave after continued := by
  have notZero := balanced.count_ne_zero_of_leave coherent
  have word := bits_leaveWord notZero
  unfold State.leave at finished
  by_cases last : (bits state.dgState).count = 1
  · rw [if_pos ((value_eq_one_iff _).mpr last)] at finished
    simp only [if_pos last] at word
    cases finished
    exact
      { zeros := by
          simp [State.zeros]
        wakes := Nat.le_refl _
        gen := by
          intro before
          simp only [State.zeros, List.length_append, List.length_singleton,
            word] at before ⊢
          omega
        entered := by
          simp [State.zeros]
        closed := by
          intro _ set
          simp only [word]
          refine ⟨set, _, rfl, ?_⟩
          simp only [Call.observes, decide_eq_true_eq, hasWaiters_iff, word]
          exact set
        cleared := by
          simp only [word]
          exact .inl
        waking := by rintro ⟨⟩
        observing := by rintro ⟨⟩ }
  · have notLast : ¬ state.dgState &&& valueMask = value1 :=
      last ∘ (value_eq_one_iff _).mp
    have balancedLeave : ¬ state.dgState &&& valueMask = 0 :=
      notZero ∘ (value_eq_zero_iff _).mp
    rw [if_neg notLast, if_neg balancedLeave] at finished
    simp only [if_neg last] at word
    cases finished
    refine .ofSameGeneration rfl (Nat.le_refl _) ?_ ?_ ?_ (by rintro ⟨⟩)
      (by rintro ⟨⟩)
    · simp only [word]
    · intro _
      simp only [word]
      omega
    · simp only [word, Nat.le_refl]

/-- Whoever clears the waiters flag goes on to wake the sleeping threads. -/
theorem leaveLoop
    {oldState : UInt64}
    (finished : state.leaveLoop oldState = (after, continued)) :
    WakeEffect state (.leaveLoop oldState) after continued := by
  have willWake
      (seen : (bits oldState).waiters = 1) :
      (Call.wake oldState true).willWake = true := by
    simp only [Call.willWake, decide_eq_true_eq, hasWaiters_iff]
    exact seen
  have observed
      (isObserving : (Call.leaveLoop oldState).observes = true) :
      (bits oldState).waiters = 1 := by
    simpa only [Call.observes, decide_eq_true_eq, hasWaiters_iff]
      using isObserving
  unfold State.leaveLoop at finished
  simp only at finished
  split_ifs at finished with nothing unchanged <;> cases finished
  · exact .ofSameGeneration rfl (Nat.le_refl _) rfl id (Nat.le_refl _)
      (by rintro ⟨⟩) fun isObserving _ =>
        ⟨_, rfl, .inr (willWake (observed isObserving))⟩
  · subst unchanged
    have word := bits_clearWord state.dgState
    exact
      { zeros := Nat.le_refl _
        wakes := Nat.le_refl _
        gen := by
          simp only [word]
          exact id
        entered := by
          intro _ notZero
          simp only [word, if_neg notZero]
          exact ⟨notZero, Nat.le_refl _⟩
        closed := fun more => absurd rfl (Nat.ne_of_lt more)
        cleared := fun set => .inr ⟨_, rfl, willWake set⟩
        waking := by rintro ⟨⟩
        observing := fun isObserving _ =>
          ⟨_, rfl, .inr (willWake (observed isObserving))⟩ }
  · refine .ofSameGeneration rfl (Nat.le_refl _) rfl id (Nat.le_refl _)
      (by rintro ⟨⟩) fun _ set => ⟨_, rfl, .inl ?_⟩
    simp only [Call.observes, decide_eq_true_eq, hasWaiters_iff]
    exact set

theorem wait
    {timeout : Semaphore.Timeout}
    (finished : state.wait timeout began = (after, continued)) :
    WakeEffect state (.wait timeout began) after continued := by
  rcases State.wait_cases finished with
    ⟨result, rfl, rfl, -⟩ | ⟨notZero, rfl, rfl⟩
  · exact .ofUnchanged rfl rfl rfl (by rintro ⟨⟩) rfl
  · have word := bits_or_hasWaiters state.dgState
    have bounds := bits_bounds state.dgState
    refine .ofSameGeneration rfl (Nat.le_refl _) ?_ ?_ ?_ (by rintro ⟨⟩)
      (by rintro ⟨⟩)
    · simp only [word]
    · simp only [word]
      exact id
    · simp only [word]
      omega

theorem notifyMark
    (finished : state.notifyMark = (after, continued)) :
    WakeEffect state .notifyMark after continued := by
  have word := bits_or_hasNotifs state.dgState
  unfold State.notifyMark at finished
  simp only at finished
  split_ifs at finished <;> cases finished
  · exact .ofUnchanged rfl rfl rfl (by rintro ⟨⟩) rfl
  · refine .ofSameGeneration rfl (Nat.le_refl _) ?_ ?_ ?_ (by rintro ⟨⟩)
      (by rintro ⟨⟩)
    · simp only [word]
    · simp only [word]
      exact id
    · simp only [word, Nat.le_refl]

/-- What the steps of the calls do to the waits. -/
theorem advance
    {call : Call}
    {choice : Choice}
    (balanced : Balanced base state (withCall others (some call)))
    (coherent : Coherent others)
    (accepted : state.advance tid choice call = some (after, continued))
    (running : after.crashed = false) :
    WakeEffect state call after continued := by
  cases call with
  | enter =>
    exact WakeEffect.enter (Option.some.inj accepted) running
  | enterRetain | release _ | notify _ | notifyRetain _ | notifyLink _ _ =>
    cases accepted
    exact .ofUnchanged rfl rfl rfl (by rintro ⟨⟩) rfl
  | leave =>
    exact WakeEffect.leave balanced coherent (Option.some.inj accepted)
  | leaveLoop oldState =>
    exact WakeEffect.leaveLoop (Option.some.inj accepted)
  | wake dgState needsRelease =>
    simp only [State.advance, State.wake, Option.some.injEq] at accepted
    split_ifs at accepted <;> cases accepted <;>
      exact .ofUnchanged rfl rfl rfl (fun seen => ⟨_, rfl, seen⟩) rfl
  | captureHead dgState needsRelease =>
    obtain ⟨rfl, rfl⟩ := State.captureHead_cases accepted
    exact .ofUnchanged rfl rfl rfl (fun seen => ⟨_, rfl, seen⟩) rfl
  | captureTail dgState needsRelease =>
    cases accepted
    exact .ofUnchanged rfl rfl rfl (fun seen => ⟨_, rfl, seen⟩) rfl
  | submit dgState needsRelease snapshot =>
    obtain ⟨_, rest, rfl, rfl, ⟨-, rfl⟩ | rfl⟩ := State.submit_cases accepted
    · exact .ofUnchanged rfl rfl rfl (fun seen => ⟨_, rfl, seen⟩) rfl
    · exact .ofUnchanged rfl rfl rfl (fun seen => ⟨_, rfl, seen⟩) rfl
  | wakeAddress dgState refs =>
    simp only [State.advance, State.wakeAddress, Option.some.injEq]
      at accepted
    split_ifs at accepted with waiters <;> cases accepted
    · exact .ofSameGeneration rfl (Nat.le_succ _) rfl id (Nat.le_refl _)
        (fun _ => .inl (Nat.lt_succ_self _)) (by rintro ⟨⟩)
    · exact .ofUnchanged rfl rfl rfl
        (fun seen => absurd (of_decide_eq_true seen) waiters) rfl
  | notifyMark =>
    exact WakeEffect.notifyMark (Option.some.inj accepted)
  | wait timeout began =>
    exact WakeEffect.wait (Option.some.inj accepted)
  | waitOnAddress waiter =>
    obtain ⟨rfl, -⟩ := State.waitOnAddress_cases accepted
    exact .ofUnchanged rfl rfl rfl (by rintro ⟨⟩) rfl
  | sleeping waiter wakes =>
    obtain ⟨rfl, -⟩ := State.sleeping_cases accepted
    exact .ofUnchanged rfl rfl rfl (by rintro ⟨⟩) rfl
  | waitCheck waiter timedOut =>
    rcases State.waitCheck_cases (Option.some.inj accepted) with
      ⟨result, rfl, rfl, -⟩ | ⟨rfl, rfl⟩
    · exact .ofUnchanged rfl rfl rfl (by rintro ⟨⟩) rfl
    · exact .ofUnchanged rfl rfl rfl (by rintro ⟨⟩) rfl

end WakeEffect

/-! ## The waits in progress -/

/-- A wait remembers its generation; as long as that lasts, the count is not zero
and the waiters flag is set. -/
structure Waiter.Registered (waiter : Waiter) (state : State) : Prop where
  gen : waiter.gen.toNat = waiter.zeros % 2 ^ 32
  began : waiter.began.zeros ≤ waiter.zeros
  zeros : waiter.zeros ≤ state.zeros
  current :
    waiter.zeros = state.zeros →
      (bits state.dgState).count ≠ 0 ∧ (bits state.dgState).waiters = 1

/-- What holds of a wait at each of its stages. -/
def Call.Waits (state : State) : Call → Prop
  | wait _ began =>
    began.zeros ≤ state.zeros ∧
      (began.ZeroSince state.zeros ∨ (bits state.dgState).count ≠ 0)
  | waitOnAddress waiter => waiter.Registered state
  | sleeping waiter wakes => waiter.Registered state ∧ wakes ≤ state.wakes
  | waitCheck waiter _ => waiter.Registered state
  | _ => True

/-- The thread sleeps on a generation that is over and has not been woken. -/
def Call.Stale (state : State) : Call → Prop
  | sleeping waiter wakes =>
    wakes = state.wakes ∧ waiter.zeros ≠ state.zeros
  | _ => False

variable {waiter : Waiter}

namespace WakeEffect

variable {state after : State} {call : Call} {continued : Option Call}

/-- A wait stays registered while other threads take steps. -/
theorem registered
    (effect : WakeEffect state call after continued)
    (before : waiter.Registered state) :
    waiter.Registered after where
  gen := before.gen
  began := before.began
  zeros := Nat.le_trans before.zeros effect.zeros
  current := by
    intro same
    have grown := effect.zeros
    have earlier := before.zeros
    obtain ⟨notZero, set⟩ := before.current (by omega)
    obtain ⟨stillNotZero, stillSet⟩ := effect.entered (by omega) notZero
    have bounds := bits_bounds after.dgState
    exact ⟨stillNotZero, by omega⟩

/-- What holds of a wait is kept by the steps of other threads. -/
theorem waits
    {other : Call}
    (effect : WakeEffect state call after continued)
    (before : other.Waits state) :
    other.Waits after := by
  cases other with
  | wait timeout began =>
    obtain ⟨started, since⟩ := before
    refine ⟨Nat.le_trans started effect.zeros, ?_⟩
    rcases since with zeroSince | notZero
    · exact .inl (zeroSince.mono effect.zeros)
    · by_cases same : after.zeros = state.zeros
      · exact .inr (effect.entered same notZero).1
      · have grown := effect.zeros
        exact .inl (.inr (by omega))
  | waitOnAddress _ | waitCheck _ _ =>
    exact effect.registered before
  | sleeping waiter wakes =>
    exact ⟨effect.registered before.1,
      Nat.le_trans before.2 effect.wakes⟩
  | _ => trivial

end WakeEffect

/-- What holds of a wait depends on the word, the generations and the wake-ups
only. -/
theorem Call.Waits.of_unchanged
    {state after : State}
    {call : Call}
    (waits : call.Waits state)
    (sameWord : after.dgState = state.dgState)
    (sameClosers : after.closers = state.closers)
    (sameWakes : after.wakes = state.wakes) :
    call.Waits after := by
  have effect : WakeEffect state .enter after none :=
    .ofUnchanged sameWord sameClosers sameWakes (by rintro ⟨⟩) rfl
  exact effect.waits waits

/-- What a step of a call can do to its own wait. -/
structure WaitEffect
    (state after : State)
    (continued : Option Call) : Prop where
  stage :
    ∀ next, continued = some next →
      next.Waits after ∧ ¬ next.Stale after
  returned :
    ∀ result ∈ after.returned,
      result ∈ state.returned ∨
        (result.timedOut = false → result.began.ZeroSince result.zeros)

namespace WaitEffect

variable {state after : State} {continued : Option Call}

/-- A step of a call that is no wait. -/
theorem ofOther
    (sameReturned : after.returned = state.returned)
    (noWait : ∀ next, continued = some next → next.waitBegan = none) :
    WaitEffect state after continued where
  stage := by
    intro next isNext
    have noneBegan := noWait next isNext
    cases next <;> first | exact ⟨trivial, id⟩ | cases noneBegan
  returned := by
    intro result member
    rw [sameReturned] at member
    exact .inl member

/-- A wait that goes on. -/
theorem ofStage
    {next : Call}
    (sameReturned : after.returned = state.returned)
    (waits : next.Waits after)
    (notStale : ¬ next.Stale after) :
    WaitEffect state after (some next) where
  stage := by
    rintro _ ⟨⟩
    exact ⟨waits, notStale⟩
  returned := by
    intro result member
    rw [sameReturned] at member
    exact .inl member

/-- A wait that returns. -/
theorem ofReturn
    {timedOut : Bool}
    (sound : timedOut = false → began.ZeroSince state.zeros) :
    WaitEffect state (state.return began timedOut) none where
  stage := by rintro _ ⟨⟩
  returned := by
    intro result member
    rcases List.mem_append.mp member with old | new
    · exact .inl old
    · rw [List.mem_singleton.mp new]
      exact .inr sound

/-- A thread goes to sleep only on the present generation, because too few
generations have passed for the number to come back. -/
theorem current_of_gen
    (registered : waiter.Registered state)
    (gen : (bits state.dgState).gen = state.zeros % 2 ^ 32)
    (timely : state.zeros < waiter.began.zeros + 2 ^ 32) :
    stateGen state.dgState = waiter.gen ↔ waiter.zeros = state.zeros := by
  have remembered := registered.gen
  have started := registered.began
  have before := registered.zeros
  rw [← UInt32.toNat_inj, stateGen_toNat, gen, remembered]
  omega

theorem wait
    {timeout : Semaphore.Timeout}
    (waits : (Call.wait timeout began).Waits state)
    (gen : (bits state.dgState).gen = state.zeros % 2 ^ 32)
    (finished : state.wait timeout began = (after, continued)) :
    WaitEffect state after continued := by
  obtain ⟨started, since⟩ := waits
  rcases State.wait_cases finished with
    ⟨result, rfl, rfl, zero⟩ | ⟨notZero, rfl, rfl⟩
  · exact .ofReturn fun returnsZero =>
      since.resolve_right (not_not_intro (zero returnsZero))
  · have word := bits_or_hasWaiters state.dgState
    refine .ofStage rfl ?_ id
    exact
      { gen := by
          rw [stateGen_toNat, word]
          exact gen
        began := started
        zeros := Nat.le_refl _
        current := by
          simp only [word]
          exact fun _ => ⟨notZero, trivial⟩ }

/-- What the steps of the calls do to their own waits. -/
theorem advance
    {call : Call}
    {choice : Choice}
    (waits : call.Waits state)
    (gen : (bits state.dgState).gen = state.zeros % 2 ^ 32)
    (timely : ∀ began, call.waitBegan = some began →
      state.zeros < began.zeros + 2 ^ 32)
    (accepted : state.advance tid choice call = some (after, continued)) :
    WaitEffect state after continued := by
  cases call with
  | enter | leave | leaveLoop _ | wake _ _ | wakeAddress _ _ | notifyMark =>
    simp only [State.advance, State.enter, State.leave, State.leaveLoop,
      State.wake, State.wakeAddress, State.notifyMark, Option.some.injEq]
      at accepted
    split_ifs at accepted <;> cases accepted <;>
      exact .ofOther rfl (by rintro next ⟨⟩ <;> rfl)
  | captureHead dgState needsRelease =>
    obtain ⟨rfl, rfl⟩ := State.captureHead_cases accepted
    exact .ofOther rfl (by rintro next ⟨⟩; rfl)
  | submit dgState needsRelease snapshot =>
    obtain ⟨_, rest, rfl, rfl, ⟨-, rfl⟩ | rfl⟩ := State.submit_cases accepted
    · exact .ofOther rfl (by rintro next ⟨⟩; rfl)
    · exact .ofOther rfl (by rintro next ⟨⟩; rfl)
  | notify continuation =>
    cases accepted
    refine .ofOther rfl ?_
    rintro next ⟨⟩
    split <;> rfl
  | notifyLink continuation wasEmpty =>
    cases accepted
    cases wasEmpty <;> exact .ofOther rfl (by rintro next ⟨⟩ <;> rfl)
  | wait timeout began =>
    exact WaitEffect.wait waits gen (Option.some.inj accepted)
  | waitOnAddress waiter =>
    have current := current_of_gen waits gen (timely waiter.began rfl)
    obtain ⟨rfl, ⟨same, rfl⟩ | ⟨timedOut, rfl⟩⟩ :=
      State.waitOnAddress_cases accepted
    · exact .ofStage rfl ⟨waits, Nat.le_refl _⟩
        fun stale => stale.2 (current.mp same)
    · exact .ofStage rfl waits id
  | sleeping waiter wakes =>
    obtain ⟨rfl, timedOut, rfl⟩ := State.sleeping_cases accepted
    exact .ofStage rfl waits.1 id
  | waitCheck waiter timedOut =>
    have current := current_of_gen waits gen (timely waiter.began rfl)
    rcases State.waitCheck_cases (Option.some.inj accepted) with
      ⟨result, rfl, rfl, changed⟩ | ⟨rfl, rfl⟩
    · refine .ofReturn fun returnsZero => .inr ?_
      have passed : waiter.zeros ≠ state.zeros := fun same =>
        changed returnsZero (current.mpr same).symm
      have started := waits.began
      have before := waits.zeros
      omega
    · exact .ofStage rfl waits id
  | _ =>
    cases accepted
    exact .ofOther rfl (by rintro next ⟨⟩ <;> rfl)

end WaitEffect

/-- A thread that sleeps on a generation that is over did so before the step, or
the step ended its generation. -/
theorem WakeEffect.due
    {state after : State}
    {call other : Call}
    {continued : Option Call}
    (effect : WakeEffect state call after continued)
    (waits : other.Waits state)
    (stale : other.Stale after) :
    after.wakes = state.wakes ∧
      (other.Stale state ∨
        state.zeros < after.zeros ∧
          (bits state.dgState).waiters = 1) := by
  cases other with
  | sleeping waiter wakes =>
    obtain ⟨registered, woken⟩ := waits
    obtain ⟨unwoken, passed⟩ := stale
    have wakesGrown := effect.wakes
    have zerosGrown := effect.zeros
    refine ⟨by omega, ?_⟩
    by_cases present : waiter.zeros = state.zeros
    · exact .inr ⟨by omega, (registered.current present).2⟩
    · exact .inl ⟨by omega, present⟩
  | _ => cases stale

theorem Call.Stale.of_unchanged
    {state after : State}
    {call : Call}
    (stale : call.Stale state)
    (sameClosers : after.closers = state.closers)
    (sameWakes : after.wakes = state.wakes) :
    call.Stale after := by
  cases call with
  | sleeping waiter wakes =>
    simp only [Call.Stale, State.zeros, ← sameClosers, ← sameWakes] at stale
    exact stale
  | _ => cases stale

/-! ## Runs -/

/-- What holds of the waits of a group in every state. -/
structure State.Waiting (state : State) : Prop where
  gen : (bits state.dgState).gen = state.zeros % 2 ^ 32
  waits : ∀ activity ∈ state.activities, activity.call.Waits state
  attended :
    ∀ activity ∈ state.activities,
      activity.call.Stale state → Attended state
  returned :
    ∀ result ∈ state.returned, result.timedOut = false →
      result.began.ZeroSince result.zeros

variable {earlier later : List Activity} {activity : Activity}

/-- The other calls are still there after a step. -/
theorem mem_of_other
    {other : Activity}
    (continued : Option Call)
    (member : other ∈ earlier ++ activity :: later) :
    other = activity ∨
      other ∈ earlier ++
        ((continued.map (Activity.mk activity.tid)).toList ++ later) := by
  rcases List.mem_append.mp member with early | late
  · exact .inr (by simp [early])
  · rcases List.mem_cons.mp late with same | late
    · exact .inl same
    · exact .inr (by simp [late])

/-- A call that goes on is there after its step. -/
theorem mem_of_next
    (earlier later : List Activity)
    {continued : Option Call}
    {next : Call}
    (isNext : continued = some next) :
    ⟨activity.tid, next⟩ ∈ earlier ++
      ((continued.map (Activity.mk activity.tid)).toList ++ later) := by
  subst isNext
  simp

/-- The wake-up that is due stays due until it is given. -/
theorem WakeEffect.attended
    {state after : State}
    {continued : Option Call}
    (effect : WakeEffect state activity.call after continued)
    (scheduled : state.activities = earlier ++ activity :: later)
    (due : Attended state ∨
      state.zeros < after.zeros ∧ (bits state.dgState).waiters = 1) :
    state.wakes < after.wakes ∨
      Attended
        { after with
          activities := earlier ++
            ((continued.map (Activity.mk activity.tid)).toList ++
              later) } := by
  have wakesNext
      (goesOn : ∃ next, continued = some next ∧ next.willWake = true) :
      Attended
        { after with
          activities := earlier ++
            ((continued.map (Activity.mk activity.tid)).toList ++
              later) } := by
    obtain ⟨next, isNext, willWake⟩ := goesOn
    exact .inl ⟨_, mem_of_next earlier later isNext, willWake⟩
  rcases due with (⟨waker, member, willWake⟩ | ⟨set, observer, member, seen⟩) |
    ⟨more, set⟩
  · rw [scheduled] at member
    rcases mem_of_other continued member with rfl | other
    · exact (effect.waking willWake).imp_right wakesNext
    · exact .inr (.inl ⟨waker, other, willWake⟩)
  · rw [hasWaiters_iff] at set
    rw [scheduled] at member
    rcases effect.cleared set with stillSet | goesOn
    · right
      rcases mem_of_other continued member with rfl | other
      · obtain ⟨next, isNext, observes | willWake⟩ :=
          effect.observing seen stillSet
        · exact .inr ⟨(hasWaiters_iff _).mpr stillSet, _,
            mem_of_next earlier later isNext, observes⟩
        · exact wakesNext ⟨next, isNext, willWake⟩
      · exact .inr ⟨(hasWaiters_iff _).mpr stillSet, observer, other, seen⟩
    · exact .inr (wakesNext goesOn)
  · obtain ⟨stillSet, next, isNext, observes⟩ := effect.closed more set
    exact .inr (.inr ⟨(hasWaiters_iff _).mpr stillSet, _,
      mem_of_next earlier later isNext, observes⟩)

namespace State.Waiting

variable {state after : State}

theorem ofCreated
    {base : Int}
    (created : Created base state) :
    state.Waiting := by
  obtain ⟨count, rfl, word, -⟩ := created.word
  exact
    { gen := by
        rw [word]
        rfl
      waits := by simp [create]
      attended := by simp [create]
      returned := by simp [create] }

/-- A step of a call keeps what holds of the waits. -/
theorem advance
    {continued : Option Call}
    (waiting : state.Waiting)
    (scheduled : state.activities = earlier ++ activity :: later)
    (wakeEffect : WakeEffect state activity.call after continued)
    (waitEffect : WaitEffect state after continued) :
    State.Waiting
      { after with
        activities := earlier ++
          ((continued.map (Activity.mk activity.tid)).toList ++ later) } where
  gen := wakeEffect.gen waiting.gen
  waits := by
    intro other member
    rcases mem_advanced member with old | ⟨next, isNext, rfl⟩
    · rw [← scheduled] at old
      exact (wakeEffect.waits (waiting.waits other old)).of_unchanged
        rfl rfl rfl
    · exact (waitEffect.stage next isNext).1.of_unchanged rfl rfl rfl
  attended := by
    intro other member stale
    replace stale : other.call.Stale after := stale.of_unchanged rfl rfl
    rcases mem_advanced member with old | ⟨next, isNext, rfl⟩
    · rw [← scheduled] at old
      obtain ⟨unwoken, due⟩ :=
        wakeEffect.due (waiting.waits other old) stale
      refine (wakeEffect.attended scheduled ?_).resolve_left (by omega)
      exact due.imp_left (waiting.attended other old)
    · exact absurd stale (waitEffect.stage next isNext).2
  returned := by
    intro result member
    rcases waitEffect.returned result member with old | sound
    · exact waiting.returned result old
    · exact sound

/-- A call that starts finds the waits as they were. -/
theorem start
    {call : Call}
    (waiting : state.Waiting)
    (waits : call.Waits state)
    (notStale : ¬ call.Stale state)
    (leaveCalls : Nat)
    (notified : List Continuation) :
    State.Waiting
      { state with
        leaveCalls := leaveCalls
        notified := notified
        activities := ⟨tid, call⟩ :: state.activities } where
  __ := waiting
  waits := by
    exact List.forall_mem_cons.mpr ⟨waits.of_unchanged rfl rfl rfl,
      fun other old => (waiting.waits other old).of_unchanged rfl rfl rfl⟩
  attended := by
    intro other member stale
    replace stale : other.call.Stale state := stale.of_unchanged rfl rfl
    rcases List.mem_cons.mp member with rfl | old
    · exact absurd stale notStale
    · exact (waiting.attended other old stale).imp
        (fun ⟨waker, present, willWake⟩ => ⟨waker, .tail _ present, willWake⟩)
        (fun ⟨set, observer, present, seen⟩ =>
          ⟨set, observer, .tail _ present, seen⟩)

/-- A call that starts keeps what holds of the waits. -/
theorem request
    {base : Int}
    {request : Request}
    {call : Call}
    (waiting : state.Waiting)
    (balanced : Balanced base state
      (ledger Activity.weight state.activities))
    (accepted : state.request request = some (after, call)) :
    State.Waiting
      { after with activities := ⟨tid, call⟩ :: state.activities } := by
  obtain ⟨leaveCalls, notified, rfl, isCall, -⟩ :=
    State.request_cases accepted
  have waits : call.Waits state ∧ ¬ call.Stale state := by
    rcases isCall with rfl | rfl | ⟨_, rfl⟩ | ⟨timeout, rfl⟩
    · exact ⟨trivial, id⟩
    · exact ⟨trivial, id⟩
    · exact ⟨trivial, id⟩
    · have count := balanced.count
      refine ⟨⟨Nat.le_refl _, ?_⟩, id⟩
      by_cases idle : state.count = 0
      · exact .inl (.inl (decide_eq_true idle))
      · simp only [State.count] at idle
        exact .inr (by omega)
  exact waiting.start waits.1 waits.2 leaveCalls notified

/-- Every step keeps what holds of the waits. -/
theorem step
    {base : Int}
    (waiting : state.Waiting)
    (invariant : state.Invariant base)
    (timely : state.Timely)
    (stepped : Step state after)
    (stillRunning : after.crashed = false) :
    after.Waiting := by
  cases stepped with
  | «begin» tid request call running outside accepted =>
    exact waiting.request (invariant.balanced running) accepted
  | advance earlier later activity choice continued running scheduled
      accepted =>
      have member : activity ∈ state.activities := by simp [scheduled]
      have balanced := invariant.ofCall running scheduled
      exact waiting.advance scheduled
        (WakeEffect.advance balanced (ledger_weight_nonneg _) accepted
          stillRunning)
        (WaitEffect.advance (waiting.waits activity member) waiting.gen
          (timely activity member) accepted)

end State.Waiting

/-- What a group guarantees of the threads that wait for it. -/
structure WaitsSoundly (state : State) : Prop where
  /-- A wait that has returned 0 has seen the count at zero. -/
  returned :
    ∀ result ∈ state.returned, result.timedOut = false →
      result.began.ZeroSince result.zeros
  /-- A thread asleep on a generation that is over is about to be woken. -/
  attended :
    ∀ activity ∈ state.activities, ∀ waiter,
      activity.call = .sleeping waiter state.wakes →
        stateGen state.dgState ≠ waiter.gen → Attended state

/-- No wait that lasts fewer than `2 ^ 32` generations returns 0 too early or is
left asleep. -/
theorem reachable_waitsSoundly
    {base : Int}
    {state : State}
    (reached : Reachable (Created base) TimelyStep state)
    (running : state.crashed = false) :
    WaitsSoundly state := by
  have all :
      state.Invariant base ∧ state.Timely ∧
        (state.crashed = false → state.Waiting) := by
    clear running
    induction reached with
    | start created =>
      obtain ⟨count, rfl, -, -⟩ := created.word
      exact ⟨create_invariant created, by simp [State.Timely, create],
        fun _ => .ofCreated created⟩
    | next earlier last inductionHypothesis =>
      obtain ⟨invariant, timely, waiting⟩ := inductionHypothesis
      obtain ⟨stepped, stillTimely⟩ := last
      exact ⟨invariant.step stepped, stillTimely, fun stillRunning =>
        (waiting stepped.running).step invariant timely stepped
          stillRunning⟩
  obtain ⟨-, -, waiting⟩ := all
  obtain ⟨gen, waits, attended, returned⟩ := waiting running
  refine { returned := returned, attended := ?_ }
  intro activity member waiter isSleeping passed
  have registered := waits activity member
  have isStale := attended activity member
  rw [isSleeping] at registered isStale
  refine isStale ⟨rfl, fun present => passed ?_⟩
  rw [← UInt32.toNat_inj, stateGen_toNat, gen, registered.1.gen, present]

/-- The state after an event, if it can happen and few generations have
passed. -/
def State.nextTimely (state : State) (event : Event) : Option State :=
  (state.next event).filter fun after => after.zeros < 2 ^ 32

/-- Runs with few generations are timely. -/
theorem State.nextTimely_steps
    {state after : State}
    {event : Event}
    (happens : state.nextTimely event = some after) :
    TimelyStep state after := by
  rw [State.nextTimely, Option.filter_eq_some_iff,
    decide_eq_true_eq] at happens
  refine ⟨State.next_steps happens.1, ?_⟩
  intro activity member began isBegan
  omega

/-- Thread 3 sleeps on generation 1, which the leave of thread 2 has ended.  The
leave of thread 1, which ended generation 0, was still in its loop and has
cleared the waiters flag, so thread 2 has returned without a wake-up. -/
theorem closer_returnsWithoutWake :
    ∃ state : State,
      Reachable (Created 1) TimelyStep state ∧
        ∃ waiter : Waiter,
          ⟨3, .sleeping waiter state.wakes⟩ ∈ state.activities ∧
            stateGen state.dgState ≠ waiter.gen ∧
            state.closers[waiter.zeros]? = some 2 ∧
            ∀ activity ∈ state.activities, activity.tid ≠ 2 := by
  obtain ⟨state, runs, facts⟩ : ∃ state,
      afterEvents State.nextTimely (create 1 1)
        -- the wait of thread 5 leaves the waiters flag behind
        (makes 5 (.wait .at) 1 ++ [.runs 5 .giveUp, .runs 5 .proceed] ++
          -- thread 1 ends generation 0
          makes 1 .leave 1 ++
          -- thread 2 enters the group again and thread 3 waits for it
          makes 2 .enter 2 ++ makes 3 (.wait .forever) 2 ++
          -- thread 2 ends generation 1
          makes 2 .leave 1 ++
          -- thread 1 clears the waiters flag
          List.replicate 2 (.runs 1 .proceed) ++
          -- thread 2 finds it clear and returns
          List.replicate 5 (.runs 2 .proceed)) = some state ∧
      state.activities =
        [⟨3, .sleeping ⟨1, 1, .forever, ⟨1, false⟩⟩ 0⟩,
          ⟨1, .wake 0x200000001 true⟩] ∧
      state.wakes = 0 ∧ stateGen state.dgState ≠ 1 ∧
      state.closers[1]? = some 2 :=
    ⟨_, rfl, rfl, rfl, by decide, rfl⟩
  obtain ⟨activities, wakes, gen, closer⟩ := facts
  refine ⟨state, State.reachable_of_schedule runs
    (fun _ _ _ => State.nextTimely_steps),
    ⟨1, 1, .forever, ⟨1, false⟩⟩, ?_, gen, closer, ?_⟩
  · rw [activities, wakes]
    exact .head _
  · rw [activities]
    decide

/-- A thread asleep on the generation that a leave has just ended: the leave is
in its loop and has read the waiters flag. -/
theorem sleeper_waitsSoundly :
    ∃ state : State,
      Reachable (Created 1) TimelyStep state ∧
        state.activities =
          [⟨1, .leaveLoop 0x100000001⟩,
            ⟨3, .sleeping ⟨0, 0, .forever, ⟨0, false⟩⟩ 0⟩] ∧
        WaitsSoundly state := by
  obtain ⟨state, runs, activities, running⟩ : ∃ state,
      afterEvents State.nextTimely (create 1 1)
        (makes 3 (.wait .forever) 2 ++ makes 1 .leave 1) = some state ∧
      state.activities =
        [⟨1, .leaveLoop 0x100000001⟩,
          ⟨3, .sleeping ⟨0, 0, .forever, ⟨0, false⟩⟩ 0⟩] ∧
      state.crashed = false :=
    ⟨_, rfl, rfl, rfl⟩
  have reached := State.reachable_of_schedule runs
    (fun _ _ _ => State.nextTimely_steps)
  exact ⟨state, reached, activities, reachable_waitsSoundly reached running⟩

end LibDispatch.Group
