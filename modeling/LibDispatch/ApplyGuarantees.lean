import LibDispatch.ApplyBalance

namespace LibDispatch.Apply

/-!
# Every index runs once

The balances hold of every run of a loop, whatever the number of helpers and
however late they start.  From them follow the guarantees of `dispatch_apply`:
no index is run twice, the caller returns after the last completion, nobody
reads the caller's stack afterwards, and the object is freed once, by the last
to leave.
-/

/-- The sums over all participants. -/
def State.sums (state : State) : Quantity → Int :=
  ledger Participant.weight state.participants

/-- What holds in every reachable state. -/
structure Invariant (state : State) : Prop where
  balanced :
    Balanced state.participants.length state.memory state.log state.sums
  sound : ∀ participant ∈ state.participants, participant.Sound

theorem coherent_ledger
    (participants : List Participant) :
    Coherent (ledger Participant.weight participants) := by
  refine {
    nonneg := fun quantity =>
      ledger_nonneg (fun participant => participant.weight_nonneg quantity) _
    overshot := ledger_le_ledger ?overshot participants
    present := ledger_le_ledger ?present participants
    waited := ledger_le_ledger ?waited participants
    sleeps := ledger_le_ledger ?sleeps participants
    passed := ledger_le_ledger ?passed participants
  }
  case overshot =>
    rintro ⟨waits, stage⟩
    cases stage <;> simp [Participant.weight, Stage.overshot]
  case present =>
    rintro ⟨waits, stage⟩
    cases stage <;> simp [Participant.weight, Stage.present]
  case waited =>
    rintro ⟨waits, stage⟩
    cases waits <;> cases stage <;> simp [Participant.weight, Stage.waited]
  case sleeps =>
    rintro ⟨waits, stage⟩
    cases waits <;> cases stage <;>
      simp [Participant.weight, Stage.sleeps, Stage.waited]
  case passed =>
    rintro ⟨waits, stage⟩
    cases waits <;> cases stage <;>
      simp [Participant.weight, Stage.passed, Stage.waited]

variable {participant : Participant}

/-- The balances as one participant sees them. -/
theorem Invariant.apart
    {state : State}
    (invariant : Invariant state)
    {earlier later : List Participant}
    (scheduled : state.participants = earlier ++ participant :: later) :
    Balanced (earlier ++ participant :: later).length state.memory state.log
        (plus (ledger Participant.weight (earlier ++ later)) participant) ∧
      ∀ other ∈ earlier ++ participant :: later, other.Sound := by
  have balanced := invariant.balanced
  have sound := invariant.sound
  simp only [State.sums] at balanced
  rw [scheduled] at balanced sound
  rw [ledger_middle] at balanced
  exact ⟨balanced, sound⟩

variable {following : State}

theorem Invariant.step
    {state : State}
    (invariant : Invariant state)
    (step : Step state following) :
    Invariant following := by
  obtain ⟨choice, step⟩ := step
  obtain ⟨earlier, later, participant, outcome, scheduled, acts, rfl⟩ :=
    step.split
  obtain ⟨balanced, sound⟩ := invariant.apart scheduled
  have kept :=
    balanced.advance (coherent_ledger (earlier ++ later))
      (sound participant (by simp)) acts
  exact {
    balanced := by
      have sameLength :
          (earlier ++
            { participant with stage := outcome.stage } :: later).length =
            (earlier ++ participant :: later).length := by
        simp
      simp only [State.sums, sameLength, ledger_middle]
      exact kept.1
    sound := by
      intro other member
      rcases List.mem_append.mp member with inEarlier | inLater
      · exact sound other (List.mem_append_left _ inEarlier)
      · rcases List.mem_cons.mp inLater with rfl | inLater
        · exact kept.2
        · exact sound other
            (List.mem_append_right _ (List.mem_cons_of_mem _ inLater))
  }

theorem Invariant.start
    {iterations helpers : Nat}
    (positive : 0 < iterations)
    (bounded : iterations + (helpers + 1) < 2 ^ 64)
    (few : helpers + 1 < 2 ^ 31)
    {state : State}
    (started : Started iterations helpers state) :
    Invariant state := by
  rw [started]
  have length : (Apply.start iterations helpers).participants.length =
      helpers + 1 := by
    simp [Apply.start]
  have nothing : ∀ quantity,
      (∀ waits, Participant.weight ⟨waits, .pending⟩ quantity = 0) →
        (Apply.start iterations helpers).sums quantity = 0 := by
    intro quantity zero
    refine ledger_eq_zero ?_
    intro participant member
    rcases List.mem_cons.mp member with rfl | helper
    · exact zero true
    · rw [List.eq_of_mem_replicate helper]
      exact zero false
  have all : ∀ quantity,
      (∀ waits, Participant.weight ⟨waits, .pending⟩ quantity = 1) →
        (Apply.start iterations helpers).sums quantity = helpers + 1 := by
    intro quantity one
    simp only [State.sums, Apply.start, ledger, sumOf_cons, one]
    rw [sumOf, List.map_replicate, one, List.sum_replicate]
    simp
    omega
  refine {
    balanced := {
      bounded := by rw [length]; exact bounded
      few := by rw [length]; exact few
      size := by rw [all _ fun _ => rfl, length]; rfl
      caller := ?caller
      claims := ?claims
      work := ?work
      wake := ?wake
      lifetime := ?lifetime
    }
    sound := ?sound
  }
  case caller =>
    simp only [State.sums, Apply.start, ledger, sumOf_cons]
    rw [sumOf, List.map_replicate, List.sum_replicate]
    simp [Participant.weight]
  case claims =>
    rw [nothing _ fun _ => rfl]
    exact {
      index_le := by simp [Apply.start]
      index_ge := fun contradiction => absurd contradiction (by decide)
      invokedOnce := by
        intro k
        rw [nothing _ fun _ => rfl]
        simp [Apply.start]
      completedOnce := by
        intro k
        rw [nothing _ fun _ => rfl]
        simp [Apply.start]
    }
  case work =>
    rw [nothing _ fun _ => rfl, nothing _ fun _ => rfl]
    exact {
      balance := by simp [Apply.start]
      todo_le := Nat.le_refl _
      signalled := by
        change _ = if iterations = 0 then 1 else 0
        rw [if_neg (Nat.pos_iff_ne_zero.mp positive)]
        rfl
    }
  case wake =>
    rw [nothing .waited fun waits => by cases waits <;> rfl,
      nothing .passed fun waits => by cases waits <;> rfl]
    refine {
      value := rfl
      seen := fun contradiction => absurd contradiction (by decide)
      parked := by rintro ⟨⟩
    }
  case lifetime =>
    rw [nothing .frees fun _ => rfl, all .present fun _ => rfl]
    exact {
      counted := rfl
      released := by
        change _ = if helpers + 1 = 0 then 1 else 0
        rw [if_neg (Nat.succ_ne_zero helpers)]
        rfl
    }
  case sound =>
    intro participant member
    rcases List.mem_cons.mp member with rfl | helper
    · trivial
    · rw [List.eq_of_mem_replicate helper]
      trivial

/-! ## What the balances imply -/

/-- The caller has returned from the loop. -/
def State.Returned (state : State) : Prop :=
  ∃ participant ∈ state.participants,
    participant.waits = true ∧ participant.stage = .finished

namespace Invariant

variable {state : State}

theorem nonneg
    (state : State)
    (quantity : Quantity) :
    0 ≤ state.sums quantity :=
  (coherent_ledger state.participants).nonneg quantity

theorem weight_le
    (member : participant ∈ state.participants)
    (quantity : Quantity) :
    participant.weight quantity ≤ state.sums quantity :=
  le_ledger (fun other => other.weight_nonneg quantity) member

variable (invariant : Invariant state)

include invariant

/-- When the event is signalled, every index of the loop is completed. -/
theorem completed_of_signalled
    (signalled : state.log.signals = 1) :
    ∀ k < state.memory.iterations, k ∈ state.log.completed := by
  have claims := invariant.balanced.claims
  have work := invariant.balanced.work
  have done := nonneg state .done
  have settled : state.memory.todo = 0 := by
    have balance := work.signalled
    have signalling := nonneg state .signals
    split_ifs at balance with settled
    · exact settled
    · omega
  obtain ⟨distinct, below⟩ := claims.completed_subset fun k =>
    nonneg state (.holding k)
  have enough : state.memory.iterations ≤ state.log.completed.length := by
    have balance := work.balance
    omega
  have subset :
      state.log.completed ⊆ List.range state.memory.iterations :=
    fun k member => List.mem_range.mpr (below k member)
  have perm :=
    (List.subperm_of_subset distinct subset).perm_of_length_le
      (by rw [List.length_range]; exact enough)
  intro k inRange
  exact perm.mem_iff.mpr (List.mem_range.mpr inRange)

/-- When the event is signalled, nobody holds an index. -/
theorem holding_eq_zero
    (signalled : state.log.signals = 1)
    (k : Nat) :
    state.sums (.holding k) = 0 := by
  have balance := invariant.balanced.claims.completedOnce k
  have held := nonneg state (.holding k)
  by_cases inRange : k < state.memory.iterations
  · have member := invariant.completed_of_signalled signalled k inRange
    have counted := List.count_pos_iff.mpr member
    split_ifs at balance <;> omega
  · rw [if_neg (fun both => inRange both.2)] at balance
    omega

/-- The indices handed out when the event is signalled. -/
theorem invoked_of_signalled
    (signalled : state.log.signals = 1)
    (k : Nat) :
    state.log.invoked.count k =
      if k < state.memory.iterations then 1 else 0 := by
  have claims := invariant.balanced.claims
  have started := claims.invokedOnce k
  have finished := claims.completedOnce k
  have held := invariant.holding_eq_zero signalled k
  have before : state.sums (.before k) = 0 := by
    have less : state.sums (.before k) ≤ state.sums (.holding k) := by
      refine ledger_le_ledger ?_ _
      rintro ⟨waits, stage⟩
      cases stage <;> simp [Participant.weight, Stage.before, Stage.holding]
      split <;> decide
    have nonneg := nonneg state (.before k)
    omega
  simp only [before, held] at started finished
  by_cases inRange : k < state.memory.iterations
  · have member := invariant.completed_of_signalled signalled k inRange
    have counted := List.count_pos_iff.mpr member
    rw [if_pos inRange]
    split_ifs at started finished <;> omega
  · rw [if_neg (fun both => inRange both.2)] at started
    rw [if_neg inRange]
    omega

/-- The caller returns only after the signal. -/
theorem signalled_of_returned
    (returned : state.Returned) :
    state.log.signals = 1 := by
  obtain ⟨⟨waits, stage⟩, member, isCaller, isFinished⟩ := returned
  simp only at isCaller isFinished
  subst isCaller isFinished
  have passed := weight_le member .passed
  refine invariant.balanced.wake.seen ?_
  change (1 : Int) ≤ _ at passed
  omega

/-- A freed object has no participants left. -/
theorem finished_of_freed
    (freed : state.log.freed = 1) :
    ∀ participant ∈ state.participants, participant.stage = .finished := by
  have lifetime := invariant.balanced.lifetime
  have released := lifetime.released
  have counted := lifetime.counted
  have freeing := nonneg state .frees
  have empty : state.memory.thrCnt = 0 ∧ state.sums .frees = 0 := by
    split_ifs at released with empty
    · exact ⟨empty, by omega⟩
    · omega
  rintro ⟨waits, stage⟩ member
  have absent := weight_le member .present
  have idle := weight_le member .frees
  rw [empty.2] at idle
  rw [← counted, empty.1] at absent
  cases stage <;>
    simp [Participant.weight, Stage.present, Stage.frees] at absent idle ⊢

theorem freed_of_finished
    (finished :
      ∀ participant ∈ state.participants, participant.stage = .finished) :
    state.log.freed = 1 := by
  have lifetime := invariant.balanced.lifetime
  have nobody : state.sums .present = 0 := by
    refine ledger_eq_zero ?_
    intro participant member
    rw [Participant.weight, finished participant member]
    rfl
  have idle : state.sums .frees = 0 := by
    refine ledger_eq_zero ?_
    intro participant member
    rw [Participant.weight, finished participant member]
    rfl
  have released := lifetime.released
  have counted := lifetime.counted
  rw [if_pos (by omega), idle] at released
  omega

end Invariant

/-! ## Progress -/

/-- A participant can take a step unless it has finished or is asleep. -/
theorem exists_advance
    (memory : Memory)
    (sound : participant.Sound)
    (unfinished : participant.stage ≠ .finished)
    (awake : participant.stage = .asleep → memory.sleeping = false) :
    ∃ outcome,
      advance participant.waits memory .proceed participant.stage =
        some outcome := by
  rcases participant with ⟨waits, stage⟩
  cases stage with
  | finished => exact absurd rfl unfinished
  | crashed => exact sound.elim
  | asleep => exact ⟨_, by rw [advance, if_pos (.inl (awake rfl))]⟩
  | reading _ | invoking _ _ | working _ _ | waking | freeing =>
    exact ⟨_, rfl⟩
  | pending | claiming _ | settling _ | signalling | waiting | waitLoading
  | parking | destroying | leaving =>
    simp only [advance]
    split_ifs <;> exact ⟨_, rfl⟩

/-- While a caller sleeps, another participant has work to do. -/
theorem Invariant.exists_busy
    {state : State}
    (invariant : Invariant state)
    (sleeping : state.memory.sleeping = true) :
    ∃ participant ∈ state.participants,
      participant.stage ≠ .finished ∧ participant.stage ≠ .asleep := by
  by_contra nobody
  have idle : ∀ participant ∈ state.participants,
      participant.stage = .finished ∨ participant.stage = .asleep := by
    intro participant member
    by_contra busy
    exact nobody ⟨participant, member, not_or.mp busy⟩
  have nothing : ∀ quantity,
      (∀ waits,
        Participant.weight ⟨waits, .finished⟩ quantity = 0 ∧
          Participant.weight ⟨waits, .asleep⟩ quantity = 0) →
        state.sums quantity = 0 := by
    intro quantity zero
    refine ledger_eq_zero ?_
    rintro ⟨waits, stage⟩ member
    rcases idle _ member with finished | asleep
    · simp only at finished
      rw [finished]
      exact (zero waits).1
    · simp only at asleep
      rw [asleep]
      exact (zero waits).2
  have claims := invariant.balanced.claims
  have work := invariant.balanced.work
  obtain ⟨sleeper, unsignalled⟩ := invariant.balanced.wake.parked sleeping
  have signals : state.log.signals = 0 := by
    rw [nothing .wakes fun _ => ⟨rfl, rfl⟩] at unsignalled
    exact unsignalled.resolve_right (by decide)
  have unsettled : 0 < state.memory.todo := by
    have signalled := work.signalled
    rw [nothing .signals fun _ => ⟨rfl, rfl⟩, signals] at signalled
    split_ifs at signalled with settled
    · cases signalled
    · omega
  have overshot : 0 < state.sums .overshot := by
    refine lt_of_lt_of_le sleeper (ledger_le_ledger ?_ _)
    rintro ⟨waits, stage⟩
    cases waits <;> cases stage <;>
      simp [Participant.weight, Stage.sleeps, Stage.overshot]
  have past := claims.index_ge overshot
  have all : List.range state.memory.iterations ⊆ state.log.completed := by
    intro k member
    have inRange := List.mem_range.mp member
    have balance := claims.completedOnce k
    simp only [nothing (.holding k) fun _ => ⟨rfl, rfl⟩] at balance
    rw [if_pos ⟨by omega, inRange⟩] at balance
    exact List.count_pos_iff.mp (by omega)
  have long :=
    (List.subperm_of_subset List.nodup_range all).length_le
  have balance := work.balance
  rw [nothing .done fun _ => ⟨rfl, rfl⟩] at balance
  rw [List.length_range] at long
  omega

/-- Unless all participants have finished, one of them can go on. -/
theorem Invariant.progress
    {state : State}
    (invariant : Invariant state)
    (unfinished :
      ∃ participant ∈ state.participants, participant.stage ≠ .finished) :
    ∃ participant ∈ state.participants, ∃ outcome,
      advance participant.waits state.memory .proceed participant.stage =
        some outcome := by
  cases sleeping : state.memory.sleeping with
  | false =>
    obtain ⟨participant, member, active⟩ := unfinished
    exact ⟨participant, member,
      exists_advance _ (invariant.sound participant member) active
        fun _ => sleeping⟩
  | true =>
    obtain ⟨participant, member, active, awake⟩ :=
      invariant.exists_busy sleeping
    exact ⟨participant, member,
      exists_advance _ (invariant.sound participant member) active
        fun asleep => absurd asleep awake⟩

/-! ## Termination -/

/-- The steps that a participant has left at most; how long the caller waits
depends on whether the event was signalled. -/
def Stage.stepsLeft (signals : Nat) : Stage → Nat
  | .finished | .crashed => 0
  | .freeing => 1
  | .leaving => 2
  | .destroying => 3
  | .waitLoading => if signals = 0 then 7 else 4
  | .parking => if signals = 0 then 6 else 5
  | .waiting | .asleep => 8
  | .waking => 12
  | .signalling => 13
  | .settling _ => 14
  | .claiming _ => 15
  | .pending | .working _ _ => 16
  | .invoking _ _ => 17
  | .reading _ => 18

/-- The steps still to come for the indices that are left, and for the caller's
next sleep. -/
def Memory.stepsLeft (memory : Memory) : Nat :=
  3 * (memory.iterations - memory.index) + if memory.sleeping then 0 else 3

/-- The steps that all participants have left at most. -/
def State.stepsLeft (state : State) : Nat :=
  state.memory.stepsLeft +
    (state.participants.map fun participant =>
      participant.stage.stepsLeft state.log.signals).sum

theorem stepsLeft_out
    (signals : Nat)
    (waits : Bool) :
    (out waits).stepsLeft signals = if waits then 8 else 2 := by
  cases waits <;> rfl

theorem Stage.stepsLeft_record
    (log : Log)
    (effect : Effect)
    (stage : Stage) :
    stage.stepsLeft (log.record effect).signals ≤
      stage.stepsLeft log.signals := by
  cases effect <;> try exact Nat.le_refl _
  cases stage <;> simp [Stage.stepsLeft, Log.record] <;> split <;> omega

/-- A step takes a participant closer to its end, counting what is left for the
others to do. -/
theorem Balanced.stepsLeft_advance
    {threads : Nat}
    {memory : Memory}
    {log : Log}
    {others : Quantity → Int}
    {outcome : Outcome}
    (coherent : Coherent others)
    (balanced : Balanced threads memory log (plus others participant))
    (sound : participant.Sound)
    (acts :
      Apply.advance participant.waits memory .proceed participant.stage =
        some outcome) :
    outcome.memory.stepsLeft +
        outcome.stage.stepsLeft (log.record outcome.effect).signals <
      memory.stepsLeft + participant.stage.stepsLeft log.signals := by
  rcases participant with ⟨waits, stage⟩
  cases stage with
  | finished | crashed => cases acts
  | reading _ | invoking _ _ | working _ _ | freeing =>
    cases acts
    simp [Stage.stepsLeft]
  | waking =>
    cases acts
    simp only [stepsLeft_out]
    simp only [Stage.stepsLeft, Memory.stepsLeft]
    split_ifs <;> omega
  | pending | claiming _ =>
    have inside := balanced.index_lt coherent rfl
    simp only [Apply.advance, Nat.mod_eq_of_lt inside] at acts
    split_ifs at acts <;> cases acts <;> (try simp only [stepsLeft_out]) <;>
      simp only [Stage.stepsLeft, Memory.stepsLeft] <;>
      split_ifs <;> omega
  | settling _ | signalling | leaving | waiting =>
    simp only [Apply.advance] at acts
    split_ifs at acts <;> cases acts <;> (try simp only [stepsLeft_out]) <;>
      simp only [Stage.stepsLeft, Memory.stepsLeft] <;>
      split_ifs <;> omega
  | destroying =>
    simp only [Apply.advance] at acts
    split_ifs at acts <;> cases acts <;> simp [Stage.stepsLeft]
  | asleep =>
    simp only [Apply.advance, reduceCtorEq, or_false] at acts
    split_ifs at acts with awake
    cases acts
    simp only [Stage.stepsLeft, Memory.stepsLeft, awake]
    split_ifs <;> omega
  | waitLoading =>
    obtain rfl : waits = true := sound
    rcases balanced.event_of_waiting coherent rfl with
      ⟨signalled, zero⟩ | ⟨unsignalled, untouched⟩
    · simp only [Apply.advance, if_pos zero] at acts
      cases acts
      simp [Stage.stepsLeft, signalled]
    · rw [Apply.advance, untouched, if_neg (by decide), if_neg (by simp)]
        at acts
      cases acts
      simp [Stage.stepsLeft, Log.record, unsignalled]
  | parking =>
    obtain rfl : waits = true := sound
    have awake : memory.sleeping = false := by
      by_contra asleep
      have sleeper := (balanced.wake.parked (by simpa using asleep)).1
      have alone := (balanced.others_waited coherent).1
      have less := coherent.sleeps
      simp only [plus, Participant.weight, Stage.sleeps, if_true] at sleeper
      omega
    rcases balanced.event_of_waiting coherent rfl with
      ⟨signalled, zero⟩ | ⟨unsignalled, untouched⟩
    · rw [Apply.advance, zero, if_neg (by decide)] at acts
      cases acts
      simp [Stage.stepsLeft, Log.record, signalled]
    · simp only [Apply.advance, if_pos untouched] at acts
      cases acts
      simp [Stage.stepsLeft, Memory.stepsLeft, unsignalled, awake]

theorem Invariant.stepsLeft_lt
    {state : State}
    (invariant : Invariant state)
    (step : StepBy .proceed state following) :
    following.stepsLeft < state.stepsLeft := by
  obtain ⟨earlier, later, participant, outcome, scheduled, acts, rfl⟩ :=
    step.split
  obtain ⟨balanced, sound⟩ := invariant.apart scheduled
  have lower := balanced.stepsLeft_advance (coherent_ledger _)
    (sound participant (by simp)) acts
  have kept (others : List Participant) :
      (others.map fun other => other.stage.stepsLeft
          (state.log.record outcome.effect).signals).sum ≤
        (others.map fun other =>
          other.stage.stepsLeft state.log.signals).sum :=
    List.sum_le_sum fun other _ =>
      other.stage.stepsLeft_record state.log outcome.effect
  have before := kept earlier
  have after := kept later
  simp only [State.stepsLeft, scheduled, List.map_append, List.map_cons,
    List.sum_append, List.sum_cons]
  omega

/-! ## The guarantees -/

/-- Nothing is left to do, and everything was done once. -/
structure State.Ended
    (iterations : Nat)
    (state : State) : Prop where
  finished :
    ∀ participant ∈ state.participants, participant.stage = .finished
  returned : state.Returned
  ran :
    ∀ k, state.log.invoked.count k = if k < iterations then 1 else 0
  signalled : state.log.signals = 1
  freed : state.log.freed = 1

/-- What a loop of so many iterations guarantees in a state. -/
structure Guarantees
    (iterations : Nat)
    (state : State) : Prop where
  /-- No index is run twice, and no other value is. -/
  runs :
    ∀ k, state.log.invoked.count k ≤ if k < iterations then 1 else 0
  /-- When the caller has returned, every index was run and has completed. -/
  returns :
    state.Returned →
      ∀ k, state.log.invoked.count k = (if k < iterations then 1 else 0) ∧
        (k < iterations → k ∈ state.log.completed)
  /-- The event is signalled once, before the caller returns. -/
  signals :
    state.log.signals ≤ 1 ∧ (state.Returned → state.log.signals = 1)
  /-- Nobody is about to read `da_dc` after the caller has returned. -/
  reads :
    state.Returned →
      ∀ participant ∈ state.participants,
        ∀ idx, participant.stage ≠ .reading idx
  /-- The object is freed once, when nobody is left to use it. -/
  frees :
    state.log.freed ≤ 1 ∧
      (state.log.freed = 1 ↔
        ∀ participant ∈ state.participants, participant.stage = .finished)
  /-- Neither the event's value nor its destruction crashes. -/
  sane :
    ∀ participant ∈ state.participants, participant.stage ≠ .crashed
  /-- The loop ends: after so many steps of any participants, unless the caller
  wakes up for no reason, all have finished, every index was run once, the event
  was signalled and the object freed. -/
  ends :
    ∀ run, run 0 = state → RunsOn (StepBy .proceed) run →
      (run state.stepsLeft).Ended iterations

/-- The number of iterations does not change. -/
theorem advance_iterations
    {waits : Bool}
    {memory : Memory}
    {choice : Choice}
    {stage : Stage}
    {outcome : Outcome}
    (acts : advance waits memory choice stage = some outcome) :
    outcome.memory.iterations = memory.iterations := by
  cases stage with
  | finished | crashed => cases acts
  | reading _ | invoking _ _ | working _ _ | waking | freeing =>
    cases acts
    rfl
  | pending | claiming _ | settling _ | signalling | waiting | waitLoading
  | parking | asleep | destroying | leaving =>
    simp only [advance] at acts
    split_ifs at acts <;>
      · cases acts
        rfl

theorem Step.iterations_eq
    {state : State}
    (step : Step state following) :
    following.memory.iterations = state.memory.iterations := by
  obtain ⟨choice, step⟩ := step
  obtain ⟨earlier, later, participant, outcome, scheduled, acts, rfl⟩ :=
    step.split
  exact advance_iterations acts

/-- When no participant can go on, all is done. -/
theorem Invariant.ended
    {state : State}
    (invariant : Invariant state)
    (stuck : ∀ following, ¬ StepBy .proceed state following) :
    state.Ended state.memory.iterations := by
  have finished : ∀ participant ∈ state.participants,
      participant.stage = .finished := by
    by_contra unfinished
    simp only [not_forall] at unfinished
    obtain ⟨participant, member, active⟩ := unfinished
    obtain ⟨other, scheduled, outcome, acts⟩ :=
      invariant.progress ⟨participant, member, active⟩
    obtain ⟨position, found⟩ := List.mem_iff_getElem?.mp scheduled
    exact stuck _ ⟨position, by simp [State.next, found, acts]; rfl⟩
  have returned : state.Returned := by
    by_contra nobody
    have caller := invariant.balanced.caller
    rw [State.sums, ledger_eq_zero] at caller
    · cases caller
    · intro participant member
      refine if_neg fun waits => nobody ⟨participant, member, waits, ?_⟩
      exact finished participant member
  have signalled := invariant.signalled_of_returned returned
  exact {
    finished := finished
    returned := returned
    ran := invariant.invoked_of_signalled signalled
    signalled := signalled
    freed := invariant.freed_of_finished finished
  }

theorem Invariant.ends
    {state : State}
    (invariant : Invariant state)
    {run : Nat → State}
    (starts : run 0 = state)
    (runs : RunsOn (StepBy .proceed) run) :
    (run state.stepsLeft).Ended state.memory.iterations := by
  have lowers {before after : State}
      (holds : Invariant before ∧
        before.memory.iterations = state.memory.iterations)
      (proceeds : StepBy .proceed before after) :
      (Invariant after ∧
          after.memory.iterations = state.memory.iterations) ∧
        after.stepsLeft < before.stepsLeft := by
    have step : Step before after := ⟨_, proceeds⟩
    exact ⟨⟨holds.1.step step, step.iterations_eq.trans holds.2⟩,
      holds.1.stepsLeft_lt proceeds⟩
  have ending := runs.ends lowers (starts.symm ▸ ⟨invariant, rfl⟩)
  rw [starts] at ending
  obtain ⟨⟨ended, same⟩, stuck⟩ := ending
  rw [← same]
  exact ended.ended stuck

theorem Invariant.guarantees
    {state : State}
    (invariant : Invariant state) :
    Guarantees state.memory.iterations state := by
  have nonneg := nonneg state
  exact {
    runs := by
      intro k
      have balance := invariant.balanced.claims.invokedOnce k
      have before := nonneg (.before k)
      split_ifs at balance ⊢ <;> omega
    returns := by
      intro returned k
      have signalled := invariant.signalled_of_returned returned
      exact ⟨invariant.invoked_of_signalled signalled k,
        invariant.completed_of_signalled signalled k⟩
    signals := by
      exact ⟨invariant.balanced.signals_le (nonneg .signals),
        invariant.signalled_of_returned⟩
    reads := by
      rintro returned ⟨waits, stage⟩ member idx reading
      simp only at reading
      subst reading
      have signalled := invariant.signalled_of_returned returned
      have held := weight_le member (.holding idx)
      rw [invariant.holding_eq_zero signalled idx] at held
      simp [Participant.weight, Stage.holding] at held
    frees := by
      have released := invariant.balanced.lifetime.released
      have freeing := nonneg .frees
      refine ⟨?_, invariant.finished_of_freed, invariant.freed_of_finished⟩
      split_ifs at released <;> omega
    sane := by
      rintro ⟨waits, stage⟩ member crashed
      simp only at crashed
      subst crashed
      exact invariant.sound _ member
    ends := fun _ starts runs => invariant.ends starts runs
  }

/-- A reachable state keeps the invariant and its number of iterations. -/
theorem reachable_invariant
    {iterations helpers : Nat}
    (positive : 0 < iterations)
    (bounded : iterations + (helpers + 1) < 2 ^ 64)
    (few : helpers + 1 < 2 ^ 31)
    {state : State}
    (reachable : Reachable (Started iterations helpers) Step state) :
    Invariant state ∧ state.memory.iterations = iterations := by
  induction reachable with
  | start started =>
    refine ⟨.start positive bounded few started, ?_⟩
    rw [started]
    rfl
  | next earlier step inductionHypothesis =>
    obtain ⟨invariant, same⟩ := inductionHypothesis
    exact ⟨invariant.step step, step.iterations_eq.trans same⟩

/--
`dispatch_apply` runs every index once: the serial loop does so in order, and a
loop with any number of helpers keeps its guarantees in every interleaving.
-/
theorem apply_guarantees
    {iterations helpers : Nat}
    (positive : 0 < iterations)
    (bounded : iterations + (helpers + 1) < 2 ^ 64)
    (few : helpers + 1 < 2 ^ 31) :
    applySerial iterations = List.range iterations ∧
      ∀ state, Reachable (Started iterations helpers) Step state →
        Guarantees iterations state := by
  refine ⟨applySerial_eq_range positive, ?_⟩
  intro state reachable
  obtain ⟨invariant, same⟩ :=
    reachable_invariant positive bounded few reachable
  rw [← same]
  exact invariant.guarantees

/-- Two iterations, one of them a helper's: the caller waits for it, sleeps, is
woken up and returns while the helper is still leaving. -/
theorem oneHelper_guarantees :
    ∃ state,
      Reachable (Started 2 1) Step state ∧
        state.participants = [⟨true, .finished⟩, ⟨false, .leaving⟩] ∧
        state.log = ⟨[1, 0], [1, 0], 1, 0⟩ ∧
        Guarantees 2 state := by
  have runs : ((afterEvents (State.next .proceed) (start 2 1)
      [0, 0, 0, 1, 1, 1, 0, 0, 0, 0, 0, 0, 1, 1, 1, 1, 1, 0, 0, 0, 0]).map
        fun state => (state.participants, state.log)) =
      some ([⟨true, .finished⟩, ⟨false, .leaving⟩],
        ⟨[1, 0], [1, 0], 1, 0⟩) := by
    decide +kernel
  obtain ⟨state, happens, same⟩ := Option.map_eq_some_iff.mp runs
  obtain ⟨participants, log⟩ := Prod.mk.inj same
  have reached : Reachable (Started 2 1) Step state := by
    refine Reachable.afterEvents ?_ (.start rfl) happens
    intro before position after steps
    exact ⟨.proceed, position, steps⟩
  have guarantees := (@apply_guarantees 2 1 (by decide) (by decide)
    (by decide)).2 state reached
  exact ⟨state, reached, participants, log, guarantees⟩

end LibDispatch.Apply
