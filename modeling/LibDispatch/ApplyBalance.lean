import LibDispatch.Apply

namespace LibDispatch.Apply

/-!
# The counters of a parallel loop

Each of the three counters of a `dispatch_apply_s` is balanced by what its
participants hold at their present stage.  The balances are kept by one step of
one participant; they are stated over plain numbers, so that a step only touches
the ones it changes.
-/

/-! ## What a stage accounts for -/

/-- The participant has seen that no index is left. -/
def Stage.overshot : Stage → Int
  | .pending | .reading _ | .invoking _ _ | .working _ _ | .claiming _ => 0
  | _ => 1

/-- The index the participant holds and has not called the work function for. -/
def Stage.before : Stage → Nat → Int
  | .reading idx, k => if k = idx then 1 else 0
  | .invoking idx _, k => if k = idx then 1 else 0
  | _, _ => 0

/-- The index the participant holds and has not completed. -/
def Stage.holding : Stage → Nat → Int
  | .reading idx, k => if k = idx then 1 else 0
  | .invoking idx _, k => if k = idx then 1 else 0
  | .working idx _, k => if k = idx then 1 else 0
  | _, _ => 0

/-- What the participant has completed and not taken from `da_todo`. -/
def Stage.done : Stage → Int
  | .invoking _ done => done
  | .working _ done => done
  | .claiming done => done
  | .settling done => done
  | _ => 0

def Stage.signals : Stage → Int
  | .signalling => 1
  | _ => 0

def Stage.wakes : Stage → Int
  | .waking => 1
  | _ => 0

def Stage.sleeps : Stage → Int
  | .asleep => 1
  | _ => 0

/-- The caller has decremented the event. -/
def Stage.waited : Stage → Int
  | .waitLoading | .parking | .asleep | .destroying | .leaving | .freeing
  | .finished => 1
  | _ => 0

/-- The caller has found the event signalled. -/
def Stage.passed : Stage → Int
  | .destroying | .leaving | .freeing | .finished => 1
  | _ => 0

/-- The participant is counted in `da_thr_cnt`. -/
def Stage.present : Stage → Int
  | .freeing | .finished => 0
  | _ => 1

def Stage.frees : Stage → Int
  | .freeing => 1
  | _ => 0

/-- The quantities that participants contribute to. -/
inductive Quantity where
  | size
  | caller
  | overshot
  | before (k : Nat)
  | holding (k : Nat)
  | done
  | signals
  | wakes
  | sleeps
  | waited
  | passed
  | present
  | frees

/-- The contribution of a participant; only the caller waits. -/
def Participant.weight (participant : Participant) : Quantity → Int
  | .size => 1
  | .caller => if participant.waits then 1 else 0
  | .overshot => participant.stage.overshot
  | .before k => participant.stage.before k
  | .holding k => participant.stage.holding k
  | .done => participant.stage.done
  | .signals => participant.stage.signals
  | .wakes => participant.stage.wakes
  | .sleeps => if participant.waits then participant.stage.sleeps else 0
  | .waited => if participant.waits then participant.stage.waited else 0
  | .passed => if participant.waits then participant.stage.passed else 0
  | .present => participant.stage.present
  | .frees => participant.stage.frees

theorem Participant.weight_nonneg
    (participant : Participant)
    (quantity : Quantity) :
    0 ≤ participant.weight quantity := by
  rcases participant with ⟨waits, stage⟩
  cases quantity <;> cases waits <;> cases stage <;>
    simp [weight, Stage.overshot, Stage.before, Stage.holding, Stage.done,
      Stage.signals, Stage.wakes, Stage.sleeps, Stage.waited, Stage.passed,
      Stage.present, Stage.frees] <;>
    split <;> decide

/-! ## The balances -/

/-- Indices: those handed out are held or used up, each once. -/
structure Claims
    (iterations index : Nat)
    (invoked completed : List Nat)
    (overshot : Int)
    (before holding : Nat → Int) : Prop where
  index_le : (index : Int) ≤ iterations + overshot
  index_ge : 0 < overshot → iterations ≤ index
  invokedOnce :
    ∀ k, (invoked.count k : Int) + before k =
      if k < index ∧ k < iterations then 1 else 0
  completedOnce :
    ∀ k, (completed.count k : Int) + holding k =
      if k < index ∧ k < iterations then 1 else 0

/-- Work: what is completed is subtracted, or about to be, and the subtraction
that leaves nothing signals. -/
structure Work
    (iterations todo completed signals : Nat)
    (done signalling : Int) : Prop where
  balance : (completed : Int) + todo = iterations + done
  todo_le : todo ≤ iterations
  signalled : (signals : Int) + signalling = if todo = 0 then 1 else 0

/-- The event: its value is what was signalled less what was waited for, and a
sleeper is not signalled or about to be woken up. -/
structure Wake
    (event signals : Nat)
    (sleeping : Bool)
    (waited passed sleeps wakes : Int) : Prop where
  value : (event : Int) = (signals - waited) % 2 ^ 32
  seen : 0 < passed → signals = 1
  parked :
    sleeping = true → 0 < sleeps ∧ (signals = 0 ∨ 0 < wakes)

/-- The lifetime of the object: whoever leaves last frees it. -/
structure Lifetime
    (thrCnt freed : Nat)
    (present frees : Int) : Prop where
  counted : (thrCnt : Int) = present
  released : (freed : Int) + frees = if thrCnt = 0 then 1 else 0

/-- All balances of a loop of so many threads. -/
structure Balanced
    (threads : Nat)
    (memory : Memory)
    (log : Log)
    (sums : Quantity → Int) : Prop where
  bounded : memory.iterations + threads < 2 ^ 64
  few : threads < 2 ^ 31
  size : sums .size = threads
  caller : sums .caller = 1
  claims :
    Claims memory.iterations memory.index log.invoked log.completed
      (sums .overshot) (fun k => sums (.before k)) (fun k => sums (.holding k))
  work :
    Work memory.iterations memory.todo log.completed.length log.signals
      (sums .done) (sums .signals)
  wake :
    Wake memory.event log.signals memory.sleeping
      (sums .waited) (sums .passed) (sums .sleeps) (sums .wakes)
  lifetime :
    Lifetime memory.thrCnt log.freed (sums .present) (sums .frees)

variable {idx : Nat}

namespace Claims

variable
  {iterations index : Nat}
  {invoked completed : List Nat}
  {overshot nextOvershot : Int}
  {before holding nextBefore nextHolding : Nat → Int}
  (claims :
    Claims iterations index invoked completed overshot before holding)

include claims

/-- An index below the end is handed out. -/
theorem claim
    (below : index < iterations)
    (before_eq :
      ∀ k, nextBefore k = before k + if k = index then 1 else 0)
    (holding_eq :
      ∀ k, nextHolding k = holding k + if k = index then 1 else 0)
    (overshot_eq : nextOvershot = overshot)
    (nonneg : 0 ≤ overshot) :
    Claims iterations (index + 1) invoked completed nextOvershot
      nextBefore nextHolding where
  index_le := by omega
  index_ge := by
    intro positive
    have past := claims.index_ge (overshot_eq ▸ positive)
    omega
  invokedOnce := by
    intro k
    have balance := claims.invokedOnce k
    rw [before_eq]
    split_ifs at balance ⊢ <;> omega
  completedOnce := by
    intro k
    have balance := claims.completedOnce k
    rw [holding_eq]
    split_ifs at balance ⊢ <;> omega

/-- An index past the end is handed out, and its participant stops. -/
theorem overshoot
    (past : iterations ≤ index)
    (before_eq : ∀ k, nextBefore k = before k)
    (holding_eq : ∀ k, nextHolding k = holding k)
    (overshot_eq : nextOvershot = overshot + 1) :
    Claims iterations (index + 1) invoked completed nextOvershot
      nextBefore nextHolding := by
  have below := claims.index_le
  exact {
    index_le := by omega
    index_ge := fun _ => by omega
    invokedOnce := by
      intro k
      have balance := claims.invokedOnce k
      rw [before_eq]
      split_ifs at balance ⊢ <;> omega
    completedOnce := by
      intro k
      have balance := claims.completedOnce k
      rw [holding_eq]
      split_ifs at balance ⊢ <;> omega
  }

/-- The work function is called for an index that was held. -/
theorem invoke
    (before_eq : ∀ k, before k = nextBefore k + if k = idx then 1 else 0)
    (holding_eq : ∀ k, nextHolding k = holding k)
    (overshot_eq : nextOvershot = overshot) :
    Claims iterations index (idx :: invoked) completed nextOvershot
      nextBefore nextHolding where
  index_le := by rw [overshot_eq]; exact claims.index_le
  index_ge := by rw [overshot_eq]; exact claims.index_ge
  invokedOnce := by
    intro k
    have balance := claims.invokedOnce k
    rw [before_eq] at balance
    rw [← balance, List.count_cons]
    simp only [beq_iff_eq, eq_comm (a := idx)]
    split_ifs <;> push_cast <;> omega
  completedOnce := by
    intro k
    rw [holding_eq]
    exact claims.completedOnce k

/-- The work function has returned for an index that was held. -/
theorem complete
    (before_eq : ∀ k, nextBefore k = before k)
    (holding_eq : ∀ k, holding k = nextHolding k + if k = idx then 1 else 0)
    (overshot_eq : nextOvershot = overshot) :
    Claims iterations index invoked (idx :: completed) nextOvershot
      nextBefore nextHolding where
  index_le := by rw [overshot_eq]; exact claims.index_le
  index_ge := by rw [overshot_eq]; exact claims.index_ge
  invokedOnce := by
    intro k
    rw [before_eq]
    exact claims.invokedOnce k
  completedOnce := by
    intro k
    have balance := claims.completedOnce k
    rw [holding_eq] at balance
    rw [← balance, List.count_cons]
    simp only [beq_iff_eq, eq_comm (a := idx)]
    split_ifs <;> push_cast <;> omega

/-- No index is completed twice, and only those of the loop are. -/
theorem completed_subset
    (nonneg : ∀ k, 0 ≤ holding k) :
    completed.Nodup ∧ ∀ k ∈ completed, k < iterations := by
  constructor
  · rw [List.nodup_iff_count_le_one]
    intro k
    have balance := claims.completedOnce k
    have held := nonneg k
    split_ifs at balance <;> omega
  · intro k member
    have counted := List.count_pos_iff.mpr member
    have balance := claims.completedOnce k
    have held := nonneg k
    split_ifs at balance <;> omega

theorem length_completed_le
    (nonneg : ∀ k, 0 ≤ holding k) :
    completed.length ≤ iterations := by
  obtain ⟨distinct, below⟩ := claims.completed_subset nonneg
  have subset : completed ⊆ List.range iterations := fun k member =>
    List.mem_range.mpr (below k member)
  have shorter := (List.subperm_of_subset distinct subset).length_le
  rwa [List.length_range] at shorter

end Claims

namespace Work

variable
  {iterations todo completed signals : Nat}
  {done signalling nextDone nextSignalling : Int}
  (work : Work iterations todo completed signals done signalling)

include work

/-- One more item is completed, and not yet subtracted. -/
theorem complete
    (done_eq : nextDone = done + 1)
    (signalling_eq : nextSignalling = signalling) :
    Work iterations todo (completed + 1) signals nextDone nextSignalling := by
  have balance := work.balance
  exact {
    balance := by omega
    todo_le := work.todo_le
    signalled := by
      rw [signalling_eq]
      exact work.signalled
  }

/-- A participant subtracts what it has completed, and signals if nothing is
left. -/
theorem settle
    {own : Nat}
    (positive : 0 < own)
    (enough : own ≤ todo)
    (done_eq : nextDone = done - own)
    (signalling_eq :
      nextSignalling = signalling + if todo - own = 0 then 1 else 0) :
    Work iterations (todo - own) completed signals nextDone
      nextSignalling := by
  have balance := work.balance
  have below := work.todo_le
  have signalled := work.signalled
  exact {
    balance := by omega
    todo_le := by omega
    signalled := by
      rw [if_neg (by omega)] at signalled
      rw [signalling_eq]
      split_ifs <;> omega
  }

/-- The signal is given. -/
theorem signal
    (done_eq : nextDone = done)
    (signalling_eq : signalling = nextSignalling + 1) :
    Work iterations todo completed (signals + 1) nextDone nextSignalling := by
  have signalled := work.signalled
  exact {
    balance := by rw [done_eq]; exact work.balance
    todo_le := work.todo_le
    signalled := by
      rw [← signalled, signalling_eq]
      push_cast
      omega
  }

end Work

namespace Wake

variable
  {event signals : Nat}
  {sleeping nextSleeping : Bool}
  {waited passed sleeps wakes : Int}
  {nextWaited nextPassed nextSleeps nextWakes : Int}

variable (wake : Wake event signals sleeping waited passed sleeps wakes)

include wake

/-- The value of the event of a caller that has decremented it. -/
theorem event_of_waited
    (once : signals ≤ 1)
    (one : waited = 1) :
    (signals = 1 ∧ event = 0) ∨ (signals = 0 ∧ event = eventWaited) := by
  have value := wake.value
  simp only [eventWaited]
  omega

/-- The event is signalled; the signaller goes on to wake up a waiting
caller. -/
theorem signal
    (fresh : signals = 0)
    (range : 0 ≤ waited ∧ waited ≤ 1)
    (order : sleeps ≤ waited)
    (waited_eq : nextWaited = waited)
    (sleeps_eq : nextSleeps = sleeps)
    (wakes_eq : nextWakes = wakes + if event = 0 then 0 else 1)
    (nonneg : 0 ≤ wakes) :
    Wake ((event + 1) % 2 ^ 32) (signals + 1) sleeping
      nextWaited nextPassed nextSleeps nextWakes := by
  have value := wake.value
  exact {
    value := by push_cast; omega
    seen := fun _ => by omega
    parked := by
      intro asleep
      obtain ⟨parked, _⟩ := wake.parked asleep
      rw [wakes_eq, if_neg (by omega)]
      exact ⟨by omega, .inr (by omega)⟩
  }

/-- The caller decrements the event. -/
theorem wait
    (once : signals ≤ 1)
    (fresh : waited = 0)
    (order : sleeps ≤ waited)
    (waited_eq : nextWaited = 1)
    (passed_le :
      0 < nextPassed → decremented event = 0) :
    Wake (decremented event) signals sleeping
      nextWaited nextPassed nextSleeps nextWakes := by
  have value := wake.value
  exact {
    value := by simp only [decremented]; split_ifs <;> omega
    seen := by
      intro positive
      have zero := passed_le positive
      simp only [decremented] at zero
      split_ifs at zero
      omega
    parked := by
      intro asleep
      obtain ⟨parked, _⟩ := wake.parked asleep
      omega
  }

/-- The stage of the caller changes, and a sleeper may wake up. -/
theorem go
    (waited_eq : nextWaited = waited)
    (seen : 0 < nextPassed → signals = 1)
    (parked :
      nextSleeping = true → 0 < nextSleeps ∧ (signals = 0 ∨ 0 < nextWakes)) :
    Wake event signals nextSleeping
      nextWaited nextPassed nextSleeps nextWakes where
  value := by rw [waited_eq]; exact wake.value
  seen := seen
  parked := parked

end Wake

namespace Lifetime

variable
  {thrCnt freed : Nat}
  {present frees nextPresent nextFrees : Int}

/-- A participant leaves, and frees the object if it is the last. -/
theorem leave
    (lifetime : Lifetime thrCnt freed present frees)
    (few : thrCnt < 2 ^ 32)
    (counted : present = nextPresent + 1)
    (nonneg : 0 ≤ nextPresent)
    (frees_eq :
      nextFrees = frees +
        if decremented thrCnt = 0 then 1 else 0) :
    Lifetime (decremented thrCnt) freed nextPresent nextFrees := by
  have threads := lifetime.counted
  have released := lifetime.released
  rw [if_neg (by omega)] at released
  have less : (decremented thrCnt : Int) = thrCnt - 1 := by
    rw [decremented, if_neg (by omega)]
    omega
  exact {
    counted := by omega
    released := by
      rw [frees_eq]
      split_ifs <;> omega
  }

/-- The object is freed. -/
theorem free
    (lifetime : Lifetime thrCnt freed present frees)
    (present_eq : nextPresent = present)
    (frees_eq : frees = nextFrees + 1) :
    Lifetime thrCnt (freed + 1) nextPresent nextFrees := by
  have released := lifetime.released
  exact {
    counted := by rw [present_eq]; exact lifetime.counted
    released := by
      rw [← released, frees_eq]
      push_cast
      omega
  }

end Lifetime

/-! ## One step of a participant -/

/-- The sums of the other participants and one more. -/
def plus
    (others : Quantity → Int)
    (participant : Participant)
    (quantity : Quantity) : Int :=
  others quantity + participant.weight quantity

/-- What holds of the sums over any participants. -/
structure Coherent (others : Quantity → Int) : Prop where
  nonneg : ∀ quantity, 0 ≤ others quantity
  overshot : others .overshot ≤ others .size
  present : others .present ≤ others .size
  waited : others .waited ≤ others .caller
  sleeps : others .sleeps ≤ others .waited
  passed : others .passed ≤ others .waited

/-- Only the caller waits, and a participant that stops has completed
something. -/
def Participant.Sound (participant : Participant) : Prop :=
  match participant.stage with
  | .waiting | .waitLoading | .parking | .asleep | .destroying =>
    participant.waits = true
  | .claiming done | .settling done => 0 < done
  | .crashed => False
  | _ => True

/-- The outcome of a step keeps the balances, and its participant is sound. -/
abbrev Keeps
    (threads : Nat)
    (log : Log)
    (others : Quantity → Int)
    (waits : Bool)
    (outcome : Outcome) : Prop :=
  Balanced threads outcome.memory (log.record outcome.effect)
      (plus others ⟨waits, outcome.stage⟩) ∧
    Participant.Sound ⟨waits, outcome.stage⟩

theorem sound_out
    (waits : Bool) :
    Participant.Sound ⟨waits, out waits⟩ := by
  cases waits
  · trivial
  · rfl

namespace Balanced

variable
  {threads : Nat}
  {memory : Memory}
  {log : Log}
  {others : Quantity → Int}
  {waits : Bool}

variable {stage : Stage} (coherent : Coherent others)

include coherent

/-- The index counter does not wrap. -/
theorem index_lt
    (balanced : Balanced threads memory log (plus others ⟨waits, stage⟩))
    (active : stage.overshot = 0) :
    memory.index + 1 < 2 ^ 64 := by
  have bounded := balanced.bounded
  have size := balanced.size
  have below := balanced.claims.index_le
  have others_le := coherent.overshot
  simp only [plus, Participant.weight] at size below
  omega

variable {choice : Choice} {outcome : Outcome}

/-- A participant that has not started takes an index. -/
theorem pending
    (balanced : Balanced threads memory log (plus others ⟨waits, .pending⟩))
    (acts : advance waits memory choice .pending = some outcome) :
    Keeps threads log others waits outcome := by
  have exact : (memory.index + 1) % 2 ^ 64 = memory.index + 1 :=
    Nat.mod_eq_of_lt (balanced.index_lt coherent rfl)
  simp only [advance, exact] at acts
  split_ifs at acts with past
  · cases acts
    refine ⟨?_, sound_out waits⟩
    cases waits <;>
    · exact { balanced with
        claims := balanced.claims.overshoot past (fun _ => rfl) (fun _ => rfl)
          (by simp [plus, Participant.weight, out, Stage.overshot]) }
  · cases acts
    refine ⟨?_, trivial⟩
    exact { balanced with
      claims := balanced.claims.claim (by omega)
        (fun _ => by simp [plus, Participant.weight, Stage.before])
        (fun _ => by simp [plus, Participant.weight, Stage.holding])
        rfl (Int.add_nonneg (coherent.nonneg _)
          (Participant.weight_nonneg _ _)) }

/-- A participant that has called the work function takes another index. -/
theorem claiming
    {done : Nat}
    (balanced :
      Balanced threads memory log (plus others ⟨waits, .claiming done⟩))
    (sound : Participant.Sound ⟨waits, .claiming done⟩)
    (acts : advance waits memory choice (.claiming done) = some outcome) :
    Keeps threads log others waits outcome := by
  have exact : (memory.index + 1) % 2 ^ 64 = memory.index + 1 :=
    Nat.mod_eq_of_lt (balanced.index_lt coherent rfl)
  simp only [advance, exact] at acts
  split_ifs at acts with below
  · cases acts
    refine ⟨?_, trivial⟩
    exact { balanced with
      claims := balanced.claims.claim below
        (fun _ => by simp [plus, Participant.weight, Stage.before])
        (fun _ => by simp [plus, Participant.weight, Stage.holding])
        rfl (Int.add_nonneg (coherent.nonneg _)
          (Participant.weight_nonneg _ _)) }
  · cases acts
    refine ⟨?_, sound⟩
    exact { balanced with
      claims := balanced.claims.overshoot (by omega) (fun _ => rfl)
        (fun _ => rfl)
        (by simp [plus, Participant.weight, Stage.overshot]) }

omit coherent in
/-- The work function is called. -/
theorem invoking
    {done : Nat}
    (balanced :
      Balanced threads memory log (plus others ⟨waits, .invoking idx done⟩)) :
    Balanced threads memory (log.record (.invoke idx))
      (plus others ⟨waits, .working idx done⟩) :=
  { balanced with
    claims := balanced.claims.invoke
      (fun _ => by simp [plus, Participant.weight, Stage.before])
      (fun _ => rfl) rfl }

/-- What a participant has completed is still in `da_todo`. -/
theorem done_le
    (balanced : Balanced threads memory log (plus others ⟨waits, stage⟩)) :
    stage.done ≤ memory.todo := by
  have balance := balanced.work.balance
  have othersDone := coherent.nonneg .done
  have below := balanced.claims.length_completed_le fun k =>
    Int.add_nonneg (coherent.nonneg _) (Participant.weight_nonneg _ _)
  simp only [plus, Participant.weight] at balance
  omega

/-- The work function returns. -/
theorem working
    {done : Nat}
    (balanced :
      Balanced threads memory log (plus others ⟨waits, .working idx done⟩)) :
    Balanced threads memory (log.record (.complete idx))
        (plus others ⟨waits, .claiming ((done + 1) % 2 ^ 64)⟩) ∧
      Participant.Sound ⟨waits, .claiming ((done + 1) % 2 ^ 64)⟩ := by
  have left := balanced.done_le coherent
  have fits := balanced.work.todo_le
  have bounded := balanced.bounded
  have size := balanced.size
  have othersSize := coherent.nonneg .size
  simp only [plus, Participant.weight, Stage.done] at left size
  have exact : (done + 1) % 2 ^ 64 = done + 1 := by
    omega
  rw [exact]
  refine ⟨?_, Nat.succ_pos done⟩
  exact { balanced with
    claims := balanced.claims.complete (fun _ => rfl)
      (fun _ => by simp [plus, Participant.weight, Stage.holding]) rfl
    work := balanced.work.complete
      (by simp only [plus, Participant.weight, Stage.done]; omega) rfl }

/-- A participant takes what it has completed from `da_todo`. -/
theorem settling
    {done : Nat}
    (balanced :
      Balanced threads memory log (plus others ⟨waits, .settling done⟩))
    (sound : Participant.Sound ⟨waits, .settling done⟩)
    (acts : advance waits memory choice (.settling done) = some outcome) :
    Keeps threads log others waits outcome := by
  have left := balanced.done_le coherent
  have positive : 0 < done := sound
  simp only [Stage.done] at left
  have exact : subtracted memory.todo done = memory.todo - done :=
    if_pos (by omega)
  have settled :
      ∀ signalling,
        signalling = others .signals + 0 +
          (if memory.todo - done = 0 then 1 else 0) →
        Work memory.iterations (memory.todo - done) log.completed.length
          log.signals (others .done + 0) signalling := by
    intro signalling signalling_eq
    refine balanced.work.settle positive (by omega) ?_ signalling_eq
    simp only [plus, Participant.weight, Stage.done]
    omega
  simp only [advance, exact] at acts
  split_ifs at acts with last
  · cases acts
    refine ⟨?_, trivial⟩
    exact { balanced with
      work := settled _ (by
        rw [if_pos last, Int.add_zero]
        rfl) }
  · cases acts
    refine ⟨?_, sound_out waits⟩
    cases waits <;>
    · exact { balanced with
        work := settled _ (by
          rw [if_neg last, Int.add_zero]
          rfl) }

omit coherent in
/-- The event is signalled at most once. -/
theorem signals_le
    {sums : Quantity → Int}
    (balanced : Balanced threads memory log sums)
    (nonneg : 0 ≤ sums .signals) :
    log.signals ≤ 1 := by
  have signalled := balanced.work.signalled
  split_ifs at signalled <;> omega

theorem plus_nonneg
    (participant : Participant)
    (quantity : Quantity) :
    0 ≤ plus others participant quantity :=
  Int.add_nonneg (coherent.nonneg quantity)
    (participant.weight_nonneg quantity)

/-- The caller waits alone. -/
theorem others_waited
    (balanced : Balanced threads memory log (plus others ⟨true, stage⟩)) :
    others .waited = 0 ∧ others .passed = 0 := by
  have one := balanced.caller
  have waited := coherent.waited
  have passed := coherent.passed
  have nonneg := coherent.nonneg .waited
  have passedNonneg := coherent.nonneg .passed
  simp only [plus, Participant.weight, if_true] at one
  omega

/-- The event of a caller that waits tells whether it was signalled. -/
theorem event_of_waiting
    (balanced : Balanced threads memory log (plus others ⟨true, stage⟩))
    (waits : stage.waited = 1) :
    (log.signals = 1 ∧ memory.event = 0) ∨
      (log.signals = 0 ∧ memory.event = eventWaited) := by
  refine balanced.wake.event_of_waited
    (balanced.signals_le (plus_nonneg coherent _ _)) ?_
  simp only [plus, (balanced.others_waited coherent).1, Participant.weight,
    if_true, waits, Int.zero_add]

/-- At most one participant has decremented the event. -/
theorem waited_le_one
    (balanced : Balanced threads memory log (plus others ⟨waits, stage⟩)) :
    plus others ⟨waits, stage⟩ .waited ≤ 1 ∧
      plus others ⟨waits, stage⟩ .sleeps ≤
        plus others ⟨waits, stage⟩ .waited := by
  have one := balanced.caller
  have waited := coherent.waited
  have sleeps := coherent.sleeps
  cases waits <;> cases stage <;>
    simp [plus, Participant.weight, Stage.waited, Stage.sleeps] at one ⊢ <;>
    omega

/-- The event is signalled. -/
theorem signalling
    (balanced :
      Balanced threads memory log (plus others ⟨waits, .signalling⟩))
    (acts : advance waits memory choice .signalling = some outcome) :
    Keeps threads log others waits outcome := by
  have fresh : log.signals = 0 := by
    have signalled := balanced.work.signalled
    have others_nonneg := coherent.nonneg .signals
    simp only [plus, Participant.weight, Stage.signals] at signalled
    split_ifs at signalled <;> omega
  have few := balanced.waited_le_one coherent
  have nonneg := plus_nonneg coherent ⟨waits, .signalling⟩
  simp only [advance] at acts
  split_ifs at acts with idle
  · cases acts
    refine ⟨?_, sound_out waits⟩
    cases waits <;>
    · exact { balanced with
        work := balanced.work.signal rfl (by
          change others .signals + 1 = others .signals + 0 + 1
          omega)
        wake := balanced.wake.signal fresh ⟨nonneg .waited, few.1⟩ few.2 rfl
          rfl (by rw [if_pos idle, Int.add_zero]; rfl) (nonneg .wakes) }
  · cases acts
    refine ⟨?_, trivial⟩
    cases waits <;>
    · exact { balanced with
        work := balanced.work.signal rfl (by
          change others .signals + 1 = others .signals + 0 + 1
          omega)
        wake := balanced.wake.signal fresh ⟨nonneg .waited, few.1⟩ few.2 rfl
          rfl (by
            rw [if_neg idle]
            change others .wakes + 1 = others .wakes + 0 + 1
            omega) (nonneg .wakes) }

omit coherent in
/-- The caller is woken up. -/
theorem waking
    (balanced : Balanced threads memory log (plus others ⟨waits, .waking⟩)) :
    Balanced threads { memory with sleeping := false } log
      (plus others ⟨waits, out waits⟩) := by
  have wake := balanced.wake
  cases waits <;>
  · exact { balanced with
      wake := wake.go rfl wake.seen (by rintro ⟨⟩) }

/-- The caller decrements the event. -/
theorem waiting
    (balanced : Balanced threads memory log (plus others ⟨true, .waiting⟩))
    (acts : advance true memory choice .waiting = some outcome) :
    Keeps threads log others true outcome := by
  have once := balanced.signals_le (plus_nonneg coherent _ _)
  obtain ⟨unwaited, unpassed⟩ := balanced.others_waited coherent
  have fresh : plus others ⟨true, .waiting⟩ .waited = 0 := by
    rw [plus, unwaited]
    rfl
  have order := (balanced.waited_le_one coherent).2
  have wake :
      ∀ stage : Stage,
        stage.waited = 1 →
        (0 < stage.passed → decremented memory.event = 0) →
        Wake (decremented memory.event) log.signals memory.sleeping
          (plus others ⟨true, stage⟩ .waited)
          (plus others ⟨true, stage⟩ .passed)
          (plus others ⟨true, stage⟩ .sleeps)
          (plus others ⟨true, stage⟩ .wakes) := by
    intro stage waited passed
    refine balanced.wake.wait once fresh order ?_ ?_
    · simp only [plus, Participant.weight, if_true, unwaited, waited]
      decide
    · simp only [plus, Participant.weight, if_true, unpassed, Int.zero_add]
      exact passed
  simp only [advance] at acts
  generalize decremented memory.event = event at acts wake
  split_ifs at acts with signalled
  · cases acts
    refine ⟨?_, rfl⟩
    exact { balanced with
      wake := wake .destroying rfl (fun _ => signalled) }
  · cases acts
    refine ⟨?_, rfl⟩
    exact { balanced with
      wake := wake .waitLoading rfl (fun positive => absurd positive (by decide)) }

/-- The caller looks at the event. -/
theorem waitLoading
    (balanced :
      Balanced threads memory log (plus others ⟨true, .waitLoading⟩))
    (acts : advance true memory choice .waitLoading = some outcome) :
    Keeps threads log others true outcome := by
  have wake := balanced.wake
  rcases balanced.event_of_waiting coherent rfl with
    ⟨signalled, zero⟩ | ⟨unsignalled, untouched⟩
  · simp only [advance, if_pos zero] at acts
    cases acts
    refine ⟨?_, rfl⟩
    exact { balanced with
      wake := wake.go rfl (fun _ => signalled) wake.parked }
  · rw [advance, untouched, if_neg (by decide), if_neg (by simp)] at acts
    cases acts
    refine ⟨?_, rfl⟩
    exact { balanced with wake := wake.go rfl wake.seen wake.parked }

/-- The caller goes to sleep, unless the event has changed. -/
theorem parking
    (balanced : Balanced threads memory log (plus others ⟨true, .parking⟩))
    (acts : advance true memory choice .parking = some outcome) :
    Keeps threads log others true outcome := by
  have wake := balanced.wake
  simp only [advance] at acts
  split_ifs at acts with untouched
  · cases acts
    have unsignalled : log.signals = 0 := by
      rcases balanced.event_of_waiting coherent rfl with
        ⟨_, zero⟩ | ⟨unsignalled, _⟩
      · rw [zero] at untouched
        exact absurd untouched (by decide)
      · exact unsignalled
    have asleep : 0 < plus others ⟨true, .asleep⟩ .sleeps := by
      have nonneg := coherent.nonneg .sleeps
      change 0 < others .sleeps + 1
      omega
    refine ⟨?_, rfl⟩
    exact { balanced with
      wake := wake.go rfl wake.seen (fun _ => ⟨asleep, .inl unsignalled⟩) }
  · cases acts
    refine ⟨?_, rfl⟩
    exact { balanced with wake := wake.go rfl wake.seen wake.parked }

omit coherent in
/-- The caller wakes up. -/
theorem asleep
    (balanced : Balanced threads memory log (plus others ⟨true, .asleep⟩)) :
    Balanced threads { memory with sleeping := false } log
      (plus others ⟨true, .waitLoading⟩) := by
  have wake := balanced.wake
  exact { balanced with
    wake := wake.go rfl wake.seen (by rintro ⟨⟩) }

/-- The caller is done with the event. -/
theorem destroying
    (balanced : Balanced threads memory log (plus others ⟨true, .destroying⟩))
    (acts : advance true memory choice .destroying = some outcome) :
    Keeps threads log others true outcome := by
  have unpassed := (balanced.others_waited coherent).2
  have passed : 0 < plus others ⟨true, .destroying⟩ .passed := by
    rw [plus, unpassed]
    decide
  have signalled := balanced.wake.seen passed
  have zero : memory.event = 0 := by
    rcases balanced.event_of_waiting coherent rfl with
      ⟨_, zero⟩ | ⟨unsignalled, _⟩
    · exact zero
    · omega
  simp only [advance, if_pos zero] at acts
  cases acts
  exact ⟨{ balanced with }, trivial⟩

/-- A participant leaves. -/
theorem leaving
    (balanced : Balanced threads memory log (plus others ⟨waits, .leaving⟩))
    (acts : advance waits memory choice .leaving = some outcome) :
    Keeps threads log others waits outcome := by
  have counted := balanced.lifetime.counted
  have size := balanced.size
  have few := balanced.few
  have present := coherent.present
  have nonneg := coherent.nonneg .present
  simp only [plus, Participant.weight, Stage.present] at counted size
  have lifetime :
      ∀ stage : Stage,
        stage.present = 0 →
        stage.frees = (if decremented memory.thrCnt = 0 then 1 else 0) →
        Lifetime (decremented memory.thrCnt) log.freed
          (plus others ⟨waits, stage⟩ .present)
          (plus others ⟨waits, stage⟩ .frees) := by
    intro stage absent frees
    refine balanced.lifetime.leave (by omega) ?_ ?_ ?_
    · change others .present + 1 = others .present + stage.present + 1
      omega
    · change 0 ≤ others .present + stage.present
      omega
    · change others .frees + stage.frees = others .frees + 0 + _
      rw [frees, Int.add_zero]
  simp only [advance] at acts
  generalize decremented memory.thrCnt = thrCnt at acts lifetime
  split_ifs at acts with last
  · cases acts
    refine ⟨?_, trivial⟩
    exact { balanced with
      lifetime := lifetime .freeing rfl (if_pos last).symm }
  · cases acts
    refine ⟨?_, trivial⟩
    exact { balanced with
      lifetime := lifetime .finished rfl (if_neg last).symm }

omit coherent in
/-- The last participant frees the object. -/
theorem freeing
    (balanced : Balanced threads memory log (plus others ⟨waits, .freeing⟩)) :
    Balanced threads memory (log.record .free)
      (plus others ⟨waits, .finished⟩) :=
  { balanced with
    lifetime := balanced.lifetime.free rfl (by
      change others .frees + 1 = others .frees + 0 + 1
      omega) }

/-- One step of any participant keeps the balances. -/
theorem advance
    {participant : Participant}
    (balanced : Balanced threads memory log (plus others participant))
    (sound : participant.Sound)
    (acts :
      Apply.advance participant.waits memory choice participant.stage =
        some outcome) :
    Balanced threads outcome.memory (log.record outcome.effect)
        (plus others { participant with stage := outcome.stage }) ∧
      Participant.Sound { participant with stage := outcome.stage } := by
  rcases participant with ⟨waits, stage⟩
  cases stage with
  | pending => exact balanced.pending coherent acts
  | claiming done => exact balanced.claiming coherent sound acts
  | settling done => exact balanced.settling coherent sound acts
  | signalling => exact balanced.signalling coherent acts
  | leaving => exact balanced.leaving coherent acts
  | reading idx =>
    cases acts
    exact ⟨{ balanced with }, trivial⟩
  | invoking idx done =>
    cases acts
    exact ⟨balanced.invoking, trivial⟩
  | working idx done =>
    cases acts
    exact balanced.working coherent
  | waking =>
    cases acts
    exact ⟨balanced.waking, sound_out waits⟩
  | freeing =>
    cases acts
    exact ⟨balanced.freeing, trivial⟩
  | waiting =>
    obtain rfl : waits = true := sound
    exact balanced.waiting coherent acts
  | waitLoading =>
    obtain rfl : waits = true := sound
    exact balanced.waitLoading coherent acts
  | parking =>
    obtain rfl : waits = true := sound
    exact balanced.parking coherent acts
  | destroying =>
    obtain rfl : waits = true := sound
    exact balanced.destroying coherent acts
  | asleep =>
    obtain rfl : waits = true := sound
    simp only [Apply.advance] at acts
    split_ifs at acts
    cases acts
    exact ⟨balanced.asleep, rfl⟩
  | finished => cases acts
  | crashed => exact sound.elim

end Balanced

end LibDispatch.Apply
