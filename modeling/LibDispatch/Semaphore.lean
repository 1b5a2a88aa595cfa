import LibDispatch.ActivitySum
import LibDispatch.Reachability

namespace LibDispatch.Semaphore

/-!
# Counting semaphores

`dispatch_semaphore_signal` and `dispatch_semaphore_wait` of `src/semaphore.c`.
A counter in user space, `dsema_value`, is kept next to a kernel semaphore: a
wait that takes the counter below zero sleeps in the kernel, a signal that finds
it below zero owes the kernel one post.  Every atomic access to the counter and
every call of the kernel is one step.
-/

/-- The three kinds of timeout that `_dispatch_semaphore_wait_slow` tells
apart. -/
inductive Timeout where
  | now
  | forever
  | at
  deriving Repr, DecidableEq

/-- Where a call stands. -/
inductive Call where
  | signal
  /-- `_dispatch_semaphore_signal_slow`: a post is owed to the kernel. -/
  | post
  | wait (timeout : Timeout)
  | timedWait
  /-- The wait has timed out and reads the counter. -/
  | undoLoad
  /-- The compare-and-swap that undoes the decrement. -/
  | undo (orig : Int)
  /-- The wake-up of another thread's signal is drained. -/
  | drain
  /-- `_dispatch_sema4_wait` of a wait without timeout. -/
  | sleep
  deriving Repr, DecidableEq

/-- A call of one thread. -/
structure Activity where
  tid : UInt32
  call : Call
  deriving Repr, DecidableEq

/-- A semaphore, the calls in progress and the history of the calls. -/
structure State where
  /-- `dsema_value`. -/
  value : Int
  /-- The counter of the kernel semaphore. -/
  posts : Nat
  activities : List Activity
  crashed : Bool
  /-- Calls of `dispatch_semaphore_signal` that have begun. -/
  signalCalls : Nat
  /-- Signals that have taken effect. -/
  signals : Nat
  /-- Waits that have returned 0. -/
  acquired : Nat
  /-- Waits that have returned a timeout. -/
  timeouts : Nat

/-- `dispatch_semaphore_create`, which refuses a negative value. -/
def create (value : Int) : Option State :=
  if value < 0 then
    none
  else
    some
      { value := value
        posts := 0
        activities := []
        crashed := false
        signalCalls := 0
        signals := 0
        acquired := 0
        timeouts := 0 }

/-- The value of an `intptr_t` after an addition. -/
def wrap (value : Int) : Int :=
  (value + 2 ^ 63) % 2 ^ 64 - 2 ^ 63

/-- What the environment decides: whether the thread proceeds, or its timed wait
times out and its weak compare-and-swap fails. -/
inductive Choice where
  | proceed
  | giveUp
  deriving Repr, DecidableEq

variable (state : State)

/-- `dispatch_semaphore_signal`. -/
def State.signal : State × Option Call :=
  let value := wrap (state.value + 1)
  let signalled :=
    { state with value := value, signals := state.signals + 1 }
  if value > 0 then
    (signalled, none)
  else if value = -2 ^ 63 then
    ({ signalled with crashed := true }, none)
  else
    (signalled, some .post)

/-- `dispatch_semaphore_wait` and the switch of the slow path. -/
def State.wait (timeout : Timeout) : State × Option Call :=
  let value := wrap (state.value - 1)
  let decremented := { state with value := value }
  if value ≥ 0 then
    ({ decremented with acquired := state.acquired + 1 }, none)
  else
    match timeout with
    | .now => (decremented, some .undoLoad)
    | .forever => (decremented, some .sleep)
    | .at => (decremented, some .timedWait)

/-- `while (orig < 0)`. -/
def undoFrom (orig : Int) : Call :=
  if orig < 0 then .undo orig else .drain

/-- The compare-and-swap that undoes the decrement. -/
def State.undo (orig : Int) : Choice → State × Option Call
  | .proceed =>
    if state.value = orig then
      ({ state with
        value := wrap (orig + 1)
        timeouts := state.timeouts + 1 }, none)
    else
      (state, some (undoFrom state.value))
  | .giveUp => (state, some (undoFrom state.value))

/-- A wait in the kernel consumes one post, or has to go on. -/
def State.consume : Option (State × Option Call) :=
  if state.posts = 0 then
    none
  else
    some ({ state with
      posts := state.posts - 1
      acquired := state.acquired + 1 }, none)

/-- One step of a call; none while it sleeps in the kernel. -/
def State.advance
    (state : State)
    (choice : Choice) : Call → Option (State × Option Call)
  | .signal => some state.signal
  | .post => some ({ state with posts := state.posts + 1 }, none)
  | .wait timeout => some (state.wait timeout)
  | .timedWait =>
    match choice with
    | .proceed => state.consume
    | .giveUp => some (state, some .undoLoad)
  | .undoLoad => some (state, some (undoFrom state.value))
  | .undo orig => some (state.undo orig choice)
  | .drain => state.consume
  | .sleep => state.consume

/-- A thread begins a call, or the call of a thread takes a step. -/
inductive Step : State → State → Prop where
  | begin
      {state : State}
      (tid : UInt32)
      (call : Call)
      (running : state.crashed = false)
      (isCall : call = .signal ∨ ∃ timeout, call = .wait timeout)
      (outside : ∀ activity ∈ state.activities, activity.tid ≠ tid) :
      Step state
        { state with
          activities := ⟨tid, call⟩ :: state.activities
          signalCalls :=
            state.signalCalls + if call = .signal then 1 else 0 }
  | advance
      {state after : State}
      (earlier later : List Activity)
      (activity : Activity)
      (choice : Choice)
      (continued : Option Call)
      (running : state.crashed = false)
      (scheduled : state.activities = earlier ++ activity :: later)
      (accepted : state.advance choice activity.call =
        some (after, continued)) :
      Step state
        { after with
          activities := earlier ++
            ((continued.map (Activity.mk activity.tid)).toList ++ later) }

/-- The states in which a semaphore is created with the given `intptr_t`. -/
def Created (initial : Int) (state : State) : Prop :=
  initial < 2 ^ 63 ∧ create initial = some state

/-! ## What the calls in progress account for -/

/-- The quantities a call in progress contributes to. -/
inductive Quantity where
  | waiting
  | owed

/-- The thread has decremented below zero and neither undone it nor consumed a
post. -/
def Call.isWaiting : Call → Bool
  | timedWait => true
  | undoLoad => true
  | undo _ => true
  | drain => true
  | sleep => true
  | _ => false

/-- The signal is between its increment and its post. -/
def Call.owesPost : Call → Bool
  | post => true
  | _ => false

/-- The contribution of a call at each of its stages. -/
def Call.weight : Call → Quantity → Int
  | timedWait, .waiting => 1
  | undoLoad, .waiting => 1
  | undo _, .waiting => 1
  | drain, .waiting => 1
  | sleep, .waiting => 1
  | post, .owed => 1
  | _, _ => 0

/-- The contribution of an activity. -/
def Activity.weight (activity : Activity) (quantity : Quantity) : Int :=
  activity.call.weight quantity

theorem Call.weight_nonneg
    (call : Call)
    (quantity : Quantity) :
    0 ≤ call.weight quantity := by
  cases call <;> cases quantity <;> simp [Call.weight]

theorem Call.weight_waiting
    (call : Call) :
    call.weight .waiting = if call.isWaiting then 1 else 0 := by
  cases call <;> rfl

theorem Call.weight_owed
    (call : Call) :
    call.weight .owed = if call.owesPost then 1 else 0 := by
  cases call <;> rfl

theorem Call.weight_le_one
    (call : Call)
    (quantity : Quantity) :
    call.weight quantity ≤ 1 := by
  cases call <;> cases quantity <;> simp [Call.weight]

@[inherit_doc LibDispatch.withCall]
abbrev withCall := LibDispatch.withCall Call.weight

/-- The accounts of a semaphore, given the sums over the calls in progress. -/
structure Balanced
    (initial : Int)
    (state : State)
    (sums : Quantity → Int) : Prop where
  waiting :
    sums .waiting = max 0 (-state.value) + state.posts + sums .owed
  value :
    state.value = initial + state.signals - state.acquired - sums .waiting
  below : state.value < 2 ^ 63

/-- What holds of the sums over the calls of any threads but one. -/
structure Coherent (others : Quantity → Int) : Prop where
  waiting : 0 ≤ others .waiting
  few : others .waiting < 2 ^ 32
  owed : 0 ≤ others .owed

/-- An `intptr_t` that does not overflow. -/
theorem wrap_of_range
    {value : Int}
    (above : -2 ^ 63 ≤ value)
    (below : value < 2 ^ 63) :
    wrap value = value := by
  unfold wrap
  omega

/-- The one sum that overflows. -/
theorem wrap_two_pow : wrap (2 ^ 63) = -2 ^ 63 := by
  decide

/-- Both continuations of a timed-out wait still have their decrement. -/
@[simp]
theorem weight_undoFrom
    (orig : Int)
    (quantity : Quantity) :
    (undoFrom orig).weight quantity = Call.undoLoad.weight quantity := by
  unfold undoFrom
  split <;> cases quantity <;> rfl

/-- A thread tries to undo only what is below zero. -/
def Call.Staged : Call → Prop
  | undo orig => orig < 0
  | _ => True

theorem undoFrom_staged
    (orig : Int) :
    (undoFrom orig).Staged := by
  unfold undoFrom
  split
  · assumption
  · trivial

variable {choice : Choice} {call : Call}

/-- A call goes on to a stage that keeps its own condition. -/
theorem State.advance_staged
    {state after : State}
    {next : Call}
    (accepted : state.advance choice call = some (after, some next)) :
    next.Staged := by
  cases call with
  | signal =>
    simp only [State.advance, State.signal, Option.some.injEq] at accepted
    split_ifs at accepted <;> cases accepted
    trivial
  | post =>
    cases accepted
  | wait timeout =>
    simp only [State.advance, State.wait, Option.some.injEq] at accepted
    split_ifs at accepted
    · cases accepted
    · cases timeout <;> cases accepted <;> trivial
  | timedWait =>
    cases choice with
    | proceed =>
      simp [State.advance, State.consume] at accepted
    | giveUp =>
      cases accepted
      trivial
  | undoLoad =>
    cases accepted
    exact undoFrom_staged state.value
  | undo orig =>
    cases choice with
    | proceed =>
      simp only [State.advance, State.undo, Option.some.injEq] at accepted
      split_ifs at accepted
      · cases accepted
      · cases accepted
        exact undoFrom_staged state.value
    | giveUp =>
      cases accepted
      exact undoFrom_staged state.value
  | drain | sleep =>
    simp [State.advance, State.consume] at accepted

/-- A signal takes effect in its first step, and no other call does. -/
theorem State.advance_signals
    {state after : State}
    {continued : Option Call}
    (accepted : state.advance choice call = some (after, continued)) :
    after.signalCalls = state.signalCalls ∧
      after.signals = state.signals + (if call = .signal then 1 else 0) ∧
      continued ≠ some .signal := by
  have retries : undoFrom state.value ≠ .signal := by
    unfold undoFrom
    split <;> simp
  cases call with
  | signal =>
    simp only [State.advance, State.signal, Option.some.injEq] at accepted
    split_ifs at accepted <;> cases accepted <;> simp
  | wait timeout =>
    simp only [State.advance, State.wait, Option.some.injEq] at accepted
    split_ifs at accepted
    · cases accepted
      simp
    · cases timeout <;> cases accepted <;> simp
  | timedWait =>
    cases choice with
    | proceed =>
      simp only [State.advance, State.consume] at accepted
      split_ifs at accepted
      cases accepted
      simp
    | giveUp =>
      cases accepted
      simp
  | undo orig =>
    cases choice with
    | proceed =>
      simp only [State.advance, State.undo, Option.some.injEq] at accepted
      split_ifs at accepted <;> cases accepted <;> simp [retries]
    | giveUp =>
      cases accepted
      simp [retries]
  | drain | sleep =>
    simp only [State.advance, State.consume] at accepted
    split_ifs at accepted
    cases accepted
    simp
  | post | undoLoad =>
    cases accepted
    simp [retries]

namespace Balanced

variable {initial : Int} {state after : State}
  {others : Quantity → Int} {continued : Option Call}

variable (balanced : Balanced initial state (withCall others (some call)))

include balanced

/-- Few waits are in progress, so the counter stays far from `LONG_MIN`. -/
theorem above
    (coherent : Coherent others) :
    -2 ^ 33 < state.value := by
  have waiting := balanced.waiting
  have few := coherent.few
  have owed := coherent.owed
  have ownOwed := call.weight_nonneg .owed
  have ownWaiting := call.weight_le_one .waiting
  simp only [withCall_some] at waiting
  omega

omit balanced in
/-- A signal adds one to the counter, or owes a post to a waiting thread. -/
theorem signal
    (balanced : Balanced initial state (withCall others (some .signal)))
    (coherent : Coherent others)
    (finished : state.signal = (after, continued))
    (running : after.crashed = false) :
    Balanced initial after (withCall others continued) := by
  have above := balanced.above coherent
  obtain ⟨waiting, value, below⟩ := balanced
  simp only [withCall_some, Call.weight, Int.add_zero] at waiting value
  by_cases overflows : state.value + 1 = 2 ^ 63
  · rw [State.signal, overflows, wrap_two_pow] at finished
    simp only [↓reduceIte, gt_iff_lt, Int.neg_pos] at finished
    rw [if_neg (by decide)] at finished
    obtain ⟨rfl, -⟩ := finished
    cases running
  · have exact : wrap (state.value + 1) = state.value + 1 :=
      wrap_of_range (by omega) (by omega)
    simp only [State.signal, exact] at finished
    split_ifs at finished with positive least
    · cases finished
      constructor
      all_goals
        simp only [withCall_none]
        omega
    · omega
    · cases finished
      constructor
      all_goals
        simp only [withCall_some, Call.weight]
        omega

omit balanced in
/-- A wait takes one from the counter and returns, or becomes a waiting
thread. -/
theorem wait
    {timeout : Timeout}
    (balanced : Balanced initial state
      (withCall others (some (.wait timeout))))
    (coherent : Coherent others)
    (finished : state.wait timeout = (after, continued)) :
    Balanced initial after (withCall others continued) := by
  have above := balanced.above coherent
  obtain ⟨waiting, value, below⟩ := balanced
  simp only [withCall_some, Call.weight, Int.add_zero] at waiting value
  have exact : wrap (state.value - 1) = state.value - 1 :=
    wrap_of_range (by omega) (by omega)
  simp only [State.wait, exact] at finished
  by_cases available : state.value - 1 ≥ 0
  · rw [if_pos available] at finished
    cases finished
    constructor
    all_goals
      simp only [withCall_none]
      omega
  · rw [if_neg available] at finished
    have sleeping :
        after = { state with value := state.value - 1 } ∧
          ∀ quantity, withCall others continued quantity =
            others quantity + Call.undoLoad.weight quantity := by
      cases timeout <;> cases finished <;> refine ⟨rfl, ?_⟩ <;>
        intro quantity <;> cases quantity <;> rfl
    obtain ⟨rfl, sums⟩ := sleeping
    constructor
    all_goals
      simp only [sums, Call.weight]
      omega

/-- A waiting thread that consumes a post. -/
theorem consume
    (isWaiting : call.weight .waiting = 1)
    (owesNothing : call.weight .owed = 0)
    (finished : state.consume = some (after, continued)) :
    Balanced initial after (withCall others continued) := by
  obtain ⟨waiting, value, below⟩ := balanced
  simp only [withCall_some, isWaiting, owesNothing] at waiting value
  simp only [State.consume, Option.ite_none_left_eq_some,
    Option.some.injEq] at finished
  obtain ⟨available, finished⟩ := finished
  cases finished
  refine ⟨?_, ?_, below⟩
  all_goals
    simp only [withCall_none]
    omega

/-- A waiting thread that goes on waiting. -/
theorem goOn
    {next : Call}
    (same : ∀ quantity, next.weight quantity = call.weight quantity) :
    Balanced initial state (withCall others (some next)) := by
  have sums : withCall others (some next) = withCall others (some call) := by
    funext quantity
    simp only [withCall_some, same]
  rw [sums]
  exact balanced

omit balanced in
/-- The compare-and-swap that undoes a decrement. -/
theorem undo
    {orig : Int}
    (balanced : Balanced initial state (withCall others (some (.undo orig))))
    (coherent : Coherent others)
    (negative : orig < 0)
    (finished : state.undo orig choice = (after, continued)) :
    Balanced initial after (withCall others continued) := by
  have retried :
      Balanced initial state
        (withCall others (some (undoFrom state.value))) :=
    balanced.goOn fun quantity => by
      rw [weight_undoFrom]
      cases quantity <;> rfl
  cases choice with
  | giveUp =>
    cases finished
    exact retried
  | proceed =>
    simp only [State.undo] at finished
    split_ifs at finished with unchanged
    · cases finished
      have above := balanced.above coherent
      obtain ⟨waiting, value, below⟩ := balanced
      simp only [withCall_some, Call.weight] at waiting value
      have exact : wrap (orig + 1) = orig + 1 :=
        wrap_of_range (by omega) (by omega)
      constructor
      all_goals
        simp only [withCall_none, exact]
        omega
    · cases finished
      exact retried

/-- Every step of every call keeps the accounts. -/
theorem advance
    (coherent : Coherent others)
    (staged : call.Staged)
    (accepted : state.advance choice call = some (after, continued))
    (running : after.crashed = false) :
    Balanced initial after (withCall others continued) := by
  cases call with
  | signal =>
    exact balanced.signal coherent (Option.some.inj accepted) running
  | post =>
    cases accepted
    obtain ⟨waiting, value, below⟩ := balanced
    simp only [withCall_some, Call.weight] at waiting value
    refine ⟨?_, ?_, below⟩
    all_goals
      simp only [withCall_none]
      omega
  | wait timeout =>
    exact balanced.wait coherent (Option.some.inj accepted)
  | timedWait =>
    cases choice with
    | proceed =>
      exact balanced.consume rfl rfl accepted
    | giveUp =>
      cases accepted
      exact balanced.goOn fun quantity => by cases quantity <;> rfl
  | undoLoad =>
    cases accepted
    exact balanced.goOn (weight_undoFrom state.value)
  | undo orig =>
    exact balanced.undo coherent staged (Option.some.inj accepted)
  | drain | sleep =>
    exact balanced.consume rfl rfl accepted

end Balanced

/-! ## Runs -/

variable (state : State)

/-- The number of signals that have not taken effect yet. -/
def State.pendingSignals : Nat :=
  state.activities.countP fun activity => activity.call = .signal

/-- What holds between the steps of any threads. -/
structure State.Invariant (initial : Int) (state : State) : Prop where
  nonneg : 0 ≤ initial
  called : state.signalCalls = state.signals + state.pendingSignals
  distinct : (state.activities.map Activity.tid).Nodup
  staged : ∀ activity ∈ state.activities, activity.call.Staged
  balanced :
    state.crashed = false →
      Balanced initial state (ledger Activity.weight state.activities)

/-- The sums over the calls of all threads but one. -/
theorem coherent_of_distinct
    {earlier later : List Activity}
    {activity : Activity}
    (distinct :
      ((earlier ++ activity :: later).map Activity.tid).Nodup) :
    Coherent (ledger Activity.weight (earlier ++ later)) := by
  have nonneg (quantity : Quantity) :
      0 ≤ ledger Activity.weight (earlier ++ later) quantity :=
    ledger_nonneg (fun other => other.call.weight_nonneg quantity) _
  have few : ledger Activity.weight (earlier ++ later) .waiting ≤
      (earlier ++ later).length :=
    ledger_le_length (fun other => other.call.weight_le_one .waiting) _
  have length := length_le_of_distinct distinct
  simp only [List.length_append, List.length_cons] at length few
  exact
    { waiting := nonneg .waiting
      few := by omega
      owed := nonneg .owed }

theorem create_invariant
    {initial : Int}
    {state : State}
    (created : Created initial state) :
    state.Invariant initial := by
  obtain ⟨below, created⟩ := created
  simp only [create, Option.ite_none_left_eq_some,
    Option.some.injEq] at created
  obtain ⟨nonneg, rfl⟩ := created
  exact
    { nonneg := by omega
      called := rfl
      distinct := List.nodup_nil
      staged := by simp
      balanced := fun _ =>
        { waiting := by
            simp only [ledger, sumOf_nil]
            omega
          value := by
            simp [ledger]
          below := below } }

/-- The threads at work are those that were, but for one that returns. -/
theorem tids_sublist
    (earlier later : List Activity)
    (activity : Activity)
    (continued : Option Call) :
    List.Sublist
      ((earlier ++ ((continued.map (Activity.mk activity.tid)).toList ++
        later)).map Activity.tid)
      ((earlier ++ activity :: later).map Activity.tid) := by
  cases continued with
  | none | some _ => simp

theorem State.Invariant.step
    {initial : Int}
    {state after : State}
    (invariant : state.Invariant initial)
    (stepped : Step state after) :
    after.Invariant initial := by
  cases stepped with
  | «begin» tid call running isCall outside =>
    have noWeight : ∀ quantity, call.weight quantity = 0 := by
      rcases isCall with rfl | ⟨timeout, rfl⟩ <;> intro quantity <;>
        cases quantity <;> rfl
    refine
      { invariant with
        called := ?called
        distinct := ?distinct
        staged := ?staged
        balanced := ?balanced }
    case called =>
      have called := invariant.called
      simp only [State.pendingSignals, List.countP_cons, decide_eq_true_eq]
        at called ⊢
      omega
    case distinct =>
      simp only [List.map_cons, List.nodup_cons, List.mem_map, not_exists,
        not_and]
      exact ⟨outside, invariant.distinct⟩
    case staged =>
      intro activity member
      rcases List.mem_cons.mp member with rfl | member
      · rcases isCall with rfl | ⟨timeout, rfl⟩ <;> trivial
      · exact invariant.staged activity member
    case balanced =>
      intro _
      have sums :
          ledger Activity.weight (⟨tid, call⟩ :: state.activities) =
            ledger Activity.weight state.activities := by
        funext quantity
        simp [ledger, Activity.weight, noWeight]
      obtain ⟨waiting, value, below⟩ := invariant.balanced running
      exact
        { waiting := by simpa only [sums] using waiting
          value := by simpa only [sums] using value
          below := below }
  | advance earlier later activity choice continued running scheduled
      accepted =>
      have distinct := invariant.distinct
      have staged := invariant.staged
      rw [scheduled] at distinct staged
      refine
        { invariant with
          called := ?called
          distinct := distinct.sublist
            (tids_sublist earlier later activity continued)
          staged := ?staged
          balanced := ?balanced }
      case called =>
        obtain ⟨sameCalls, signals, begun⟩ := State.advance_signals accepted
        have called := invariant.called
        have returned :
            (continued.map (Activity.mk activity.tid)).toList.countP
              (fun other => other.call = .signal) = 0 := by
          cases continued with
          | none => rfl
          | some next => simpa using begun
        simp only [State.pendingSignals, scheduled, List.countP_append,
          List.countP_cons, decide_eq_true_eq, returned] at called ⊢
        omega
      case staged =>
        intro other member
        simp only [List.mem_append, Option.mem_toList, Option.map_eq_some_iff]
          at member
        rcases member with early | ⟨next, isNext, rfl⟩ | late
        · exact staged other (by simp [early])
        · subst isNext
          exact State.advance_staged accepted
        · exact staged other (by simp [late])
      case balanced =>
        intro stillRunning
        have balanced := invariant.balanced running
        rw [scheduled, ledger_middle] at balanced
        have kept := Balanced.advance balanced
          (coherent_of_distinct distinct) (staged activity (by simp)) accepted
          stillRunning
        rw [ledger_continued fun _ => rfl]
        obtain ⟨waiting, value, below⟩ := kept
        exact ⟨waiting, value, below⟩

/-- The number of threads that have decremented the counter below zero and
neither undone it nor consumed a post. -/
def State.waitingThreads : Nat :=
  state.activities.countP fun activity => activity.call.isWaiting

/-- The number of posts owed by signals between increment and post. -/
def State.owedPosts : Nat :=
  state.activities.countP fun activity => activity.call.owesPost

/-- What a semaphore guarantees in each of its states. -/
structure Conserved (initial : Int) (state : State) : Prop where
  acquired : (state.acquired : Int) ≤ initial + state.signals
  waiting :
    (state.waitingThreads : Int) =
      max 0 (-state.value) + state.posts + state.owedPosts
  /-- A waiter that has timed out and goes on to drain a wake-up finds the
  counter not below zero; then each waiting thread has a post of its own. -/
  drain :
    ∀ activity ∈ state.activities, ∀ choice after,
      state.advance choice activity.call = some (after, some .drain) →
        0 ≤ after.value ∧
        after.posts + state.owedPosts = state.waitingThreads ∧
        1 ≤ after.posts + state.owedPosts

theorem sum_waiting :
    ledger Activity.weight state.activities .waiting =
      state.waitingThreads := by
  simp only [ledger, Activity.weight, Call.weight_waiting,
    State.waitingThreads, sumOf_indicator]

theorem sum_owed :
    ledger Activity.weight state.activities .owed = state.owedPosts := by
  simp only [ledger, Activity.weight, Call.weight_owed, State.owedPosts,
    sumOf_indicator]

/-- A call that goes on to drain is a timed-out wait that has just read a
counter not below zero. -/
theorem State.advance_drain
    {state after : State}
    (accepted : state.advance choice call = some (after, some .drain)) :
    after = state ∧ call.isWaiting = true ∧ 0 ≤ state.value := by
  have loaded
      (isDrain : undoFrom state.value = .drain) :
      0 ≤ state.value := by
    unfold undoFrom at isDrain
    split at isDrain
    · cases isDrain
    · omega
  cases call with
  | signal =>
    simp only [State.advance, State.signal, Option.some.injEq] at accepted
    split_ifs at accepted <;> cases accepted
  | post =>
    cases accepted
  | wait timeout =>
    simp only [State.advance, State.wait, Option.some.injEq] at accepted
    split_ifs at accepted
    · cases accepted
    · cases timeout <;> cases accepted
  | timedWait =>
    cases choice with
    | proceed =>
      simp [State.advance, State.consume] at accepted
    | giveUp =>
      cases accepted
  | undoLoad =>
    simp only [State.advance, Option.some.injEq, Prod.mk.injEq] at accepted
    exact ⟨accepted.1.symm, rfl, loaded accepted.2⟩
  | undo orig =>
    cases choice with
    | proceed =>
      simp only [State.advance, State.undo, Option.some.injEq] at accepted
      split_ifs at accepted
      · cases accepted
      · simp only [Prod.mk.injEq, Option.some.injEq] at accepted
        exact ⟨accepted.1.symm, rfl, loaded accepted.2⟩
    | giveUp =>
      simp only [State.advance, State.undo, Option.some.injEq,
        Prod.mk.injEq] at accepted
      exact ⟨accepted.1.symm, rfl, loaded accepted.2⟩
  | drain | sleep =>
    simp [State.advance, State.consume] at accepted

theorem State.Invariant.conserved
    {initial : Int}
    {state : State}
    (invariant : state.Invariant initial)
    (running : state.crashed = false) :
    Conserved initial state := by
  obtain ⟨waiting, value, -⟩ := invariant.balanced running
  rw [sum_waiting, sum_owed] at waiting
  rw [sum_waiting] at value
  refine { acquired := ?_, waiting := waiting, drain := ?_ }
  · omega
  · intro activity member choice after accepted
    obtain ⟨rfl, isWaiting, nonneg⟩ := State.advance_drain accepted
    have present : 0 < after.waitingThreads :=
      List.countP_pos_iff.mpr ⟨activity, member, isWaiting⟩
    refine ⟨nonneg, ?_, ?_⟩ <;> omega

/-- Posts and decrements are conserved by every interleaving of signals and
waits. -/
theorem reachable_conserved
    {initial : Int}
    {state : State}
    (reached : Reachable (Created initial) Step state)
    (running : state.crashed = false) :
    Conserved initial state := by
  have invariant : state.Invariant initial :=
    reached.invariant create_invariant fun invariant stepped =>
      invariant.step stepped
  exact invariant.conserved running

/-- A wait that times out just as a signal comes: it goes on to drain the post
that the signal still owes. -/
theorem lateTimeout_conserved :
    ∃ state : State,
      Reachable (Created 0) Step state ∧
        state.activities = [⟨1, .drain⟩, ⟨2, .post⟩] ∧
        state.posts = 0 ∧ Conserved 0 state := by
  have start : Reachable (Created 0) Step
      { value := 0, posts := 0, activities := [], crashed := false
        signalCalls := 0, signals := 0, acquired := 0, timeouts := 0 } :=
    .start ⟨by decide, rfl⟩
  have signalCalled := start.next (.begin 2 .signal rfl (by simp) (by simp))
  have waitCalled := signalCalled.next
    (.begin 1 (.wait .at) rfl (by simp) (by simp))
  have waiting := waitCalled.next
    (.advance [] [⟨2, .signal⟩] ⟨1, .wait .at⟩ .proceed (some .timedWait)
      rfl rfl rfl)
  have timedOut := waiting.next
    (.advance [] [⟨2, .signal⟩] ⟨1, .timedWait⟩ .giveUp (some .undoLoad)
      rfl rfl rfl)
  have signalled := timedOut.next
    (.advance [⟨1, .undoLoad⟩] [] ⟨2, .signal⟩ .proceed (some .post)
      rfl rfl rfl)
  have draining := signalled.next
    (.advance [] [⟨2, .post⟩] ⟨1, .undoLoad⟩ .proceed (some .drain)
      rfl rfl rfl)
  exact ⟨_, draining, rfl, rfl, reachable_conserved draining rfl⟩

/-- A call that cannot go on without a wake-up waits for a post, and there is
none. -/
theorem State.advance_none
    {state : State}
    (blocked : state.advance .proceed call = none) :
    call.isWaiting = true ∧ call.owesPost = false ∧ state.posts = 0 := by
  cases call with
  | timedWait | drain | sleep =>
    simpa [State.advance, State.consume, Call.isWaiting, Call.owesPost]
      using blocked
  | _ => cases blocked

/-- No wake-up is lost: when every call in progress is blocked in the kernel,
every unit that was there at first or that a call has signalled is acquired, and
the counter is the number of threads that are blocked. -/
theorem reachable_blocksWithoutUnits
    {initial : Int}
    {state : State}
    (reached : Reachable (Created initial) Step state)
    (running : state.crashed = false)
    (someCall : state.activities ≠ [])
    (blocked : ∀ activity ∈ state.activities,
      state.advance .proceed activity.call = none) :
    state.acquired = initial + state.signalCalls ∧
      state.value = -state.activities.length := by
  have invariant : state.Invariant initial :=
    reached.invariant create_invariant fun invariant stepped =>
      invariant.step stepped
  obtain ⟨waiting, value, -⟩ := invariant.balanced running
  have called := invariant.called
  have all : state.waitingThreads = state.activities.length :=
    List.countP_eq_length.mpr fun activity member =>
      (State.advance_none (blocked activity member)).1
  have noneOwed : state.owedPosts = 0 :=
    List.countP_eq_zero.mpr fun activity member => by
      simp [State.advance_none (blocked activity member)]
  have nonePending : state.pendingSignals = 0 :=
    List.countP_eq_zero.mpr fun activity member isSignal => by
      have waits := (State.advance_none (blocked activity member)).1
      rw [of_decide_eq_true isSignal] at waits
      cases waits
  have noPosts : state.posts = 0 := by
    obtain ⟨activity, member⟩ := List.exists_mem_of_ne_nil _ someCall
    exact (State.advance_none (blocked activity member)).2.2
  have positive := List.length_pos_of_ne_nil someCall
  rw [sum_waiting] at waiting value
  rw [sum_owed] at waiting
  omega

/-- Three waits on a semaphore that was created with one unit: the first takes
the unit, a signal wakes the second, and the third sleeps. -/
theorem oneSleeper_blocksWithoutUnits :
    ∃ state : State,
      Reachable (Created 1) Step state ∧ state.activities = [⟨3, .sleep⟩] ∧
        state.signalCalls = 1 ∧ state.acquired = 1 + (state.signalCalls : Int) ∧
        state.value = -state.activities.length := by
  have start : Reachable (Created 1) Step _ := .start ⟨by decide, rfl⟩
  have called := start.next (.begin 1 (.wait .forever) rfl (by simp) (by simp))
  have acquired := called.next
    (.advance [] [] ⟨1, .wait .forever⟩ .proceed none rfl rfl rfl)
  have again := acquired.next
    (.begin 2 (.wait .forever) rfl (by simp) (by simp))
  have asleep := again.next
    (.advance [] [] ⟨2, .wait .forever⟩ .proceed (some .sleep) rfl rfl rfl)
  have third := asleep.next (.begin 3 (.wait .forever) rfl (by simp) (by simp))
  have bothAsleep := third.next
    (.advance [] [⟨2, .sleep⟩] ⟨3, .wait .forever⟩ .proceed (some .sleep)
      rfl rfl rfl)
  have signals := bothAsleep.next (.begin 1 .signal rfl (by simp) (by simp))
  have signalled := signals.next
    (.advance [] [⟨3, .sleep⟩, ⟨2, .sleep⟩] ⟨1, .signal⟩ .proceed (some .post)
      rfl rfl rfl)
  have posted := signalled.next
    (.advance [] [⟨3, .sleep⟩, ⟨2, .sleep⟩] ⟨1, .post⟩ .proceed none rfl rfl
      rfl)
  have woken := posted.next
    (.advance [⟨3, .sleep⟩] [] ⟨2, .sleep⟩ .proceed none rfl rfl rfl)
  exact ⟨_, woken, rfl, rfl, reachable_blocksWithoutUnits woken rfl (by decide)
    (by decide)⟩

end LibDispatch.Semaphore
