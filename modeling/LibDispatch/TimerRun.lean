import LibDispatch.TimerCounts
import LibDispatch.TimerHeapGuarantees

namespace LibDispatch.TimerRun

open TimerHeap TimerSource

/-!
# Running the timers that are due

The loop of `_dispatch_timers_run` of `src/event/event.c` over one heap.  Other
threads may latch the pending data of a source and suspend or resume it between
two rounds; the pending configurations are those that are there at first.
-/

/-! ## The source -/

/-- A timer whose interval is not zero. -/
abbrev Periodic := { timer : TimerSource.Timer // 0 < timer.interval.toNat }

/-- `_dispatch_timer_unote_compute_missed`. -/
def Periodic.computeMissed (timer : Periodic) (now : UInt64) : Periodic :=
  ⟨(timer.1.computeMissed now 0).1, by
    unfold Timer.computeMissed
    dsimp only
    split <;> exact timer.2⟩

/-- A pending configuration, with the index of the heap for its clock. -/
structure Config where
  tidx : Nat
  timer : Periodic

/-- What the loop reads and writes of a timer that is in the heap. -/
structure Refs where
  timer : Periodic
  /-- `DISPATCH_TIMER_AFTER`. -/
  after : Bool
  pendingConfig : Option Config

/-- What a round finds of the source of its timer. -/
structure Observed where
  pendingData : UInt64
  suspended : Bool

/-- What a round does with its timer: the fields it writes, whether the timer
stays in the heap, and whether it is passed to `dux_merge_evt`. -/
structure Effect where
  refs : Refs
  stays : Bool
  merges : Bool

/-- A heap and its timers, with the calls of `dux_merge_evt` for each. -/
structure Timers (Timer : Type) where
  dth : TimerHeap Timer
  refs : Timer → Refs
  merges : Timer → Nat

/-- `dt_timer.heap_key`. -/
def Refs.keys (refs : Refs) : HeapId → Nat
  | .target => refs.timer.1.target.toNat
  | .deadline => refs.timer.1.deadline.toNat

/-- `_dispatch_timer_unote_needs_rearm`; no timer of a heap is cancelled. -/
def Refs.needsRearm (refs : Refs) (suspended : Bool) : Bool :=
  !suspended && decide (refs.timer.1.target < int64Max)

variable (tidx : Nat) (now : UInt64)

/-- `_dispatch_timer_unote_configure` and `_dispatch_timer_unote_resume` of a
timer that is armed in the heap of the given index.  A timer with another clock
leaves it for another heap. -/
def Refs.configure
    (refs : Refs)
    (suspended : Bool)
    (config : Config) : Effect :=
  let refs := { refs with timer := config.timer, pendingConfig := none }
  ⟨refs, refs.needsRearm suspended && config.tidx == tidx, false⟩

/-- The body of the loop for a timer that is due. -/
def Refs.run (refs : Refs) (observed : Observed) : Effect :=
  if refs.after then
    ⟨refs, false, true⟩
  else
    match refs.pendingConfig with
    | some config => refs.configure tidx observed.suspended config
    | none =>
      if observed.pendingData ≠ 0 then
        ⟨refs, false, true⟩
      else
        let refs := { refs with timer := refs.timer.computeMissed now }
        ⟨refs, refs.needsRearm observed.suspended, true⟩

variable {Timer : Type} [DecidableEq Timer]

/-- The state after a round that leaves the given heap. -/
def Timers.write
    (timers : Timers Timer)
    (dr : Timer)
    (effect : Effect)
    (dth : TimerHeap Timer) : Timers Timer where
  dth := dth
  refs := Function.update timers.refs dr effect.refs
  merges := Function.update timers.merges dr
    (timers.merges dr + effect.merges.toNat)

/-- `_dispatch_timer_heap_update` or `_dispatch_timer_heap_remove`, with the
count of the heap as fuel. -/
def Timers.apply
    (timers : Timers Timer)
    (dr : Timer)
    (effect : Effect) : Option (Timers Timer) :=
  let dth := timers.dth.configure dr effect.refs.keys
  (if effect.stays then dth.update dth.count dr
    else dth.remove dth.count dr).map (timers.write dr effect)

/-- `_dispatch_timers_run`, with a bound on its rounds. -/
def Timers.run (observe : Nat → Observed) :
    Nat → Timers Timer → Option (Timers Timer)
  | 0, _ => none
  | rounds + 1, timers =>
    match timers.dth.min .target with
    | none => some timers
    | some dr =>
      if (timers.refs dr).timer.1.target > now then
        some timers
      else
        (timers.apply dr ((timers.refs dr).run tidx now (observe rounds))).bind
          (run observe rounds)

/-! ## Rounds -/

def Refs.Due (refs : Refs) : Prop :=
  refs.timer.1.target ≤ now

instance (refs : Refs) : Decidable (refs.Due now) :=
  inferInstanceAs (Decidable (_ ≤ _))

/-- A timer is passed to its source and leaves the heap or gets a later target,
or a configuration is applied. -/
def Effect.Passes (effect : Effect) (refs : Refs) : Prop :=
  (effect.merges = true ∧
      effect.refs.pendingConfig = refs.pendingConfig ∧
      (effect.stays = true → ¬ effect.refs.Due now)) ∨
    (effect.merges = false ∧ refs.pendingConfig ≠ none ∧
      effect.refs.pendingConfig = none)

/-- The heap holds the given timers, by their own keys. -/
structure Timers.Armed
    (timers : Timers Timer)
    (members : List Timer) : Prop where
  sound : Sound ⟨timers.dth, members⟩
  keyed :
    ∀ timer ∈ members,
      timers.dth.heapKey timer = (timers.refs timer).keys

/-- The members of the heap after a round. -/
def Effect.remaining
    (effect : Effect)
    (dr : Timer)
    (members : List Timer) : List Timer :=
  if effect.stays then members else members.erase dr

variable {tidx} {now}

/-- The target that is computed for a timer that is due is after now. -/
theorem lt_computeMissed
    {timer : Periodic}
    (due : timer.1.target ≤ now)
    (clock : now < int64Max) :
    now < (timer.computeMissed now).1.target := by
  rw [UInt64.lt_iff_toNat_lt] at clock ⊢
  have limit : int64Max.toNat = 2 ^ 63 - 1 := by decide
  unfold Periodic.computeMissed
  by_cases finiteInterval : timer.1.interval < int64Max
  · have short := UInt64.lt_iff_toNat_lt.mp finiteInterval
    have elapsed := Nat.div_le_self (now.toNat - timer.1.target.toNat)
      timer.1.interval.toNat
    obtain ⟨missed, ⟨-, later⟩, -, -, -, target⟩ :=
      @Timer.computeMissed_spec timer.1 now 0 finiteInterval due
        ⟨by rw [UInt64.toNat_zero]; omega, by omega⟩
    rw [target]
    exact later timer.2
  · have farthest : uint64Max.toNat = 2 ^ 64 - 1 := by decide
    simp only [Timer.computeMissed, if_neg finiteInterval]
    omega

theorem Refs.run_passes
    {refs : Refs}
    (due : refs.Due now)
    (clock : now < int64Max)
    (observed : Observed) :
    (refs.run tidx now observed).Passes now refs := by
  unfold Refs.run
  split
  · exact .inl ⟨rfl, rfl, by simp⟩
  · cases pending : refs.pendingConfig with
    | some config => exact .inr ⟨rfl, by simp [pending], rfl⟩
    | none =>
      dsimp only
      split
      · exact .inl ⟨rfl, rfl, by simp⟩
      · exact .inl ⟨rfl, pending.symm, fun _ =>
          UInt64.not_le.mpr (lt_computeMissed due clock)⟩

variable {timers final : Timers Timer} {dth : TimerHeap Timer}
variable {members left : List Timer} {dr : Timer} {effect : Effect}

/-- Both operations on the heap succeed and keep the invariant. -/
theorem Timers.Armed.apply
    (armed : timers.Armed members)
    (isMember : dr ∈ members) :
    ∃ dth,
      timers.apply dr effect = some (timers.write dr effect dth) ∧
        (timers.write dr effect dth).Armed
          (effect.remaining dr members) := by
  set heap := timers.dth.configure dr effect.refs.keys with configured
  have enough : members.length ≤ heap.count := by
    have counted : heap.count = 2 * members.length :=
      armed.sound.roomy.counted
    omega
  have meets :
      Meets
        (fun after =>
          Sound ⟨after, effect.remaining dr members⟩ ∧
            after.heapKey = heap.heapKey)
        heap.count heap.count
        (if effect.stays then heap.update heap.count dr
          else heap.remove heap.count dr) := by
    unfold Effect.remaining
    split
    · exact (armed.sound.update_meets isMember _ _).of_le enough
    · exact (armed.sound.remove_meets isMember _ _).of_le enough
  obtain ⟨after, ran⟩ := meets.exists_of_enough
  obtain ⟨sound, sameKeys⟩ := meets.of_eq_some ran
  refine ⟨_, congrArg (Option.map _) ran, sound, fun timer isLeft => ?_⟩
  by_cases same : timer = dr
  · subst same
    simp [Timers.write, sameKeys, configured, TimerHeap.configure]
  · have inside : timer ∈ members := by
      unfold Effect.remaining at isLeft
      split_ifs at isLeft
      · exact isLeft
      · exact List.mem_of_mem_erase isLeft
    simp [Timers.write, sameKeys, configured, TimerHeap.configure, same,
      armed.keyed timer inside]

/-! ## Runs -/

/-- The rounds that the timers of a heap may still take: one for each that is due
and one for each pending configuration. -/
def Timers.roundsLeft
    (timers : Timers Timer)
    (now : UInt64)
    (members : List Timer) : Nat :=
  (members.map fun timer =>
    (if (timers.refs timer).Due now then 1 else 0) +
      if (timers.refs timer).pendingConfig = none then 0 else 1).sum

/-- No timer that is left is due.  Each timer that was due has been passed to its
source once, unless a configuration has made it later, and the others have not
been touched. -/
structure Drained
    (now : UInt64)
    (timers final : Timers Timer)
    (members left : List Timer) : Prop where
  heap : IsDoubleHeap ⟨final.dth, left⟩
  notDue : ∀ timer ∈ left, ¬ (final.refs timer).Due now
  fate :
    ∀ timer,
      if timer ∈ members ∧ (timers.refs timer).Due now then
        final.merges timer = timers.merges timer + 1 ∨
          (timers.refs timer).pendingConfig ≠ none ∧
            final.merges timer = timers.merges timer
      else
        (timer ∈ members → timer ∈ left) ∧
          final.refs timer = timers.refs timer ∧
          final.merges timer = timers.merges timer

section Round

variable
  (distinct : members.Nodup)
  (isMember : dr ∈ members)
  (due : (timers.refs dr).Due now)
  (passes : effect.Passes now (timers.refs dr))

include distinct isMember due passes

theorem Effect.Passes.roundsLeft_lt :
    (timers.write dr effect dth).roundsLeft now
        (effect.remaining dr members) <
      timers.roundsLeft now members := by
  set following := timers.write dr effect dth with written
  have others : following.roundsLeft now (members.erase dr) =
      timers.roundsLeft now (members.erase dr) := by
    refine congrArg List.sum (List.map_congr_left fun timer inRest => ?_)
    have differs : timer ≠ dr := fun same =>
      distinct.not_mem_erase (same ▸ inRest)
    simp [written, Timers.write, differs]
  have split (state : Timers Timer) := List.sum_map_erase (fun timer =>
    (if (state.refs timer).Due now then 1 else 0) +
      if (state.refs timer).pendingConfig = none then 0 else 1) isMember
  have before := split timers
  have after := split following
  have own : following.refs dr = effect.refs := Function.update_self ..
  rw [if_pos due] at before
  rw [own] at after
  unfold Timers.roundsLeft Effect.remaining at *
  split_ifs with stays
  · rcases passes with ⟨-, config, later⟩ | ⟨-, pending, applied⟩
    · rw [if_neg (later stays), config] at after
      omega
    · rw [if_neg pending] at before
      rw [if_pos applied] at after
      split_ifs at after <;> omega
  · omega

/-- A round and the rest of the run. -/
theorem Drained.next
    (drained : Drained now (timers.write dr effect dth) final
      (effect.remaining dr members) left) :
    Drained now timers final members left := by
  refine { drained with fate := fun timer => ?_ }
  have rest := drained.fate timer
  unfold Timers.write at rest
  by_cases same : timer = dr
  · subst same
    simp only [Function.update_self] at rest
    rw [if_pos ⟨isMember, due⟩]
    rcases passes with ⟨merges, -, later⟩ | ⟨merges, pending, applied⟩
    · have done : ¬(timer ∈ effect.remaining timer members ∧
          effect.refs.Due now) := by
        unfold Effect.remaining
        split_ifs with stays
        · exact fun again => later stays again.2
        · exact fun again => distinct.not_mem_erase again.1
      rw [if_neg done, merges] at rest
      exact .inl rest.2.2
    · rw [merges] at rest
      split at rest
      · exact .inl (rest.resolve_right fun again => again.1 applied)
      · exact .inr ⟨pending, rest.2.2⟩
  · have sameMember :
        timer ∈ effect.remaining dr members ↔ timer ∈ members := by
      unfold Effect.remaining
      split
      · rfl
      · exact List.mem_erase_of_ne same
    simpa [same, sameMember] using rest

end Round

/-- The loop ends with nothing due left, after at most one round for each timer
that is due and one for each pending configuration. -/
theorem run_drains
    (armed : timers.Armed members)
    (clock : now < int64Max)
    {rounds : Nat}
    (bound : timers.roundsLeft now members < rounds)
    (observe : Nat → Observed) :
    ∃ final left,
      Timers.run tidx now observe rounds timers = some final ∧
        Drained now timers final members left := by
  induction rounds generalizing timers members with
  | zero => omega
  | succ rounds inductionHypothesis =>
    have stops
        (later : ∀ timer ∈ members, ¬ (timers.refs timer).Due now) :
        Drained now timers timers members members := by
      refine ⟨armed.sound.isDoubleHeap, later, fun timer => ?_⟩
      rw [if_neg fun isDue => later timer isDue.1 isDue.2]
      exact ⟨id, rfl, rfl⟩
    unfold Timers.run
    cases least : timers.dth.min .target with
    | none =>
      obtain rfl : members = [] :=
        (armed.sound.least_eq_none_iff .target).mp least
      exact ⟨_, _, rfl, stops (by simp)⟩
    | some dr =>
      obtain ⟨isMember, isLeast⟩ := armed.sound.least least
      dsimp only
      split_ifs with later
      · refine ⟨_, _, rfl, stops fun timer inside isDue => ?_⟩
        have least := isLeast timer inside
        rw [armed.keyed dr isMember, armed.keyed timer inside] at least
        exact UInt64.not_le.mpr later
          (UInt64.le_trans (UInt64.le_iff_toNat_le.mpr least) isDue)
      · have due : (timers.refs dr).Due now := UInt64.not_lt.mp later
        have passes := @Refs.run_passes tidx now _ due clock (observe rounds)
        obtain ⟨dth, ran, kept⟩ := armed.apply isMember
        have distinct := armed.sound.distinct
        obtain ⟨final, left, ends, drained⟩ := inductionHypothesis kept
          (Nat.lt_of_lt_of_le (passes.roundsLeft_lt distinct isMember due)
            (Nat.le_of_lt_succ bound))
        rw [ran]
        exact ⟨final, left, ends,
          drained.next distinct isMember due passes⟩

/-- A heap with two timers, the first of which has a pending configuration. -/
def twoTimers : Timers Nat where
  dth :=
    ((emptyHeap.insert 1 5).bind fun first => first.insert 2 0).getD emptyHeap
  refs timer :=
    if timer = 0 then
      ⟨⟨⟨0, 0, 1⟩, by decide⟩, false, some ⟨0, ⟨⟨3, 3, 5⟩, by decide⟩⟩⟩
    else
      ⟨⟨⟨1, 1, 1⟩, by decide⟩, false, none⟩
  merges _ := 0

theorem twoTimers_drains :
    ∃ final left,
      Timers.run 0 10 (fun _ => ⟨0, false⟩) 4 twoTimers = some final ∧
        Drained 10 twoTimers final [0, 5] left := by
  obtain ⟨first, second, ranFirst, ranSecond, reached⟩ := twoInserted_reached
  have sound : Sound ⟨twoTimers.dth, [0, 5]⟩ := by
    simpa [twoTimers, ranFirst, ranSecond] using reachable_sound reached
  refine run_drains ⟨sound, ?_⟩ (by decide) (by decide) _
  intro timer inside
  simp only [List.mem_cons, List.not_mem_nil, or_false] at inside
  rcases inside with rfl | rfl <;> funext id <;> cases id <;> rfl

end LibDispatch.TimerRun
