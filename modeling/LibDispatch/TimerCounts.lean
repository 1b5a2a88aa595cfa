import LibDispatch.TimerSource

namespace LibDispatch.TimerSource

/-!
# The fires of a timer are conserved

Every fire that has pushed the target of a timer is pending, computed but not yet
stored, latched but not yet delivered, or delivered.  The target is pushed by the
manager while the timer is armed, and by the thread that delivers while it is
disarmed; the marker hands it over.
-/

/-! ## Words -/

/-- The marker is set in some pending data. -/
def Marked (pending : UInt64) : Prop :=
  pending &&& disarmedMarker ≠ 0

instance (pending : UInt64) : Decidable (Marked pending) :=
  inferInstanceAs (Decidable (_ ≠ _))

variable (pending : UInt64)

/-- The fires in some pending data. -/
def fires : Nat :=
  (pending >>> 1).toNat

theorem marked_iff :
    Marked pending ↔ field 0 1 pending = 1 := by
  have oneBit : disarmedMarker.toNat = 2 ^ 0 := rfl
  exact and_bit_ne_zero_iff oneBit pending

theorem fires_eq :
    fires pending = pending.toNat / 2 := by
  rw [fires, UInt64.toNat_shiftRight]
  exact Nat.shiftRight_eq_div_pow _ 1

theorem fires_eq_field :
    fires pending = field 1 63 pending := by
  have bound := pending.toNat_lt
  rw [fires_eq, field, Nat.mod_eq_of_lt (by omega), Nat.pow_one]

theorem marked_mark :
    Marked (pending ||| disarmedMarker) :=
  (marked_iff _).mpr (field_or_of_set rfl pending)

theorem ne_zero_of_marked
    {pending : UInt64}
    (marked : Marked pending) :
    pending ≠ 0 := by
  rintro rfl
  exact marked rfl

@[simp] theorem fires_mark :
    fires (pending ||| disarmedMarker) = fires pending := by
  rw [fires_eq_field, fires_eq_field]
  exact field_or_of_clear rfl pending

@[simp] theorem fires_zero : fires 0 = 0 := rfl

variable {count : UInt64}

/-- A count that fits is stored without the marker. -/
theorem toNat_shiftLeft_one
    (small : count.toNat < 2 ^ 63) :
    (count <<< 1).toNat = 2 * count.toNat := by
  have shifted : (count <<< 1).toNat = count.toNat <<< 1 % 2 ^ 64 :=
    UInt64.toNat_shiftLeft count 1
  rw [shifted, Nat.shiftLeft_eq]
  omega

theorem fires_shiftLeft
    (small : count.toNat < 2 ^ 63) :
    fires (count <<< 1) = count.toNat := by
  rw [fires_eq, toNat_shiftLeft_one small]
  omega

theorem not_marked_shiftLeft
    (small : count.toNat < 2 ^ 63) :
    ¬ Marked (count <<< 1) := by
  rw [marked_iff, field, toNat_shiftLeft_one small]
  omega

/-! ## Missed fires -/

/-- What is computed if it fits: the fires up to now, and the first target after
now. -/
theorem Timer.computeMissed_spec
    {timer : Timer}
    {now prev : UInt64}
    (finiteInterval : timer.interval < int64Max)
    (due : timer.target ≤ now)
    (fits : timer.Fits now prev) :
    ∃ missed,
      (0 < missed ∧ (0 < timer.interval.toNat →
        now.toNat < timer.target.toNat + missed * timer.interval.toNat)) ∧
      prev.toNat + missed < 2 ^ 63 ∧
      (timer.computeMissed now prev).2.toNat = prev.toNat + missed ∧
      (timer.computeMissed now prev).1.interval = timer.interval ∧
      (timer.computeMissed now prev).1.target.toNat =
        timer.target.toNat + missed * timer.interval.toNat := by
  obtain ⟨fewFires, noWrap⟩ := fits
  have ordered : timer.target.toNat ≤ now.toNat :=
    UInt64.le_iff_toNat_le.mp due
  have pushed := Nat.div_mul_le_self (now.toNat - timer.target.toNat)
    timer.interval.toNat
  generalize quotient : (now.toNat - timer.target.toNat) /
    timer.interval.toNat = elapsed at fewFires pushed
  have isMissed : ((now - timer.target) / timer.interval + 1).toNat =
      elapsed + 1 := by
    rw [UInt64.toNat_add, UInt64.toNat_div, UInt64.toNat_sub_of_le _ _ due,
      quotient]
    exact Nat.mod_eq_of_lt (show elapsed + 1 < 2 ^ 64 by omega)
  have product : ((now - timer.target) / timer.interval + 1).toNat *
      timer.interval.toNat =
        elapsed * timer.interval.toNat + timer.interval.toNat := by
    rw [isMissed, Nat.succ_mul]
  have isPush : (((now - timer.target) / timer.interval + 1) *
      timer.interval).toNat =
        elapsed * timer.interval.toNat + timer.interval.toNat := by
    rw [UInt64.toNat_mul, product]
    exact Nat.mod_eq_of_lt (by omega)
  have noClamp : ¬ (now - timer.target) / timer.interval + 1 + prev >
      longMax := by
    have isSum : ((now - timer.target) / timer.interval + 1 + prev).toNat =
        elapsed + 1 + prev.toNat := by
      rw [UInt64.toNat_add, isMissed]
      exact Nat.mod_eq_of_lt (by omega)
    have isMax : longMax.toNat = 2 ^ 63 - 1 := by decide
    rw [gt_iff_lt, UInt64.lt_iff_toNat_lt, isSum, isMax]
    omega
  refine ⟨elapsed + 1, ⟨Nat.succ_pos _, fun positive => ?_⟩, fewFires, ?_⟩
  · have beyond : now.toNat - timer.target.toNat < _ :=
      Nat.lt_div_mul_add positive
    rw [quotient] at beyond
    rw [Nat.succ_mul]
    omega
  simp only [computeMissed, if_neg noClamp, if_pos finiteInterval]
  refine ⟨?_, trivial, ?_⟩
  · rw [UInt64.toNat_add, isMissed]
    exact Nat.mod_eq_of_lt (by omega)
  · rw [UInt64.toNat_add, isPush, Nat.succ_mul]
    exact Nat.mod_eq_of_lt (by omega)

/-! ## Handing the timer over -/

/-- What holds of the state while the manager runs the timer. -/
def Run.Holds (state : State) : Run → Prop
  | .load now => state.armed = true ∧ state.timer.target ≤ now
  | .disarm => True
  | .mark => state.armed = false
  | .compute now => state.pending = 0 ∧ state.timer.target ≤ now
  | .push now timer =>
    state.pending = 0 ∧ timer = state.timer ∧ timer.target ≤ now
  | .needsRearm pending => state.pending = 0 ∧ pending ≠ 0 ∧ ¬ Marked pending
  | .arm pending => state.pending = 0 ∧ pending ≠ 0 ∧ ¬ Marked pending
  | .retire _ => state.pending = 0
  | .store pending =>
    state.pending = 0 ∧ pending ≠ 0 ∧
      (Marked pending → state.armed = false)

/-- What holds of the state while the source is invoked. -/
def Stage.Holds (state : State) (onManager : Bool) : Stage → Prop
  | .start => True
  | .probe => True
  | .latch => state.pending ≠ 0
  | .timerData _ =>
    state.pending = 0 ∧ state.armed = false ∧ state.run = none
  | .push _ now timer =>
    state.pending = 0 ∧ state.armed = false ∧ state.run = none ∧
      timer = state.timer ∧ timer.target ≤ now
  | .call _ => onManager = true → state.pending = 0
  | .rearm => onManager = true → state.pending = 0
  | .resume => onManager = true ∧ state.pending = 0

/-- The marker is set only while the timer is disarmed, and then the manager
leaves the timer alone. -/
structure State.HandedOver (state : State) : Prop where
  marked : Marked state.pending → state.armed = false ∧ state.run = none
  onManager : state.invokedOnManager = true → state.run = none
  run : ∀ run, state.run = some run → run.Holds state
  stage :
    ∀ invocation, state.invocation = some invocation →
      invocation.stage.Holds state invocation.onManager

variable {run : Run}

theorem Run.Holds.of_same
    {state after : State}
    (holds : run.Holds state)
    (sameTimer : after.timer = state.timer)
    (sameArmed : after.armed = state.armed)
    (stillZero : state.pending = 0 → after.pending = 0) :
    run.Holds after := by
  cases run with
  | load now => exact ⟨sameArmed.trans holds.1, sameTimer ▸ holds.2⟩
  | disarm => trivial
  | mark => exact sameArmed.trans holds
  | compute now => exact ⟨stillZero holds.1, sameTimer ▸ holds.2⟩
  | push now timer =>
    exact ⟨stillZero holds.1, holds.2.1.trans sameTimer.symm, holds.2.2⟩
  | needsRearm _ | arm _ => exact ⟨stillZero holds.1, holds.2⟩
  | retire pending => exact stillZero holds
  | store pending =>
    exact ⟨stillZero holds.1, holds.2.1, fun marked =>
      sameArmed.trans (holds.2.2 marked)⟩

theorem not_marked_zero : ¬ Marked 0 := fun marked => marked rfl

variable {invocation : Invocation} {next : Option Stage}

namespace State.HandedOver

variable {state after : State}

variable (handedOver : state.HandedOver)

include handedOver

/-- A step of the manager leaves an invocation alone. -/
theorem ofRun
    (running : state.run = some run)
    (sameInvocation : after.invocation = state.invocation)
    (marked :
      Marked after.pending →
        after.armed = false ∧ after.run = none)
    (holds : ∀ next, after.run = some next → next.Holds after)
    (stillPending : state.pending ≠ 0 → after.pending ≠ 0) :
    after.HandedOver := by
  have notNone : state.run ≠ none := by
    rw [running]
    exact Option.some_ne_none run
  refine { marked := marked, onManager := ?_, run := holds, stage := ?_ }
  · intro onManager
    rw [State.invokedOnManager, sameInvocation] at onManager
    exact absurd (handedOver.onManager onManager) notNone
  · intro invocation invoked
    rw [sameInvocation] at invoked
    have before := handedOver.stage invocation invoked
    have elsewhere : invocation.onManager ≠ true := by
      intro onManager
      refine notNone (handedOver.onManager ?_)
      rw [State.invokedOnManager, invoked]
      exact onManager
    generalize invocation.stage = stage at before ⊢
    cases stage with
    | start | probe => trivial
    | latch =>
      exact stillPending before
    | timerData prev =>
      exact absurd before.2.2 notNone
    | push data now timer =>
      exact absurd before.2.2.1 notNone
    | call _ | rearm => exact fun onManager => absurd onManager elsewhere
    | resume =>
      exact absurd before.1 elsewhere

/-- While the manager runs the timer, the marker is not set. -/
theorem not_marked
    (running : state.run = some run) :
    ¬ Marked state.pending := by
  intro marked
  rw [(handedOver.marked marked).2] at running
  cases running

theorem advanceRun
    (running : state.run = some run)
    (fits : run.Fits)
    (finiteInterval : state.timer.interval < int64Max) :
    State.HandedOver
      { (state.advanceRun run).1 with run := (state.advanceRun run).2 } := by
  have notMarked := handedOver.not_marked running
  have holds := handedOver.run run running
  cases run with
  | load now =>
    refine handedOver.ofRun running rfl (absurd · notMarked) ?_ id
    rintro next ⟨⟩
    split
    · trivial
    · rename_i isZero
      exact ⟨not_not.mp isZero, holds.2⟩
  | disarm =>
    refine handedOver.ofRun running rfl (absurd · notMarked) ?_ id
    rintro next ⟨⟩
    rfl
  | mark =>
    refine handedOver.ofRun running rfl (fun _ => ⟨holds, rfl⟩) ?_
      (fun _ => ne_zero_of_marked (marked_mark _))
    rintro next ⟨⟩
  | compute now =>
    refine handedOver.ofRun running rfl (absurd · notMarked) ?_ id
    rintro next ⟨⟩
    exact ⟨holds.1, rfl, holds.2⟩
  | push now timer =>
    obtain ⟨isZero, rfl, due⟩ := holds
    obtain ⟨missed, some, few, count, -, -⟩ :=
      Timer.computeMissed_spec finiteInterval due fits
    have isCount : (state.timer.computeMissed now 0).2.toNat = missed :=
      count.trans (Nat.zero_add missed)
    have small : (state.timer.computeMissed now 0).2.toNat < 2 ^ 63 := by
      rw [count]
      exact few
    refine handedOver.ofRun running rfl (absurd · notMarked) ?_ id
    rintro next ⟨⟩
    refine ⟨isZero, ?_, not_marked_shiftLeft small⟩
    intro zero
    have double := toNat_shiftLeft_one small
    rw [zero, isCount, UInt64.toNat_zero] at double
    omega
  | needsRearm pending =>
    refine handedOver.ofRun running rfl (absurd · notMarked) ?_ id
    rintro next ⟨⟩
    split
    · exact holds
    · exact holds.1
  | arm pending =>
    refine handedOver.ofRun running rfl (absurd · notMarked) ?_ id
    rintro next ⟨⟩
    exact ⟨holds.1, holds.2.1, fun marked => absurd marked holds.2.2⟩
  | retire pending =>
    refine handedOver.ofRun running rfl (absurd · notMarked) ?_ id
    rintro next ⟨⟩
    exact ⟨holds, ne_zero_of_marked (marked_mark _), fun _ => rfl⟩
  | store pending =>
    refine handedOver.ofRun running rfl
      (fun marked => ⟨holds.2.2 marked, rfl⟩) ?_ (fun _ => holds.2.1)
    rintro next ⟨⟩

/-- A step of an invocation leaves the manager alone. -/
theorem ofStage
    (invoked : state.invocation = some invocation)
    (sameRun : after.run = state.run)
    (pending : after.pending = state.pending ∨ after.pending = 0)
    (marked : Marked after.pending → after.armed = false)
    (changes :
      state.run = none ∨
        after.timer = state.timer ∧ after.armed = state.armed)
    (holds :
      ∀ stage, next = some stage →
        stage.Holds after invocation.onManager) :
    State.HandedOver
      { after with
        invocation :=
          next.map fun stage => { invocation with stage := stage } } := by
  refine { marked := ?_, onManager := ?_, run := ?_, stage := ?_ }
  · intro isMarked
    refine ⟨marked isMarked, ?_⟩
    rcases pending with same | isZero
    · exact sameRun.trans (handedOver.marked (same ▸ isMarked)).2
    · exact absurd (isZero ▸ isMarked) not_marked_zero
  · intro onManager
    refine sameRun.trans (handedOver.onManager ?_)
    rw [State.invokedOnManager, invoked]
    cases next with
    | none => cases onManager
    | some stage => exact onManager
  · intro run running
    have wasRunning : state.run = some run := sameRun.symm.trans running
    rcases changes with none | ⟨sameTimer, sameArmed⟩
    · rw [none] at wasRunning
      cases wasRunning
    · refine (handedOver.run run wasRunning).of_same sameTimer sameArmed ?_
      rcases pending with same | isZero
      · exact fun zero => same.trans zero
      · exact fun _ => isZero
  · intro current isCurrent
    obtain ⟨stage, isStage, rfl⟩ := Option.map_eq_some_iff.mp isCurrent
    exact holds stage isStage

theorem advanceStage
    (invoked : state.invocation = some invocation)
    (now : UInt64)
    (putOff : Bool) :
    State.HandedOver
      { (state.advanceStage invocation.onManager invocation.onTarget now
          putOff invocation.stage).1 with
        invocation :=
          (state.advanceStage invocation.onManager invocation.onTarget now
            putOff invocation.stage).2.map
              fun stage => { invocation with stage := stage } } := by
  have marked (isMarked : Marked state.pending) : state.armed = false :=
    (handedOver.marked isMarked).1
  have before := handedOver.stage invocation invoked
  generalize invocation.stage = stage at before ⊢
  cases stage with
  | start =>
    refine handedOver.ofStage invoked rfl (.inl rfl) marked
      (.inr ⟨rfl, rfl⟩) ?_
    intro next isNext
    simp only [State.advanceStage] at isNext
    split at isNext
    · cases isNext
    · cases isNext
      trivial
  | probe =>
    refine handedOver.ofStage invoked rfl (.inl rfl) marked
      (.inr ⟨rfl, rfl⟩) ?_
    intro next isNext
    simp only [State.advanceStage] at isNext
    split_ifs at isNext with nonzero onTarget <;> cases isNext
    · exact nonzero
    · exact fun _ => not_not.mp nonzero
  | latch =>
    refine handedOver.ofStage invoked rfl (.inr rfl)
      (absurd · not_marked_zero) (.inr ⟨rfl, rfl⟩) ?_
    intro next isNext
    simp only [State.advanceStage] at isNext
    split_ifs at isNext with isMarked <;> cases isNext
    · exact ⟨rfl, handedOver.marked isMarked⟩
    · exact fun _ => rfl
  | timerData prev =>
    refine handedOver.ofStage invoked rfl (.inl rfl) marked
      (.inr ⟨rfl, rfl⟩) ?_
    intro next isNext
    simp only [State.advanceStage] at isNext
    split_ifs at isNext with due <;> cases isNext
    · exact ⟨before.1, before.2.1, before.2.2, rfl, due.2⟩
    · exact fun _ => before.1
  | push data time timer =>
    refine handedOver.ofStage invoked rfl (.inl rfl) marked
      (.inl before.2.2.1) ?_
    rintro next ⟨⟩
    exact fun _ => before.1
  | call data =>
    refine handedOver.ofStage invoked rfl (.inl rfl) marked
      (.inr ⟨rfl, rfl⟩) ?_
    rintro next ⟨⟩
    exact before
  | rearm =>
    refine handedOver.ofStage invoked rfl (.inl rfl) marked
      (.inr ⟨rfl, rfl⟩) ?_
    intro next isNext
    simp only [State.advanceStage] at isNext
    split at isNext
    · rename_i needed
      cases isNext
      exact ⟨needed.2.2.1, before needed.2.2.1⟩
    · cases isNext
  | resume =>
    have between : state.run = none := by
      refine handedOver.onManager ?_
      rw [State.invokedOnManager, invoked]
      exact before.1
    have zero : state.pending = 0 := before.2
    refine handedOver.ofStage invoked rfl (.inl rfl) ?_ (.inl between) ?_
    · intro isMarked
      exact absurd (zero ▸ isMarked) not_marked_zero
    · rintro next ⟨⟩

end State.HandedOver

/-! ## Accounts -/

/-- The fires that the manager has computed but not stored yet. -/
def Run.inFlight : Run → Nat
  | .needsRearm pending => fires pending
  | .arm pending => fires pending
  | .retire pending => fires pending
  | .store pending => fires pending
  | _ => 0

/-- The fires that an invocation has latched but not delivered yet. -/
def Stage.inFlight : Stage → Nat
  | .timerData prev => fires prev
  | .push data _ _ => data.toNat
  | .call data => data.toNat
  | _ => 0

variable (state : State)

/-- The fires that are neither pending nor delivered. -/
def State.inFlight : Nat :=
  state.run.elim 0 Run.inFlight +
    state.invocation.elim 0 fun invocation => invocation.stage.inFlight

/-- The fires that have been delivered to the handler. -/
def State.deliveredFires : Nat :=
  (state.delivered.map UInt64.toNat).sum

/-- All fires so far. -/
def State.fired : Nat :=
  state.deliveredFires + fires state.pending + state.inFlight

/-- The target has been pushed once for every fire. -/
structure State.Balanced (timer : Timer) (state : State) : Prop where
  interval : state.timer.interval = timer.interval
  target :
    state.timer.target.toNat =
      timer.target.toNat + state.fired * timer.interval.toNat

namespace State.Balanced

variable {timer : Timer} {state after : State}

/-- A step that passes fires on. -/
theorem of_same
    (balanced : state.Balanced timer)
    (sameTimer : after.timer = state.timer)
    (sameFired : after.fired = state.fired) :
    after.Balanced timer where
  interval := by
    rw [sameTimer]
    exact balanced.interval
  target := by
    rw [sameTimer, sameFired]
    exact balanced.target

/-- A step that pushes the target. -/
theorem of_push
    {missed : Nat}
    (balanced : state.Balanced timer)
    (interval : after.timer.interval = state.timer.interval)
    (target :
      after.timer.target.toNat =
        state.timer.target.toNat + missed * state.timer.interval.toNat)
    (fired : after.fired = state.fired + missed) :
    after.Balanced timer where
  interval := interval.trans balanced.interval
  target := by
    rw [target, balanced.target, balanced.interval, fired, Nat.add_mul,
      Nat.add_assoc]

/-- What a step of the manager changes. -/
theorem fired_of_run
    {next : Option Run}
    {more : Nat}
    (running : state.run = some run)
    (sameInvocation : after.invocation = state.invocation)
    (sameDelivered : after.delivered = state.delivered)
    (moved :
      fires after.pending + next.elim 0 Run.inFlight =
        fires state.pending + run.inFlight + more) :
    State.fired { after with run := next } = state.fired + more := by
  simp only [fired, inFlight, deliveredFires, sameInvocation, sameDelivered,
    running, Option.elim_some]
  omega

/-- What a step of an invocation changes. -/
theorem fired_of_stage
    {more : Nat}
    (invoked : state.invocation = some invocation)
    (sameRun : after.run = state.run)
    (moved :
      after.deliveredFires + fires after.pending +
          next.elim 0 Stage.inFlight =
        state.deliveredFires + fires state.pending +
          invocation.stage.inFlight + more) :
    State.fired
        { after with
          invocation :=
            next.map fun stage => { invocation with stage := stage } } =
      state.fired + more := by
  have isNext : (next.map fun stage =>
      { invocation with stage := stage }).elim 0
        (fun invocation => invocation.stage.inFlight) =
          next.elim 0 Stage.inFlight := by
    cases next <;> rfl
  simp only [fired, inFlight, sameRun, invoked, Option.elim_some, isNext]
  simp only [deliveredFires] at moved ⊢
  omega

variable (balanced : state.Balanced timer)

include balanced

/-- The manager passes fires on. -/
theorem ofRun
    {next : Option Run}
    (running : state.run = some run)
    (sameTimer : after.timer = state.timer)
    (sameInvocation : after.invocation = state.invocation)
    (sameDelivered : after.delivered = state.delivered)
    (moved :
      fires after.pending + next.elim 0 Run.inFlight =
        fires state.pending + run.inFlight) :
    State.Balanced timer { after with run := next } := by
  have same : State.fired { after with run := next } = state.fired + 0 :=
    fired_of_run running sameInvocation sameDelivered moved
  exact balanced.of_same sameTimer same

/-- An invocation passes fires on. -/
theorem ofStage
    (invoked : state.invocation = some invocation)
    (sameTimer : after.timer = state.timer)
    (sameRun : after.run = state.run)
    (moved :
      after.deliveredFires + fires after.pending +
          next.elim 0 Stage.inFlight =
        state.deliveredFires + fires state.pending +
          invocation.stage.inFlight) :
    State.Balanced timer
      { after with
        invocation :=
          next.map fun stage => { invocation with stage := stage } } := by
  have same : State.fired
      { after with
        invocation :=
          next.map fun stage => { invocation with stage := stage } } =
        state.fired + 0 :=
    fired_of_stage invoked sameRun moved
  exact balanced.of_same sameTimer same

theorem advanceRun
    (handedOver : state.HandedOver)
    (running : state.run = some run)
    (fits : run.Fits)
    (finiteInterval : state.timer.interval < int64Max) :
    State.Balanced timer
      { (state.advanceRun run).1 with run := (state.advanceRun run).2 } := by
  have holds := handedOver.run run running
  cases run with
  | load _ | needsRearm _ =>
    refine balanced.ofRun running rfl rfl rfl ?_
    simp only [State.advanceRun]
    split <;> rfl
  | disarm | compute _ | arm _ => exact balanced.ofRun running rfl rfl rfl rfl
  | mark =>
    refine balanced.ofRun running rfl rfl rfl ?_
    simp only [State.advanceRun, fires_mark]
    rfl
  | push now read =>
    obtain ⟨isZero, rfl, due⟩ := holds
    obtain ⟨missed, -, few, count, interval, target⟩ :=
      Timer.computeMissed_spec finiteInterval due fits
    have isCount : (state.timer.computeMissed now 0).2.toNat = missed :=
      count.trans (Nat.zero_add missed)
    have small : (state.timer.computeMissed now 0).2.toNat < 2 ^ 63 := by
      rw [count]
      exact few
    refine balanced.of_push interval target
      (fired_of_run running rfl rfl ?_)
    simp only [State.advanceRun, Option.elim_some, Run.inFlight,
      fires_shiftLeft small, isCount, Nat.add_zero]
  | retire pending =>
    refine balanced.ofRun running rfl rfl rfl ?_
    simp only [State.advanceRun, Option.elim_some, Run.inFlight, fires_mark]
  | store pending =>
    refine balanced.ofRun running rfl rfl rfl ?_
    simp only [State.advanceRun, holds.1, Run.inFlight, Option.elim_none,
      fires_zero, Nat.add_zero, Nat.zero_add]

theorem advanceStage
    (handedOver : state.HandedOver)
    (invoked : state.invocation = some invocation)
    (fits : invocation.stage.Fits)
    (finiteInterval : state.timer.interval < int64Max)
    (now : UInt64)
    (putOff : Bool) :
    State.Balanced timer
      { (state.advanceStage invocation.onManager invocation.onTarget now
          putOff invocation.stage).1 with
        invocation :=
          (state.advanceStage invocation.onManager invocation.onTarget now
            putOff invocation.stage).2.map
              fun stage => { invocation with stage := stage } } := by
  have holds := handedOver.stage invocation invoked
  cases stage : invocation.stage with
  | start | timerData _ | rearm =>
    refine balanced.ofStage invoked rfl rfl ?_
    simp only [State.advanceStage, stage]
    split <;> rfl
  | probe =>
    refine balanced.ofStage invoked rfl rfl ?_
    simp only [State.advanceStage, stage]
    split_ifs <;> rfl
  | latch =>
    refine balanced.ofStage invoked rfl rfl ?_
    simp only [State.advanceStage, stage]
    split <;> simp [Stage.inFlight, fires, deliveredFires]
  | push data time read =>
    rw [stage] at holds fits
    obtain ⟨-, -, -, rfl, due⟩ := holds
    obtain ⟨missed, -, few, count, interval, target⟩ :=
      Timer.computeMissed_spec finiteInterval due fits
    refine balanced.of_push interval target
      (fired_of_stage invoked rfl ?_)
    simp only [State.advanceStage, Option.elim_some, Stage.inFlight, stage,
      count, deliveredFires]
    omega
  | call data =>
    refine balanced.ofStage invoked rfl rfl ?_
    simp only [State.advanceStage, stage, Stage.inFlight, deliveredFires,
      List.map_append, List.sum_append, List.map_cons, List.map_nil,
      List.sum_cons, List.sum_nil, Option.elim_some]
    omega
  | resume =>
    refine balanced.ofStage invoked rfl rfl ?_
    simp only [State.advanceStage, stage]
    rfl

end State.Balanced

/-! ## Runs -/

/-- The invariant of a timer with the given configuration. -/
structure State.Sound (timer : Timer) (state : State) : Prop where
  handedOver : state.HandedOver
  balanced : state.Balanced timer

theorem Configured.sound
    {timer : Timer}
    {state : State}
    (configured : Configured timer state) :
    state.Sound timer where
  handedOver :=
    { marked := by
        rw [configured.pending]
        exact (absurd · not_marked_zero)
      onManager := fun _ => configured.run
      run := by
        rw [configured.run]
        rintro run ⟨⟩
      stage := by
        rw [configured.invocation]
        rintro invocation ⟨⟩ }
  balanced :=
    { interval := by rw [configured.configured]
      target := by
        simp [State.fired, State.deliveredFires, State.inFlight,
          configured.configured, configured.pending, configured.run,
          configured.invocation, configured.delivered] }

theorem State.HandedOver.beginRun
    {state : State}
    {now : UInt64}
    (handedOver : state.HandedOver)
    (elsewhere : state.invokedOnManager = false)
    (armed : state.armed = true)
    (due : state.timer.target ≤ now) :
    State.HandedOver { state with run := some (.load now) } := by
  refine { marked := ?_, onManager := ?_, run := ?_, stage := ?_ }
  · intro marked
    have disarmed := (handedOver.marked marked).1
    rw [armed] at disarmed
    cases disarmed
  · intro onManager
    have contradiction := elsewhere.symm.trans onManager
    cases contradiction
  · rintro run ⟨⟩
    exact ⟨armed, due⟩
  · intro invocation invoked
    have before := handedOver.stage invocation invoked
    generalize invocation.stage = stage at before ⊢
    cases stage with
    | timerData _ | push _ _ _ =>
      have contradiction := before.2.1.symm.trans armed
      cases contradiction
    | _ =>
      exact before

/-- A step of the system keeps the invariant. -/
theorem State.Sound.step
    {timer : Timer}
    {state after : State}
    (finiteInterval : timer.interval < int64Max)
    (sound : state.Sound timer)
    (stepped : Step state after) :
    after.Sound timer := by
  obtain ⟨handedOver, balanced⟩ := sound
  have finite : state.timer.interval < int64Max := by
    rw [balanced.interval]
    exact finiteInterval
  cases stepped with
  | run now between elsewhere armed due =>
    refine ⟨handedOver.beginRun elsewhere armed due, ?_⟩
    refine balanced.of_same rfl ?_
    simp only [State.fired, State.inFlight, State.deliveredFires, between]
    rfl
  | advanceRun running fits =>
    exact ⟨handedOver.advanceRun running fits finite,
      balanced.advanceRun handedOver running fits finite⟩
  | invoke onManager onTarget unlocked between =>
    refine ⟨?_, ?_⟩
    · exact
        { handedOver with
          onManager := between
          stage := by
            rintro invocation ⟨⟩
            trivial }
    · refine balanced.of_same rfl ?_
      simp only [State.fired, State.inFlight, State.deliveredFires, unlocked]
      rfl
  | advanceStage invoked fits now putOff =>
    exact ⟨handedOver.advanceStage invoked now putOff,
      balanced.advanceStage handedOver invoked fits finite now putOff⟩
  | suspend suspended =>
    refine ⟨?_, balanced.of_same rfl rfl⟩
    exact
      { handedOver with }

/-- The manager has stored the fires that it has computed. -/
def Run.Completed : Run → Prop
  | .needsRearm _ | .arm _ | .retire _ | .store _ => False
  | _ => True

/-- An invocation has delivered the fires that it has latched. -/
def Stage.Completed : Stage → Prop
  | .timerData _ | .push _ _ _ | .call _ => False
  | _ => True

/-- Neither the manager nor an invocation is about to pass fires on. -/
structure State.Completed (state : State) : Prop where
  run : ∀ run, state.run = some run → run.Completed
  stage :
    ∀ invocation, state.invocation = some invocation →
      invocation.stage.Completed

theorem State.Completed.inFlight
    {state : State}
    (completed : state.Completed) :
    state.inFlight = 0 := by
  have noRun : state.run.elim 0 Run.inFlight = 0 := by
    cases running : state.run with
    | none => rfl
    | some run =>
      have done := completed.run run running
      cases run <;> first | rfl | cases done
  have noStage : (state.invocation.elim 0 fun invocation =>
      invocation.stage.inFlight) = 0 := by
    cases invoked : state.invocation with
    | none => rfl
    | some invocation =>
      have done := completed.stage invocation invoked
      show invocation.stage.inFlight = 0
      generalize invocation.stage = stage at done
      cases stage <;> first | rfl | cases done
  rw [State.inFlight, noRun, noStage]

/-- Whoever pushes the target leaves it after the time that it has read. -/
def State.PushesPast (state : State) : Prop :=
  (∀ now timer, state.run = some (.push now timer) → timer.Fits now 0 →
    now < (timer.computeMissed now 0).1.target) ∧
  ∀ invocation data now timer, state.invocation = some invocation →
    invocation.stage = .push data now timer → timer.Fits now data →
      now < (timer.computeMissed now data).1.target

theorem Timer.lt_computeMissed
    {timer : Timer}
    {now prev : UInt64}
    (someInterval : 0 < timer.interval.toNat)
    (finiteInterval : timer.interval < int64Max)
    (due : timer.target ≤ now)
    (fits : timer.Fits now prev) :
    now < (timer.computeMissed now prev).1.target := by
  obtain ⟨missed, ⟨-, beyond⟩, -, -, -, target⟩ :=
    computeMissed_spec finiteInterval due fits
  rw [UInt64.lt_iff_toNat_lt, target]
  exact beyond someInterval

/-- The target has been pushed by one interval for every fire, past the time of
the pass that counted it, and every fire that is not in flight is delivered or
pending. -/
theorem reachable_firesConserved
    {timer : Timer}
    {state : State}
    (reached : Reachable (Configured timer) Step state) :
    state.deliveredFires + fires state.pending + state.inFlight =
        (state.timer.target.toNat - timer.target.toNat) /
          timer.interval.toNat ∧
      (state.Completed →
        state.deliveredFires + fires state.pending =
          (state.timer.target.toNat - timer.target.toNat) /
            timer.interval.toNat) ∧
      state.PushesPast := by
  have all : 0 < timer.interval.toNat ∧ timer.interval < int64Max ∧
      state.Sound timer := by
    induction reached with
    | start configured =>
      exact ⟨configured.someInterval, configured.finiteInterval,
        configured.sound⟩
    | next earlier last inductionHypothesis =>
      obtain ⟨some, finite, sound⟩ := inductionHypothesis
      exact ⟨some, finite, sound.step finite last⟩
  obtain ⟨some, finite, sound⟩ := all
  have conserved : state.fired =
      (state.timer.target.toNat - timer.target.toNat) /
        timer.interval.toNat := by
    rw [sound.balanced.target, Nat.add_sub_cancel_left,
      Nat.mul_div_cancel _ some]
  have interval := sound.balanced.interval
  refine ⟨conserved, fun completed => ?_, ?_, ?_⟩
  · rw [← conserved, State.fired, completed.inFlight, Nat.add_zero]
  · intro now read running fits
    obtain ⟨-, rfl, due⟩ := sound.handedOver.run _ running
    exact Timer.lt_computeMissed (interval ▸ some) (interval ▸ finite) due fits
  · intro invocation data now read invoked pushes fits
    have holds := sound.handedOver.stage invocation invoked
    rw [pushes] at holds
    obtain ⟨-, -, -, rfl, due⟩ := holds
    exact Timer.lt_computeMissed (interval ▸ some) (interval ▸ finite) due fits

/-- A timer with target 10 and interval 5. -/
def everyFive : Timer := ⟨10, 10, 5⟩

/-- The handler consumes the first fire between the load of the pending data and
the marking; the second fire is computed by the handler. -/
theorem markedAfterLatch_reached :
    ∃ state : State,
      Reachable (Configured everyFive) Step state ∧
        state.delivered = [1, 1] ∧ state.Completed ∧
        state.timer.target = 20 := by
  have start : Reachable (Configured everyFive) Step
      ⟨everyFive, 0, true, false, none, none, []⟩ :=
    .start ⟨by decide, by decide, rfl, rfl, rfl, rfl, rfl⟩
  have due := start.next (.run 12 rfl rfl rfl (by decide))
  have loaded := due.next (.advanceRun rfl trivial)
  have computed := loaded.next (.advanceRun rfl trivial)
  have pushed := computed.next
    (.advanceRun rfl (show Timer.Fits _ _ _ by decide))
  have decided := pushed.next (.advanceRun rfl trivial)
  have armed := decided.next (.advanceRun rfl trivial)
  have stored := armed.next (.advanceRun rfl trivial)
  have again := stored.next (.run 16 rfl rfl rfl (by decide))
  have seen := again.next (.advanceRun rfl trivial)
  have invoked := seen.next (.invoke false true rfl (by rintro ⟨⟩))
  have started := invoked.next (.advanceStage rfl (by trivial) 0 false)
  have probed := started.next (.advanceStage rfl (by trivial) 0 false)
  have latched := probed.next (.advanceStage rfl (by trivial) 0 false)
  have called := latched.next (.advanceStage rfl (by trivial) 0 false)
  have disarmed := called.next (.advanceRun rfl trivial)
  have marked := disarmed.next (.advanceRun rfl trivial)
  have returned := marked.next (.advanceStage rfl (by trivial) 0 false)
  have invokedAgain := returned.next (.invoke false true rfl (by rintro ⟨⟩))
  have startedAgain := invokedAgain.next (.advanceStage rfl (by trivial) 0 false)
  have probedAgain := startedAgain.next (.advanceStage rfl (by trivial) 0 false)
  have latchedAgain := probedAgain.next (.advanceStage rfl (by trivial) 0 false)
  have read := latchedAgain.next (.advanceStage rfl (by trivial) 17 false)
  have missed := read.next
    (.advanceStage rfl (by show Timer.Fits _ _ _; decide) 0 false)
  have calledAgain := missed.next (.advanceStage rfl (by trivial) 0 false)
  have returnedAgain := calledAgain.next (.advanceStage rfl (by trivial) 0 false)
  exact ⟨_, returnedAgain, rfl, ⟨by rintro _ ⟨⟩, by rintro _ ⟨⟩⟩, rfl⟩

/-- Both fires of that run are delivered, and none twice. -/
theorem markedAfterLatch_firesConserved :
    ∃ state : State,
      Reachable (Configured everyFive) Step state ∧
        state.delivered = [1, 1] ∧
        state.deliveredFires + fires state.pending = (20 - 10) / 5 := by
  obtain ⟨state, reached, delivered, completed, target⟩ :=
    markedAfterLatch_reached
  have conserved := (reachable_firesConserved reached).2.1 completed
  rw [target] at conserved
  exact ⟨state, reached, delivered, conserved⟩

end LibDispatch.TimerSource
