import LibDispatch.Apply
import LibDispatch.QueueState

namespace LibDispatch.ApplyWidth

open QueueState Apply

/-!
# The width of a redirected loop

`_dispatch_apply_redirect` reserves the width of its continuations on every
queue between the given one and the root queue, and gives it back.  The words
of the queues change concurrently in any way.  Beside each word stands what the
others have made of it: the difference is what the loop holds.
-/

/-! ## The source -/

/-- `_dq_state_extract_width_bits`. -/
def extractWidthBits (dqState : UInt64) : Nat :=
  ((dqState &&& widthMask) >>> 41).toNat

/-- `_dq_state_available_width`. -/
def availableWidth (dqState : UInt64) : Nat :=
  if dqState &&& widthFullBit = 0 then
    widthFull.toNat - extractWidthBits dqState
  else
    0

/-- A queue of the hierarchy. -/
structure Level where
  dqState : UInt64
  dqWidth : UInt16
  /-- The word as it would be without the loop: its first value, and the changes
  that others made. -/
  others : UInt64

/-- `_dispatch_queue_try_reserve_apply_width`, once its exchange succeeds. -/
def Level.tryReserve (dq : Level) (daWidth : Nat) : Level × Nat :=
  let width := availableWidth dq.dqState
  if dq.dqWidth = 1 ∨ width = 0 then
    (dq, 0)
  else
    let width := if daWidth < width then daWidth else width
    ({ dq with
        dqState := dq.dqState + UInt64.ofNat width * widthInterval }, width)

/-- One round of `_dispatch_queue_relinquish_width`. -/
def Level.relinquish (dq : Level) (daWidth : Nat) : Level :=
  { dq with
    dqState := dq.dqState - UInt64.ofNat daWidth * widthInterval }

/-- Others change a queue, concurrently and in any way. -/
def Level.change (dq : Level) (dqState : UInt64) (dqWidth : UInt16) :
    Level where
  dqState := dqState
  dqWidth := dqWidth
  others := dq.others + (dqState - dq.dqState)

/-- Where `_dispatch_apply_redirect` is.  The queues are numbered from the given
one towards the root queue. -/
inductive Phase where
  /-- At the top of the loop. -/
  | reserve (dq daWidth : Nat)
  /-- Relinquishing what a queue offers less than those before it. -/
  | giveBack (dq stop excess daWidth : Nat)
  /-- In `_dispatch_apply_f`. -/
  | parallel (daWidth : Nat)
  /-- Relinquishing everything. -/
  | relinquish (dq daWidth : Nat)
  /-- In `_dispatch_apply_serial`. -/
  | serial
  | returned

/-- A redirected loop over a chain of some depth above the root queue. -/
structure State where
  queue : Nat → Level
  depth : Nat
  daThrCnt : Nat
  phase : Phase
  /-- A queue has offered nothing. -/
  refused : Bool

variable (state : State)

/-- An assignment to one queue. -/
def State.set (dq : Nat) (level : Level) : State :=
  { state with
    queue := fun other => if other = dq then level else state.queue other }

/-- The end of a round of the loop: on to the target queue. -/
def State.toTarget (dq daWidth : Nat) : State :=
  { state with
    phase :=
      if dq + 1 < state.depth then
        .reserve (dq + 1) daWidth
      else
        .parallel daWidth }

/-- The next step of `_dispatch_apply_redirect`. -/
def State.advance (state : State) : Option State :=
  match state.phase with
  | .reserve dq daWidth =>
    let (level, width) := (state.queue dq).tryReserve daWidth
    let state := state.set dq level
    if daWidth > width then
      some { state with
        phase := .giveBack 0 dq (daWidth - width) width
        refused := width = 0 }
    else
      some (state.toTarget dq daWidth)
  | .giveBack dq stop excess daWidth =>
    if dq ≠ stop then
      some { state.set dq ((state.queue dq).relinquish excess) with
        phase := .giveBack (dq + 1) stop excess daWidth }
    else if daWidth = 0 then
      some { state with phase := .serial }
    else
      some (State.toTarget
        { state with daThrCnt := state.daThrCnt - excess } stop daWidth)
  | .parallel daWidth => some { state with phase := .relinquish 0 daWidth }
  | .relinquish dq daWidth =>
    if dq ≠ state.depth then
      some { state.set dq ((state.queue dq).relinquish daWidth) with
        phase := .relinquish (dq + 1) daWidth }
    else
      some { state with phase := .returned }
  | .serial => some { state with phase := .returned }
  | .returned => none

/-- What happens next: the loop takes a step, or others change a queue. -/
inductive Event where
  | advance
  | others (dq : Nat) (dqState : UInt64) (dqWidth : UInt16)

def State.next : Event → Option State
  | .advance => state.advance
  | .others dq dqState dqWidth =>
    some (state.set dq ((state.queue dq).change dqState dqWidth))

def Step (state following : State) : Prop :=
  ∃ event, state.next event = some following

/-! ## Conservation -/

/-- A number of units of the width of a queue is reserved for the loop. -/
def Level.Holds (dq : Level) (units : Nat) : Prop :=
  dq.dqState = dq.others + UInt64.ofNat units * widthInterval

/-- The units that are reserved on the queues. -/
def State.Holds (units : Nat → Nat) : Prop :=
  ∀ dq, (state.queue dq).Holds (units dq)

/-- What the loop holds on each queue, with its threads, in each phase. -/
def State.Conserves : Prop :=
  match state.phase with
  | .reserve dq daWidth =>
    dq < state.depth ∧ 0 < daWidth ∧ state.daThrCnt = daWidth + 1 ∧
      state.refused = false ∧
      state.Holds fun other => if other < dq then daWidth else 0
  | .giveBack dq stop excess daWidth =>
    dq ≤ stop ∧ stop < state.depth ∧
      state.daThrCnt = daWidth + excess + 1 ∧
      (state.refused = true ↔ daWidth = 0) ∧
      state.Holds fun other =>
        if other < dq ∨ other = stop then daWidth
        else if other < stop then daWidth + excess
        else 0
  | .parallel daWidth =>
    0 < daWidth ∧ state.daThrCnt = daWidth + 1 ∧ state.refused = false ∧
      state.Holds fun other => if other < state.depth then daWidth else 0
  | .relinquish dq daWidth =>
    dq ≤ state.depth ∧ state.refused = false ∧
      state.Holds fun other =>
        if dq ≤ other ∧ other < state.depth then daWidth else 0
  | .serial => state.refused = true ∧ state.Holds fun _ => 0
  | .returned => state.Holds fun _ => 0

/-- The steps left at most when others leave the queues alone. -/
def State.stepsLeft : Nat :=
  let round := state.depth + 2
  match state.phase with
  | .reserve dq _ => (state.depth - dq) * round + round
  | .giveBack dq stop _ _ => (state.depth - stop) * round + (stop - dq) + 1
  | .parallel _ => round
  | .relinquish dq _ => state.depth - dq + 1
  | .serial => 1
  | .returned => 0

section Level

variable {dq : Level} {units : Nat}

theorem Level.holds_zero : dq.Holds 0 ↔ dq.dqState = dq.others := by
  simp [Level.Holds]

theorem Level.tryReserve_eq
    (dq : Level)
    (daWidth : Nat) :
    dq.tryReserve daWidth = (dq, 0) ∨
      ∃ width ≤ daWidth, dq.tryReserve daWidth =
        ({ dq with
            dqState := dq.dqState + UInt64.ofNat width * widthInterval },
          width) := by
  unfold Level.tryReserve
  dsimp only
  split_ifs
  · exact .inl rfl
  · exact .inr ⟨daWidth, Nat.le_refl _, rfl⟩
  · exact .inr ⟨_, by omega, rfl⟩

theorem Level.Holds.add
    (holds : dq.Holds 0)
    (units : Nat) :
    Level.Holds
      { dq with
        dqState := dq.dqState + UInt64.ofNat units * widthInterval }
      units := by
  rw [Level.holds_zero] at holds
  unfold Level.Holds
  dsimp only
  rw [holds]

theorem Level.Holds.tryReserve
    (holds : dq.Holds 0)
    (daWidth : Nat) :
    (dq.tryReserve daWidth).2 ≤ daWidth ∧
      (dq.tryReserve daWidth).1.Holds (dq.tryReserve daWidth).2 := by
  rcases dq.tryReserve_eq daWidth with refused | ⟨width, bounded, reserved⟩
  · rw [refused]
    exact ⟨Nat.zero_le _, holds⟩
  · rw [reserved]
    exact ⟨bounded, holds.add width⟩

theorem ofNat_add_mul (first second : Nat) (unit : UInt64) :
    UInt64.ofNat (first + second) * unit =
      UInt64.ofNat first * unit + UInt64.ofNat second * unit := by
  rw [UInt64.ofNat_add, UInt64.add_mul]

theorem Level.Holds.relinquish
    {daWidth : Nat}
    (holds : dq.Holds (units + daWidth)) :
    (dq.relinquish daWidth).Holds units := by
  rw [Level.Holds, ofNat_add_mul, ← UInt64.add_assoc] at holds
  simp only [Level.Holds, Level.relinquish, holds, UInt64.add_sub_cancel]

theorem Level.Holds.change
    (holds : dq.Holds units)
    (dqState : UInt64)
    (dqWidth : UInt16) :
    (dq.change dqState dqWidth).Holds units := by
  simp only [Level.Holds, Level.change] at holds ⊢
  generalize UInt64.ofNat units * widthInterval = held at holds ⊢
  rw [holds, UInt64.add_assoc, UInt64.add_comm _ held, ← UInt64.add_assoc,
    UInt64.add_comm (dq.others + held), UInt64.sub_add_cancel]

end Level

variable {state following : State}

/-- What is held after an assignment to one queue. -/
theorem State.Holds.set
    {units after : Nat → Nat}
    {dq : Nat}
    {level : Level}
    (holds : state.Holds units)
    (own : level.Holds (after dq))
    (same : ∀ other, other ≠ dq → units other = after other) :
    (state.set dq level).Holds after := by
  intro other
  unfold State.set
  dsimp only
  split_ifs with isDq
  · exact isDq ▸ own
  · exact same other isDq ▸ holds other

theorem State.Holds.congr
    {units after : Nat → Nat}
    (holds : state.Holds units)
    (same : ∀ dq, units dq = after dq) :
    state.Holds after :=
  fun dq => same dq ▸ holds dq

/-- The loop goes on to the next queue when all queues so far hold the same. -/
theorem State.Conserves.toTarget
    {dq daWidth : Nat}
    (inside : dq < state.depth)
    (positive : 0 < daWidth)
    (threads : state.daThrCnt = daWidth + 1)
    (offered : state.refused = false)
    (holds : state.Holds fun other => if other ≤ dq then daWidth else 0) :
    (state.toTarget dq daWidth).Conserves ∧
      (state.toTarget dq daWidth).stepsLeft <
        (state.depth - dq) * (state.depth + 2) + 1 := by
  have left : state.depth - dq = state.depth - (dq + 1) + 1 := by omega
  have rounds : (state.depth - dq) * (state.depth + 2) =
      (state.depth - (dq + 1)) * (state.depth + 2) + (state.depth + 2) := by
    rw [left, Nat.succ_mul]
  unfold State.toTarget State.Conserves State.stepsLeft
  by_cases more : dq + 1 < state.depth
  · simp only [more, ↓reduceIte]
    refine ⟨⟨trivial, positive, threads, offered, holds.congr fun other => ?_⟩,
      by omega⟩
    simp only [Nat.lt_succ_iff]
  · simp only [more, ↓reduceIte]
    refine ⟨⟨positive, threads, offered, holds.congr fun other => ?_⟩, ?_⟩
    · have last : state.depth = dq + 1 := by omega
      simp only [last, Nat.lt_succ_iff]
    · rw [rounds]
      omega

/-- The loop takes a step, which conserves the width and comes closer to the
return. -/
theorem State.Conserves.advance
    (conserves : state.Conserves)
    (running : state.phase ≠ .returned) :
    ∃ following, state.advance = some following ∧ following.Conserves ∧
      following.stepsLeft < state.stepsLeft := by
  unfold State.Conserves at conserves
  unfold State.advance
  generalize phase : state.phase = current at conserves running ⊢
  cases current with
  | reserve dq daWidth =>
    obtain ⟨inside, positive, threads, offered, holds⟩ := conserves
    have nothing : (state.queue dq).Holds 0 := by
      simpa using holds dq
    obtain ⟨bounded, reserved⟩ := nothing.tryReserve daWidth
    simp only []
    set width := ((state.queue dq).tryReserve daWidth).2
    have own : (state.set dq ((state.queue dq).tryReserve daWidth).1).Holds
        fun other =>
          if other = dq then width else if other < dq then daWidth else 0 :=
      holds.set (by simpa using reserved) fun other different => by
        simp only [if_neg different]
    have rank : state.stepsLeft = (state.depth - dq) * (state.depth + 2) +
        (state.depth + 2) := by
      simp only [State.stepsLeft, phase]
    rw [rank]
    split_ifs with less
    · refine ⟨_, rfl, ?_⟩
      simp only [State.Conserves, State.stepsLeft]
      refine ⟨⟨Nat.zero_le _, inside, ?_, by simp, ?_⟩, ?_⟩
      · simp only [State.set]
        omega
      · refine own.congr fun other => ?_
        split_ifs <;> omega
      · simp only [State.set]
        omega
    · obtain ⟨kept, closer⟩ := @State.Conserves.toTarget
        (state.set dq ((state.queue dq).tryReserve daWidth).1) dq daWidth
        inside positive threads offered (own.congr fun other => by
          split_ifs <;> omega)
      refine ⟨_, rfl, kept, closer.trans ?_⟩
      simp only [State.set]
      omega
  | giveBack dq stop excess daWidth =>
    obtain ⟨before, inside, threads, offered, holds⟩ := conserves
    have rank : state.stepsLeft = (state.depth - stop) * (state.depth + 2) +
        (stop - dq) + 1 := by
      simp only [State.stepsLeft, phase]
    rw [rank]
    simp only []
    split_ifs with more none
    · refine ⟨_, rfl, ?_⟩
      have whole : (state.queue dq).Holds (daWidth + excess) := by
        simpa [more, show dq < stop by omega] using holds dq
      simp only [State.Conserves, State.stepsLeft]
      refine ⟨⟨by omega, inside, threads, offered, holds.set ?_ ?_⟩, ?_⟩
      · simpa using whole.relinquish
      · intro other different
        split_ifs <;> omega
      · simp only [State.set]
        omega
    · refine ⟨_, rfl, ?_⟩
      simp only [State.Conserves, State.stepsLeft]
      have rounds : 0 < (state.depth - stop) * (state.depth + 2) :=
        Nat.mul_pos (by omega) (by omega)
      refine ⟨⟨offered.mpr none, holds.congr fun other => ?_⟩, by omega⟩
      split_ifs <;> omega
    · obtain ⟨kept, closer⟩ := @State.Conserves.toTarget
        { state with daThrCnt := state.daThrCnt - excess } stop daWidth
        inside (Nat.pos_of_ne_zero none) (by simp only []; omega)
        (by simpa [none] using offered) (holds.congr fun other => by
          split_ifs <;> omega)
      refine ⟨_, rfl, kept, closer.trans_le ?_⟩
      simp only []
      omega
  | parallel daWidth =>
    refine ⟨_, rfl, ?_⟩
    obtain ⟨-, -, offered, holds⟩ := conserves
    simp only [State.Conserves, State.stepsLeft, phase]
    exact ⟨⟨Nat.zero_le _, offered, holds.congr fun other => by simp⟩,
      by omega⟩
  | relinquish dq daWidth =>
    obtain ⟨before, offered, holds⟩ := conserves
    simp only []
    split_ifs with more
    · refine ⟨_, rfl, ?_⟩
      have inside : dq < state.depth := by omega
      have whole : (state.queue dq).Holds (0 + daWidth) := by
        simpa [inside] using holds dq
      simp only [State.Conserves, State.stepsLeft, phase]
      refine ⟨⟨inside, offered, holds.set ?_ ?_⟩, ?_⟩
      · simpa using whole.relinquish
      · intro other different
        have past : dq ≤ other ↔ dq + 1 ≤ other := by omega
        exact if_congr (and_congr past Iff.rfl) rfl rfl
      · simp only [State.set]
        omega
    · refine ⟨_, rfl, ?_⟩
      simp only [State.Conserves, State.stepsLeft, phase]
      exact ⟨holds.congr fun other => if_neg (by omega), by omega⟩
  | serial =>
    refine ⟨_, rfl, ?_⟩
    simp only [State.Conserves, State.stepsLeft, phase]
    exact ⟨conserves.2, by omega⟩
  | returned => exact (running rfl).elim

/-- Others do not change what the loop holds. -/
theorem State.Conserves.others
    (conserves : state.Conserves)
    (dq : Nat)
    (dqState : UInt64)
    (dqWidth : UInt16) :
    (state.set dq ((state.queue dq).change dqState dqWidth)).Conserves := by
  have own {units : Nat → Nat} (holds : state.Holds units) :
      (state.set dq ((state.queue dq).change dqState dqWidth)).Holds units :=
    holds.set ((holds dq).change dqState dqWidth) fun _ _ => rfl
  unfold State.Conserves at conserves ⊢
  simp only [State.set] at own ⊢
  generalize state.phase = phase at conserves ⊢
  cases phase with
  | reserve | giveBack =>
    obtain ⟨before, inside, threads, offered, holds⟩ := conserves
    exact ⟨before, inside, threads, offered, own holds⟩
  | parallel =>
    obtain ⟨positive, threads, offered, holds⟩ := conserves
    exact ⟨positive, threads, offered, own holds⟩
  | relinquish => exact ⟨conserves.1, conserves.2.1, own conserves.2.2⟩
  | serial => exact ⟨conserves.1, own conserves.2⟩
  | returned => exact own conserves

end LibDispatch.ApplyWidth
