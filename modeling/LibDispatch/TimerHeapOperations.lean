import LibDispatch.TimerHeapOrder

namespace LibDispatch.TimerHeap

/-!
# The operations on a heap of timers

What inserting, updating and removing a timer does to a heap whose two halves
are heaps of the same members.  Each operation opens a hole in both halves and
sifts a timer into it; in between the heap may grow or shrink by a segment.
-/

open IndexedHeap (Heaped Holed)

section Operations

variable {Timer : Type}
variable {chain : Nat → Nat} {dth : TimerHeap Timer}
variable {id : HeapId} {Member : Timer → Prop} {count : Nat}

/-! ## Both halves -/

/-- Both halves are heaps again, and the other timers are as before. -/
structure Reordered
    (chain : Nat → Nat)
    (Member : Timer → Prop)
    (count : Nat)
    (dth after : TimerHeap Timer) :
    Prop where
  segmented : Segmented chain after
  counted : after.count = dth.count
  segments : after.segments = dth.segments
  heapKey : after.heapKey = dth.heapKey
  heaped :
    ∀ id,
      Heaped (index id) (dth.keyOf id) Member (after.order id) count
  outside :
    ∀ timer id,
      ¬ Member timer →
      after.heapEntry timer id = dth.heapEntry timer id

variable {after : TimerHeap Timer}

theorem keyOf_congr
    (sameKeys : after.heapKey = dth.heapKey)
    (id : HeapId) :
    after.keyOf id = dth.keyOf id := by
  unfold keyOf
  rw [sameKeys]

theorem Kept.entry_other
    (kept : Kept id Member dth after)
    {other : HeapId}
    (differs : other ≠ id)
    (timer : Timer) :
    after.heapEntry timer other = dth.heapEntry timer other :=
  congrFun (congrArg IndexedHeap.entry (kept.others other differs)) timer

/-- A hole in one half is not touched by sifting in the other. -/
theorem Kept.holed_other
    {OtherMember : Timer → Prop}
    (kept : Kept id Member dth after)
    {other : HeapId}
    (differs : other ≠ id)
    {hole : Nat}
    {timer : Timer}
    (holed :
      Holed (index other) (dth.keyOf other) OtherMember
        (dth.order other) count hole timer) :
    Holed (index other) (after.keyOf other) OtherMember
      (after.order other) count hole timer := by
  rw [keyOf_congr kept.heapKey, kept.others other differs]
  exact holed

/-- Sifting in one half and then in the other. -/
theorem Resifted.both
    {between : TimerHeap Timer}
    (byTarget : Resifted chain .target Member count dth between)
    (byDeadline : Resifted chain .deadline Member count between after) :
    Reordered chain Member count dth after := by
  have keys : between.heapKey = dth.heapKey := byTarget.kept.heapKey
  refine
    { byDeadline with
      counted := byDeadline.kept.count.trans byTarget.kept.count
      segments := byDeadline.kept.segments.trans byTarget.kept.segments
      heapKey := byDeadline.kept.heapKey.trans keys
      heaped := ?heaped
      outside := ?outside }
  case heaped =>
    intro id
    cases id with
    | target =>
      rw [byDeadline.kept.others .target (by decide)]
      exact byTarget.heaped
    | deadline =>
      rw [← keyOf_congr keys]
      exact byDeadline.heaped
  case outside =>
    intro timer id isOutside
    cases id with
    | target =>
      rw [byDeadline.kept.entry_other (by decide)]
      exact byTarget.kept.outside timer isOutside
    | deadline =>
      rw [byDeadline.kept.outside timer isOutside]
      exact byTarget.kept.entry_other (by decide) timer

/-! ## Segments -/

theorem capacity_add_two_le
    {segments : Nat}
    (few : segments < 30) :
    capacity segments + 2 ≤ capacity (segments + 1) := by
  cases segments with
  | zero => decide
  | succ segNo =>
    have positive : 0 < 2 ^ segNo := Nat.two_pow_pos segNo
    have large : segNo < 2 ^ segNo := Nat.lt_two_pow_self
    rw [capacity_succ (by omega), capacity_succ few, pow_succ]
    omega

theorem two_le_capacity
    {segments : Nat}
    (few : segments ≤ 30) :
    2 ≤ capacity segments := by
  cases segments with
  | zero => decide
  | succ segNo =>
    have large : segNo < 2 ^ segNo := Nat.lt_two_pow_self
    rw [capacity_succ few]
    omega

/-- There is no more segment than needed. -/
def Tight (dth : TimerHeap Timer) (needed : Nat) : Prop :=
  ∀ segNo, dth.segments = segNo + 1 → capacity segNo < needed

/-- A heap with room for what is needed and no spare segment, in which the first
slots are as before. -/
structure Fitted
    (needed kept : Nat)
    (dth after : TimerHeap Timer) :
    Prop where
  count : after.count = dth.count
  heapKey : after.heapKey = dth.heapKey
  heapEntry : after.heapEntry = dth.heapEntry
  room : needed ≤ capacity after.segments
  tight : Tight after needed
  stored : ∀ idx < kept, after.stored idx = dth.stored idx

/-- There is room for one more timer. -/
theorem Segmented.makeRoom_spec
    (segmented : Segmented chain dth)
    (room : 2 * count ≤ capacity dth.segments)
    (tight : Tight dth (2 * count + 2))
    (fits : 2 * count + 2 ≤ capacity 30) :
    ∃ grown newChain,
      dth.makeRoom (2 * count + 2) = some grown ∧
      Segmented newChain grown ∧
      Fitted (2 * count + 2) (2 * count) dth grown := by
  unfold makeRoom
  split_ifs with isFull
  · have fewer : dth.segments < 30 := by
      rcases Nat.lt_or_eq_of_le segmented.few with fewer | most
      · exact fewer
      · rw [most] at isFull
        omega
    obtain ⟨grown, newChain, ran, kept, resized, -, slots⟩ :=
      segmented.grow_spec fewer
    have larger := capacity_add_two_le fewer
    refine ⟨grown, newChain, ran, kept, ?_⟩
    exact
      { resized with
        room := by
          rw [resized.segments]
          omega
        tight := by
          intro segNo isLast
          obtain rfl : dth.segments = segNo :=
            Nat.succ.inj (resized.segments.symm.trans isLast)
          exact isFull
        stored := fun idx inside => slots idx (by omega) }
  · exact
      ⟨dth, chain, rfl, segmented,
        { count := rfl
          heapKey := rfl
          heapEntry := rfl
          room := by omega
          tight := tight
          stored := fun _ _ => rfl }⟩

/-- The room of a timer that has left is given back. -/
theorem Segmented.giveBack_spec
    (segmented : Segmented chain dth)
    (positive : 0 < count)
    (room : 2 * count + 2 ≤ capacity dth.segments)
    (tight : Tight dth (2 * count + 2)) :
    ∃ shrunk,
      dth.giveBack (2 * count) = some shrunk ∧
      Segmented chain shrunk ∧
      Fitted (2 * count) (2 * count) dth shrunk := by
  have few := segmented.few
  obtain ⟨segNo, isLast⟩ : ∃ segNo, dth.segments = segNo + 1 := by
    refine ⟨dth.segments - 1, ?_⟩
    have : dth.segments ≠ 0 := by
      intro none
      rw [none, capacity_zero] at room
      omega
    omega
  unfold giveBack
  rw [isLast, Nat.add_sub_cancel]
  split_ifs with isSpare
  · obtain ⟨shrunk, ran, kept, resized, slots⟩ := segmented.shrink_spec isLast
    refine ⟨shrunk, ran, kept, ?_⟩
    exact
      { resized with
        room := by
          rw [resized.segments]
          exact isSpare
        tight := by
          intro earlier isEarlier
          obtain rfl : segNo = earlier + 1 :=
            resized.segments.symm.trans isEarlier
          have larger := capacity_add_two_le (show earlier < 30 by omega)
          have before := tight (earlier + 1) isLast
          omega
        stored := fun idx inside => slots idx (by omega) }
  · exact
      ⟨dth, rfl, segmented,
        { count := rfl
          heapKey := rfl
          heapEntry := rfl
          room := by omega
          tight := by
            intro other isOther
            obtain rfl : segNo = other :=
              Nat.succ.inj (isLast.symm.trans isOther)
            omega
          stored := fun _ _ => rfl }⟩

variable {needed : Nat}

theorem Fitted.order_slot
    {position : Nat}
    (fitted : Fitted needed (2 * count) dth after)
    (room : 2 * count ≤ capacity dth.segments)
    (needs : 2 * count ≤ needed)
    (inside : position < count) :
    (after.order id).slot position =
      (dth.order id).slot position := by
  have below : index id position < 2 * count := index_lt inside
  have wide := fitted.room
  rw [TimerHeap.order_slot (by omega), TimerHeap.order_slot (by omega),
    fitted.stored _ below]

/-- A heap stays one when only segments beyond it come and go. -/
theorem Fitted.heaped
    {key : Timer → Nat}
    (fitted : Fitted needed (2 * count) dth after)
    (room : 2 * count ≤ capacity dth.segments)
    (needs : 2 * count ≤ needed)
    (heaped : Heaped (index id) key Member (dth.order id) count) :
    Heaped (index id) key Member (after.order id) count :=
  heaped.congr (fun _ inside => fitted.order_slot room needs inside)
    (fun member _ => by simp only [order, fitted.heapEntry])
    (fun _ => Iff.rfl)

/-! ## The invariant -/

/-- The two halves of a heap hold the same members. -/
structure Sound (state : Populated Timer) : Prop where
  distinct : state.members.Nodup
  chained : ∃ chain, Segmented chain state.dth
  roomy : Roomy state.dth state.members.length
  tight : Tight state.dth (2 * state.members.length)
  heaped :
    ∀ id,
      Heaped (index id) (state.dth.keyOf id) (· ∈ state.members)
        (state.dth.order id) state.members.length
  outside :
    ∀ timer id,
      timer ∉ state.members →
      state.dth.heapEntry timer id = invalidId
  empty : state.members = [] → ∀ id, state.dth.min id = none

variable {members : List Timer} {timer : Timer}

/-- The invariant after an operation that has reordered both halves. -/
theorem Reordered.sound
    (reordered : Reordered chain (· ∈ members) count dth after)
    (isCount : members.length = count)
    (distinct : members.Nodup)
    (roomy : Roomy dth count)
    (tight : Tight dth (2 * count))
    (outside :
      ∀ timer id,
        timer ∉ members → dth.heapEntry timer id = invalidId)
    (inhabited : members ≠ []) :
    Sound ⟨after, members⟩ := by
  subst isCount
  exact
    { distinct := distinct
      chained := ⟨chain, reordered.segmented⟩
      roomy :=
        { roomy with
          counted := reordered.counted.trans roomy.counted
          room := by
            dsimp only
            rw [reordered.segments]
            exact roomy.room }
      tight := by
        intro segNo isLast
        exact tight segNo (reordered.segments.symm.trans isLast)
      heaped := by
        intro id
        dsimp only
        rw [keyOf_congr reordered.heapKey]
        exact reordered.heaped id
      outside := by
        intro timer id isOutside
        exact (reordered.outside timer id isOutside).trans
          (outside timer id isOutside)
      empty := fun none => absurd none inhabited }

/-! ## Inserting -/

/-- Raising the class of service changes nothing else that the heap needs. -/
theorem raiseQos_eq (dth : TimerHeap Timer) (timer : Timer) :
    ∃ maxQos needsProgram,
      dth.raiseQos timer =
        { dth with maxQos := maxQos, needsProgram := needsProgram } := by
  unfold raiseQos
  dsimp only
  split_ifs
  · exact ⟨_, _, rfl⟩
  · exact ⟨dth.maxQos, dth.needsProgram, rfl⟩

/-- The first slots are in the structure itself. -/
theorem stored_root (dth : TimerHeap Timer) (id : HeapId) :
    dth.stored (index id 0) = dth.min id := by
  have small : index id 0 < idCount := index_lt Nat.one_pos
  have isMin : dth.getSlot (index id 0) = some (.min id) := by
    rw [getSlot, if_pos small, heapId_index]
  rw [stored, isMin]
  rfl

/-- A heap of one timer, which is in the structure itself. -/
theorem Sound.of_first
    (segmented : Segmented chain dth)
    (counted : dth.count = 2)
    (none : dth.segments = 0)
    (least : ∀ id, dth.min id = some timer)
    (entry : ∀ id, dth.heapEntry timer id = id.number)
    (outside :
      ∀ other id,
        other ≠ timer → dth.heapEntry other id = invalidId) :
    Sound ⟨dth, [timer]⟩ := by
  have stored : ∀ id, (dth.order id).slot 0 = some timer := by
    intro id
    have small : index id 0 < 2 := index_lt Nat.one_pos
    rw [order_slot (by rw [none, capacity_zero]; exact small), stored_root]
    exact least id
  refine
    { distinct := by simp
      chained := ⟨chain, segmented⟩
      roomy :=
        { counted := counted
          room := by
            dsimp only
            rw [none, capacity_zero]
            exact le_rfl
          fits := show 1 ≤ 2 ^ 30 by decide }
      tight := by
        intro segNo isLast
        exact absurd (none.symm.trans isLast) (Nat.succ_ne_zero segNo).symm
      heaped := ?heaped
      outside := ?outside
      empty := by rintro ⟨⟩ }
  case heaped =>
    intro id
    exact
      { filled := by
          intro position inside
          obtain rfl : position = 0 := Nat.lt_one_iff.mp inside
          refine ⟨timer, stored id, List.mem_singleton_self timer, ?_⟩
          exact (entry id).trans (Nat.zero_add id.number).symm
        placed := by
          intro member isMember
          obtain rfl := List.mem_singleton.mp isMember
          exact ⟨0, Nat.one_pos, stored id⟩
        ordered := by
          intro position above below positive inside
          have := Nat.lt_one_iff.mp inside
          omega }
  case outside =>
    intro other id isOutside
    exact outside other id fun same =>
      isOutside (List.mem_singleton.mpr same)

/-- A heap that has been prepared for one more timer. -/
structure Prepared
    (count : Nat)
    (dth after : TimerHeap Timer) :
    Prop where
  counted : after.count = 2 * count + 2
  heapKey : after.heapKey = dth.heapKey
  heapEntry : after.heapEntry = dth.heapEntry
  room : 2 * count + 2 ≤ capacity after.segments
  tight : Tight after (2 * count + 2)
  slots :
    ∀ id, ∀ position < count,
      (after.order id).slot position = (dth.order id).slot position

/-- A new timer waits at the end of both halves. -/
theorem Prepared.holed
    {prepared : TimerHeap Timer}
    (ready : Prepared members.length dth prepared)
    (sound : Sound ⟨dth, members⟩)
    (isNew : timer ∉ members)
    (id : HeapId) :
    Holed (index id) (prepared.keyOf id) (· ∈ timer :: members)
      (prepared.order id) (members.length + 1) members.length timer := by
  have heaped :
      Heaped (index id) (prepared.keyOf id) (· ∈ members) (prepared.order id)
        members.length := by
    rw [keyOf_congr ready.heapKey]
    exact
      (sound.heaped id).congr (ready.slots id)
        (fun member _ => by simp only [order, ready.heapEntry])
        (fun _ => Iff.rfl)
  exact
    (heaped.extend isNew).congr (fun _ _ => rfl) (fun _ _ => rfl)
      (fun _ => List.mem_cons)

variable [DecidableEq Timer]

section

variable (sound : Sound ⟨dth, members⟩)

include sound

/-- Inserting into a heap that is not empty sifts the timer from the end of both
halves. -/
theorem Sound.insert_eq
    (inhabited : members ≠ [])
    (timer : Timer) :
    ∃ prepared newChain,
      Segmented newChain prepared ∧
      Prepared members.length dth prepared ∧
      ∀ fuel,
        dth.insert fuel timer =
          (prepared.resift fuel timer (index .target members.length)).bind
            fun byTarget =>
              byTarget.resift fuel timer (index .deadline members.length) := by
  obtain ⟨chain, segmented⟩ := sound.chained
  have fits : members.length ≤ 2 ^ 30 := sound.roomy.fits
  have positive := List.length_pos_of_ne_nil inhabited
  have counted : dth.count = 2 * members.length := sound.roomy.counted
  have room : 2 * members.length ≤ capacity dth.segments :=
    sound.roomy.room
  have newCount :
      word (dth.count + idCount) = 2 * members.length + 2 := by
    rw [counted]
    unfold word idCount
    omega
  have nonempty : dth.count ≠ 0 := by omega
  obtain ⟨maxQos, needsProgram, raised⟩ :=
    raiseQos_eq { dth with count := 2 * members.length + 2 } timer
  unfold insert
  simp only [newCount, if_neg nonempty, raised]
  obtain ⟨grown, newChain, ran, kept, fitted⟩ :=
    Segmented.makeRoom_spec
      (show Segmented chain
        { dth with
          count := 2 * members.length + 2
          maxQos := maxQos
          needsProgram := needsProgram } from { segmented with })
      room
      (fun segNo isLast => Nat.lt_add_right 2 (sound.tight segNo isLast))
      (le_trans (by omega) (show 2 ^ 31 + 2 ≤ capacity 30 by decide))
  refine ⟨grown, newChain, kept, ?_, ?_⟩
  · exact
      { fitted with
        counted := fitted.count
        slots := fun id position inside =>
          fitted.order_slot room (by omega) inside }
  · intro fuel
    rw [ran, counted]
    rfl

omit sound in
/-- The first timer is stored in the structure itself. -/
theorem Sound.insert_first
    (sound : Sound ⟨dth, []⟩)
    (timer : Timer)
    (fuel : Nat) :
    ∃ after,
      dth.insert fuel timer = some after ∧
      Sound ⟨after, [timer]⟩ ∧
      after.heapKey = dth.heapKey := by
  obtain ⟨chain, segmented⟩ := sound.chained
  have counted : dth.count = 0 := sound.roomy.counted
  obtain ⟨maxQos, needsProgram, raised⟩ :=
    raiseQos_eq { dth with count := word (0 + idCount) } timer
  unfold insert
  simp only [counted, if_true, raised]
  refine ⟨_, rfl, ?_, rfl⟩
  refine
    Sound.of_first { segmented with } rfl ?none (fun _ => rfl) ?entry
      ?outside
  case none =>
    by_contra several
    have := sound.tight _ (Nat.succ_pred several).symm
    simp at this
  case entry =>
    intro id
    cases id <;> simp [setEntry, HeapId.number]
  case outside =>
    intro other id differs
    simpa [setEntry, differs] using
      sound.outside other id List.not_mem_nil

/-- `_dispatch_timer_heap_insert` adds a member. -/
theorem Sound.insert_meets
    (isNew : timer ∉ members)
    (fits : members.length + 1 ≤ 2 ^ 30)
    (fuel : Nat) :
    Meets (fun after => Sound ⟨after, timer :: members⟩)
      (members.length + 1) fuel (dth.insert fuel timer) := by
  by_cases isEmpty : members = []
  · subst isEmpty
    obtain ⟨after, ran, isSound, -⟩ := sound.insert_first timer fuel
    rw [ran]
    exact .returns isSound
  · obtain ⟨prepared, chain, segmented, ready, inserts⟩ :=
      sound.insert_eq isEmpty timer
    have roomy : Roomy prepared (members.length + 1) :=
      ⟨ready.counted, ready.room, fits⟩
    rw [inserts]
    refine
      (segmented.resift_meets roomy (ready.holed sound isNew .target)
        fuel).bind fun between byTarget => ?_
    refine
      (byTarget.segmented.resift_meets (roomy.of_kept byTarget.kept)
        (byTarget.kept.holed_other (by decide)
          (ready.holed sound isNew .deadline))
        fuel).imp fun after byDeadline => ?_
    refine
      (byTarget.both byDeadline).sound rfl
        (List.nodup_cons.mpr ⟨isNew, sound.distinct⟩) roomy ready.tight ?_
        (List.cons_ne_nil _ _)
    intro other id isOutside
    rw [ready.heapEntry]
    exact sound.outside other id fun isMember =>
      isOutside (List.mem_cons_of_mem timer isMember)

/-! ## Updating -/

omit sound in
theorem configure_keyOf_other
    (keys : HeapId → Nat)
    (id : HeapId)
    {other : Timer}
    (differs : other ≠ timer) :
    (dth.configure timer keys).keyOf id other =
      dth.keyOf id other := by
  simp [keyOf, configure, differs]

/-- A member that has been configured leaves a hole where it is in both
halves. -/
theorem Sound.configure_holed
    (isMember : timer ∈ members)
    (keys : HeapId → Nat)
    (id : HeapId) :
    ∃ hole < members.length,
      dth.heapEntry timer id = index id hole ∧
      (dth.order id).slot hole = some timer ∧
      Holed (index id) ((dth.configure timer keys).keyOf id)
        (· ∈ members) (dth.order id) members.length hole timer := by
  obtain ⟨hole, inside, holds⟩ := (sound.heaped id).placed timer isMember
  obtain ⟨-, entry⟩ := (sound.heaped id).arranged.held inside holds
  exact
    ⟨hole, inside, entry, holds,
      (sound.heaped id).rekey (index_injective id) inside holds
        fun other differs => configure_keyOf_other keys id differs⟩

/-- A timer that is not in the heap may be configured. -/
theorem Sound.configure_outside
    (isOutside : timer ∉ members)
    (keys : HeapId → Nat) :
    Sound ⟨dth.configure timer keys, members⟩ := by
  obtain ⟨chain, segmented⟩ := sound.chained
  refine
    { sound with
      chained := ⟨chain, { segmented with }⟩
      roomy := { sound.roomy with }
      heaped := ?heaped }
  intro id
  refine (sound.heaped id).congr_key fun member isMember => ?_
  refine configure_keyOf_other keys id ?_
  rintro rfl
  exact isOutside isMember

/-- `_dispatch_timer_heap_update` finds the place of a member that has been
configured. -/
theorem Sound.update_meets
    (isMember : timer ∈ members)
    (keys : HeapId → Nat)
    (fuel : Nat) :
    Meets
      (fun after =>
        Sound ⟨after, members⟩ ∧
        after.heapKey = (dth.configure timer keys).heapKey)
      members.length fuel
      ((dth.configure timer keys).update fuel timer) := by
  obtain ⟨chain, segmented⟩ := sound.chained
  have roomy : Roomy (dth.configure timer keys) members.length :=
    { sound.roomy with }
  have configured : Segmented chain (dth.configure timer keys) :=
    { segmented with }
  obtain ⟨targetHole, -, targetEntry, -, targetHoled⟩ :=
    sound.configure_holed isMember keys .target
  obtain ⟨deadlineHole, -, deadlineEntry, -, deadlineHoled⟩ :=
    sound.configure_holed isMember keys .deadline
  unfold update
  rw [show (dth.configure timer keys).heapEntry timer .target = _
    from targetEntry]
  refine
    (configured.resift_meets roomy targetHoled fuel).bind
      fun between byTarget => ?_
  rw [(byTarget.kept.entry_other (by decide) timer).trans deadlineEntry]
  refine
    (byTarget.segmented.resift_meets (roomy.of_kept byTarget.kept)
      (byTarget.kept.holed_other (by decide) deadlineHoled)
      fuel).imp fun after byDeadline => ?_
  exact
    ⟨(byTarget.both byDeadline).sound rfl sound.distinct roomy sound.tight
      sound.outside (List.ne_nil_of_mem isMember),
      (byTarget.both byDeadline).heapKey⟩

end

/-! ## Removing -/

/-- Taking a timer out of one half. -/
theorem Segmented.removeFrom_meets
    (segmented : Segmented chain dth)
    (roomy : Roomy dth count)
    (room : 2 * count + 2 ≤ capacity dth.segments)
    {hole : Nat}
    (holed :
      Holed (index id) (dth.keyOf id) Member (dth.order id)
        (count + 1) hole timer)
    (holds : (dth.order id).slot hole = some timer)
    (entry : dth.heapEntry timer id = index id hole)
    (fuel : Nat) :
    Meets
      (Resifted chain id (fun other => Member other ∧ other ≠ timer) count
        dth)
      count fuel (dth.removeFrom fuel timer (2 * count) id) := by
  have lastInside : index id count < capacity dth.segments :=
    Nat.lt_of_lt_of_le (index_lt (Nat.lt_succ_self count)) room
  obtain ⟨cleared, ran, kept, onlySlots, others, slots⟩ :=
    segmented.store_order lastInside none
  have clearedSlots :
      ∀ position < count,
        (cleared.order id).slot position =
          (dth.order id).slot position := by
    intro position inside
    rw [slots, Function.update_of_ne (by omega)]
  have clearedKept :
      Kept id (fun other => Member other ∧ other ≠ timer) dth
        cleared :=
    { onlySlots with
      others := others
      outside := fun other _ => by rw [onlySlots.heapEntry] }
  have clearedEntry :
      ∀ other, (cleared.order id).entry other = (dth.order id).entry
        other := by
    intro other
    simp only [order, onlySlots.heapEntry]
  have atIndex : 2 * count + id.number = index id count := rfl
  have loads :
      dth.load (locate chain (index id count)) =
        (dth.order id).slot count := by
    rw [order_slot lastInside, segmented.stored_eq lastInside]
  unfold removeFrom
  simp only [atIndex, segmented.getSlot_eq lastInside, loads,
    Option.bind_eq_bind, Option.bind_some]
  have inside := holed.spread.inside
  by_cases isLast : hole = count
  · subst isLast
    simp only [holds, Option.bind_some, ran, ne_eq, not_true_eq_false,
      if_false]
    exact .returns
      { segmented := kept
        kept := clearedKept
        heaped :=
          holed.dropLast.congr clearedSlots (fun other _ => clearedEntry other)
            (fun _ => Iff.rfl) }
  · obtain ⟨last, lastAt, differs, -, -⟩ :=
      holed.spread.filled count (Nat.lt_succ_self count) (Ne.symm isLast)
    simp only [lastAt, Option.bind_some, ran, ne_eq, differs,
      not_false_eq_true, if_true, onlySlots.heapEntry, entry]
    have waiting :
        Holed (index id) (cleared.keyOf id)
          (fun other => Member other ∧ other ≠ timer) (cleared.order id) count
          hole last := by
      rw [keyOf_congr onlySlots.heapKey]
      exact
        (holed.replaceWithLast (index_injective id) (by omega) lastAt).congr
          clearedSlots (fun other _ => clearedEntry other)
          (fun _ => Iff.rfl)
    refine
      (kept.resift_meets (roomy.of_kept clearedKept) waiting fuel).imp
        fun after resifted => ?_
    exact
      { resifted with
        kept := clearedKept.trans resifted.kept
        heaped := by
          rw [← keyOf_congr onlySlots.heapKey]
          exact resifted.heaped }

/-- Clear the entries of a timer that has left. -/
def clearEntries
    (dth : TimerHeap Timer)
    (timer : Timer) :
    TimerHeap Timer :=
  (dth.setEntry timer .target invalidId).setEntry timer .deadline
    invalidId

theorem clearEntries_same (id : HeapId) :
    (dth.clearEntries timer).heapEntry timer id = invalidId := by
  cases id <;> simp [clearEntries, setEntry]

theorem clearEntries_other
    {other : Timer}
    (differs : other ≠ timer)
    (id : HeapId) :
    (dth.clearEntries timer).heapEntry other id =
      dth.heapEntry other id := by
  simp [clearEntries, setEntry, differs]

/-- The invariant once the entries of a timer that has left are cleared. -/
theorem Sound.of_removed
    (distinct : members.Nodup)
    (isMember : timer ∈ members)
    (isCount : members.length = count + 1)
    (segmented : Segmented chain dth)
    (roomy : Roomy dth count)
    (tight : Tight dth (2 * count))
    (heaped :
      ∀ id,
        Heaped (index id) (dth.keyOf id)
          (fun other => other ∈ members ∧ other ≠ timer) (dth.order id)
          count)
    (outside :
      ∀ other id,
        other ∉ members → dth.heapEntry other id = invalidId)
    (empty : count = 0 → ∀ id, dth.min id = none) :
    Sound ⟨dth.clearEntries timer, members.erase timer⟩ := by
  have length : (members.erase timer).length = count := by
    rw [List.length_erase_of_mem isMember, isCount, Nat.add_sub_cancel]
  have remaining :
      ∀ other, other ∈ members.erase timer ↔ other ∈ members ∧ other ≠ timer :=
    fun other => by rw [distinct.mem_erase_iff, and_comm]
  refine
    { distinct := distinct.erase timer
      chained := ⟨chain, { segmented with }⟩
      roomy := ⟨by rw [length]; exact roomy.counted, by
        rw [length]; exact roomy.room, by rw [length]; exact roomy.fits⟩
      tight := by rw [length]; exact tight
      heaped := ?heaped
      outside := ?outside
      empty := ?empty }
  case heaped =>
    intro id
    rw [length]
    refine (heaped id).congr (fun _ _ => ?_) ?_ remaining
    · rfl
    · rintro member ⟨-, differs⟩
      exact clearEntries_other differs id
  case outside =>
    intro other id isOutside
    by_cases same : other = timer
    · subst same
      exact clearEntries_same id
    · refine (clearEntries_other same id).trans (outside other id ?_)
      intro isIn
      exact isOutside ((remaining other).mpr ⟨isIn, same⟩)
  case empty =>
    intro none id
    refine empty ?_ id
    dsimp only at none
    rw [← length, none]
    rfl

/-- `_dispatch_timer_heap_remove` when the count fits a word. -/
theorem remove_eq
    (counted : dth.count = 2 * (count + 1))
    (fits : count + 1 ≤ 2 ^ 30)
    (fuel : Nat) :
    dth.remove fuel timer =
      (takeOut { dth with count := 2 * count } fuel timer
        (2 * count)).map (·.clearEntries timer) := by
  have newCount : word (dth.count + 2 ^ 32 - idCount) = 2 * count := by
    rw [counted]
    unfold word idCount
    omega
  unfold remove
  rw [newCount, Option.map_eq_bind]
  rfl

theorem Meets.map
    {First Second : Type}
    {spec : Second → Prop}
    {fuel : Nat}
    {result : Option First}
    {function : First → Second}
    (meets : Meets (fun outcome => spec (function outcome)) needed fuel
      result) :
    Meets spec needed fuel (result.map function) := by
  cases meets with
  | returns holds => exact .returns holds
  | stops tooLittle => exact .stops tooLittle

/-- The last member leaves an empty heap. -/
theorem Sound.of_emptied
    (segmented : Segmented chain dth)
    (roomy : Roomy dth 0)
    (tight : Tight dth 0)
    (outside :
      ∀ other id,
        other ∉ [timer] → dth.heapEntry other id = invalidId)
    (empty : ∀ id, dth.min id = none) :
    Sound ⟨dth.clearEntries timer, [timer].erase timer⟩ := by
  refine
    Sound.of_removed (by simp) (List.mem_singleton_self timer) rfl segmented
      roomy tight ?_ outside (fun _ => empty)
  intro id
  refine
    { filled := fun position inside => absurd inside (Nat.not_lt_zero _)
      placed := ?placed
      ordered := fun position _ _ _ inside =>
        absurd inside (Nat.not_lt_zero _) }
  rintro member ⟨isMember, differs⟩
  exact absurd (List.mem_singleton.mp isMember) differs

/-- A heap from both halves of which a member is about to be taken. -/
structure Removable
    (chain : Nat → Nat)
    (members : List Timer)
    (timer : Timer)
    (count : Nat)
    (dth : TimerHeap Timer) :
    Prop where
  segmented : Segmented chain dth
  isCount : members.length = count + 1
  roomy : Roomy dth count
  room : 2 * count + 2 ≤ capacity dth.segments
  tight : Tight dth (2 * count + 2)
  outside :
    ∀ other id,
      other ∉ members → dth.heapEntry other id = invalidId
  holes :
    ∀ id, ∃ hole < count + 1,
      dth.heapEntry timer id = index id hole ∧
      (dth.order id).slot hole = some timer ∧
      Holed (index id) (dth.keyOf id) (· ∈ members)
        (dth.order id) (count + 1) hole timer

/-- The loop of `_dispatch_timer_heap_remove`. -/
theorem Removable.removeFrom_meets
    (removable : Removable chain members timer count dth)
    (fuel : Nat) :
    Meets
      (Reordered chain (fun other => other ∈ members ∧ other ≠ timer) count
        dth)
      count fuel
      ((dth.removeFrom fuel timer (2 * count) .target).bind
        fun byTarget =>
          byTarget.removeFrom fuel timer (2 * count) .deadline) := by
  obtain ⟨targetHole, -, targetEntry, targetHolds, targetHoled⟩ :=
    removable.holes .target
  obtain ⟨deadlineHole, -, deadlineEntry, deadlineHolds, deadlineHoled⟩ :=
    removable.holes .deadline
  refine
    (removable.segmented.removeFrom_meets removable.roomy removable.room
      targetHoled targetHolds targetEntry fuel).bind fun between byTarget => ?_
  refine
    (byTarget.segmented.removeFrom_meets
      (removable.roomy.of_kept byTarget.kept)
      (byTarget.kept.segments ▸ removable.room)
      (byTarget.kept.holed_other (by decide) deadlineHoled)
      ((byTarget.kept.others .deadline (by decide)) ▸ deadlineHolds)
      ((byTarget.kept.entry_other (by decide) timer).trans deadlineEntry)
      fuel).imp fun removed byDeadline => ?_
  exact byTarget.both byDeadline

/-- Taking a timer out of both halves. -/
theorem Removable.takeOut_meets
    (removable : Removable chain members timer count dth)
    (distinct : members.Nodup)
    (isMember : timer ∈ members)
    (fuel : Nat) :
    Meets
      (fun after =>
        Sound ⟨after.clearEntries timer, members.erase timer⟩ ∧
        (after.clearEntries timer).heapKey = dth.heapKey)
      count fuel (dth.takeOut fuel timer (2 * count)) := by
  have roomy := removable.roomy
  have room := removable.room
  have isCount := removable.isCount
  unfold takeOut
  split_ifs with isEmpty
  · obtain rfl : count = 0 := by omega
    obtain ⟨other, rfl⟩ := List.length_eq_one_iff.mp isCount
    obtain rfl := List.mem_singleton.mp isMember
    refine .returns
      ⟨Sound.of_emptied { removable.segmented with } { roomy with } ?_
        removable.outside (fun _ => rfl), rfl⟩
    intro segNo isLast
    dsimp only at isLast
    have few := removable.segmented.few
    have small := removable.tight segNo isLast
    have large := two_le_capacity (show segNo ≤ 30 by omega)
    omega
  · rw [← bind_assoc]
    refine
      (removable.removeFrom_meets fuel).bind fun removed reordered => ?_
    obtain ⟨shrunk, ran, kept, fitted⟩ :=
      reordered.segmented.giveBack_spec (by omega)
        (reordered.segments ▸ room)
        (fun segNo isLast =>
          removable.tight segNo (reordered.segments.symm.trans isLast))
    rw [ran]
    have removedRoom : 2 * count ≤ capacity removed.segments := by
      rw [reordered.segments]
      omega
    refine .returns
      ⟨Sound.of_removed distinct isMember isCount kept
        ⟨fitted.count.trans (reordered.counted.trans roomy.counted),
          fitted.room, roomy.fits⟩
        fitted.tight ?heaped ?outside (fun none => by omega),
        fitted.heapKey.trans reordered.heapKey⟩
    case heaped =>
      intro id
      rw [keyOf_congr (fitted.heapKey.trans reordered.heapKey)]
      exact fitted.heaped removedRoom le_rfl (reordered.heaped id)
    case outside =>
      intro other id isOutside
      rw [fitted.heapEntry,
        reordered.outside other id fun both => isOutside both.1]
      exact removable.outside other id isOutside

/-- A member may be configured and then taken out. -/
theorem Sound.removable
    (sound : Sound ⟨dth, members⟩)
    (isMember : timer ∈ members)
    (keys : HeapId → Nat) :
    ∃ chain,
      Removable chain members timer (members.length - 1)
        { dth.configure timer keys with
          count := 2 * (members.length - 1) } := by
  have positive := List.length_pos_of_mem isMember
  have isCount : members.length = members.length - 1 + 1 := by omega
  have fits : members.length ≤ 2 ^ 30 := sound.roomy.fits
  have room :
      2 * (members.length - 1) + 2 ≤ capacity dth.segments := by
    have := sound.roomy.room
    dsimp only at this
    omega
  obtain ⟨chain, segmented⟩ := sound.chained
  refine
    ⟨chain,
      { sound with
        segmented := { segmented with }
        isCount := isCount
        roomy := ⟨rfl, le_trans (Nat.le_add_right _ 2) room, by omega⟩
        room := room
        tight := ?tight
        holes := ?holes }⟩
  case tight =>
    intro segNo isLast
    have := sound.tight segNo isLast
    dsimp only at this
    omega
  case holes =>
    intro id
    rw [← isCount]
    exact sound.configure_holed isMember keys id

/-- `_dispatch_timer_heap_remove` takes a member out, which may have been
configured before. -/
theorem Sound.remove_meets
    (sound : Sound ⟨dth, members⟩)
    (isMember : timer ∈ members)
    (keys : HeapId → Nat)
    (fuel : Nat) :
    Meets
      (fun after =>
        Sound ⟨after, members.erase timer⟩ ∧
        after.heapKey = (dth.configure timer keys).heapKey)
      members.length fuel
      ((dth.configure timer keys).remove fuel timer) := by
  have positive := List.length_pos_of_mem isMember
  have isCount : members.length - 1 + 1 = members.length := by omega
  have counted :
      (dth.configure timer keys).count =
        2 * (members.length - 1 + 1) := by
    rw [isCount]
    exact sound.roomy.counted
  obtain ⟨chain, removable⟩ := sound.removable isMember keys
  rw [remove_eq counted (isCount.trans_le sound.roomy.fits) fuel]
  exact
    Meets.map
      ((removable.takeOut_meets sound.distinct isMember fuel).of_le
        (Nat.sub_le _ 1))

end Operations

end LibDispatch.TimerHeap
