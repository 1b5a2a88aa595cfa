import LibDispatch.EpollMuxnote
import LibDispatch.Reachability

namespace LibDispatch.Epoll

open EventFilter

/-!
# Runs of the epoll backend

A run is any sequence of registrations, re-arms, unregistrations and
deliveries.  Besides the backend's own tables a run remembers, for every
unote, whether it was registered or resumed since the last event delivered to
it; those unotes are the ones that may expect the next event.
-/

/-! ## Bits of the event masks -/

/-- A mask that is a power of two has one bit. -/
theorem bit32_of_twoPow
    {mask : UInt32}
    {index : Nat}
    (inWord : index < 32)
    (oneBit : mask.toBitVec = BitVec.twoPow 32 index)
    (position : Nat) :
    bit32 mask position = decide (position = index) := by
  simp only [bit32, oneBit, BitVec.getLsbD_twoPow]
  by_cases same : position = index
  · simp [same, inWord]
  · simp [same, Ne.symm same]

@[simp] theorem bit32_epollIn : ∀ position,
    bit32 epollIn position = decide (position = 0) :=
  bit32_of_twoPow (by decide) (by decide)

@[simp] theorem bit32_epollOut : ∀ position,
    bit32 epollOut position = decide (position = 2) :=
  bit32_of_twoPow (by decide) (by decide)

@[simp] theorem bit32_epollFree : ∀ position,
    bit32 epollFree position = decide (position = 14) :=
  bit32_of_twoPow (by decide) (by decide)

@[simp] theorem bit32_epollOneshot : ∀ position,
    bit32 epollOneshot position = decide (position = 30) :=
  bit32_of_twoPow (by decide) (by decide)

variable (events : UInt32)

theorem and_epollIn_iff :
    events &&& epollIn ≠ 0 ↔ bit32 events 0 = true :=
  and_mask_ne_zero_iff (by decide) (by decide) events

theorem and_epollOut_iff :
    events &&& epollOut ≠ 0 ↔ bit32 events 2 = true :=
  and_mask_ne_zero_iff (by decide) (by decide) events

theorem and_epollOneshot_iff :
    events &&& epollOneshot ≠ 0 ↔ bit32 events 30 = true :=
  and_mask_ne_zero_iff (by decide) (by decide) events

/-- Some direction of a mask is present. -/
theorem and_inOut_iff :
    events &&& (epollIn ||| epollOut) ≠ 0 ↔
      bit32 events 0 = true ∨ bit32 events 2 = true := by
  rw [ne_zero_iff_bit32]
  constructor
  · rintro ⟨position, set⟩
    simp only [bit32_and, bit32_or, bit32_epollIn, bit32_epollOut,
      Bool.and_eq_true, Bool.or_eq_true, decide_eq_true_eq] at set
    rcases set.2 with isIn | isOut
    · exact Or.inl (isIn ▸ set.1)
    · exact Or.inr (isOut ▸ set.1)
  · rintro (isIn | isOut)
    · exact ⟨0, by simp [isIn]⟩
    · exact ⟨2, by simp [isOut]⟩

/-- Where the event of a filter stands in an epoll mask. -/
def EventFilter.position : EventFilter → Nat
  | evfiltRead => 0
  | evfiltWrite => 2

@[simp] theorem bit32_direction
    (filter : EventFilter)
    (position : Nat) :
    bit32 filter.direction position = decide (position = filter.position) := by
  cases filter
  · exact bit32_epollIn position
  · exact bit32_epollOut position

theorem and_direction_iff
    (filter : EventFilter) :
    events &&& filter.direction ≠ 0 ↔ bit32 events filter.position = true := by
  cases filter
  · exact and_epollIn_iff events
  · exact and_epollOut_iff events

theorem EventFilter.position_inj
    {first second : EventFilter} :
    first.position = second.position ↔ first = second := by
  cases first <;> cases second <;> simp [EventFilter.position]

theorem EventFilter.position_lt
    (filter : EventFilter) :
    filter.position < 14 := by
  cases filter <;> simp [EventFilter.position]

/-- A unote needs its direction, `EPOLLFREE` and one-shot delivery. -/
@[simp] theorem bit32_unoteRequiredEvents
    (du : Unote)
    (position : Nat) :
    bit32 (unoteRequiredEvents du) position =
      (decide (position = 14) || decide (position = du.duFilter.position) ||
        decide (position = 30)) := by
  cases filter : du.duFilter with
  | evfiltRead =>
    simp only [unoteRequiredEvents, filter, dstDispatch, ↓reduceIte,
      bit32_or, bit32_epollFree, bit32_epollIn, bit32_epollOneshot]
    rfl
  | evfiltWrite =>
    simp only [unoteRequiredEvents, filter, dstDispatch, ↓reduceIte,
      bit32_or, bit32_epollFree, bit32_epollOut, bit32_epollOneshot]
    rfl

/-- Of the two directions a unote needs its own. -/
theorem bit32_unoteRequiredEvents_position
    (du : Unote)
    (filter : EventFilter) :
    bit32 (unoteRequiredEvents du) filter.position =
      decide (filter = du.duFilter) := by
  have inDirections := filter.position_lt
  have notFree : filter.position ≠ 14 := by omega
  have notOneshot : filter.position ≠ 30 := by omega
  simp [notFree, notOneshot, EventFilter.position_inj]

/-- The armed mask holds the wanted events that are not disarmed. -/
theorem bit32_muxnoteArmedEvents
    (dmn : Muxnote)
    {position : Nat}
    (inWord : position < 32) :
    bit32 (muxnoteArmedEvents dmn) position =
      (bit32 dmn.dmnEvents position &&
        !bit16 dmn.dmnDisarmedEvents position) := by
  simp [muxnoteArmedEvents, inWord]

/-- Clearing events from the disarmed set. -/
theorem bit16_clearEvents
    (disarmed : UInt16)
    (events : UInt32)
    (position : Nat) :
    bit16 (disarmed.toUInt32 &&& ~~~events).toUInt16 position =
      (bit16 disarmed position && !bit32 events position) := by
  rw [bit16_ofUInt32, bit32_and, bit32_not, bit32_ofUInt16]
  by_cases inWord : position < 16
  · have inWide : position < 32 := by omega
    simp [inWord, inWide]
  · simp [inWord, bit16_of_le (by omega : 16 ≤ position)]

/-- Adding events to the disarmed set. -/
theorem bit16_addEvents
    (disarmed : UInt16)
    (events : UInt32)
    (position : Nat) :
    bit16 (disarmed.toUInt32 ||| events).toUInt16 position =
      (bit16 disarmed position ||
        (decide (position < 16) && bit32 events position)) := by
  rw [bit16_ofUInt32, bit32_or, bit32_ofUInt16]
  by_cases inWord : position < 16
  · have inWide : position < 32 := by omega
    simp [inWord, inWide]
  · simp [inWord, bit16_of_le (by omega : 16 ≤ position)]

/-! ## Muxnote lookups -/

/-- Read and write unotes of a descriptor look up the same muxnote. -/
theorem muxnoteFind_eq_muxnote
    (state : State)
    (ident : UInt32)
    (filter : EventFilter) :
    muxnoteFind (state.sources (dslHash ident)) ident filter =
      state.muxnote ident := by
  cases filter <;> rfl

variable {ident : UInt32} {dmn : Muxnote}

/-- A muxnote found for an identifier carries that identifier. -/
theorem State.muxnote_ident
    {state : State}
    (found : state.muxnote ident = some dmn) :
    dmn.dmnIdent = ident := by
  have accepted := List.find?_some found
  simp only [decide_eq_true_eq] at accepted
  exact accepted.1

/-- Overwriting the entries of one identifier makes the new value the one
that is found for it. -/
theorem muxnoteFind_overwrite_same
    {bucket : List Muxnote}
    {previous : Muxnote}
    (member : previous ∈ bucket)
    (sameIdent : previous.dmnIdent = dmn.dmnIdent)
    (filter : dmn.dmnFilter = evfiltRead) :
    muxnoteFind
        (bucket.map fun other =>
          if other.dmnIdent = dmn.dmnIdent then dmn else other)
        dmn.dmnIdent evfiltRead = some dmn := by
  induction bucket with
  | nil => simp at member
  | cons head rest inductionHypothesis =>
    by_cases isHead : head.dmnIdent = dmn.dmnIdent
    · simp [muxnoteFind, isHead, filter]
    · have inRest : previous ∈ rest := by
        rcases List.mem_cons.mp member with rfl | inRest
        · exact (isHead sameIdent).elim
        · exact inRest
      simpa [muxnoteFind, isHead] using inductionHypothesis inRest

/-- Overwriting the entries of one identifier hides no other entry. -/
theorem muxnoteFind_overwrite_other
    (bucket : List Muxnote)
    (dmn : Muxnote)
    (different : ident ≠ dmn.dmnIdent) :
    muxnoteFind
        (bucket.map fun other =>
          if other.dmnIdent = dmn.dmnIdent then dmn else other)
        ident evfiltRead = muxnoteFind bucket ident evfiltRead := by
  induction bucket with
  | nil => rfl
  | cons head rest inductionHypothesis =>
    by_cases isHead : head.dmnIdent = dmn.dmnIdent
    · simpa [muxnoteFind, isHead, different.symm] using inductionHypothesis
    · by_cases wanted : head.dmnIdent = ident ∧ head.dmnFilter = evfiltRead
      · simp [muxnoteFind, wanted, different]
      · simpa [muxnoteFind, isHead, wanted] using inductionHypothesis

/-- An assignment through a muxnote pointer is seen by the next lookup. -/
theorem State.muxnote_setMuxnote_same
    {state : State}
    {previous : Muxnote}
    (found : state.muxnote ident = some previous)
    (sameIdent : dmn.dmnIdent = ident)
    (filter : dmn.dmnFilter = evfiltRead) :
    (state.setMuxnote dmn).muxnote ident = some dmn := by
  subst sameIdent
  exact muxnoteFind_overwrite_same (List.mem_of_find?_eq_some found)
    (State.muxnote_ident found) filter

section

variable (state : State)

/-- An assignment through a muxnote pointer leaves other muxnotes alone. -/
theorem State.muxnote_setMuxnote_other
    {other : UInt32}
    (sameIdent : dmn.dmnIdent = ident)
    (different : other ≠ ident) :
    (state.setMuxnote dmn).muxnote other = state.muxnote other :=
  muxnoteFind_overwrite_other _ dmn (sameIdent ▸ different)

/-- A new muxnote is found under its identifier. -/
theorem State.muxnote_insertMuxnote_same
    (filter : dmn.dmnFilter = evfiltRead) :
    (state.insertMuxnote dmn).muxnote dmn.dmnIdent = some dmn := by
  simp [State.muxnote, State.insertMuxnote, muxnoteFind, filter]

/-- A new muxnote hides no other one. -/
theorem State.muxnote_insertMuxnote_other
    (dmn : Muxnote)
    (different : ident ≠ dmn.dmnIdent) :
    (state.insertMuxnote dmn).muxnote ident = state.muxnote ident := by
  by_cases sameBucket : dslHash ident = dslHash dmn.dmnIdent
  · simp [State.muxnote, State.insertMuxnote, muxnoteFind, sameBucket,
      different.symm]
  · simp [State.muxnote, State.insertMuxnote, sameBucket]

/-- A disposed muxnote is not found again. -/
theorem State.muxnote_removeMuxnote_same
    (dmn : Muxnote) :
    (state.removeMuxnote dmn).muxnote dmn.dmnIdent = none := by
  unfold State.muxnote muxnoteFind State.removeMuxnote
  rw [List.find?_eq_none]
  intro other member
  have kept := (List.mem_filter.mp member).2
  simp only [ne_eq, decide_not, Bool.not_eq_eq_eq_not, Bool.not_true,
    decide_eq_false_iff_not] at kept
  simp [kept]

/-- Disposing of a muxnote leaves the others in place. -/
theorem State.muxnote_removeMuxnote_other
    (dmn : Muxnote)
    (different : ident ≠ dmn.dmnIdent) :
    (state.removeMuxnote dmn).muxnote ident = state.muxnote ident := by
  unfold State.muxnote muxnoteFind State.removeMuxnote
  rw [List.find?_filter]
  congr 1
  funext other
  by_cases wanted : other.dmnIdent = ident
  · simp [wanted, different]
  · simp [wanted]

@[simp] theorem State.muxnote_setUnote
    (du : Unote)
    (value : UnoteState) :
    (state.setUnote du value).muxnote = state.muxnote := rfl

@[simp] theorem State.muxnote_epollUpdate
    (dmn : Muxnote)
    (events : UInt32) :
    (state.epollUpdate dmn events).muxnote = state.muxnote := rfl

end

/-! ## Runs -/

/-- The backend together with the unotes that were registered or resumed since
the last event delivered to them. -/
structure Tracked where
  state : State
  awaiting : Unote → Bool

/-- Nothing is registered. -/
def Tracked.empty : Tracked where
  state := State.empty
  awaiting := fun _ => false

/-- Record whether a unote awaits an event. -/
def Tracked.setAwaiting
    (tracked : Tracked)
    (du : Unote)
    (value : Bool) : Unote → Bool :=
  fun other => if other = du then value else tracked.awaiting other

/-- One call of a backend entry point. -/
inductive Operation where
  | register (du : Unote) (kind : Option FileKind)
  | resume (du : Unote)
  | unregister (du : Unote)
  | mergeFd (ident events : UInt32) (inq outq : Option Nat)
  deriving Repr, DecidableEq

/-- The events a registration may report: its directions, errors, hang-up. -/
def KernelRegistration.mayReport
    (registration : KernelRegistration)
    (events : UInt32) : Bool :=
  registration.enabled &&
    events &&& ~~~((registration.events &&& (epollIn ||| epollOut)) |||
      (epollErr ||| epollHup)) == 0

/-- `EPOLL_CTL_ADD` succeeds only for a descriptor that is not in the set. -/
def addSucceeds
    (state : State)
    (du : Unote)
    (kind : Option FileKind) : Bool :=
  match state.muxnote du.duIdent with
  | some _ => true
  | none =>
    kind.all fun kind =>
      (state.kernel
        (muxnoteCreate du (unoteRequiredEvents du) kind).dmnFd).isNone

/-- The muxnote a registered unote is linked to. -/
def State.muxnoteOf (state : State) (du : Unote) : Option Muxnote :=
  match state.unotes du with
  | .registered muxnote _ => state.muxnote muxnote
  | .unregistered => none

/-- One step of a run; `none` when the call is not a legal one. -/
def step? (tracked : Tracked) : Operation → Option Tracked
  | .register du kind =>
    if tracked.state.unotes du = .unregistered ∧
        addSucceeds tracked.state du kind then
      some ((unoteRegisterMuxed tracked.state du kind).elim tracked
        fun state => ⟨state, tracked.setAwaiting du true⟩)
    else
      none
  | .resume du =>
    (tracked.state.muxnoteOf du).map fun dmn =>
      ⟨muxnoteResume tracked.state dmn du, tracked.setAwaiting du true⟩
  | .unregister du =>
    (tracked.state.muxnoteOf du).map fun dmn =>
      ⟨muxnoteUnregister tracked.state dmn du,
        tracked.setAwaiting du false⟩
  | .mergeFd ident events inq outq => do
      let dmn ← tracked.state.muxnote ident
      let registration ← tracked.state.kernel dmn.dmnFd
      if registration.mayReport events then
        let (state, deliveries) :=
          eventMergeFd (tracked.state.kernelFire dmn.dmnFd) dmn events
            inq outq
        some ⟨state, fun du =>
          tracked.awaiting du && !(deliveries.map Delivery.unote).contains du⟩
      else
        none

/-- One step of an arbitrary run. -/
def Step (before after : Tracked) : Prop :=
  ∃ operation, step? before operation = some after

/-- The registration of a read unote meets a muxnote whose armed events hold
`EPOLLOUT` and not `EPOLLIN`. -/
def MergesWriteIntoRead (state : State) : Operation → Prop
  | .register du _ =>
    du.duFilter = evfiltRead ∧
      ∃ dmn, state.muxnote du.duIdent = some dmn ∧
        muxnoteArmedEvents dmn &&& epollOut ≠ 0 ∧
        muxnoteArmedEvents dmn &&& epollIn = 0
  | _ => False

/-- One step that does not register a read unote in that situation. -/
def SeparateStep (before after : Tracked) : Prop :=
  ∃ operation,
    ¬MergesWriteIntoRead before.state operation ∧
      step? before operation = some after

/-- The delivery bookkeeping of the backend. -/
structure DeliveryBookkeeping (tracked : Tracked) : Prop where
  onOwnList :
    ∀ du muxnote armed,
      tracked.state.unotes du = .registered muxnote armed →
        ∃ dmn, tracked.state.muxnote du.duIdent = some dmn ∧
          muxnote = du.duIdent ∧ du ∈ dmn.unotesOf du.duFilter
  wantedEvents :
    ∀ ident dmn filter,
      tracked.state.muxnote ident = some dmn →
        (dmn.dmnEvents &&& filter.direction ≠ 0 ↔
          dmn.unotesOf filter ≠ [])
  armedInKernel :
    ∀ du, tracked.awaiting du = true →
      ∃ dmn registration,
        tracked.state.muxnote du.duIdent = some dmn ∧
        tracked.state.kernel dmn.dmnFd = some registration ∧
        registration.enabled = true ∧
        registration.events &&& du.duFilter.direction ≠ 0
  nextEventDelivered :
    ∀ du dmn events inq outq,
      tracked.awaiting du = true →
      tracked.state.muxnote du.duIdent = some dmn →
      events &&& du.duFilter.direction ≠ 0 →
        du ∈ (eventMergeFd (tracked.state.kernelFire dmn.dmnFd) dmn events
          inq outq).2.map Delivery.unote

end LibDispatch.Epoll
