import LibDispatch.EpollInvariant

namespace LibDispatch.Epoll

open EventFilter

/-!
# Delivery bookkeeping over whole runs

Unregistration and delivery keep the invariant as well, so it holds in every
state reached by steps that keep readers and writers apart.
-/

variable {before : Tracked} {dmn dmn' : Muxnote} {du : Unote}
  {ident events : UInt32}

/-! ## Unregistration -/

/-- The lists stay right when a unote leaves them with the directions that have
no other unote. -/
theorem Muxnote.Listed.leave
    {unotes unotes' : Unote → UnoteState}
    {awaiting awaiting' : Unote → Bool}
    (lists : dmn.Listed ident unotes awaiting)
    (otherUnotes : ∀ other, other ≠ du → unotes' other = unotes other)
    (otherAwaiting :
      ∀ other, other ≠ du → awaiting' other = awaiting other) :
    (dmn.leave du).Listed ident unotes' awaiting' := by
  have members : ∀ filter other, other ∈ (dmn.leave du).unotesOf filter ↔
      other ∈ dmn.unotesOf filter ∧ other ≠ du := by
    intro filter other
    rw [(dmn.leave_sameLists du).lists]
    exact mem_unlinkUnote_iff dmn du filter other
  refine ⟨?_, ?_, ?_⟩
  · intro filter other member
    rw [members] at member
    rw [otherUnotes other member.2]
    exact lists.listed filter other member.1
  · intro filter
    rw [← Muxnote.remains_iff, Muxnote.Remains, and_direction_iff,
      lists.wanted filter]
    simp only [members]
    refine ⟨And.right, ?_⟩
    rintro ⟨other, member⟩
    exact ⟨⟨other, member.1⟩, other, member⟩
  · intro filter other member isAwaiting
    rw [members] at member
    rw [otherAwaiting other member.2] at isAwaiting
    rw [(dmn.leave_bits du _).2,
      lists.awaited filter other member.1 isAwaiting]
    rfl

/-- Unregistering a unote keeps the invariant. -/
theorem Tracked.Invariant.unregister
    (invariant : before.Invariant)
    (muxnoteOf : before.state.muxnoteOf du = some dmn) :
    Tracked.Invariant ⟨muxnoteUnregister before.state dmn du,
      before.setAwaiting du false⟩ := by
  obtain ⟨-, -, found, -⟩ := invariant.muxnoteOf_eq muxnoteOf
  have lists := invariant.listed du.duIdent dmn found
  obtain ⟨unotes, ends⟩ := muxnoteUnregister_spec found
    (invariant.watching.watched du.duIdent dmn found) du
  have unregistered :
      (muxnoteUnregister before.state dmn du).unotes du = .unregistered := by
    simp [unotes, State.setUnote]
  have otherUnotes : ∀ other, other ≠ du →
      (muxnoteUnregister before.state dmn du).unotes other =
        before.state.unotes other := by
    intro other notDu
    simp [unotes, State.setUnote, notDu]
  have otherAwaiting : ∀ other, other ≠ du →
      before.setAwaiting du false other = before.awaiting other := by
    intro other notDu
    simp [Tracked.setAwaiting, notDu]
  have otherMuxnotes : ∀ other, other ≠ du.duIdent →
      (muxnoteUnregister before.state dmn du).muxnote other =
        before.state.muxnote other := by
    rcases ends with ⟨-, assigns, -⟩ | ⟨-, -, -, otherMuxnotes, -⟩
    · exact assigns.otherMuxnotes
    · exact otherMuxnotes
  refine invariant.frame (invariant.watching.unregister found False.elim)
    otherMuxnotes ?_ ?_ ?_ ?_ ?_
  · intro other different
    exact otherUnotes other fun same => different (same ▸ rfl)
  · intro other different
    exact otherAwaiting other fun same => different (same ▸ rfl)
  · intro current currentFound
    rcases ends with ⟨-, assigns, -⟩ | ⟨-, gone, -⟩
    · obtain rfl :=
        Option.some.inj (assigns.foundAfter.symm.trans currentFound)
      exact lists.leave otherUnotes otherAwaiting
    · cases gone.symm.trans currentFound
  · intro other sameIdent muxnote armed isRegistered
    have notDu : other ≠ du := by
      rintro rfl
      cases unregistered.symm.trans isRegistered
    have registered := (otherUnotes other notDu).symm.trans isRegistered
    obtain ⟨ownMuxnote, member⟩ :=
      invariant.member found sameIdent registered
    rcases ends with ⟨-, assigns, -⟩ | ⟨noneRemains, -⟩
    · refine ⟨ownMuxnote.trans sameIdent.symm, dmn.leave du,
        sameIdent ▸ assigns.foundAfter, ?_⟩
      rw [(dmn.leave_sameLists du).lists]
      exact (mem_unlinkUnote_iff dmn du _ other).mpr ⟨member, notDu⟩
    · refine (noneRemains other.duFilter ⟨?_, other, member, notDu⟩).elim
      rw [and_direction_iff]
      exact (lists.wanted other.duFilter).mpr ⟨other, member⟩
  · intro other sameIdent isAwaiting
    have notDu : other ≠ du := by
      rintro rfl
      simp [Tracked.setAwaiting] at isAwaiting
    have awaitingBefore := (otherAwaiting other notDu).symm.trans isAwaiting
    exact otherUnotes other notDu ▸
      invariant.awaitingRegistered other awaitingBefore

/-! ## Delivery -/

theorem Muxnote.mem_receivers_iff
    (dmn : Muxnote)
    (events : UInt32)
    (du : Unote) :
    du ∈ dmn.receivers events ↔
      ∃ filter : EventFilter, bit32 events filter.position = true ∧
        du ∈ dmn.unotesOf filter := by
  unfold Muxnote.receivers
  rw [List.mem_append, List.mem_ite_nil_right, List.mem_ite_nil_right,
    and_epollIn_iff, and_epollOut_iff]
  constructor
  · rintro (⟨set, member⟩ | ⟨set, member⟩)
    · exact ⟨evfiltRead, set, member⟩
    · exact ⟨evfiltWrite, set, member⟩
  · rintro ⟨filter, set, member⟩
    cases filter
    · exact .inl ⟨set, member⟩
    · exact .inr ⟨set, member⟩

/-- Losing the armed mark keeps a unote registered. -/
theorem clearArmed_registered
    (state : State)
    (receivers : List Unote)
    (du : Unote)
    (ident : UInt32) :
    (∃ armed, (clearArmed state receivers).unotes du =
        .registered ident armed) ↔
      ∃ armed, state.unotes du = .registered ident armed := by
  by_cases received : du ∈ receivers
  · cases stored : state.unotes du <;> simp [clearArmed, received, stored]
  · simp [clearArmed, received]

/-- A delivery keeps the invariant. -/
theorem Tracked.Invariant.mergeFd
    {value : KernelRegistration}
    (invariant : before.Invariant)
    (found : before.state.muxnote ident = some dmn)
    (stored : before.state.kernel dmn.dmnFd = some value)
    (reported : value.mayReport events = true)
    (inq outq : Option Nat) :
    let merged := eventMergeFd (before.state.kernelFire dmn.dmnFd) dmn events
      inq outq
    Tracked.Invariant ⟨merged.1, fun du =>
      before.awaiting du && !(merged.2.map Delivery.unote).contains du⟩ := by
  have lists := invariant.listed ident dmn found
  obtain ⟨dmn', assigns, watched, disarms, receivers, unotes, -⟩ :=
    eventMergeFd_assigns found (invariant.watching.watched ident dmn found)
      stored reported inq outq
  intro merged
  change merged.2.map Delivery.unote = _ at receivers
  change merged.1.unotes = _ at unotes
  have registeredAfter : ∀ du muxnote,
      (∃ armed, merged.1.unotes du = .registered muxnote armed) ↔
        ∃ armed, before.state.unotes du = .registered muxnote armed := by
    intro du muxnote
    rw [unotes]
    exact clearArmed_registered _ _ _ _
  have awaitingLeft : ∀ du,
      (before.awaiting du &&
        !(merged.2.map Delivery.unote).contains du) = true →
        before.awaiting du = true ∧
          du ∉ dmn.receivers (mergedEvents dmn events) := by
    intro du isAwaiting
    simpa [receivers] using isAwaiting
  have notReceived : ∀ du, du.duIdent ≠ ident →
      du ∉ dmn.receivers (mergedEvents dmn events) := by
    intro du different
    rw [Muxnote.mem_receivers_iff]
    rintro ⟨filter, -, member⟩
    exact different (lists.listed filter du member).2.1
  refine invariant.frame (invariant.watching.assign assigns watched)
    assigns.otherMuxnotes ?_ ?_ ?_ ?_ ?_
  · intro du different
    simp [unotes, clearArmed, notReceived du different]
  · intro du different
    simp [receivers, notReceived du different]
  · intro current currentFound
    obtain rfl :=
      Option.some.inj (assigns.foundAfter.symm.trans currentFound)
    refine ⟨?_, ?_, ?_⟩
    · intro filter du member
      rw [disarms.lists] at member
      obtain ⟨ownFilter, ownIdent, registered⟩ :=
        lists.listed filter du member
      exact ⟨ownFilter, ownIdent, (registeredAfter du _).mpr registered⟩
    · intro filter
      rw [disarms.events, disarms.lists]
      exact lists.wanted filter
    · intro filter du member isAwaiting
      rw [disarms.lists] at member
      obtain ⟨awaitingBefore, missed⟩ := awaitingLeft du isAwaiting
      have notDelivered :
          bit32 (mergedEvents dmn events) filter.position = false := by
        by_contra delivered
        exact missed ((dmn.mem_receivers_iff _ du).mpr
          ⟨filter, by simpa using delivered, member⟩)
      rw [disarms.disarmed, bit16_disarm, notDelivered,
        lists.awaited filter du member awaitingBefore]
      rfl
  · intro du ownIdent muxnote armed isRegistered
    obtain ⟨armedBefore, registeredBefore⟩ :=
      (registeredAfter du muxnote).mp ⟨armed, isRegistered⟩
    obtain ⟨ownMuxnote, member⟩ :=
      invariant.member found ownIdent registeredBefore
    exact ⟨ownMuxnote.trans ownIdent.symm, dmn',
      ownIdent ▸ assigns.foundAfter, disarms.lists ▸ member⟩
  · intro du _ isAwaiting unregistered
    have registered := invariant.awaitingRegistered du
      (awaitingLeft du isAwaiting).1
    cases beforeDu : before.state.unotes du with
    | unregistered => exact registered beforeDu
    | registered muxnote armed =>
      obtain ⟨value, isRegistered⟩ :=
        (registeredAfter du muxnote).mpr ⟨armed, beforeDu⟩
      cases unregistered.symm.trans isRegistered

/-! ## Whole runs -/

/-- A step that keeps readers and writers apart keeps the invariant. -/
theorem Tracked.Invariant.step
    {after : Tracked}
    (invariant : before.Invariant)
    (stepped : SeparateStep before after) :
    after.Invariant := by
  obtain ⟨operation, separate, accepted⟩ := stepped
  cases operation with
  | register du kind =>
    simp only [step?] at accepted
    split_ifs at accepted with legal
    cases accepted
    cases registers : unoteRegisterMuxed before.state du kind with
    | none => exact invariant
    | some following => exact invariant.register registers legal.2 separate
  | resume du =>
    obtain ⟨dmn, muxnoteOf, rfl⟩ := Option.map_eq_some_iff.mp accepted
    exact invariant.resume muxnoteOf
  | unregister du =>
    obtain ⟨dmn, muxnoteOf, rfl⟩ := Option.map_eq_some_iff.mp accepted
    exact invariant.unregister muxnoteOf
  | mergeFd ident events inq outq =>
    simp only [step?, Option.bind_eq_bind, Option.bind_eq_some_iff] at accepted
    obtain ⟨dmn, found, registration, stored, accepted⟩ := accepted
    split_ifs at accepted with reported
    cases accepted
    exact invariant.mergeFd found stored reported inq outq

/-- The invariant gives the delivery bookkeeping. -/
theorem Tracked.Invariant.deliveryBookkeeping
    {tracked : Tracked}
    (invariant : tracked.Invariant) :
    DeliveryBookkeeping tracked := by
  have awaitingListed : ∀ du, tracked.awaiting du = true →
      ∃ dmn, tracked.state.muxnote du.duIdent = some dmn ∧
        du ∈ dmn.unotesOf du.duFilter := by
    intro du isAwaiting
    cases stored : tracked.state.unotes du with
    | unregistered =>
      exact (invariant.awaitingRegistered du isAwaiting stored).elim
    | registered muxnote armed =>
      exact (invariant.linked du muxnote armed stored).2
  refine
    { onOwnList := ?onOwnList
      wantedEvents := ?wantedEvents
      armedInKernel := ?armedInKernel
      nextEventDelivered := ?nextEventDelivered }
  case onOwnList =>
    intro du muxnote armed registered
    obtain ⟨ownMuxnote, dmn, found, member⟩ :=
      invariant.linked du muxnote armed registered
    exact ⟨dmn, found, ownMuxnote, member⟩
  case wantedEvents =>
    intro ident dmn filter found
    rw [and_direction_iff, (invariant.listed ident dmn found).wanted]
    exact ⟨fun ⟨_, member⟩ => List.ne_nil_of_mem member,
      List.exists_mem_of_ne_nil _⟩
  case armedInKernel =>
    intro du isAwaiting
    obtain ⟨dmn, found, member⟩ := awaitingListed du isAwaiting
    have lists := invariant.listed du.duIdent dmn found
    have := du.duFilter.position_lt
    have armed :
        bit32 (muxnoteArmedEvents dmn) du.duFilter.position = true := by
      rw [bit32_muxnoteArmedEvents dmn (by omega),
        (lists.wanted du.duFilter).mpr ⟨du, member⟩,
        lists.awaited du.duFilter du member isAwaiting]
      rfl
    obtain ⟨value, stored, mask, enabled⟩ :=
      (invariant.watching.watched du.duIdent dmn found).kernel
    have isEnabled := enabled du.duFilter armed
    refine ⟨dmn, value, found, stored, isEnabled, ?_⟩
    rw [(mask isEnabled).1, and_direction_iff]
    exact armed
  case nextEventDelivered =>
    intro du dmn events inq outq isAwaiting found direction
    obtain ⟨current, currentFound, member⟩ := awaitingListed du isAwaiting
    obtain rfl := Option.some.inj (found.symm.trans currentFound)
    obtain ⟨-, -, receivers, -⟩ := eventMergeFd_spec
      (tracked.state.kernelFire dmn.dmnFd) dmn events inq outq
    rw [receivers, Muxnote.mem_receivers_iff]
    refine ⟨du.duFilter, ?_, member⟩
    rw [and_direction_iff] at direction
    unfold mergedEvents
    split_ifs
    · rw [bit32_or, direction]
      rfl
    · exact direction

/-- In every run that registers no read unote on a descriptor whose armed events
hold `EPOLLOUT` and not `EPOLLIN`, the delivery bookkeeping holds. -/
theorem deliveryBookkeeping_of_separate
    {tracked : Tracked}
    (reached : Reachable (· = Tracked.empty) SeparateStep tracked) :
    DeliveryBookkeeping tracked := by
  have invariant : tracked.Invariant := by
    refine reached.invariant ?_ ?_
    · rintro _ rfl
      exact Tracked.empty_invariant
    · intro before after invariant stepped
      exact invariant.step stepped
  exact invariant.deliveryBookkeeping

/-- A read and a write unote of one descriptor. -/
def readerOfFive : Unote := ⟨0, 5, evfiltRead⟩

@[inherit_doc readerOfFive]
def writerOfFive : Unote := ⟨1, 5, evfiltWrite⟩

/-- Two registrations on descriptor 5, one after the other. -/
def registerBoth (first second : Unote) : Tracked :=
  (afterEvents step? Tracked.empty
    [.register first (some .other), .register second (some .other)]).getD
      Tracked.empty

/-- Registering the reader before the writer keeps the bookkeeping. -/
theorem registerBoth_reader_first :
    Reachable (· = Tracked.empty) SeparateStep
        (registerBoth readerOfFive writerOfFive) ∧
      DeliveryBookkeeping (registerBoth readerOfFive writerOfFive) := by
  have reached : Reachable (· = Tracked.empty) SeparateStep
      (registerBoth readerOfFive writerOfFive) := by
    refine .next (.next (.start rfl)
      ⟨.register readerOfFive (some .other), ?_, rfl⟩)
      ⟨.register writerOfFive (some .other), ?_, rfl⟩
    · rintro ⟨-, dmn, found, -⟩
      cases found
    · rintro ⟨isRead, -⟩
      cases isRead
  exact ⟨reached, deliveryBookkeeping_of_separate reached⟩

/-- Registering the writer first puts the reader on the list of the writers:
the bookkeeping fails. -/
theorem registerBoth_writer_first :
    Reachable (· = Tracked.empty) Step
        (registerBoth writerOfFive readerOfFive) ∧
      ((registerBoth writerOfFive readerOfFive).state.muxnote 5).map
          (fun dmn => (dmn.dmnReadersHead, dmn.dmnWritersHead)) =
        some ([], [readerOfFive, writerOfFive]) ∧
      ¬DeliveryBookkeeping (registerBoth writerOfFive readerOfFive) := by
  refine ⟨?_, by decide, ?_⟩
  · exact .next (.next (.start rfl) ⟨.register writerOfFive (some .other), rfl⟩)
      ⟨.register readerOfFive (some .other), rfl⟩
  · intro bookkeeping
    obtain ⟨dmn, found, -, member⟩ :=
      bookkeeping.onOwnList readerOfFive 5 true (by decide)
    have readers : dmn.dmnReadersHead = [] := by
      have lists :
          ((registerBoth writerOfFive readerOfFive).state.muxnote 5).map
            (fun dmn => dmn.dmnReadersHead) = some [] := by decide
      rw [show (5 : UInt32) = readerOfFive.duIdent from rfl, found] at lists
      exact Option.some.inj lists
    change readerOfFive ∈ dmn.dmnReadersHead at member
    rw [readers] at member
    cases member

end LibDispatch.Epoll
