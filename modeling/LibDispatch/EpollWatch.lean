import LibDispatch.EpollRun

namespace LibDispatch.Epoll

open EventFilter

/-!
# What the kernel watches

Each entry point changes one muxnote and the kernel registration of its
descriptor.  The registration is enabled while a direction is armed, and its
mask is then the armed mask.  This holds in every run; a parameter of the
invariant adds that an enabled mask holds a direction, which unregistration
can break.
-/

/-- Every enabled registration asks for a direction.  An entry point updates
the epoll set at most once, so the mask of each update is seen here. -/
def State.EnabledWithInterest (state : State) : Prop :=
  ∀ fd registration, state.kernel fd = some registration →
    registration.enabled = true →
      registration.events &&& (epollIn ||| epollOut) ≠ 0

/-- What holds of a muxnote and of the kernel registration behind it; with
interest, if it is strict. -/
structure Muxnote.Watched
    (strict : Prop)
    (registration : Option KernelRegistration)
    (dmn : Muxnote) : Prop where
  filter : dmn.dmnFilter = evfiltRead
  always :
    bit32 dmn.dmnEvents 14 = true ∧ bit32 dmn.dmnEvents 30 = true
  disarmedWanted :
    ∀ position, bit16 dmn.dmnDisarmedEvents position = true →
      bit32 dmn.dmnEvents position = true ∧
        ∃ filter : EventFilter, position = filter.position
  kernel :
    ∃ value, registration = some value ∧
      (value.enabled = true → value.events = muxnoteArmedEvents dmn ∧
        (strict → ∃ filter : EventFilter,
          bit32 (muxnoteArmedEvents dmn) filter.position = true)) ∧
      ∀ filter : EventFilter,
        bit32 (muxnoteArmedEvents dmn) filter.position = true →
          value.enabled = true

/-- The muxnotes watch separate descriptors. -/
structure State.Watching (strict : Prop) (state : State) : Prop where
  watched :
    ∀ ident dmn, state.muxnote ident = some dmn →
      dmn.Watched strict (state.kernel dmn.dmnFd)
  separateFds :
    ∀ first second firstDmn secondDmn,
      state.muxnote first = some firstDmn →
      state.muxnote second = some secondDmn →
      firstDmn.dmnFd = secondDmn.dmnFd → first = second
  enabled : strict → state.EnabledWithInterest

theorem and_inOut_iff_filter
    (events : UInt32) :
    events &&& (epollIn ||| epollOut) ≠ 0 ↔
      ∃ filter : EventFilter, bit32 events filter.position = true := by
  rw [and_inOut_iff]
  constructor
  · rintro (isIn | isOut)
    · exact ⟨evfiltRead, isIn⟩
    · exact ⟨evfiltWrite, isOut⟩
  · rintro ⟨filter, set⟩
    cases filter
    · exact .inl set
    · exact .inr set

variable {strict : Prop} {registration : Option KernelRegistration}
  {dmn dmn' : Muxnote} {du : Unote} {position : Nat}

section

variable (watched : dmn.Watched strict registration)

include watched

/-- `EPOLLFREE` and one-shot delivery are always armed. -/
theorem Muxnote.Watched.fixed_armed
    (isFixed : position = 14 ∨ position = 30) :
    bit32 (muxnoteArmedEvents dmn) position = true := by
  have notDisarmed : bit16 dmn.dmnDisarmedEvents position = false := by
    by_contra set
    obtain ⟨-, filter, isFilter⟩ :=
      watched.disarmedWanted position (by simpa using set)
    have := filter.position_lt
    omega
  rw [bit32_muxnoteArmedEvents _ (by omega), notDisarmed]
  rcases isFixed with rfl | rfl
  · simp [watched.always.1]
  · simp [watched.always.2]

/-- Only the masks of a muxnote matter. -/
theorem Muxnote.Watched.congr
    (filter : dmn'.dmnFilter = dmn.dmnFilter)
    (events : dmn'.dmnEvents = dmn.dmnEvents)
    (disarmed : dmn'.dmnDisarmedEvents = dmn.dmnDisarmedEvents) :
    dmn'.Watched strict registration := by
  have armed : muxnoteArmedEvents dmn' = muxnoteArmedEvents dmn := by
    rw [muxnoteArmedEvents, events, disarmed, muxnoteArmedEvents]
  refine ⟨filter.trans watched.filter, ?_, ?_, ?_⟩
  · rw [events]
    exact watched.always
  · rw [events, disarmed]
    exact watched.disarmedWanted
  · rw [armed]
    exact watched.kernel

/-- More events are wanted and fewer disarmed, and the kernel is told. -/
theorem Muxnote.Watched.rearm
    (filter : dmn'.dmnFilter = dmn.dmnFilter)
    (events : ∀ position, bit32 dmn.dmnEvents position = true →
      bit32 dmn'.dmnEvents position = true)
    (disarmed : ∀ position, bit16 dmn'.dmnDisarmedEvents position = true →
      bit16 dmn.dmnDisarmedEvents position = true)
    (interest : ∃ filter : EventFilter,
      bit32 (muxnoteArmedEvents dmn') filter.position = true) :
    dmn'.Watched strict (some ⟨muxnoteArmedEvents dmn', true⟩) where
  filter := filter.trans watched.filter
  always := ⟨events _ watched.always.1, events _ watched.always.2⟩
  disarmedWanted := by
    intro position set
    obtain ⟨wanted, isFilter⟩ :=
      watched.disarmedWanted position (disarmed position set)
    exact ⟨events position wanted, isFilter⟩
  kernel := ⟨_, rfl, fun _ => ⟨rfl, fun _ => interest⟩, fun _ _ => rfl⟩

end

/-- Two muxnotes of one descriptor with the same lists. -/
structure Muxnote.SameLists (dmn dmn' : Muxnote) : Prop where
  ident : dmn'.dmnIdent = dmn.dmnIdent
  fd : dmn'.dmnFd = dmn.dmnFd
  filter : dmn'.dmnFilter = dmn.dmnFilter
  lists : dmn'.unotesOf = dmn.unotesOf

theorem Muxnote.SameLists.trans
    {last : Muxnote}
    (first : dmn.SameLists dmn')
    (second : dmn'.SameLists last) :
    dmn.SameLists last :=
  ⟨second.ident.trans first.ident, second.fd.trans first.fd,
    second.filter.trans first.filter, second.lists.trans first.lists⟩

/-! ## Calls that touch one descriptor -/

variable {before after state : State} {ident : UInt32}

/-- A call that assigns to the muxnote of one identifier. -/
structure State.Assigns
    (before after : State)
    (ident : UInt32)
    (dmn dmn' : Muxnote) : Prop where
  found : before.muxnote ident = some dmn
  foundAfter : after.muxnote ident = some dmn'
  sameFd : dmn'.dmnFd = dmn.dmnFd
  otherMuxnotes : ∀ other, other ≠ ident →
    after.muxnote other = before.muxnote other
  otherKernel : ∀ fd, fd ≠ dmn.dmnFd → after.kernel fd = before.kernel fd

theorem State.assigns_of_sources
    (found : before.muxnote ident = some dmn)
    (sameIdent : dmn'.dmnIdent = dmn.dmnIdent)
    (sameFd : dmn'.dmnFd = dmn.dmnFd)
    (filter : dmn'.dmnFilter = evfiltRead)
    (sources : after.sources = (before.setMuxnote dmn').sources)
    (otherKernel : ∀ fd, fd ≠ dmn.dmnFd →
      after.kernel fd = before.kernel fd) :
    before.Assigns after ident dmn dmn' := by
  have ownIdent := sameIdent.trans (State.muxnote_ident found)
  have muxnotes : ∀ other,
      after.muxnote other = (before.setMuxnote dmn').muxnote other := by
    intro other
    rw [State.muxnote, sources, State.muxnote]
  refine ⟨found, ?_, sameFd, fun other different => ?_, otherKernel⟩
  · rw [muxnotes]
    exact State.muxnote_setMuxnote_same found ownIdent filter
  · rw [muxnotes]
    exact State.muxnote_setMuxnote_other _ ownIdent different

section

variable (watching : before.Watching strict)

include watching

/-- A call keeps the invariant when it leaves other descriptors alone. -/
theorem State.Watching.frame
    (ident fd : UInt32)
    (otherMuxnotes : ∀ other, other ≠ ident →
      after.muxnote other = before.muxnote other)
    (otherKernel : ∀ other, other ≠ fd →
      after.kernel other = before.kernel other)
    (freeFd : ∀ other dmn, other ≠ ident →
      before.muxnote other = some dmn → dmn.dmnFd ≠ fd)
    (own : (∃ dmn, after.muxnote ident = some dmn ∧ dmn.dmnFd = fd ∧
        dmn.Watched strict (after.kernel fd)) ∨
      after.muxnote ident = none ∧ after.kernel fd = none) :
    after.Watching strict := by
  have apart : ∀ other dmn, other ≠ ident →
      after.muxnote other = some dmn → dmn.dmnFd ≠ fd := by
    intro other dmn different found
    rw [otherMuxnotes other different] at found
    exact freeFd other dmn different found
  have ownFd : ∀ dmn, after.muxnote ident = some dmn →
      dmn.dmnFd = fd ∧ dmn.Watched strict (after.kernel fd) := by
    intro dmn found
    rcases own with ⟨current, foundCurrent, known⟩ | ⟨gone, -⟩
    · obtain rfl := Option.some.inj (foundCurrent.symm.trans found)
      exact known
    · cases gone.symm.trans found
  refine ⟨?_, ?_, ?_⟩
  · intro other dmn found
    by_cases isOwn : other = ident
    · obtain ⟨sameFd, watched⟩ := ownFd dmn (isOwn ▸ found)
      rwa [sameFd]
    · rw [otherKernel _ (apart other dmn isOwn found)]
      rw [otherMuxnotes other isOwn] at found
      exact watching.watched other dmn found
  · intro first second firstDmn secondDmn foundFirst foundSecond sameFd
    by_cases firstOwn : first = ident
    · by_contra different
      subst firstOwn
      exact apart second secondDmn (Ne.symm different) foundSecond
        (sameFd.symm.trans (ownFd firstDmn foundFirst).1)
    · by_cases secondOwn : second = ident
      · subst secondOwn
        exact (apart first firstDmn firstOwn foundFirst
          (sameFd.trans (ownFd secondDmn foundSecond).1)).elim
      · rw [otherMuxnotes first firstOwn] at foundFirst
        rw [otherMuxnotes second secondOwn] at foundSecond
        exact watching.separateFds first second firstDmn secondDmn
          foundFirst foundSecond sameFd
  · intro isStrict other value stored enabled
    by_cases isOwn : other = fd
    · rw [isOwn] at stored
      rcases own with ⟨dmn, -, -, watched⟩ | ⟨-, gone⟩
      · obtain ⟨known, storedKnown, mask, -⟩ := watched.kernel
        obtain rfl := Option.some.inj (storedKnown.symm.trans stored)
        obtain ⟨events, interest⟩ := mask enabled
        rw [events, and_inOut_iff_filter]
        exact interest isStrict
      · cases gone.symm.trans stored
    · rw [otherKernel other isOwn] at stored
      exact watching.enabled isStrict other value stored enabled

/-- The descriptor of a muxnote belongs to no other identifier. -/
theorem State.Watching.freeFd
    (found : before.muxnote ident = some dmn) :
    ∀ other otherDmn, other ≠ ident →
      before.muxnote other = some otherDmn → otherDmn.dmnFd ≠ dmn.dmnFd := by
  intro other otherDmn different foundOther sameFd
  exact different
    (watching.separateFds other ident otherDmn dmn foundOther found sameFd)

theorem State.Watching.assign
    (assigns : before.Assigns after ident dmn dmn')
    (watched : dmn'.Watched strict (after.kernel dmn.dmnFd)) :
    after.Watching strict :=
  watching.frame ident dmn.dmnFd assigns.otherMuxnotes assigns.otherKernel
    (watching.freeFd assigns.found)
    (.inl ⟨dmn', assigns.foundAfter, assigns.sameFd, watched⟩)

end

/-! ## Registration -/

/-- The local mask at the end of a registration that finds a muxnote. -/
def registrationEvents (dmn : Muxnote) (du : Unote) : UInt32 :=
  if unoteRequiredEvents du &&& ~~~muxnoteArmedEvents dmn ≠ 0 then
    unoteRequiredEvents du ||| muxnoteArmedEvents dmn
  else
    unoteRequiredEvents du

/-- The list that a registration with some local mask puts its unote on. -/
def listFor (events : UInt32) : EventFilter :=
  if events &&& epollOut ≠ 0 then evfiltWrite else evfiltRead

/-- A muxnote that differs in one list: a unote is added to it. -/
structure Muxnote.Links
    (dmn dmn' : Muxnote)
    (du : Unote)
    (list : EventFilter) : Prop where
  ident : dmn'.dmnIdent = dmn.dmnIdent
  fd : dmn'.dmnFd = dmn.dmnFd
  filter : dmn'.dmnFilter = dmn.dmnFilter
  events : dmn'.dmnEvents = dmn.dmnEvents
  disarmed : dmn'.dmnDisarmedEvents = dmn.dmnDisarmedEvents
  members : ∀ filter other, other ∈ dmn'.unotesOf filter ↔
    other ∈ dmn.unotesOf filter ∨ other = du ∧ filter = list

theorem linkUnote_spec
    (state : State)
    (dmn : Muxnote)
    (du : Unote)
    (events : UInt32) :
    ∃ linked, dmn.Links linked du (listFor events) ∧
      linkUnote state dmn du events =
        (state.setMuxnote linked).setUnote du
          (.registered dmn.dmnIdent true) := by
  unfold listFor
  by_cases isWrite : events &&& epollOut ≠ 0
  · rw [if_pos isWrite]
    refine ⟨{ dmn with dmnWritersHead := du :: dmn.dmnWritersHead },
      ⟨rfl, rfl, rfl, rfl, rfl, ?_⟩, by simp [linkUnote, isWrite]⟩
    intro filter other
    cases filter <;> simp [Muxnote.unotesOf, or_comm]
  · rw [if_neg isWrite]
    refine ⟨{ dmn with dmnReadersHead := du :: dmn.dmnReadersHead },
      ⟨rfl, rfl, rfl, rfl, rfl, ?_⟩, by simp [linkUnote, isWrite]⟩
    intro filter other
    cases filter <;> simp [Muxnote.unotesOf, or_comm]

/-- Of two assignments through one muxnote pointer the second stays. -/
theorem State.setMuxnote_setMuxnote
    (state : State)
    (sameIdent : dmn'.dmnIdent = dmn.dmnIdent) :
    (state.setMuxnote dmn).setMuxnote dmn' = state.setMuxnote dmn' := by
  unfold State.setMuxnote
  congr 1
  funext bucket
  rw [List.map_map]
  refine List.map_congr_left fun other _ => ?_
  by_cases own : other.dmnIdent = dmn.dmnIdent
  · simp [own, sameIdent]
  · simp [own, sameIdent]

/-- The muxnote after a registration has added events to its mask. -/
def Muxnote.add (dmn : Muxnote) (events : UInt32) : Muxnote :=
  { dmn with
    dmnEvents := dmn.dmnEvents ||| events
    dmnDisarmedEvents :=
      (dmn.dmnDisarmedEvents.toUInt32 &&& ~~~events).toUInt16 }

theorem Muxnote.add_bits
    (dmn : Muxnote)
    (required : UInt32)
    (position : Nat) :
    bit32 (dmn.add (required ||| muxnoteArmedEvents dmn)).dmnEvents position =
        (bit32 dmn.dmnEvents position || bit32 required position) ∧
      bit16 (dmn.add
          (required ||| muxnoteArmedEvents dmn)).dmnDisarmedEvents position =
        (bit16 dmn.dmnDisarmedEvents position && !bit32 required position) := by
  unfold Muxnote.add
  rw [bit16_clearEvents, bit32_or, bit32_or]
  by_cases inWord : position < 32
  · rw [bit32_muxnoteArmedEvents dmn inWord]
    cases bit32 dmn.dmnEvents position <;>
      cases bit16 dmn.dmnDisarmedEvents position <;> simp
  · simp [bit32_of_le (by omega : 32 ≤ position),
      bit16_of_le (by omega : 16 ≤ position)]

/-- The merged mask is the armed mask afterwards. -/
theorem Muxnote.armed_add
    (dmn : Muxnote)
    (required : UInt32) :
    muxnoteArmedEvents (dmn.add (required ||| muxnoteArmedEvents dmn)) =
      required ||| muxnoteArmedEvents dmn := by
  apply eq_of_bit32
  intro position inWord
  obtain ⟨events, disarmed⟩ := dmn.add_bits required position
  rw [bit32_muxnoteArmedEvents _ inWord, events, disarmed, bit32_or,
    bit32_muxnoteArmedEvents _ inWord]
  cases bit32 dmn.dmnEvents position <;>
    cases bit16 dmn.dmnDisarmedEvents position <;> simp

/-- The events of a unote are wanted and disarmed no longer, and the unote is on
one of the lists. -/
structure Muxnote.Rearms
    (dmn : Muxnote)
    (du : Unote)
    (list : EventFilter)
    (dmn' : Muxnote) : Prop where
  events :
    ∀ position, bit32 dmn'.dmnEvents position =
      (bit32 dmn.dmnEvents position ||
        bit32 (unoteRequiredEvents du) position)
  disarmed :
    ∀ position, bit16 dmn'.dmnDisarmedEvents position =
      (bit16 dmn.dmnDisarmedEvents position &&
        !bit32 (unoteRequiredEvents du) position)
  members :
    ∀ filter other, other ∈ dmn'.unotesOf filter ↔
      other ∈ dmn.unotesOf filter ∨ other = du ∧ filter = list

variable {kind : Option FileKind} {following : State}

/-- Everything a registration does to a muxnote it finds: the events of the
unote are wanted and armed, and the unote is on the list of the local mask. -/
theorem unoteRegisterMuxed_found
    (registers : unoteRegisterMuxed state du kind = some following)
    (found : state.muxnote du.duIdent = some dmn)
    (watched : dmn.Watched strict (state.kernel dmn.dmnFd)) :
    ∃ dmn',
      state.Assigns following du.duIdent dmn dmn' ∧
      dmn'.Watched strict (following.kernel dmn.dmnFd) ∧
      dmn.Rearms du (listFor (registrationEvents dmn du)) dmn' ∧
      following.unotes =
        (state.setUnote du (.registered du.duIdent true)).unotes := by
  have ident := State.muxnote_ident found
  unfold registrationEvents
  unfold unoteRegisterMuxed at registers
  rw [muxnoteFind_eq_muxnote, found] at registers
  dsimp only at registers
  by_cases update : unoteRequiredEvents du &&& ~~~muxnoteArmedEvents dmn ≠ 0
  · rw [if_pos update] at registers ⊢
    set events := unoteRequiredEvents du ||| muxnoteArmedEvents dmn
      with eventsEq
    obtain ⟨-, -, afterEq⟩ := Option.map_eq_some_iff.mp registers
    obtain ⟨linked, links, linkEq⟩ := linkUnote_spec
      ((state.epollUpdate dmn events).setMuxnote (dmn.add events))
      (dmn.add events) du events
    rw [State.setMuxnote_setMuxnote _ links.ident] at linkEq
    obtain rfl := linkEq.symm.trans afterEq
    have rearms : dmn.Rearms du (listFor events) linked := by
      refine ⟨?_, ?_, links.members⟩
      · rw [links.events]
        exact fun position => (dmn.add_bits _ position).1
      · rw [links.disarmed]
        exact fun position => (dmn.add_bits _ position).2
    have mask : muxnoteArmedEvents linked = events := by
      rw [muxnoteArmedEvents, links.events, links.disarmed]
      exact dmn.armed_add (unoteRequiredEvents du)
    refine ⟨linked, ?_, ?_, rearms, ?_⟩
    · refine State.assigns_of_sources found links.ident links.fd
        (links.filter.trans watched.filter) rfl ?_
      intro fd different
      simp [State.setUnote, State.setMuxnote, State.epollUpdate, different]
    · have rearmed := watched.rearm links.filter
        (fun position set => by rw [rearms.events, set]; rfl)
        (fun position set => by
          rw [rearms.disarmed, Bool.and_eq_true] at set
          exact set.1)
        ⟨du.duFilter, by rw [mask, eventsEq]; simp⟩
      rw [mask] at rearmed
      simpa [State.setUnote, State.setMuxnote, State.epollUpdate] using
        rearmed
    · rw [← ident]
      rfl
  · rw [if_neg update] at registers ⊢
    obtain ⟨linked, links, linkEq⟩ :=
      linkUnote_spec state dmn du (unoteRequiredEvents du)
    rw [← Option.some.inj registers, linkEq]
    -- Nothing to update: every event of the unote is armed already.
    have armed : ∀ position,
        bit32 (unoteRequiredEvents du) position = true →
          bit32 dmn.dmnEvents position = true ∧
            bit16 dmn.dmnDisarmedEvents position = false := by
      intro position needed
      have inWord : position < 32 := by
        by_contra beyond
        simp [bit32_of_le (by omega : 32 ≤ position)] at needed
      by_contra notArmed
      refine update ((ne_zero_iff_bit32 _).mpr ⟨position, ?_⟩)
      rw [bit32_and, bit32_not, needed, bit32_muxnoteArmedEvents _ inWord]
      revert notArmed
      cases bit32 dmn.dmnEvents position <;> simp [inWord]
    refine ⟨linked, ?_, watched.congr links.filter links.events
      links.disarmed, ⟨fun position => ?_, fun position => ?_, links.members⟩,
      ?_⟩
    · exact State.assigns_of_sources found links.ident links.fd
        (links.filter.trans watched.filter) rfl fun _ _ => rfl
    · rw [links.events]
      cases needed : bit32 (unoteRequiredEvents du) position with
      | false => simp
      | true => simp [armed position needed]
    · rw [links.disarmed]
      cases needed : bit32 (unoteRequiredEvents du) position with
      | false => simp
      | true => simp [armed position needed]
    · rw [← ident]
      rfl

/-- Everything a registration does when it creates the muxnote. -/
theorem unoteRegisterMuxed_created
    (registers : unoteRegisterMuxed state du kind = some following)
    (watching : state.Watching strict)
    (absent : state.muxnote du.duIdent = none)
    (added : addSucceeds state du kind = true) :
    ∃ dmn', following.Watching strict ∧
      following.muxnote du.duIdent = some dmn' ∧
      (∀ other, other ≠ du.duIdent →
        following.muxnote other = state.muxnote other) ∧
      dmn'.dmnEvents = unoteRequiredEvents du ∧ dmn'.dmnDisarmedEvents = 0 ∧
      (∀ filter other, other ∈ dmn'.unotesOf filter ↔
        other = du ∧ filter = listFor (unoteRequiredEvents du)) ∧
      following.unotes =
        (state.setUnote du (.registered du.duIdent true)).unotes := by
  unfold unoteRegisterMuxed at registers
  rw [muxnoteFind_eq_muxnote, absent] at registers
  obtain ⟨kind, rfl, rfl⟩ := Option.map_eq_some_iff.mp registers
  set dmn := muxnoteCreate du (unoteRequiredEvents du) kind with created
  obtain ⟨linked, links, linkEq⟩ := linkUnote_spec
    ((state.epollUpdate dmn (unoteRequiredEvents du)).insertMuxnote dmn) dmn
    du (unoteRequiredEvents du)
  rw [linkEq]
  have unused : state.kernel dmn.dmnFd = none := by
    simpa [addSucceeds, absent] using added
  have foundAfter := State.muxnote_setMuxnote_same
    ((state.epollUpdate dmn
      (unoteRequiredEvents du)).muxnote_insertMuxnote_same rfl)
    links.ident links.filter
  have otherMuxnotes : ∀ other, other ≠ du.duIdent →
      State.muxnote
        ((((state.epollUpdate dmn (unoteRequiredEvents du)).insertMuxnote
          dmn).setMuxnote linked).setUnote du
            (.registered dmn.dmnIdent true)) other = state.muxnote other := by
    intro other different
    rw [State.muxnote_setUnote,
      State.muxnote_setMuxnote_other _ links.ident different,
      State.muxnote_insertMuxnote_other _ _ different,
      State.muxnote_epollUpdate]
  have armed : muxnoteArmedEvents linked = unoteRequiredEvents du := by
    rw [muxnoteArmedEvents, links.events, links.disarmed]
    simp [created, muxnoteCreate]
  refine ⟨linked, ?_, foundAfter, otherMuxnotes, links.events,
    links.disarmed, ?_, rfl⟩
  · refine watching.frame du.duIdent dmn.dmnFd otherMuxnotes ?_ ?_
      (.inl ⟨linked, foundAfter, links.fd, links.filter, ?_, ?_, ?_⟩)
    · intro fd different
      simp [State.setUnote, State.setMuxnote, State.insertMuxnote,
        State.epollUpdate, different]
    · intro other otherDmn _ otherFound same
      obtain ⟨value, stored, -⟩ :=
        (watching.watched other otherDmn otherFound).kernel
      rw [same, unused] at stored
      cases stored
    · rw [links.events]
      simp [created, muxnoteCreate]
    · intro position set
      rw [links.disarmed] at set
      simp [created, muxnoteCreate, bit16] at set
    · refine ⟨⟨unoteRequiredEvents du, true⟩, ?_, ?_, fun _ _ => rfl⟩
      · simp [State.setUnote, State.setMuxnote, State.insertMuxnote,
          State.epollUpdate]
      · rw [armed]
        exact fun _ => ⟨rfl, fun _ => ⟨du.duFilter, by simp⟩⟩
  · intro filter other
    have noUnotes : dmn.unotesOf filter = [] := by
      cases filter <;> rfl
    rw [links.members, noUnotes]
    simp

theorem State.Watching.register
    (registers : unoteRegisterMuxed state du kind = some following)
    (watching : state.Watching strict)
    (added : addSucceeds state du kind = true) :
    following.Watching strict := by
  cases found : state.muxnote du.duIdent with
  | none =>
    obtain ⟨-, watchingAfter, -⟩ :=
      unoteRegisterMuxed_created registers watching found added
    exact watchingAfter
  | some dmn =>
    obtain ⟨dmn', assigns, watched, -⟩ := unoteRegisterMuxed_found registers
      found (watching.watched du.duIdent dmn found)
    exact watching.assign assigns watched

/-! ## Re-arming -/

/-- Everything a re-arm does: the events of the unote are disarmed no
longer. -/
theorem muxnoteResume_spec
    (found : state.muxnote ident = some dmn)
    (watched : dmn.Watched strict (state.kernel dmn.dmnFd)) :
    ∃ dmn', state.Assigns (muxnoteResume state dmn du) ident dmn dmn' ∧
      dmn'.Watched strict ((muxnoteResume state dmn du).kernel dmn.dmnFd) ∧
      dmn'.dmnEvents = dmn.dmnEvents ∧
      (∀ position, bit16 dmn'.dmnDisarmedEvents position =
        (bit16 dmn.dmnDisarmedEvents position &&
          !bit32 (unoteRequiredEvents du) position)) ∧
      dmn'.unotesOf = dmn.unotesOf ∧
      (muxnoteResume state dmn du).unotes = state.unotes := by
  unfold muxnoteResume
  by_cases update :
      unoteRequiredEvents du &&& dmn.dmnDisarmedEvents.toUInt32 ≠ 0
  · simp only [update, ↓reduceIte, ne_eq, not_false_eq_true]
    set updated : Muxnote :=
      { dmn with
        dmnDisarmedEvents :=
          (dmn.dmnDisarmedEvents.toUInt32 &&&
            ~~~unoteRequiredEvents du).toUInt16 }
    have disarmedBit := bit16_clearEvents dmn.dmnDisarmedEvents
      (unoteRequiredEvents du)
    refine ⟨updated, ?_, ?_, rfl, disarmedBit, ?_, rfl⟩
    · refine State.assigns_of_sources found rfl rfl watched.filter rfl ?_
      intro fd different
      simp [State.epollUpdate, State.setMuxnote, updated, different]
    · have rearmed : updated.Watched strict
          (some ⟨muxnoteArmedEvents updated, true⟩) := by
        refine watched.rearm rfl (fun _ set => set) (fun position set => ?_) ?_
        · rw [disarmedBit, Bool.and_eq_true] at set
          exact set.1
        · obtain ⟨position, set⟩ := (ne_zero_iff_bit32 _).mp update
          rw [bit32_and, bit32_ofUInt16, Bool.and_eq_true, Bool.and_eq_true,
            decide_eq_true_eq] at set
          obtain ⟨wanted, filter, rfl⟩ :=
            watched.disarmedWanted position set.2.2
          refine ⟨filter, ?_⟩
          rw [bit32_muxnoteArmedEvents _ set.2.1, disarmedBit, set.1, wanted]
          simp
      simpa [State.epollUpdate, updated] using rearmed
    · funext filter
      cases filter <;> rfl
  · rw [if_neg update]
    refine ⟨dmn, ⟨found, found, rfl, fun _ _ => rfl, fun _ _ => rfl⟩, watched,
      rfl, fun position => ?_, rfl, rfl⟩
    by_contra differs
    refine update ((ne_zero_iff_bit32 _).mpr ⟨position, ?_⟩)
    have inWord : position < 32 := by
      by_contra beyond
      simp [bit16_of_le (by omega : 16 ≤ position)] at differs
    rw [bit32_and, bit32_ofUInt16, decide_eq_true inWord]
    revert differs
    cases bit16 dmn.dmnDisarmedEvents position <;>
      cases bit32 (unoteRequiredEvents du) position <;> simp

/-! ## Unregistration -/

section

variable (dmn : Muxnote) (events : UInt32) (du : Unote)
  (filter : EventFilter) (isEmpty : Bool) (position : Nat)

/-- The muxnote after one `LIST_EMPTY` block keeps its lists and identity. -/
theorem dropDirection_sameLists
    (direction : UInt32) :
    dmn.SameLists (dropDirection dmn events direction isEmpty).1 := by
  have lists : ∀ other : Muxnote,
      other.dmnReadersHead = dmn.dmnReadersHead →
      other.dmnWritersHead = dmn.dmnWritersHead →
        other.unotesOf = dmn.unotesOf := by
    intro other readers writers
    funext filter
    cases filter
    · exact readers
    · exact writers
  unfold dropDirection
  split_ifs <;> exact ⟨rfl, rfl, rfl, lists _ rfl rfl⟩

/-- One `LIST_EMPTY` block drops the direction of an empty list from the local
mask and from the disarmed events. -/
theorem dropDirection_bits :
    let dropped := dropDirection dmn events filter.direction isEmpty
    (bit32 dropped.2 position =
      (bit32 events position &&
        !(isEmpty && decide (position = filter.position)))) ∧
    (bit16 dropped.1.dmnDisarmedEvents position =
      (bit16 dmn.dmnDisarmedEvents position &&
        !(isEmpty && decide (position = filter.position)))) ∧
    (bit32 dropped.1.dmnEvents position =
      (bit32 dmn.dmnEvents position &&
        !(isEmpty && decide (position = filter.position) &&
          bit16 dmn.dmnDisarmedEvents position))) := by
  have inDirections := filter.position_lt
  have inWord : filter.position < 32 := by omega
  have disarmed :
      dmn.dmnDisarmedEvents.toUInt32 &&& filter.direction ≠ 0 ↔
        bit16 dmn.dmnDisarmedEvents filter.position = true := by
    rw [and_direction_iff, bit32_ofUInt16]
    simp [inWord]
  unfold dropDirection
  cases isEmpty with
  | false => simp
  | true =>
    by_cases set : bit16 dmn.dmnDisarmedEvents filter.position = true
    · simp only [↓reduceIte, disarmed.mpr set, ne_eq, not_false_eq_true,
        bit32_and_not, bit16_clearEvents, bit32_direction, Bool.true_and]
      refine ⟨trivial, trivial, ?_⟩
      by_cases own : position = filter.position
      · simp [own, set]
      · simp [own]
    · have kept := mt disarmed.mp set
      simp only [↓reduceIte, kept, bit32_and_not, bit32_direction,
        Bool.true_and]
      refine ⟨trivial, ?_, ?_⟩
      · by_cases own : position = filter.position
        · simpa [own] using set
        · simp [own]
      · by_cases own : position = filter.position
        · have clear : bit16 dmn.dmnDisarmedEvents position = false := by
            simpa [own] using set
          simp [clear]
        · simp [own]

theorem dropEmpty_sameLists :
    dmn.SameLists (dropEmpty dmn events).1 :=
  (dropDirection_sameLists _ _ _ epollIn).trans
    (dropDirection_sameLists _ _ _ epollOut)

/-- A position belongs to a direction whose list is empty. -/
def Muxnote.emptyAt : Bool :=
  (dmn.dmnReadersHead.isEmpty && decide (position = 0)) ||
    (dmn.dmnWritersHead.isEmpty && decide (position = 2))

/-- Both blocks together drop the directions of the empty lists. -/
theorem dropEmpty_bits :
    (bit32 (dropEmpty dmn events).2 position =
      (bit32 events position && !dmn.emptyAt position)) ∧
    (bit16 (dropEmpty dmn events).1.dmnDisarmedEvents position =
      (bit16 dmn.dmnDisarmedEvents position && !dmn.emptyAt position)) ∧
    (bit32 (dropEmpty dmn events).1.dmnEvents position =
      (bit32 dmn.dmnEvents position &&
        !(dmn.emptyAt position &&
          bit16 dmn.dmnDisarmedEvents position))) := by
  unfold dropEmpty
  set first := dropDirection dmn events epollIn dmn.dmnReadersHead.isEmpty
  obtain ⟨mask, disarmed, wanted⟩ :=
    dropDirection_bits dmn events evfiltRead dmn.dmnReadersHead.isEmpty
      position
  obtain ⟨mask', disarmed', wanted'⟩ :=
    dropDirection_bits first.1 first.2 evfiltWrite
      first.1.dmnWritersHead.isEmpty position
  have writers : first.1.dmnWritersHead = dmn.dmnWritersHead :=
    congrFun (dropDirection_sameLists _ _ _ _).lists evfiltWrite
  simp only [EventFilter.direction, EventFilter.position] at mask disarmed wanted
  simp only [EventFilter.direction, EventFilter.position,
    writers] at mask' disarmed' wanted'
  change bit32 first.2 position = _ at mask
  change bit16 first.1.dmnDisarmedEvents position = _ at disarmed
  change bit32 first.1.dmnEvents position = _ at wanted
  rw [mask] at mask'
  rw [disarmed] at disarmed' wanted'
  rw [wanted] at wanted'
  simp only [writers, mask', disarmed', wanted']
  unfold Muxnote.emptyAt
  by_cases isRead : position = 0
  · simp [isRead]
  · by_cases isWrite : position = 2
    · simp [isWrite]
    · simp [isRead, isWrite]

theorem Muxnote.emptyAt_position :
    dmn.emptyAt filter.position = true ↔ dmn.unotesOf filter = [] := by
  cases filter <;>
    simp [Muxnote.emptyAt, Muxnote.unotesOf, EventFilter.position]

/-- The unotes that stay listed when one leaves. -/
theorem mem_unlinkUnote_iff
    (other : Unote) :
    other ∈ (unlinkUnote dmn du).unotesOf filter ↔
      other ∈ dmn.unotesOf filter ∧ other ≠ du := by
  cases filter <;> simp [unlinkUnote, Muxnote.unotesOf]

/-- Dropping the empty directions changes no armed event. -/
theorem muxnoteArmedEvents_dropEmpty :
    muxnoteArmedEvents (dropEmpty dmn events).1 = muxnoteArmedEvents dmn := by
  apply eq_of_bit32
  intro position inWord
  obtain ⟨-, disarmed, wanted⟩ := dropEmpty_bits dmn events position
  rw [bit32_muxnoteArmedEvents _ inWord, bit32_muxnoteArmedEvents _ inWord,
    disarmed, wanted]
  cases dmn.emptyAt position <;> simp

/-- If the mask without the empty directions is the armed mask, it is the
wanted mask as well. -/
theorem dropEmpty_wanted_of_armed
    (same : (dropEmpty dmn dmn.dmnEvents).2 =
      muxnoteArmedEvents (dropEmpty dmn dmn.dmnEvents).1) :
    (dropEmpty dmn dmn.dmnEvents).1.dmnEvents =
      (dropEmpty dmn dmn.dmnEvents).2 := by
  apply eq_of_bit32
  intro position inWord
  obtain ⟨mask, disarmed, wanted⟩ :=
    dropEmpty_bits dmn dmn.dmnEvents position
  have atBit := congrArg (bit32 · position) same
  simp only [bit32_muxnoteArmedEvents _ inWord, mask, disarmed,
    wanted] at atBit
  rw [mask, wanted]
  revert atBit
  cases dmn.emptyAt position <;>
    cases bit16 dmn.dmnDisarmedEvents position <;> simp

/-- The muxnote of an unregistration that keeps it: the unote leaves, and with
it the directions without a unote. -/
def Muxnote.leave : Muxnote :=
  let dropped := dropEmpty (unlinkUnote dmn du) dmn.dmnEvents
  { dropped.1 with dmnEvents := dropped.2 }

theorem Muxnote.leave_sameLists :
    (unlinkUnote dmn du).SameLists (dmn.leave du) := by
  obtain ⟨ident, fd, filter, lists⟩ :=
    dropEmpty_sameLists (unlinkUnote dmn du) dmn.dmnEvents
  refine ⟨ident, fd, filter, Eq.trans ?_ lists⟩
  funext filter
  cases filter <;> rfl

theorem Muxnote.leave_bits :
    bit32 (dmn.leave du).dmnEvents position =
        (bit32 dmn.dmnEvents position &&
          !(unlinkUnote dmn du).emptyAt position) ∧
      bit16 (dmn.leave du).dmnDisarmedEvents position =
        (bit16 dmn.dmnDisarmedEvents position &&
          !(unlinkUnote dmn du).emptyAt position) := by
  obtain ⟨events, disarmed, -⟩ :=
    dropEmpty_bits (unlinkUnote dmn du) dmn.dmnEvents position
  exact ⟨events, disarmed⟩

/-- A wanted direction whose list keeps a unote when one unote leaves. -/
def Muxnote.Remains : Prop :=
  dmn.dmnEvents &&& filter.direction ≠ 0 ∧
    ∃ other ∈ dmn.unotesOf filter, other ≠ du

/-- The directions it wants are those that remain. -/
theorem Muxnote.remains_iff :
    dmn.Remains du filter ↔
      bit32 (dmn.leave du).dmnEvents filter.position = true := by
  rw [(dmn.leave_bits du _).1, Bool.and_eq_true, Bool.not_eq_eq_eq_not,
    Bool.not_true, ← Bool.not_eq_true, Muxnote.emptyAt_position,
    Muxnote.Remains, and_direction_iff]
  refine and_congr_right fun _ => ?_
  constructor
  · rintro ⟨other, member⟩
    exact List.ne_nil_of_mem ((mem_unlinkUnote_iff dmn du filter other).mpr
      member)
  · intro nonempty
    obtain ⟨other, member⟩ := List.exists_mem_of_ne_nil _ nonempty
    exact ⟨other, (mem_unlinkUnote_iff dmn du filter other).mp member⟩

/-- The directions it has armed are those that remain and are not disarmed. -/
theorem Muxnote.armed_leave_iff :
    bit32 (muxnoteArmedEvents (dmn.leave du)) filter.position = true ↔
      dmn.Remains du filter ∧
        ¬(dmn.dmnDisarmedEvents.toUInt32 &&& filter.direction ≠ 0) := by
  have inDirections := filter.position_lt
  have inWord : filter.position < 32 := by omega
  obtain ⟨events, disarmed⟩ := dmn.leave_bits du filter.position
  rw [Muxnote.remains_iff, and_direction_iff, bit32_ofUInt16,
    bit32_muxnoteArmedEvents _ inWord, disarmed, events]
  cases (unlinkUnote dmn du).emptyAt filter.position <;> simp [inWord]

end

/-- Everything an unregistration does: the muxnote stays and the kernel is told
what is armed unless it knows, or both go because no direction remains. -/
theorem muxnoteUnregister_spec
    (found : state.muxnote ident = some dmn)
    (watched : dmn.Watched strict (state.kernel dmn.dmnFd))
    (du : Unote) :
    (muxnoteUnregister state dmn du).unotes =
        (state.setUnote du .unregistered).unotes ∧
      (((∃ filter, dmn.Remains du filter) ∧
        state.Assigns (muxnoteUnregister state dmn du) ident dmn
          (dmn.leave du) ∧
        ((muxnoteUnregister state dmn du).kernel dmn.dmnFd =
            some ⟨muxnoteArmedEvents (dmn.leave du), true⟩ ∨
          (muxnoteUnregister state dmn du).kernel dmn.dmnFd =
              state.kernel dmn.dmnFd ∧
            (dmn.leave du).dmnEvents = muxnoteArmedEvents (dmn.leave du) ∧
            muxnoteArmedEvents (dmn.leave du) = muxnoteArmedEvents dmn)) ∨
      ((∀ filter, ¬dmn.Remains du filter) ∧
        (muxnoteUnregister state dmn du).muxnote ident = none ∧
        (muxnoteUnregister state dmn du).kernel dmn.dmnFd = none ∧
        (∀ other, other ≠ ident →
          (muxnoteUnregister state dmn du).muxnote other =
            state.muxnote other) ∧
        ∀ fd, fd ≠ dmn.dmnFd →
          (muxnoteUnregister state dmn du).kernel fd = state.kernel fd)) := by
  set dropped := dropEmpty (unlinkUnote dmn du) dmn.dmnEvents
  obtain ⟨sameIdent, sameFd, -⟩ :=
    dropEmpty_sameLists (unlinkUnote dmn du) dmn.dmnEvents
  obtain ⟨leaveIdent, leaveFd, leaveFilter, -⟩ := dmn.leave_sameLists du
  change _ = dmn.dmnFd at leaveFd
  have stays : dropped.2 &&& (epollIn ||| epollOut) ≠ 0 ↔
      ∃ filter, dmn.Remains du filter := by
    rw [and_inOut_iff_filter]
    exact exists_congr fun filter => (dmn.remains_iff du filter).symm
  have shape : muxnoteUnregister state dmn du =
      (if dropped.2 &&& (epollIn ||| epollOut) ≠ 0 then
        if dropped.2 ≠ muxnoteArmedEvents dropped.1 then
          (state.setMuxnote (dmn.leave du)).epollUpdate (dmn.leave du)
            (muxnoteArmedEvents (dmn.leave du))
        else
          state.setMuxnote dropped.1
      else
        (state.epollDelete dropped.1).removeMuxnote dropped.1).setUnote du
          .unregistered := rfl
  rw [shape]
  by_cases remains : ∃ filter, dmn.Remains du filter
  · rw [if_pos (stays.mpr remains)]
    by_cases update : dropped.2 ≠ muxnoteArmedEvents dropped.1
    · rw [if_pos update]
      refine ⟨rfl, .inl ⟨remains, ?_, .inl ?_⟩⟩
      · refine State.assigns_of_sources found leaveIdent leaveFd
          (leaveFilter.trans watched.filter) rfl ?_
        intro fd different
        simp [State.setUnote, State.epollUpdate, State.setMuxnote, leaveFd,
          different]
      · simp [State.setUnote, State.epollUpdate, leaveFd]
    · have armed := not_ne_iff.mp update
      have sameMuxnote : dmn.leave du = dropped.1 :=
        congrArg (fun events => { dropped.1 with dmnEvents := events })
          (dropEmpty_wanted_of_armed (unlinkUnote dmn du) armed).symm
      rw [if_neg update, ← sameMuxnote]
      refine ⟨rfl, .inl ⟨remains, ?_, .inr ⟨rfl, ?_, ?_⟩⟩⟩
      · exact State.assigns_of_sources found leaveIdent leaveFd
          (leaveFilter.trans watched.filter) rfl fun _ _ => rfl
      · rw [sameMuxnote, ← armed, ← sameMuxnote]
        rfl
      · rw [sameMuxnote]
        exact muxnoteArmedEvents_dropEmpty _ _
  · rw [if_neg (mt stays.mp remains)]
    have ownIdent : dropped.1.dmnIdent = ident :=
      Eq.trans sameIdent (@State.muxnote_ident _ dmn _ found)
    have ownFd : dropped.1.dmnFd = dmn.dmnFd := sameFd
    refine ⟨rfl, .inr ⟨not_exists.mp remains, ?_, ?_, fun other different => ?_,
      fun fd different => ?_⟩⟩
    · rw [← ownIdent]
      exact State.muxnote_removeMuxnote_same _ _
    · simp [State.setUnote, State.removeMuxnote, State.epollDelete, ownFd]
    · exact State.muxnote_removeMuxnote_other _ _ (by rwa [ownIdent])
    · simp [State.setUnote, State.removeMuxnote, State.epollDelete, ownFd,
        different]

theorem State.Watching.unregister
    (watching : state.Watching strict)
    (found : state.muxnote ident = some dmn)
    (interest : strict → (∃ filter, dmn.Remains du filter) →
      ∃ filter, dmn.Remains du filter ∧
        ¬(dmn.dmnDisarmedEvents.toUInt32 &&& filter.direction ≠ 0)) :
    (muxnoteUnregister state dmn du).Watching strict := by
  have watched := watching.watched ident dmn found
  obtain ⟨-, ⟨remains, assigns, kernel⟩ |
    ⟨-, gone, deleted, otherMuxnotes, otherKernel⟩⟩ :=
      muxnoteUnregister_spec found watched du
  · refine watching.assign assigns
      ⟨(dmn.leave_sameLists du).filter.trans watched.filter, ?_, ?_, ?_⟩
    · rw [(dmn.leave_bits du 14).1, (dmn.leave_bits du 30).1,
        watched.always.1, watched.always.2]
      simp [Muxnote.emptyAt]
    · intro position set
      rw [(dmn.leave_bits du position).2, Bool.and_eq_true] at set
      obtain ⟨wanted, isFilter⟩ := watched.disarmedWanted position set.1
      rw [(dmn.leave_bits du position).1, wanted, set.2]
      exact ⟨rfl, isFilter⟩
    · rcases kernel with updated | ⟨kept, -, armed⟩
      · refine ⟨_, updated, fun _ => ⟨rfl, fun isStrict => ?_⟩, fun _ _ => rfl⟩
        simp only [Muxnote.armed_leave_iff]
        exact interest isStrict remains
      · rw [kept, armed]
        exact watched.kernel
  · exact watching.frame ident dmn.dmnFd otherMuxnotes otherKernel
      (watching.freeFd found) (.inr ⟨gone, deleted⟩)

/-! ## Delivery -/

/-- The events a delivery stands for: a hang-up counts for every armed
direction. -/
def mergedEvents (dmn : Muxnote) (events : UInt32) : UInt32 :=
  if events &&& epollHup ≠ 0 then
    events ||| (muxnoteArmedEvents dmn &&& (epollIn ||| epollOut))
  else
    events

/-- Two muxnotes that differ at most in the flags that remember which buffer
queries are useless. -/
structure Muxnote.SameWatch (dmn dmn' : Muxnote) : Prop
    extends dmn.SameLists dmn' where
  events : dmn'.dmnEvents = dmn.dmnEvents
  disarmed : dmn'.dmnDisarmedEvents = dmn.dmnDisarmedEvents

theorem getBufferSize_sameWatch
    (dmn : Muxnote)
    (filter : EventFilter)
    (ioctl : Option Nat) :
    dmn.SameWatch (getBufferSize dmn filter ioctl).1 := by
  unfold getBufferSize
  cases filter <;> cases ioctl <;> simp only [] <;> split_ifs <;>
    exact ⟨⟨rfl, rfl, rfl, rfl⟩, rfl, rfl⟩

/-- One direction of a delivery goes to the list of that direction. -/
theorem mergeDirection_spec
    (dmn : Muxnote)
    (events : UInt32)
    (filter : EventFilter)
    (ioctl : Option Nat) :
    dmn.SameWatch (mergeDirection dmn events filter ioctl).1 ∧
      (mergeDirection dmn events filter ioctl).2.map Delivery.unote =
        if events &&& filter.direction ≠ 0 then dmn.unotesOf filter
        else [] := by
  unfold mergeDirection
  have same := getBufferSize_sameWatch dmn filter ioctl
  split_ifs
  · refine ⟨same, ?_⟩
    simp [Function.comp_def, same.lists]
  · exact ⟨⟨⟨rfl, rfl, rfl, rfl⟩, rfl, rfl⟩, rfl⟩

/-- The muxnote with the delivered directions disarmed. -/
def Muxnote.disarm (dmn : Muxnote) (events : UInt32) : Muxnote :=
  { dmn with
    dmnDisarmedEvents :=
      (dmn.dmnDisarmedEvents.toUInt32 |||
        (events &&& (epollIn ||| epollOut))).toUInt16 }

/-- The unotes that are called back for some directions. -/
def Muxnote.receivers (dmn : Muxnote) (events : UInt32) : List Unote :=
  (if events &&& epollIn ≠ 0 then dmn.dmnReadersHead else []) ++
    (if events &&& epollOut ≠ 0 then dmn.dmnWritersHead else [])

/-- Every effect of a delivery: the lists of the delivered directions are
called back and lose the armed mark, the directions are disarmed, and the
kernel is told what is still armed, if anything is. -/
theorem eventMergeFd_spec
    (state : State)
    (dmn : Muxnote)
    (events : UInt32)
    (inq outq : Option Nat) :
    ∃ dmn', (dmn.disarm (mergedEvents dmn events)).SameWatch dmn' ∧
      (eventMergeFd state dmn events inq outq).2.map Delivery.unote =
        dmn.receivers (mergedEvents dmn events) ∧
      (eventMergeFd state dmn events inq outq).1 =
        if muxnoteArmedEvents dmn' &&& (epollIn ||| epollOut) ≠ 0 then
          (clearArmed (state.setMuxnote dmn')
            (dmn.receivers (mergedEvents dmn events))).epollUpdate dmn'
              (muxnoteArmedEvents dmn')
        else
          clearArmed (state.setMuxnote dmn')
            (dmn.receivers (mergedEvents dmn events)) := by
  set merged := mergedEvents dmn events
  obtain ⟨readSame, readList⟩ :=
    mergeDirection_spec (dmn.disarm merged) merged evfiltRead inq
  set read := mergeDirection (dmn.disarm merged) merged evfiltRead inq
  obtain ⟨writeSame, writeList⟩ :=
    mergeDirection_spec read.1 merged evfiltWrite outq
  set write := mergeDirection read.1 merged evfiltWrite outq
  have deliveries :
      (read.2 ++ write.2).map Delivery.unote = dmn.receivers merged := by
    rw [List.map_append, readList, writeList, readSame.lists]
    rfl
  have shape : eventMergeFd state dmn events inq outq =
      if muxnoteArmedEvents write.1 &&& (epollIn ||| epollOut) ≠ 0 then
        ((clearArmed (state.setMuxnote write.1)
          ((read.2 ++ write.2).map Delivery.unote)).epollUpdate write.1
            (muxnoteArmedEvents write.1), read.2 ++ write.2)
      else
        (clearArmed (state.setMuxnote write.1)
          ((read.2 ++ write.2).map Delivery.unote), read.2 ++ write.2) := rfl
  refine ⟨write.1, ?_, ?_, ?_⟩
  · exact ⟨readSame.toSameLists.trans writeSame.toSameLists,
      writeSame.events.trans readSame.events,
      writeSame.disarmed.trans readSame.disarmed⟩
  · rw [shape]
    split_ifs <;> exact deliveries
  · rw [shape, deliveries]
    split_ifs <;> rfl

variable {value : KernelRegistration} {events : UInt32}

/-- A report only has directions that the registration watches. -/
theorem KernelRegistration.watches_of_mayReport
    (reported : value.mayReport events = true)
    {filter : EventFilter}
    (set : bit32 events filter.position = true) :
    bit32 value.events filter.position = true := by
  unfold KernelRegistration.mayReport at reported
  rw [Bool.and_eq_true, beq_iff_eq] at reported
  by_contra isSet
  have unset : bit32 value.events filter.position = false := by
    simpa using isSet
  have nonzero : events &&&
      ~~~((value.events &&& (epollIn ||| epollOut)) |||
        (epollErr ||| epollHup)) ≠ 0 := by
    rw [ne_zero_iff_bit32]
    refine ⟨filter.position, ?_⟩
    have notError : bit32 (epollErr ||| epollHup) filter.position = false := by
      cases filter <;> decide
    rw [bit32_and_not, set, bit32_or, notError, bit32_and]
    simp [unset]
  exact nonzero reported.2

/-- A delivery only stands for armed directions. -/
theorem mergedEvents_armed
    (mask : value.events = muxnoteArmedEvents dmn)
    (reported : value.mayReport events = true)
    {filter : EventFilter}
    (set : bit32 (mergedEvents dmn events) filter.position = true) :
    bit32 (muxnoteArmedEvents dmn) filter.position = true := by
  unfold mergedEvents at set
  split_ifs at set
  · rw [bit32_or, Bool.or_eq_true, bit32_and, Bool.and_eq_true] at set
    rcases set with own | ⟨armed, -⟩
    · exact mask ▸ value.watches_of_mayReport reported own
    · exact armed
  · exact mask ▸ value.watches_of_mayReport reported set

/-- What the disarmed events are after a delivery. -/
theorem bit16_disarm
    (dmn : Muxnote)
    (events : UInt32)
    (position : Nat) :
    bit16 (dmn.disarm events).dmnDisarmedEvents position =
      (bit16 dmn.dmnDisarmedEvents position ||
        (bit32 events position &&
          (decide (position = 0) || decide (position = 2)))) := by
  unfold Muxnote.disarm
  rw [bit16_addEvents]
  by_cases inWord : position < 16
  · simp [inWord]
  · have notIn : position ≠ 0 := by omega
    have notOut : position ≠ 2 := by omega
    simp [inWord, notIn, notOut]

/-- A one-shot registration is disabled by the delivery. -/
theorem State.kernelFire_disabled
    {fd : UInt32}
    (stored : state.kernel fd = some value)
    (oneshot : bit32 value.events 30 = true) :
    ∃ fired, (state.kernelFire fd).kernel fd = some fired ∧
      fired.events = value.events ∧ fired.enabled = false := by
  have nonzero := (and_epollOneshot_iff value.events).mpr oneshot
  refine ⟨⟨value.events, false⟩, ?_, rfl, rfl⟩
  simp [State.kernelFire, stored, nonzero]

/-- Everything a delivery does: it calls back the lists of the delivered
directions, and disarms these. -/
theorem eventMergeFd_assigns
    (found : state.muxnote ident = some dmn)
    (watched : dmn.Watched strict (state.kernel dmn.dmnFd))
    (stored : state.kernel dmn.dmnFd = some value)
    (reported : value.mayReport events = true)
    (inq outq : Option Nat) :
    let merged := eventMergeFd (state.kernelFire dmn.dmnFd) dmn events inq outq
    ∃ dmn', state.Assigns merged.1 ident dmn dmn' ∧
      dmn'.Watched strict (merged.1.kernel dmn.dmnFd) ∧
      (dmn.disarm (mergedEvents dmn events)).SameWatch dmn' ∧
      merged.2.map Delivery.unote =
        dmn.receivers (mergedEvents dmn events) ∧
      merged.1.unotes =
        (clearArmed state (dmn.receivers (mergedEvents dmn events))).unotes ∧
      ∀ filter : EventFilter,
        bit32 (mergedEvents dmn events) filter.position = true →
          bit32 dmn.dmnEvents filter.position = true := by
  obtain ⟨known, storedKnown, mask, -⟩ := watched.kernel
  obtain rfl := Option.some.inj (storedKnown.symm.trans stored)
  have enabled : known.enabled = true := by
    unfold KernelRegistration.mayReport at reported
    rw [Bool.and_eq_true] at reported
    exact reported.1
  have valueOneshot : bit32 known.events 30 = true := by
    rw [(mask enabled).1]
    exact watched.fixed_armed (.inr rfl)
  have delivered : ∀ filter : EventFilter,
      bit32 (mergedEvents dmn events) filter.position = true →
        bit32 dmn.dmnEvents filter.position = true := by
    intro filter set
    have inDirections := filter.position_lt
    have armed := mergedEvents_armed (mask enabled).1 reported set
    rw [bit32_muxnoteArmedEvents _ (by omega), Bool.and_eq_true] at armed
    exact armed.1
  obtain ⟨dmn', same, receivers, result⟩ := eventMergeFd_spec
    (state.kernelFire dmn.dmnFd) dmn events inq outq
  have sameFd : dmn'.dmnFd = dmn.dmnFd := same.fd
  have filter : dmn'.dmnFilter = evfiltRead :=
    same.filter.trans watched.filter
  have always : bit32 dmn'.dmnEvents 14 = true ∧
      bit32 dmn'.dmnEvents 30 = true := by
    rw [same.events]
    exact watched.always
  have disarmedWanted : ∀ position,
      bit16 dmn'.dmnDisarmedEvents position = true →
        bit32 dmn'.dmnEvents position = true ∧
          ∃ filter : EventFilter, position = filter.position := by
    intro position set
    rw [same.disarmed, bit16_disarm, Bool.or_eq_true] at set
    rw [same.events]
    rcases set with old | new
    · exact watched.disarmedWanted position old
    · rw [Bool.and_eq_true, Bool.or_eq_true, decide_eq_true_eq,
        decide_eq_true_eq] at new
      obtain ⟨set, rfl | rfl⟩ := new
      · exact ⟨delivered evfiltRead set, evfiltRead, rfl⟩
      · exact ⟨delivered evfiltWrite set, evfiltWrite, rfl⟩
  intro merged
  change merged.1 = _ at result
  rw [result]
  split_ifs with armed
  · rw [and_inOut_iff_filter] at armed
    refine ⟨dmn', ?_, ⟨filter, always, disarmedWanted, ?_⟩, same, receivers,
      rfl, delivered⟩
    · refine State.assigns_of_sources found same.ident sameFd filter rfl ?_
      intro fd different
      simp [State.epollUpdate, clearArmed, State.setMuxnote,
        State.kernelFire, sameFd, different]
    · refine ⟨⟨muxnoteArmedEvents dmn', true⟩, ?_,
        fun _ => ⟨rfl, fun _ => armed⟩, fun _ _ => rfl⟩
      simp only [State.epollUpdate, sameFd, ↓reduceIte]
  · rw [and_inOut_iff_filter] at armed
    obtain ⟨fired, firedStored, -, disabled⟩ :=
      State.kernelFire_disabled stored valueOneshot
    refine ⟨dmn', ?_, ⟨filter, always, disarmedWanted, fired, firedStored,
      ?_, fun filter set => (armed ⟨filter, set⟩).elim⟩, same, receivers, rfl,
      delivered⟩
    · refine State.assigns_of_sources found same.ident sameFd filter rfl ?_
      intro fd different
      simp [clearArmed, State.setMuxnote, State.kernelFire, different]
    · intro isEnabled
      cases disabled.symm.trans isEnabled

/-! ## Whole runs -/

theorem State.muxnote_of_muxnoteOf
    (muxnoteOf : state.muxnoteOf du = some dmn) :
    ∃ ident, state.muxnote ident = some dmn := by
  unfold State.muxnoteOf at muxnoteOf
  cases registered : state.unotes du with
  | unregistered => simp [registered] at muxnoteOf
  | registered ident armed =>
    rw [registered] at muxnoteOf
    exact ⟨ident, muxnoteOf⟩

theorem State.empty_watching :
    State.empty.Watching strict := by
  refine ⟨?_, ?_, ?_⟩
  · intro ident dmn found
    cases found
  · intro first second firstDmn secondDmn found
    cases found
  · intro _ fd registration stored
    cases stored

end LibDispatch.Epoll
