import LibDispatch.EpollWatch

namespace LibDispatch.Epoll

open EventFilter

/-!
# The lists of the epoll backend

Beside what the kernel watches, a run that keeps readers and writers apart
keeps every registered unote on the list of its own direction.  Each entry
point changes the unotes of one identifier, so a frame lemma reduces the
preservation of this part to one muxnote.
-/

/-- What holds of the lists of one muxnote. -/
structure Muxnote.Listed
    (ident : UInt32)
    (unotes : Unote → UnoteState)
    (awaiting : Unote → Bool)
    (dmn : Muxnote) : Prop where
  listed :
    ∀ filter, ∀ du ∈ dmn.unotesOf filter,
      du.duFilter = filter ∧ du.duIdent = ident ∧
        ∃ armed, unotes du = .registered ident armed
  wanted :
    ∀ filter, bit32 dmn.dmnEvents filter.position = true ↔
      ∃ du, du ∈ dmn.unotesOf filter
  awaited :
    ∀ filter, ∀ du ∈ dmn.unotesOf filter, awaiting du = true →
      bit16 dmn.dmnDisarmedEvents filter.position = false

/-- A registered unote is linked to the muxnote of its descriptor. -/
def State.Linked (state : State) (du : Unote) : Prop :=
  ∀ muxnote armed, state.unotes du = .registered muxnote armed →
    muxnote = du.duIdent ∧
      ∃ dmn, state.muxnote du.duIdent = some dmn ∧
        du ∈ dmn.unotesOf du.duFilter

/-- The invariant of the runs that keep readers and writers apart. -/
structure Tracked.Invariant (tracked : Tracked) : Prop where
  watching : tracked.state.Watching False
  listed :
    ∀ ident dmn, tracked.state.muxnote ident = some dmn →
      dmn.Listed ident tracked.state.unotes tracked.awaiting
  linked : ∀ du, tracked.state.Linked du
  awaitingRegistered :
    ∀ du, tracked.awaiting du = true →
      tracked.state.unotes du ≠ .unregistered

theorem Tracked.empty_invariant :
    Tracked.empty.Invariant where
  watching := State.empty_watching
  listed := by
    intro ident dmn found
    cases found
  linked := by
    intro du muxnote armed registered
    cases registered
  awaitingRegistered := by
    intro du awaiting
    cases awaiting

variable {before after : Tracked} {ident : UInt32} {dmn dmn' : Muxnote}
  {du : Unote}

variable (invariant : before.Invariant)

include invariant

/-- A call on one identifier keeps the invariant when it leaves the unotes of
other identifiers alone. -/
theorem Tracked.Invariant.frame
    (watching : after.state.Watching False)
    (otherMuxnotes : ∀ other, other ≠ ident →
      after.state.muxnote other = before.state.muxnote other)
    (otherUnotes : ∀ du, du.duIdent ≠ ident →
      after.state.unotes du = before.state.unotes du)
    (otherAwaiting : ∀ du, du.duIdent ≠ ident →
      after.awaiting du = before.awaiting du)
    (ownListed : ∀ dmn, after.state.muxnote ident = some dmn →
      dmn.Listed ident after.state.unotes after.awaiting)
    (ownLinked : ∀ du, du.duIdent = ident → after.state.Linked du)
    (ownAwaiting : ∀ du, du.duIdent = ident → after.awaiting du = true →
      after.state.unotes du ≠ .unregistered) :
    after.Invariant where
  watching := watching
  listed := by
    intro other dmn found
    by_cases own : other = ident
    · subst own
      exact ownListed dmn found
    · rw [otherMuxnotes other own] at found
      have lists := invariant.listed other dmn found
      refine ⟨?_, lists.wanted, ?_⟩
      · intro filter du member
        obtain ⟨ownFilter, ownIdent, registered⟩ :=
          lists.listed filter du member
        rw [otherUnotes du (ownIdent ▸ own)]
        exact ⟨ownFilter, ownIdent, registered⟩
      · intro filter du member awaiting
        have ownIdent := (lists.listed filter du member).2.1
        rw [otherAwaiting du (ownIdent ▸ own)] at awaiting
        exact lists.awaited filter du member awaiting
  linked := by
    intro du
    by_cases own : du.duIdent = ident
    · exact ownLinked du own
    · intro muxnote armed registered
      rw [otherUnotes du own] at registered
      rw [otherMuxnotes _ own]
      exact invariant.linked du muxnote armed registered
  awaitingRegistered := by
    intro du awaiting
    by_cases own : du.duIdent = ident
    · exact ownAwaiting du own awaiting
    · rw [otherAwaiting du own] at awaiting
      rw [otherUnotes du own]
      exact invariant.awaitingRegistered du awaiting

/-- The muxnote of an identifier lists the registered unotes. -/
theorem Tracked.Invariant.member
    (found : before.state.muxnote ident = some dmn)
    {muxnote : UInt32}
    {armed : Bool}
    (ownIdent : du.duIdent = ident)
    (registered : before.state.unotes du = .registered muxnote armed) :
    muxnote = ident ∧ du ∈ dmn.unotesOf du.duFilter := by
  subst ownIdent
  obtain ⟨ownMuxnote, current, currentFound, member⟩ :=
    invariant.linked du muxnote armed registered
  obtain rfl := Option.some.inj (found.symm.trans currentFound)
  exact ⟨ownMuxnote, member⟩

/-- A linked unote is registered on, and listed by, the muxnote of its
descriptor. -/
theorem Tracked.Invariant.muxnoteOf_eq
    (muxnoteOf : before.state.muxnoteOf du = some dmn) :
    ∃ armed, before.state.unotes du = .registered du.duIdent armed ∧
      before.state.muxnote du.duIdent = some dmn ∧
      du ∈ dmn.unotesOf du.duFilter := by
  unfold State.muxnoteOf at muxnoteOf
  cases stored : before.state.unotes du with
  | unregistered => simp [stored] at muxnoteOf
  | registered muxnote armed =>
    rw [stored] at muxnoteOf
    obtain ⟨rfl, current, found, member⟩ :=
      invariant.linked du muxnote armed stored
    obtain rfl := Option.some.inj (muxnoteOf.symm.trans found)
    exact ⟨armed, rfl, found, member⟩

/-! ## Registration and re-arming -/

omit invariant in
/-- Registration and resumption agree on what becomes of the lists: the unote
is on its list, and its events are wanted and no longer disarmed. -/
theorem Muxnote.Listed.rearm
    {unotes unotes' : Unote → UnoteState}
    {awaiting awaiting' : Unote → Bool}
    (lists : dmn.Listed du.duIdent unotes awaiting)
    (rearms : dmn.Rearms du du.duFilter dmn')
    (registered : ∃ armed, unotes' du = .registered du.duIdent armed)
    (otherUnotes : ∀ other, other ≠ du → unotes' other = unotes other)
    (otherAwaiting :
      ∀ other, other ≠ du → awaiting' other = awaiting other) :
    dmn'.Listed du.duIdent unotes' awaiting' where
  listed := by
    intro filter other member
    by_cases isDu : other = du
    · subst isDu
      refine ⟨?_, rfl, registered⟩
      rcases (rearms.members filter other).mp member with old | ⟨-, own⟩
      · exact (lists.listed filter other old).1
      · exact own.symm
    · have old : other ∈ dmn.unotesOf filter := by
        simpa [rearms.members, isDu] using member
      rw [otherUnotes other isDu]
      exact lists.listed filter other old
  wanted := by
    intro filter
    simp only [rearms.events, bit32_unoteRequiredEvents_position,
      rearms.members, Bool.or_eq_true, decide_eq_true_eq, lists.wanted filter,
      exists_or]
    simp
  awaited := by
    intro filter other member isAwaiting
    rw [rearms.disarmed, bit32_unoteRequiredEvents_position]
    by_cases own : filter = du.duFilter
    · simp [own]
    · have old : other ∈ dmn.unotesOf filter := by
        simpa [rearms.members, own] using member
      have notDu : other ≠ du := by
        rintro rfl
        exact own (lists.listed filter other old).1.symm
      rw [otherAwaiting other notDu] at isAwaiting
      simp [lists.awaited filter other old isAwaiting]

/-- An arming call keeps the invariant; the muxnote before it may be one that
lists nothing. -/
theorem Tracked.Invariant.rearm
    (watching : after.state.Watching False)
    (lists : dmn.Listed du.duIdent before.state.unotes before.awaiting)
    (complete : ∀ other muxnote armed, other.duIdent = du.duIdent →
      before.state.unotes other = .registered muxnote armed →
        muxnote = du.duIdent ∧ other ∈ dmn.unotesOf other.duFilter)
    (foundAfter : after.state.muxnote du.duIdent = some dmn')
    (otherMuxnotes : ∀ other, other ≠ du.duIdent →
      after.state.muxnote other = before.state.muxnote other)
    (rearms : dmn.Rearms du du.duFilter dmn')
    (registered :
      ∃ armed, after.state.unotes du = .registered du.duIdent armed)
    (otherUnotes : ∀ other, other ≠ du →
      after.state.unotes other = before.state.unotes other)
    (awaiting : after.awaiting = before.setAwaiting du true) :
    after.Invariant := by
  have otherAwaiting : ∀ other, other ≠ du →
      after.awaiting other = before.awaiting other := by
    intro other notDu
    simp [awaiting, Tracked.setAwaiting, notDu]
  refine invariant.frame watching otherMuxnotes ?_ ?_ ?_ ?_ ?_
  · intro other different
    exact otherUnotes other fun same => different (same ▸ rfl)
  · intro other different
    exact otherAwaiting other fun same => different (same ▸ rfl)
  · intro current currentFound
    obtain rfl := Option.some.inj (foundAfter.symm.trans currentFound)
    exact lists.rearm rearms registered otherUnotes otherAwaiting
  · intro other sameIdent muxnote armed isRegistered
    rw [sameIdent, foundAfter]
    by_cases isDu : other = du
    · subst isDu
      obtain ⟨value, stored⟩ := registered
      rw [stored, UnoteState.registered.injEq] at isRegistered
      exact ⟨isRegistered.1.symm, dmn', rfl,
        (rearms.members other.duFilter other).mpr (.inr ⟨rfl, rfl⟩)⟩
    · rw [otherUnotes other isDu] at isRegistered
      obtain ⟨ownMuxnote, member⟩ :=
        complete other muxnote armed sameIdent isRegistered
      exact ⟨ownMuxnote, dmn', rfl,
        (rearms.members other.duFilter other).mpr (.inl member)⟩
  · intro other sameIdent isAwaiting
    by_cases isDu : other = du
    · subst isDu
      obtain ⟨value, stored⟩ := registered
      simp [stored]
    · rw [otherUnotes other isDu]
      rw [otherAwaiting other isDu] at isAwaiting
      exact invariant.awaitingRegistered other isAwaiting

omit invariant in
theorem listFor_eq
    (events : UInt32) :
    listFor events = if bit32 events 2 then evfiltWrite else evfiltRead := by
  simp only [listFor, and_epollOut_iff]

omit invariant in
/-- A unote's own mask tells its direction. -/
theorem listFor_required
    (du : Unote) :
    listFor (unoteRequiredEvents du) = du.duFilter := by
  have own := bit32_unoteRequiredEvents_position du evfiltWrite
  simp only [EventFilter.position] at own
  rw [listFor_eq, own]
  cases du.duFilter <;> simp

omit invariant in
/-- So does the merged mask, unless a read unote meets armed write events and
no armed read events. -/
theorem listFor_registrationEvents
    {registration : Option KernelRegistration}
    {kind : Option FileKind}
    {state : State}
    (watched : dmn.Watched False registration)
    (found : state.muxnote du.duIdent = some dmn)
    (separate : ¬MergesWriteIntoRead state (.register du kind)) :
    listFor (registrationEvents dmn du) = du.duFilter := by
  have required := listFor_required du
  unfold registrationEvents
  split_ifs with update
  · rw [listFor_eq] at required
    rw [listFor_eq, bit32_or]
    cases writeArmed : bit32 (muxnoteArmedEvents dmn) 2 with
    | false => rwa [Bool.or_false]
    | true =>
      cases own : du.duFilter with
      | evfiltWrite => simp
      | evfiltRead =>
        -- The read events are armed as well, so nothing was to be updated.
        have readArmed : bit32 (muxnoteArmedEvents dmn) 0 = true := by
          rw [← and_epollIn_iff]
          intro notArmed
          exact separate ⟨own, dmn, found,
            (and_epollOut_iff _).mpr writeArmed, notArmed⟩
        obtain ⟨position, set⟩ := (ne_zero_iff_bit32 _).mp update
        simp only [bit32_and, bit32_not, bit32_unoteRequiredEvents, own,
          EventFilter.position, Bool.and_eq_true, Bool.or_eq_true,
          decide_eq_true_eq, Bool.not_eq_eq_eq_not, Bool.not_true] at set
        obtain ⟨(isFree | rfl) | isOneshot, -, notArmed⟩ := set
        · cases (watched.fixed_armed (.inl isFree)).symm.trans notArmed
        · cases readArmed.symm.trans notArmed
        · cases (watched.fixed_armed (.inr isOneshot)).symm.trans notArmed
  · exact required

/-- Registration keeps the invariant, unless a read unote meets armed write
events and no armed read events. -/
theorem Tracked.Invariant.register
    {kind : Option FileKind}
    {following : State}
    (registers : unoteRegisterMuxed before.state du kind = some following)
    (added : addSucceeds before.state du kind = true)
    (separate : ¬MergesWriteIntoRead before.state (.register du kind)) :
    Tracked.Invariant ⟨following, before.setAwaiting du true⟩ := by
  have watching := invariant.watching
  cases found : before.state.muxnote du.duIdent with
  | none =>
    obtain ⟨dmn', watchingAfter, foundAfter, otherMuxnotes, events, disarmed,
      members, unotes⟩ :=
        unoteRegisterMuxed_created registers watching found added
    -- Creation arms a muxnote that wants and lists nothing.
    set blank : Muxnote :=
      { dmn' with
        dmnReadersHead := []
        dmnWritersHead := []
        dmnEvents := 0
        dmnDisarmedEvents := 0 }
    have noUnotes : ∀ filter, blank.unotesOf filter = [] := by
      intro filter
      cases filter <;> rfl
    have blankListed : blank.Listed du.duIdent before.state.unotes
        before.awaiting := by
      refine ⟨?_, ?_, ?_⟩ <;> simp [noUnotes, blank, bit32]
    refine invariant.rearm watchingAfter blankListed ?_ foundAfter
      otherMuxnotes ⟨?_, ?_, ?_⟩ ⟨true, ?_⟩ ?_ rfl
    · intro other muxnote armed sameIdent registered
      obtain ⟨-, current, currentFound, -⟩ :=
        invariant.linked other muxnote armed registered
      rw [sameIdent, found] at currentFound
      cases currentFound
    · intro position
      simp [events, blank, bit32]
    · intro position
      simp [disarmed, blank, bit16]
    · intro filter other
      rw [members, listFor_required, noUnotes]
      simp
    · simp [unotes, State.setUnote]
    · intro other different
      simp [unotes, State.setUnote, different]
  | some dmn =>
    have watched := watching.watched du.duIdent dmn found
    obtain ⟨dmn', assigns, watchedAfter, rearms, unotes⟩ :=
      unoteRegisterMuxed_found registers found watched
    rw [listFor_registrationEvents watched found separate] at rearms
    refine invariant.rearm (watching.assign assigns watchedAfter)
      (invariant.listed du.duIdent dmn found)
      (fun _ _ _ => invariant.member found) assigns.foundAfter
      assigns.otherMuxnotes rearms ⟨true, ?_⟩ ?_ rfl
    · simp [unotes, State.setUnote]
    · intro other different
      simp [unotes, State.setUnote, different]

/-- Re-arming a registered unote keeps the invariant. -/
theorem Tracked.Invariant.resume
    (muxnoteOf : before.state.muxnoteOf du = some dmn) :
    Tracked.Invariant ⟨muxnoteResume before.state dmn du,
      before.setAwaiting du true⟩ := by
  have watching := invariant.watching
  obtain ⟨armed, registered, found, member⟩ :=
    invariant.muxnoteOf_eq muxnoteOf
  have watched := watching.watched du.duIdent dmn found
  have lists := invariant.listed du.duIdent dmn found
  obtain ⟨dmn', assigns, watchedAfter, events, disarmed, sameLists, unotes⟩ :=
    @muxnoteResume_spec _ _ du _ _ found watched
  refine invariant.rearm (watching.assign assigns watchedAfter) lists
    (fun _ _ _ => invariant.member found) assigns.foundAfter
    assigns.otherMuxnotes ⟨?_, disarmed, ?_⟩ ⟨armed, unotes ▸ registered⟩
    (fun _ _ => unotes ▸ rfl) rfl
  · -- The events of a listed unote are wanted already.
    intro position
    rw [events]
    cases needed : bit32 (unoteRequiredEvents du) position with
    | false => simp
    | true =>
      simp only [bit32_unoteRequiredEvents, Bool.or_eq_true,
        decide_eq_true_eq] at needed
      rcases needed with (rfl | rfl) | rfl
      · simp [watched.always.1]
      · simp [(lists.wanted du.duFilter).mpr ⟨du, member⟩]
      · simp [watched.always.2]
  · intro filter other
    rw [sameLists]
    refine ⟨Or.inl, fun either => either.elim id ?_⟩
    rintro ⟨rfl, rfl⟩
    exact member

end LibDispatch.Epoll
