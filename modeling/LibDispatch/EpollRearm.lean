import LibDispatch.EpollDelivery

namespace LibDispatch.Epoll

open EventFilter

/-!
# Which unotes need to be re-armed

A source asks its unote whether it has to be re-armed before the next event.
The answer is read off `DU_STATE_ARMED`, which registration sets and a delivery
clears, but which no resume sets again.
-/

/-- `_dispatch_unote_needs_rearm`; no unote of this backend is marked for
deletion. -/
def unoteNeedsRearm : UnoteState → Bool
  | .registered _ armed => !armed
  | .unregistered => false

/-- A unote needs to be re-armed exactly when it is registered and an event was
delivered to it since its last registration or resume. -/
def Tracked.RearmTracked (tracked : Tracked) : Prop :=
  ∀ du, unoteNeedsRearm (tracked.state.unotes du) = true ↔
    tracked.state.unotes du ≠ .unregistered ∧ tracked.awaiting du = false

/-- A resume of a unote that needs it, which is what `_dispatch_unote_resume`
asserts of every unote it is called for. -/
def ResumesUnarmed (state : State) : Operation → Prop
  | .resume du => unoteNeedsRearm (state.unotes du) = true
  | _ => False

/-- One step that is not such a resume. -/
def ArmedStep (before after : Tracked) : Prop :=
  ∃ operation,
    ¬ResumesUnarmed before.state operation ∧
      step? before operation = some after

/-- A registration leaves its own unote armed. -/
theorem unoteRegisterMuxed_unotes
    {state following : State}
    {du : Unote}
    {kind : Option FileKind}
    (registers : unoteRegisterMuxed state du kind = some following) :
    ∃ muxnote, following.unotes =
      (state.setUnote du (.registered muxnote true)).unotes := by
  simp only [unoteRegisterMuxed] at registers
  split at registers
  · split_ifs at registers
    · obtain ⟨-, -, rfl⟩ := Option.map_eq_some_iff.mp registers
      exact ⟨_, rfl⟩
    · cases registers
      exact ⟨_, rfl⟩
  · obtain ⟨-, -, rfl⟩ := Option.map_eq_some_iff.mp registers
    exact ⟨_, rfl⟩

/-- A resume does not touch the state of any unote. -/
theorem muxnoteResume_unotes
    (state : State)
    (dmn : Muxnote)
    (du : Unote) :
    (muxnoteResume state dmn du).unotes = state.unotes := by
  rw [muxnoteResume]
  split_ifs <;> rfl

theorem muxnoteUnregister_unotes
    (state : State)
    (dmn : Muxnote)
    (du : Unote) :
    (muxnoteUnregister state dmn du).unotes =
      (state.setUnote du .unregistered).unotes := by
  simp only [muxnoteUnregister]
  split_ifs <;> rfl

/-- A delivery clears the armed bit of the unotes that it calls back. -/
theorem eventMergeFd_unotes
    (state : State)
    (dmn : Muxnote)
    (events : UInt32)
    (inq outq : Option Nat) :
    (eventMergeFd state dmn events inq outq).1.unotes =
      (clearArmed state ((eventMergeFd state dmn events inq outq).2.map
        Delivery.unote)).unotes := by
  simp only [eventMergeFd]
  split_ifs <;> rfl

variable {before after : Tracked} {operation : Operation}

/-- A step that changes one unote keeps track of the others. -/
theorem Tracked.RearmTracked.assign
    (tracks : before.RearmTracked)
    {du : Unote}
    {value : UnoteState}
    {awaits : Bool}
    (unotes : after.state.unotes = (before.state.setUnote du value).unotes)
    (awaiting : after.awaiting = before.setAwaiting du awaits)
    (own : unoteNeedsRearm value = true ↔
      value ≠ .unregistered ∧ awaits = false) :
    after.RearmTracked := by
  intro other
  rw [unotes, awaiting]
  by_cases isOwn : other = du
  · simpa [State.setUnote, Tracked.setAwaiting, isOwn] using own
  · simpa [State.setUnote, Tracked.setAwaiting, isOwn] using tracks other

/-- A step keeps track of what has to be re-armed exactly when it is not the
resume of a unote that needs it. -/
theorem Tracked.RearmTracked.step_iff
    (tracks : before.RearmTracked)
    (accepted : step? before operation = some after) :
    after.RearmTracked ↔ ¬ResumesUnarmed before.state operation := by
  cases operation with
  | register du kind =>
    simp only [step?] at accepted
    split_ifs at accepted
    cases accepted
    simp only [ResumesUnarmed, not_false_eq_true, iff_true]
    cases registers : unoteRegisterMuxed before.state du kind with
    | none => exact tracks
    | some following =>
      obtain ⟨muxnote, unotes⟩ := unoteRegisterMuxed_unotes registers
      exact tracks.assign unotes rfl (by simp [unoteNeedsRearm])
  | resume du =>
    obtain ⟨dmn, muxnoteOf, rfl⟩ := Option.map_eq_some_iff.mp accepted
    have unotes := muxnoteResume_unotes before.state dmn du
    constructor
    · intro tracksAfter needsRearm
      have awaits := (tracksAfter du).mp (by rw [unotes]; exact needsRearm)
      simp [Tracked.setAwaiting] at awaits
    · intro armed
      refine @Tracked.RearmTracked.assign before _ tracks du
        (before.state.unotes du) true ?_ rfl ?_
      · funext other
        simp only [unotes, State.setUnote]
        split_ifs with isOwn
        · rw [isOwn]
        · rfl
      · simpa [ResumesUnarmed] using armed
  | unregister du =>
    obtain ⟨dmn, muxnoteOf, rfl⟩ := Option.map_eq_some_iff.mp accepted
    simp only [ResumesUnarmed, not_false_eq_true, iff_true]
    exact tracks.assign (muxnoteUnregister_unotes before.state dmn du) rfl
      (by simp [unoteNeedsRearm])
  | mergeFd ident events inq outq =>
    simp only [step?, Option.bind_eq_bind, Option.bind_eq_some_iff] at accepted
    obtain ⟨dmn, found, value, stored, accepted⟩ := accepted
    split_ifs at accepted
    cases accepted
    simp only [ResumesUnarmed, not_false_eq_true, iff_true]
    intro du
    rw [eventMergeFd_unotes]
    have own := tracks du
    generalize (eventMergeFd _ dmn events inq outq).2.map _ = receivers
    by_cases received : du ∈ receivers
    · cases registered : before.state.unotes du <;>
        simp [clearArmed, State.kernelFire, received, registered,
          unoteNeedsRearm]
    · simpa [clearArmed, State.kernelFire, received] using own

/-- In a run without a resume of a unote that needs it, the unotes to be
re-armed are those with an event since their registration, and a further call
keeps this exactly when it is not such a resume. -/
theorem rearmTracked_step_iff
    (reached : Reachable (· = Tracked.empty) ArmedStep before)
    (accepted : step? before operation = some after) :
    before.RearmTracked ∧
      (after.RearmTracked ↔ ¬ResumesUnarmed before.state operation) := by
  have tracks : before.RearmTracked := by
    refine reached.invariant ?_ ?_
    · rintro _ rfl du
      simp [Tracked.empty, State.empty, unoteNeedsRearm]
    · rintro _ _ tracks ⟨operation, armed, accepted⟩
      exact (tracks.step_iff accepted).mpr armed
  exact ⟨tracks, tracks.step_iff accepted⟩

/-- An event of the writer makes it, and not the reader, need re-arming. -/
theorem writerEvent_rearmTracked :
    Reachable (· = Tracked.empty) ArmedStep
        (registerBoth readerOfFive writerOfFive) ∧
      ∃ after,
        step? (registerBoth readerOfFive writerOfFive)
          (.mergeFd 5 epollOut none none) = some after ∧
        unoteNeedsRearm (after.state.unotes writerOfFive) = true ∧
        unoteNeedsRearm (after.state.unotes readerOfFive) = false ∧
        after.RearmTracked := by
  have reached : Reachable (· = Tracked.empty) ArmedStep
      (registerBoth readerOfFive writerOfFive) :=
    .next (.next (.start rfl) ⟨.register readerOfFive (some .other), id, rfl⟩)
      ⟨.register writerOfFive (some .other), id, rfl⟩
  refine ⟨reached, _, rfl, by decide, by decide, ?_⟩
  exact (@rearmTracked_step_iff _ _ (.mergeFd 5 epollOut none none) reached
    rfl).2.mpr id

/-- The writer is resumed after its event: it awaits the next event and still
counts as to be re-armed. -/
theorem writerResumed_unarmed :
    ∃ tracked,
      Reachable (· = Tracked.empty) Step tracked ∧
      tracked.awaiting writerOfFive = true ∧
      unoteNeedsRearm (tracked.state.unotes writerOfFive) = true ∧
      ¬tracked.RearmTracked := by
  obtain ⟨tracked, runs, awaits, needsRearm⟩ : ∃ tracked,
      afterEvents step? (registerBoth readerOfFive writerOfFive)
        [.mergeFd 5 epollOut none none, .resume writerOfFive] =
          some tracked ∧
      tracked.awaiting writerOfFive = true ∧
      unoteNeedsRearm (tracked.state.unotes writerOfFive) = true :=
    ⟨_, rfl, by decide, by decide⟩
  refine ⟨tracked, ?_, awaits, needsRearm, ?_⟩
  · refine .afterEvents (fun happens => ⟨_, happens⟩) ?_ runs
    exact .next (.next (.start rfl) ⟨.register readerOfFive (some .other), rfl⟩)
      ⟨.register writerOfFive (some .other), rfl⟩
  · intro tracks
    have delivered := ((tracks writerOfFive).mp needsRearm).2
    rw [awaits] at delivered
    cases delivered

end LibDispatch.Epoll
