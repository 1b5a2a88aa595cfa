import LibDispatch.EpollDelivery

namespace LibDispatch.Epoll

open EventFilter

/-!
# Interest of the enabled registrations

A registration that is enabled for neither direction still reports a hang-up
at once.  Every mask that `EPOLL_CTL_ADD` or `EPOLL_CTL_MOD` enables should
therefore hold `EPOLLIN` or `EPOLLOUT`.  Only unregistration computes its mask
without such a guarantee, and one condition on the muxnote it starts from
says when the mask comes out empty.
-/

/-- The unote being unregistered leaves wanted directions behind, and all of
them are disarmed. -/
def LosesInterest (state : State) : Operation → Prop
  | .unregister du =>
    ∃ dmn, state.muxnoteOf du = some dmn ∧
      (∃ filter, dmn.Remains du filter) ∧
      ∀ filter, dmn.Remains du filter →
        dmn.dmnDisarmedEvents.toUInt32 &&& filter.direction ≠ 0
  | _ => False

/-- One step that is not such an unregistration. -/
def InterestedStep (before after : Tracked) : Prop :=
  ∃ operation,
    ¬LosesInterest before.state operation ∧
      step? before operation = some after

/-- Any other step keeps the interest. -/
theorem State.Watching.step
    {before after : Tracked}
    {operation : Operation}
    (watching : before.state.Watching True)
    (keeps : ¬LosesInterest before.state operation)
    (accepted : step? before operation = some after) :
    after.state.Watching True := by
  cases operation with
  | register du kind =>
    simp only [step?] at accepted
    split_ifs at accepted with legal
    cases accepted
    cases registers : unoteRegisterMuxed before.state du kind with
    | none => exact watching
    | some following => exact watching.register registers legal.2
  | resume du =>
    obtain ⟨dmn, muxnoteOf, rfl⟩ := Option.map_eq_some_iff.mp accepted
    obtain ⟨ident, found⟩ := State.muxnote_of_muxnoteOf muxnoteOf
    obtain ⟨dmn', assigns, watched, -⟩ :=
      muxnoteResume_spec found (watching.watched ident dmn found)
    exact watching.assign assigns watched
  | unregister du =>
    obtain ⟨dmn, muxnoteOf, rfl⟩ := Option.map_eq_some_iff.mp accepted
    obtain ⟨ident, found⟩ := State.muxnote_of_muxnoteOf muxnoteOf
    refine watching.unregister found fun _ remains => ?_
    by_contra allDisarmed
    refine keeps ⟨dmn, muxnoteOf, remains, fun filter stays armed => ?_⟩
    exact allDisarmed ⟨filter, stays, not_ne_iff.mpr armed⟩
  | mergeFd ident events inq outq =>
    simp only [step?, Option.bind_eq_bind, Option.bind_eq_some_iff] at accepted
    obtain ⟨dmn, found, value, stored, accepted⟩ := accepted
    split_ifs at accepted with reported
    cases accepted
    obtain ⟨dmn', assigns, watched, -⟩ := eventMergeFd_assigns found
      (watching.watched ident dmn found) stored reported inq outq
    exact watching.assign assigns watched

/-- When all the directions that remain are disarmed, the update enables the
registration with none of them. -/
theorem losesInterest_step
    {before after : Tracked}
    {operation : Operation}
    (watching : before.state.Watching True)
    (loses : LosesInterest before.state operation)
    (accepted : step? before operation = some after) :
    ¬after.state.EnabledWithInterest := by
  cases operation with
  | register du kind => exact loses.elim
  | resume du => exact loses.elim
  | mergeFd ident events inq outq => exact loses.elim
  | unregister du =>
    obtain ⟨dmn, muxnoteOf, ⟨filter, remains⟩, disarmed⟩ := loses
    obtain ⟨other, otherOf, rfl⟩ := Option.map_eq_some_iff.mp accepted
    obtain rfl := Option.some.inj (muxnoteOf.symm.trans otherOf)
    obtain ⟨ident, found⟩ := State.muxnote_of_muxnoteOf muxnoteOf
    have unarmed : ¬∃ filter : EventFilter,
        bit32 (muxnoteArmedEvents (dmn.leave du)) filter.position = true := by
      rintro ⟨filter, set⟩
      obtain ⟨stays, armed⟩ := (dmn.armed_leave_iff du filter).mp set
      exact armed (disarmed filter stays)
    intro enabled
    obtain ⟨-, ⟨-, -, updated | ⟨-, armed, -⟩⟩ | ⟨noneRemains, -⟩⟩ :=
      muxnoteUnregister_spec found (watching.watched ident dmn found) du
    · have interest := enabled dmn.dmnFd _ updated rfl
      exact unarmed ((and_inOut_iff_filter _).mp interest)
    · rw [Muxnote.remains_iff, armed] at remains
      exact unarmed ⟨filter, remains⟩
    · exact noneRemains filter remains

/-- In a run without an unregistration that leaves only disarmed directions
behind, every enabled registration asks for a direction, and a further call
keeps this exactly when it is not such an unregistration. -/
theorem enabledWithInterest_step_iff
    {before after : Tracked}
    {operation : Operation}
    (reached : Reachable (· = Tracked.empty) InterestedStep before)
    (accepted : step? before operation = some after) :
    before.state.EnabledWithInterest ∧
      (after.state.EnabledWithInterest ↔
        ¬LosesInterest before.state operation) := by
  have watching : before.state.Watching True := by
    refine @Reachable.invariant _ _ _ _ (·.state.Watching True) ?_ ?_ reached
    · rintro _ rfl
      exact State.empty_watching
    · rintro _ _ watching ⟨operation, keeps, accepted⟩
      exact watching.step keeps accepted
  refine ⟨watching.enabled trivial, ?_, ?_⟩
  · intro enabled loses
    exact losesInterest_step watching loses accepted enabled
  · intro keeps
    exact (watching.step keeps accepted).enabled trivial

/-- Unregistering the reader while the writer is armed keeps the interest. -/
theorem unregisterReader_writerArmed :
    Reachable (· = Tracked.empty) InterestedStep
        (registerBoth readerOfFive writerOfFive) ∧
      ∃ after,
        step? (registerBoth readerOfFive writerOfFive)
          (.unregister readerOfFive) = some after ∧
        after.state.EnabledWithInterest := by
  have reached : Reachable (· = Tracked.empty) InterestedStep
      (registerBoth readerOfFive writerOfFive) :=
    .next (.next (.start rfl) ⟨.register readerOfFive (some .other), id, rfl⟩)
      ⟨.register writerOfFive (some .other), id, rfl⟩
  refine ⟨reached, _, rfl, ?_⟩
  refine (@enabledWithInterest_step_iff _ _ (.unregister readerOfFive) reached
    rfl).2.mpr ?_
  rintro ⟨dmn, muxnoteOf, -, disarmed⟩
  cases muxnoteOf
  exact disarmed evfiltWrite (by unfold Muxnote.Remains; decide) (by decide)

/-- The writer's event is delivered, then the reader is unregistered: the
registration is enabled again for neither direction. -/
theorem unregisterReader_writerDisarmed :
    ∃ tracked,
      Reachable (· = Tracked.empty) Step tracked ∧
      tracked.state.kernel 5 = some ⟨epollFree ||| epollOneshot, true⟩ ∧
      ¬tracked.state.EnabledWithInterest := by
  obtain ⟨tracked, runs, kernel⟩ : ∃ tracked,
      afterEvents step? (registerBoth readerOfFive writerOfFive)
        [.mergeFd 5 epollOut none none, .unregister readerOfFive] =
          some tracked ∧
      tracked.state.kernel 5 = some ⟨epollFree ||| epollOneshot, true⟩ :=
    ⟨_, rfl, by decide⟩
  refine ⟨tracked, ?_, kernel, ?_⟩
  · refine .afterEvents (fun happens => ⟨_, happens⟩) ?_ runs
    exact .next (.next (.start rfl) ⟨.register readerOfFive (some .other), rfl⟩)
      ⟨.register writerOfFive (some .other), rfl⟩
  · intro enabled
    exact enabled 5 _ kernel rfl (by decide)

end LibDispatch.Epoll
