import LibDispatch.GroupNotify

namespace LibDispatch.Group

/-!
# Early notifications

Between the leave that brings the count to zero and its capture of the notify
list the group can be entered again, and a continuation pushed then is captured
with the others although its own enters are outstanding.  Where no notify starts
on a group that is not idle while another thread is about to capture the list,
every continuation waits for the count to be zero.
-/

/-- No continuation is passed to notify while the count is not zero and another
thread is about to capture the notify list. -/
def NotifiesApart (state after : State) : Prop :=
  after.notified ≠ state.notified →
    state.count = 0 ∨
      ∀ activity ∈ state.activities, activity.call.isClosing = false

instance (state after : State) :
    Decidable (NotifiesApart state after) :=
  inferInstanceAs (Decidable (_ → _))

/-- A step of a run in which notifies keep apart from captures. -/
def ApartStep (state after : State) : Prop :=
  Step state after ∧ NotifiesApart state after

/-- What holds of the continuations passed to notify as long as notifies keep
apart from captures. -/
structure Punctual (state : State) : Prop where
  began :
    ∀ continuation ∈ state.notified,
      continuation.began.zeros ≤ state.zeros
  since :
    ∀ continuation ∈ state.notified,
      continuation.began.ZeroSince state.zeros ∨ 0 < state.count
  closing :
    ∀ activity ∈ state.activities, activity.call.isClosing = true →
      ∀ continuation ∈ state.notified,
        continuation.began.ZeroSince state.zeros
  held :
    ∀ activity ∈ state.activities,
      ∀ continuation ∈ activity.call.snapshot,
        continuation.began.ZeroSince state.zeros
  submitted :
    ∀ submission ∈ state.submitted,
      submission.continuation.began.ZeroSince submission.zeros

theorem Moment.ZeroSince.mono
    {began : Moment}
    {zeros later : Nat}
    (zeroSince : began.ZeroSince zeros)
    (grown : zeros ≤ later) :
    began.ZeroSince later :=
  zeroSince.imp_right fun below => Nat.lt_of_lt_of_le below grown

/-- The calls after a step are those before it, but for the one that took it. -/
theorem mem_advanced
    {earlier later : List Activity}
    {activity other : Activity}
    {continued : Option Call}
    (member : other ∈ earlier ++
      ((continued.map (Activity.mk activity.tid)).toList ++ later)) :
    other ∈ earlier ++ activity :: later ∨
      ∃ next, continued = some next ∧ other = ⟨activity.tid, next⟩ := by
  rw [List.mem_append, List.mem_append, Option.mem_toList,
    Option.map_eq_some_iff] at member
  rcases member with early | ⟨next, isNext, same⟩ | late
  · exact .inl (by simp [early])
  · exact .inr ⟨next, isNext, same.symm⟩
  · exact .inl (by simp [late])

namespace Punctual

variable {state after : State}

/-- A step of a call keeps the continuations waiting. -/
theorem advance
    {earlier later : List Activity}
    {activity : Activity}
    {continued : Option Call}
    (punctual : Punctual state)
    (scheduled : state.activities = earlier ++ activity :: later)
    (effect : Effect state activity.call after continued)
    (known : ∀ continuation ∈ state.notifyList,
      continuation ∈ state.notified) :
    Punctual
      { after with
        activities := earlier ++
          ((continued.map (Activity.mk activity.tid)).toList ++ later) } := by
  obtain ⟨began, since, closing, held, submitted⟩ := punctual
  have own : activity ∈ state.activities := by simp [scheduled]
  have grown := effect.zeros
  refine
    { began := ?began
      since := ?since
      closing := ?closing
      held := ?held
      submitted := ?submitted }
  case began =>
    intro continuation member
    rw [effect.notified] at member
    exact Nat.le_trans (began continuation member) grown
  case since =>
    intro continuation member
    rw [effect.notified] at member
    rcases since continuation member with zeroSince | positive
    · exact .inl (zeroSince.mono grown)
    · by_cases same : after.zeros = state.zeros
      · exact .inr (effect.count same positive)
      · refine .inl (.inr ?_)
        have before := began continuation member
        show continuation.began.zeros < after.zeros
        omega
  case closing =>
    intro other member isClosing continuation passed
    rw [effect.notified] at passed
    show continuation.began.ZeroSince after.zeros
    rcases mem_advanced member with old | ⟨next, isNext, rfl⟩
    · exact (closing other (scheduled ▸ old) isClosing continuation
        passed).mono grown
    · rcases effect.closing next isNext isClosing with
        already | more | idle
      · exact (closing activity own already continuation passed).mono grown
      · have before := began continuation passed
        exact .inr (by omega)
      · refine ((since continuation passed).resolve_right ?_).mono grown
        omega
  case held =>
    intro other member continuation carried
    show continuation.began.ZeroSince after.zeros
    rcases mem_advanced member with old | ⟨next, isNext, rfl⟩
    · exact (held other (scheduled ▸ old) continuation carried).mono grown
    · rcases effect.held next isNext continuation carried with
        before | ⟨isClosing, listed⟩
      · exact (held activity own continuation before).mono grown
      · exact (closing activity own isClosing continuation
          (known continuation listed)).mono grown
  case submitted =>
    intro submission member
    rcases effect.submitted submission member with old | ⟨carried, now⟩
    · exact submitted submission old
    · rw [now]
      exact (held activity own _ carried).mono grown

/-- A notify starts on an idle group or while nobody is about to capture. -/
theorem request
    {tid : UInt32}
    {request : Request}
    {call : Call}
    (punctual : Punctual state)
    (accepted : state.request request = some (after, call))
    (apart : NotifiesApart state after) :
    Punctual
      { after with activities := ⟨tid, call⟩ :: state.activities } := by
  obtain ⟨began, since, closing, held, submitted⟩ := punctual
  obtain ⟨leaveCalls, notified, rfl, isCall, history⟩ :=
    State.request_cases accepted
  have nothingYet : call.isClosing = false ∧ call.snapshot = [] := by
    rcases isCall with rfl | rfl | ⟨_, rfl⟩ | ⟨_, rfl⟩ <;> exact ⟨rfl, rfl⟩
  -- a continuation was passed before or is passed now
  have passed :
      ∀ continuation ∈ notified,
        continuation ∈ state.notified ∨
          continuation.began = state.moment ∧
            notified ≠ state.notified := by
    intro continuation member
    rcases history with rfl | ⟨id, -, rfl⟩
    · exact .inl member
    · rw [List.mem_append, List.mem_singleton] at member
      refine member.imp_right ?_
      rintro rfl
      exact ⟨rfl, by simp⟩
  refine
    { began := ?began
      since := ?since
      closing := ?closing
      held := ?held
      submitted := ?submitted }
  case began =>
    intro continuation member
    rcases passed continuation member with old | ⟨new, -⟩
    · exact began continuation old
    · rw [new]
      exact Nat.le_refl _
  case since =>
    intro continuation member
    rcases passed continuation member with old | ⟨new, -⟩
    · exact since continuation old
    · by_cases idle : state.count = 0
      · refine .inl (.inl ?_)
        simp [new, State.moment, idle]
      · exact .inr (Nat.pos_of_ne_zero idle)
  case closing =>
    intro other member isClosing continuation listed
    rcases List.mem_cons.mp member with rfl | old
    · rw [nothingYet.1] at isClosing
      cases isClosing
    · rcases passed continuation listed with before | ⟨new, changed⟩
      · exact closing other old isClosing continuation before
      · rcases apart changed with idle | nobody
        · refine .inl ?_
          simp [new, State.moment, idle]
        · rw [nobody other old] at isClosing
          cases isClosing
  case held =>
    intro other member continuation carried
    rcases List.mem_cons.mp member with rfl | old
    · rw [nothingYet.2] at carried
      cases carried
    · exact held other old continuation carried
  case submitted =>
    exact submitted

theorem ofCreated
    {base : Int}
    (created : Created base state) :
    Punctual state := by
  obtain ⟨count, rfl, -, -⟩ := created.word
  exact
    { began := by simp [create]
      since := by simp [create]
      closing := by simp [create]
      held := by simp [create]
      submitted := by simp [create] }

/-- Every step keeps the continuations waiting. -/
theorem step
    {base : Int}
    (punctual : Punctual state)
    (invariant : state.Invariant base)
    (stepped : Step state after)
    (apart : NotifiesApart state after) :
    Punctual after := by
  cases stepped with
  | «begin» tid request call running outside accepted =>
    exact punctual.request accepted apart
  | advance earlier later activity choice continued running scheduled
      accepted =>
      have balanced := invariant.ofCall running scheduled
      have effect := Effect.advance balanced (ledger_weight_nonneg _) accepted
      exact punctual.advance scheduled effect fun continuation member =>
        (invariant.balanced running).notified_of_mem
          (ledger_weight_nonneg _) member

end Punctual

/-- In every run whose notifies keep apart from captures, a continuation is
submitted only after the count has been zero at or after the start of its
notify. -/
theorem reachable_notifiesInTime
    {base : Int}
    {state : State}
    (reached : Reachable (Created base) ApartStep state) :
    ∀ submission ∈ state.submitted,
      submission.continuation.began.ZeroSince submission.zeros := by
  have both : state.Invariant base ∧ Punctual state := by
    induction reached with
    | start created =>
      exact ⟨create_invariant created, .ofCreated created⟩
    | next earlier last inductionHypothesis =>
      obtain ⟨invariant, punctual⟩ := inductionHypothesis
      obtain ⟨stepped, apart⟩ := last
      exact ⟨invariant.step stepped, punctual.step invariant stepped apart⟩
  exact both.2.submitted

/-- A run in which the continuation waits for the count to reach zero. -/
theorem patientNotify_inTime :
    ∃ state : State,
      Reachable (Created 1) ApartStep state ∧
        state.submitted = [⟨⟨7, ⟨0, false⟩⟩, 1⟩] ∧
        ∀ submission ∈ state.submitted,
          submission.continuation.began.ZeroSince submission.zeros := by
  obtain ⟨state, runs, submitted⟩ : ∃ state,
      afterEvents
        (fun state event =>
          (state.next event).filter fun after =>
            NotifiesApart state after)
        (create 1 1)
        (makes 2 (.notify 7) 4 ++ makes 1 .leave 6) = some state ∧
      state.submitted = [⟨⟨7, ⟨0, false⟩⟩, 1⟩] :=
    ⟨_, rfl, rfl⟩
  have reached : Reachable (Created 1) ApartStep state := by
    refine State.reachable_of_schedule runs ?_
    intro before event after happens
    rw [Option.filter_eq_some_iff, decide_eq_true_eq] at happens
    exact ⟨State.next_steps happens.1, happens.2⟩
  exact ⟨state, reached, submitted, reachable_notifiesInTime reached⟩

/-- The leave of thread 1 brings the count to zero while continuation 7 waits.
Before it captures the list, thread 3 enters the group and thread 4 passes
continuation 8 to notify.  Both are captured, and 8 is submitted although thread
3 has not left. -/
theorem reentered_notifiesEarly :
    ∃ state : State,
      Reachable (Created 1) Step state ∧ 0 < state.count ∧
        ∃ submission ∈ state.submitted,
          submission.continuation = ⟨8, ⟨1, false⟩⟩ ∧
            ¬ submission.continuation.began.ZeroSince submission.zeros := by
  obtain ⟨state, runs, facts⟩ : ∃ state,
      afterEvents State.next (create 1 1)
        (makes 2 (.notify 7) 4 ++ makes 1 .leave 1 ++ makes 3 .enter 2 ++
          makes 4 (.notify 8) 2 ++ List.replicate 7 (.runs 1 .proceed)) =
          some state ∧
      0 < state.count ∧
      state.submitted = [⟨⟨7, ⟨0, false⟩⟩, 1⟩, ⟨⟨8, ⟨1, false⟩⟩, 1⟩] :=
    ⟨_, rfl, by decide, rfl⟩
  refine ⟨state, State.reachable_of_schedule runs
    (fun _ _ _ => State.next_steps), facts.1,
    ⟨⟨8, ⟨1, false⟩⟩, 1⟩, ?_, rfl, by decide⟩
  rw [facts.2]
  exact .tail _ (.head _)

end LibDispatch.Group
