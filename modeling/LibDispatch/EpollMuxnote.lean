import LibDispatch.WordBits

namespace LibDispatch.Epoll

/-!
# The epoll backend: muxnotes and their kernel registration

`src/event/event_epoll.c` gives every watched descriptor one muxnote.  The
muxnote keeps the read and the write unotes of the descriptor on two lists, the
event mask they want in `dmnEvents`, and the part of that mask that already
fired in `dmnDisarmedEvents`.  The kernel holds one registration per muxnote.

The four entry points run on the manager queue, so each is one step.  A
registration may fail; an `epoll_ctl` whose result is ignored succeeds.  A
one-shot delivery disables the registration until the next `EPOLL_CTL_MOD`.
-/

/-! ## Event masks -/

def epollIn : UInt32 := 0x001
def epollOut : UInt32 := 0x004
def epollErr : UInt32 := 0x008
def epollHup : UInt32 := 0x010
def epollFree : UInt32 := 0x4000
def epollOneshot : UInt32 := 0x40000000

/-- Number of buckets of `_dispatch_sources`. -/
def dslHashSize : UInt32 := 256

/-- `DSL_HASH`: the bucket of an identifier. -/
def dslHash (ident : UInt32) : UInt32 :=
  ident &&& (dslHashSize - 1)

/-- The event filters that are multiplexed on epoll descriptors. -/
inductive EventFilter where
  | evfiltRead
  | evfiltWrite
  deriving Repr, DecidableEq

open EventFilter

/-- A read or write unote: its identity, descriptor and filter. -/
structure Unote where
  id : Nat
  duIdent : UInt32
  duFilter : EventFilter
  deriving Repr, DecidableEq

/-- `EV_DISPATCH` in `dst_flags` of the read and write source types. -/
def dstDispatch : EventFilter → Bool
  | evfiltRead => true
  | evfiltWrite => true

/-- `dispatch_muxnote_s`, with the two unote lists in list order. -/
structure Muxnote where
  dmnReadersHead : List Unote
  dmnWritersHead : List Unote
  dmnFd : UInt32
  dmnIdent : UInt32
  dmnEvents : UInt32
  dmnDisarmedEvents : UInt16
  dmnFilter : EventFilter
  dmnSkipOutqIoctl : Bool
  dmnSkipInqIoctl : Bool
  deriving Repr, DecidableEq

/-- The epoll event of a filter. -/
def EventFilter.direction : EventFilter → UInt32
  | evfiltRead => epollIn
  | evfiltWrite => epollOut

/-- The list of a muxnote that belongs to a filter. -/
def Muxnote.unotesOf (dmn : Muxnote) : EventFilter → List Unote
  | evfiltRead => dmn.dmnReadersHead
  | evfiltWrite => dmn.dmnWritersHead

/-- `_dispatch_muxnote_armed_events`. -/
def muxnoteArmedEvents (dmn : Muxnote) : UInt32 :=
  dmn.dmnEvents &&& ~~~dmn.dmnDisarmedEvents.toUInt32

/-- What the kernel knows about one descriptor of the epoll set. -/
structure KernelRegistration where
  events : UInt32
  enabled : Bool
  deriving Repr, DecidableEq

/-- `du_state` of a muxed unote together with its `du_muxnote` linkage. -/
inductive UnoteState where
  | unregistered
  | registered (muxnote : UInt32) (armed : Bool)
  deriving Repr, DecidableEq

/-- The tables of the backend. -/
structure State where
  sources : UInt32 → List Muxnote
  unotes : Unote → UnoteState
  kernel : UInt32 → Option KernelRegistration

/-- No descriptor is watched. -/
def State.empty : State where
  sources := fun _ => []
  unotes := fun _ => .unregistered
  kernel := fun _ => none

/-- `_dispatch_muxnote_find`: write unotes share the muxnote of the readers. -/
def muxnoteFind
    (bucket : List Muxnote)
    (ident : UInt32)
    (filter : EventFilter) :
    Option Muxnote :=
  let filter := if filter = evfiltWrite then evfiltRead else filter
  bucket.find? fun dmn =>
    dmn.dmnIdent = ident ∧ dmn.dmnFilter = filter

variable (state : State) (dmn : Muxnote)

/-- The muxnote a stored pointer denotes. -/
def State.muxnote (ident : UInt32) : Option Muxnote :=
  muxnoteFind (state.sources (dslHash ident)) ident evfiltRead

/-- Assignments through a muxnote pointer. -/
def State.setMuxnote : State :=
  { state with
    sources := fun bucket =>
      (state.sources bucket).map fun other =>
        if other.dmnIdent = dmn.dmnIdent then dmn else other }

/-- `LIST_INSERT_HEAD` of a new muxnote in its bucket. -/
def State.insertMuxnote : State :=
  { state with
    sources := fun bucket =>
      if bucket = dslHash dmn.dmnIdent then
        dmn :: state.sources bucket
      else
        state.sources bucket }

/-- `LIST_REMOVE` and disposal of a muxnote. -/
def State.removeMuxnote : State :=
  { state with
    sources := fun bucket =>
      (state.sources bucket).filter fun other =>
        other.dmnIdent ≠ dmn.dmnIdent }

variable (du : Unote)

/-- `_dispatch_unote_state_set` and the linkage assignment. -/
def State.setUnote (value : UnoteState) : State :=
  { state with
    unotes := fun other => if other = du then value else state.unotes other }

/-- A successful `EPOLL_CTL_ADD` or `EPOLL_CTL_MOD`: the mask is replaced and
the registration is enabled again. -/
def State.epollUpdate (events : UInt32) : State :=
  { state with
    kernel := fun fd =>
      if fd = dmn.dmnFd then some ⟨events, true⟩ else state.kernel fd }

/-- A successful `EPOLL_CTL_DEL`. -/
def State.epollDelete : State :=
  { state with
    kernel := fun fd => if fd = dmn.dmnFd then none else state.kernel fd }

/-! ## Registration -/

/-- What `fstat` and `getsockopt` report about a descriptor. -/
inductive FileKind where
  | regular (eventfd : UInt32)
  | socket (acceptConn : Bool)
  | other
  deriving Repr, DecidableEq

/-- `_dispatch_muxnote_create` for read and write unotes. -/
def muxnoteCreate
    (events : UInt32)
    (kind : FileKind) : Muxnote where
  dmnReadersHead := []
  dmnWritersHead := []
  dmnFd :=
    match kind with
    | .regular eventfd => eventfd
    | _ => du.duIdent
  dmnIdent := du.duIdent
  dmnEvents := events
  dmnDisarmedEvents := 0
  dmnFilter := evfiltRead
  dmnSkipOutqIoctl :=
    match kind with
    | .regular _ => true
    | _ => false
  dmnSkipInqIoctl :=
    match kind with
    | .socket acceptConn => acceptConn
    | _ => false

/-- `_dispatch_unote_required_events`. -/
def unoteRequiredEvents : UInt32 :=
  let events :=
    match du.duFilter with
    | evfiltWrite => epollFree ||| epollOut
    | evfiltRead => epollFree ||| epollIn
  if dstDispatch du.duFilter then events ||| epollOneshot else events

/-- The tail of `_dispatch_unote_register_muxed`: the list is chosen by the
local variable `events`. -/
def linkUnote (events : UInt32) : State :=
  let dmn :=
    if events &&& epollOut ≠ 0 then
      { dmn with dmnWritersHead := du :: dmn.dmnWritersHead }
    else
      { dmn with dmnReadersHead := du :: dmn.dmnReadersHead }
  (state.setMuxnote dmn).setUnote du (.registered dmn.dmnIdent true)

/-- `_dispatch_unote_register_muxed`; no kind is known if `fstat`, `eventfd` or
`epoll_ctl` fails.  With `none` false is returned, and nothing has changed. -/
def unoteRegisterMuxed (kind : Option FileKind) : Option State :=
  let events := unoteRequiredEvents du
  match muxnoteFind (state.sources (dslHash du.duIdent))
      du.duIdent du.duFilter with
  | some dmn =>
    if events &&& ~~~muxnoteArmedEvents dmn ≠ 0 then
      kind.map fun _ =>
        let events := events ||| muxnoteArmedEvents dmn
        let updated :=
          { dmn with
            dmnEvents := dmn.dmnEvents ||| events
            dmnDisarmedEvents :=
              (dmn.dmnDisarmedEvents.toUInt32 &&& ~~~events).toUInt16 }
        linkUnote ((state.epollUpdate dmn events).setMuxnote updated)
          updated du events
    else
      some (linkUnote state dmn du events)
  | none =>
    kind.map fun kind =>
      let dmn := muxnoteCreate du events kind
      linkUnote ((state.epollUpdate dmn events).insertMuxnote dmn)
        dmn du events

/-! ## Re-arming and unregistration -/

/-- `_dispatch_unote_resume_muxed` on the muxnote of the unote. -/
def muxnoteResume : State :=
  let events := unoteRequiredEvents du
  if events &&& dmn.dmnDisarmedEvents.toUInt32 ≠ 0 then
    let dmn :=
      { dmn with
        dmnDisarmedEvents :=
          (dmn.dmnDisarmedEvents.toUInt32 &&& ~~~events).toUInt16 }
    (state.setMuxnote dmn).epollUpdate dmn (muxnoteArmedEvents dmn)
  else
    state

/-- A `LIST_EMPTY` block of `_dispatch_unote_unregister_muxed`: drop one
direction from the local mask, and from the muxnote if it was disarmed. -/
def dropDirection
    (events direction : UInt32)
    (isEmpty : Bool) :
    Muxnote × UInt32 :=
  if isEmpty then
    let events := events &&& ~~~direction
    if dmn.dmnDisarmedEvents.toUInt32 &&& direction ≠ 0 then
      ({ dmn with
          dmnDisarmedEvents :=
            (dmn.dmnDisarmedEvents.toUInt32 &&& ~~~direction).toUInt16
          dmnEvents := dmn.dmnEvents &&& ~~~direction }, events)
    else
      (dmn, events)
  else
    (dmn, events)

/-- Both `LIST_EMPTY` blocks, for the readers and for the writers. -/
def dropEmpty (events : UInt32) : Muxnote × UInt32 :=
  let (dmn, events) :=
    dropDirection dmn events epollIn dmn.dmnReadersHead.isEmpty
  dropDirection dmn events epollOut dmn.dmnWritersHead.isEmpty

/-- `LIST_REMOVE(dul, du_link)`: the unote leaves whichever list it is on. -/
def unlinkUnote : Muxnote :=
  { dmn with
    dmnReadersHead := dmn.dmnReadersHead.filter (· ≠ du)
    dmnWritersHead := dmn.dmnWritersHead.filter (· ≠ du) }

/-- `_dispatch_unote_unregister_muxed` on the muxnote of the unote. -/
def muxnoteUnregister : State :=
  let events := dmn.dmnEvents
  let dmn := unlinkUnote dmn du
  let (dmn, events) := dropEmpty dmn events
  let state :=
    if events &&& (epollIn ||| epollOut) ≠ 0 then
      if events ≠ muxnoteArmedEvents dmn then
        let dmn := { dmn with dmnEvents := events }
        (state.setMuxnote dmn).epollUpdate dmn (muxnoteArmedEvents dmn)
      else
        state.setMuxnote dmn
    else
      (state.epollDelete dmn).removeMuxnote dmn
  state.setUnote du .unregistered

/-! ## Delivery -/

/-- `_dispatch_get_buffer_size`; `ioctl` is the outcome of the query. -/
def getBufferSize
    (filter : EventFilter)
    (ioctl : Option Nat) :
    Muxnote × Nat :=
  let skip :=
    match filter with
    | evfiltWrite => dmn.dmnSkipOutqIoctl
    | evfiltRead => dmn.dmnSkipInqIoctl
  if skip then
    (dmn, 1)
  else
    match ioctl with
    | some size => (dmn, size)
    | none =>
      match filter with
      | evfiltWrite => ({ dmn with dmnSkipOutqIoctl := true }, 1)
      | evfiltRead => ({ dmn with dmnSkipInqIoctl := true }, 1)

/-- One `dux_merge_evt` call. -/
structure Delivery where
  unote : Unote
  data : Nat
  deriving Repr, DecidableEq

/-- One direction of `_dispatch_event_merge_fd`. -/
def mergeDirection
    (events : UInt32)
    (filter : EventFilter)
    (ioctl : Option Nat) :
    Muxnote × List Delivery :=
  if events &&& filter.direction ≠ 0 then
    let (dmn, data) := getBufferSize dmn filter ioctl
    (dmn, (dmn.unotesOf filter).map fun du => Delivery.mk du data)
  else
    (dmn, [])

/-- Walk one list, clearing `DU_STATE_ARMED` of each of its unotes. -/
def clearArmed (receivers : List Unote) : State :=
  { state with
    unotes := fun du =>
      if du ∈ receivers then
        match state.unotes du with
        | .registered muxnote _ => .registered muxnote false
        | .unregistered => .unregistered
      else
        state.unotes du }

/-- `_dispatch_event_merge_fd`, with the deliveries it makes in order. -/
def eventMergeFd
    (events : UInt32)
    (inq outq : Option Nat) :
    State × List Delivery :=
  let events :=
    if events &&& epollHup ≠ 0 then
      events ||| (muxnoteArmedEvents dmn &&& (epollIn ||| epollOut))
    else
      events
  let dmn :=
    { dmn with
      dmnDisarmedEvents :=
        (dmn.dmnDisarmedEvents.toUInt32 |||
          (events &&& (epollIn ||| epollOut))).toUInt16 }
  let (dmn, readers) := mergeDirection dmn events evfiltRead inq
  let (dmn, writers) := mergeDirection dmn events evfiltWrite outq
  let deliveries := readers ++ writers
  let state :=
    clearArmed (state.setMuxnote dmn) (deliveries.map Delivery.unote)
  let armed := muxnoteArmedEvents dmn
  if armed &&& (epollIn ||| epollOut) ≠ 0 then
    (state.epollUpdate dmn armed, deliveries)
  else
    (state, deliveries)

/-- The kernel side of a delivery: a one-shot registration is disabled. -/
def State.kernelFire (fd : UInt32) : State :=
  { state with
    kernel := fun other =>
      if other = fd then
        (state.kernel fd).map fun registration =>
          { registration with
            enabled := registration.enabled &&
              (registration.events &&& epollOneshot == 0) }
      else
        state.kernel other }

end LibDispatch.Epoll
