import LibDispatch.DataGuarantees
import Mathlib.Algebra.Order.BigOperators.Group.Finset

namespace LibDispatch.Data

/-!
# References to data objects

A client owns the references that it is given by the calls and by retaining, and
gives them back by releasing.  The last release of an object disposes of it: the
destructor of the buffer of a leaf is scheduled, and the references that the
records of a composite hold are released.
-/

/-! ## Release -/

/-- Why a release does not return. -/
inductive ReleaseFailure where
  | overRelease
  /-- The recursion has not ended after as many calls as there are objects. -/
  | tooDeep
  deriving Repr, DecidableEq

variable (heap : Heap)

/-- The number of references to an object is set. -/
def Heap.setReferences (data references : Nat) : Heap :=
  { heap with
    references := fun other =>
      if other = data then references else heap.references other }

/-- The loop of `_dispatch_data_dispose` over the records: the leaves disposed
of, in the order of their disposal. -/
def releaseRecords
    (release : Heap → Nat → Except ReleaseFailure (Heap × List Nat)) :
    List Record → Heap → Except ReleaseFailure (Heap × List Nat)
  | [], heap => .ok (heap, [])
  | record :: records, heap => do
      let (heap, first) ← release heap record.dataObject
      let (heap, others) ← releaseRecords release records heap
      return (heap, first ++ others)

/-- `_dispatch_data_release`, and `_dispatch_data_dispose` after the last
reference. -/
def Heap.releaseFrom :
    Nat → Heap → Nat → Except ReleaseFailure (Heap × List Nat)
  | 0, _, _ => .error .tooDeep
  | depth + 1, heap, data =>
    if data = emptyData ∨ heap.references data = globalReferences then
      .ok (heap, [])
    else
      match heap.references data with
      | 0 => .error .overRelease
      | references + 1 =>
        let released := heap.setReferences data references
        if references ≠ 0 then
          .ok (released, [])
        else if (heap.object data).leaf then
          .ok (released, [data])
        else
          releaseRecords (Heap.releaseFrom depth)
            (heap.object data).records released

/-- `dispatch_release` of a data object: the leaves whose destructor is
scheduled. -/
def Heap.release (data : Nat) : Except ReleaseFailure (Heap × List Nat) :=
  Heap.releaseFrom (heap.objects.length + 1) heap data

/-! ## Calls -/

/-- A call and the object that it returns. -/
def Heap.call : Operation → Except Failure (Heap × Option Nat)
  | .create buffer destructor memory => do
      let (heap, data) ← heap.create buffer destructor memory
      return (heap, some data)
  | .createAlloc bytes => do
      let (heap, data) ← heap.createAlloc bytes
      return (heap, some data)
  | .createConcat first second => do
      let (heap, data) ← heap.createConcat first second
      return (heap, some data)
  | .createSubrange data offset length => do
      let (heap, data) ← heap.createSubrange data offset length
      return (heap, some data)
  | .createMap data memory => do
      let (heap, mapping) ← heap.createMap data memory
      return (heap, mapping.data)
  | .copyRegion data location => do
      let (heap, region, _) ← heap.copyRegion data location
      return (heap, some region)
  | .getFlattenedBytes data memory => do
      let (heap, _) ← heap.getFlattenedBytes data memory
      return (heap, none)

/-- The objects that a call is given. -/
def Operation.arguments : Operation → List Nat
  | .create _ _ _ => []
  | .createAlloc _ => []
  | .createConcat first second => [first, second]
  | .createSubrange data _ _ => [data]
  | .createMap data _ => [data]
  | .copyRegion data _ => [data]
  | .getFlattenedBytes data _ => [data]

/-- The buffers without bytes, whose destructor is scheduled at once. -/
def Operation.unused : Operation → Nat
  | .create buffer destructor _ =>
    if (buffer.getD []).length = 0 ∧ destructor ≠ .default then 1 else 0
  | _ => 0

/-! ## Clients -/

/-- The heap, the references that clients own, the leaves whose destructor was
scheduled, and the number of destructors scheduled for buffers without bytes. -/
structure Store where
  heap : Heap
  owned : Nat → Nat
  destroyed : List Nat
  unused : Nat

def Store.initial : Store := ⟨Heap.initial, fun _ => 0, [], 0⟩

/-- An object that was not disposed of. -/
def Heap.Live (data : Nat) : Prop :=
  data = emptyData ∨ 0 < heap.references data

instance (heap : Heap) (data : Nat) : Decidable (heap.Live data) :=
  inferInstanceAs (Decidable (_ ∨ _))

/-- The references that clients own after they are given one. -/
def given (owned : Nat → Nat) : Option Nat → Nat → Nat
  | none => owned
  | some data =>
    fun other => if other = data then owned other + 1 else owned other

theorem given_some
    (owned : Nat → Nat)
    (data other : Nat) :
    given owned (some data) other =
      owned other + if other = data then 1 else 0 := by
  simp only [given]
  split_ifs <;> rfl

/-- The references that clients own after they gave one back. -/
def returned (owned : Nat → Nat) (data : Nat) : Nat → Nat :=
  fun other => if other = data then owned other - 1 else owned other

variable {data : Nat}

theorem given_returned
    {owned : Nat → Nat}
    (owns : 0 < owned data)
    (other : Nat) :
    given (returned owned data) (some data) other = owned other := by
  rw [given_some, returned]
  split_ifs with same
  · rw [same]
    omega
  · rfl

/-- A call, a retain or a release by a client.  Clients pass live objects and
release references that they own. -/
inductive Store.Step : Store → Store → Prop where
  | call
      {store : Store}
      {operation : Operation}
      {heap : Heap}
      {result : Option Nat}
      (live : ∀ data ∈ operation.arguments, store.heap.Live data)
      (computes : store.heap.call operation = .ok (heap, result)) :
      Step store
        ⟨heap, given store.owned result, store.destroyed,
          store.unused + operation.unused⟩
  | retain
      {store : Store}
      {data : Nat}
      (live : store.heap.Live data) :
      Step store
        ⟨store.heap.retain data, given store.owned (some data),
          store.destroyed, store.unused⟩
  | release
      {store : Store}
      {data : Nat}
      {heap : Heap}
      {leaves : List Nat}
      (owns : 0 < store.owned data)
      (computes : store.heap.release data = .ok (heap, leaves)) :
      Step store
        ⟨heap, returned store.owned data, store.destroyed ++ leaves,
          store.unused⟩

/-! ## Pointers -/

/-- The records that point to an object. -/
def pointing (records : List Record) (data : Nat) : Nat :=
  (records.map Record.dataObject).count data

/-- The records of live objects that point to an object. -/
def Heap.pointers (data : Nat) : Nat :=
  ∑ other ∈ Finset.range heap.objects.length,
    if 0 < heap.references other then
      pointing (heap.object other).records data
    else
      0

/-- No object has as many references as a global one. -/
def Store.Counted (store : Store) : Prop :=
  ∀ data, data ≠ emptyData →
    store.owned data + store.heap.pointers data < globalReferences

/-! ## What the calls do to the references -/

/-- A record that points to a live leaf. -/
structure Record.Keeps (heap : Heap) (record : Record) : Prop where
  held : heap.Holds record.dataObject
  some : record.dataObject ≠ emptyData
  leaf : (heap.object record.dataObject).records = []
  live : 0 < heap.references record.dataObject

/-- What holds of the objects of a heap between the calls. -/
structure Heap.Linked (heap : Heap) : Prop where
  empty : heap.Holds emptyData ∧ heap.object emptyData = emptyObject
  held : ∀ data, 0 < heap.references data → heap.Holds data
  records :
    ∀ data, heap.Live data → ∀ record ∈ (heap.object data).records,
      record.Keeps heap

/-- The effect of a call on the objects and their references, and its result. -/
inductive Called (heap : Heap) : Heap → Option Nat → Prop where
  | nothing
      {after : Heap}
      (shape :
        after.objects.map Object.records =
          heap.objects.map Object.records)
      (empty : after.object emptyData = heap.object emptyData)
      (references : after.references = heap.references) :
      Called heap after none
  | empty : Called heap heap (some emptyData)
  | shared
      {data : Nat}
      (live : heap.Live data) :
      Called heap (heap.retain data) (some data)
  | created
      {object : Object}
      (keeps : ∀ record ∈ object.records, record.Keeps heap) :
      Called heap ((heap.add object).1.retainRecords object.records)
        (some heap.objects.length)

section Calls

variable {heap : Heap}

/-- A sequence of two computations that succeeds. -/
theorem bind_eq_ok
    {Value Result : Type}
    {first : Except Failure Value}
    {second : Value → Except Failure Result}
    {result : Result}
    (computes : first >>= second = .ok result) :
    ∃ value, first = .ok value ∧ second value = .ok result := by
  cases first with
  | error failure => cases computes
  | ok value => exact ⟨value, rfl, computes⟩

variable {records : List Record} {result : Heap × Nat}

theorem Called.ofComposite
    {size : Nat}
    (keeps : ∀ record ∈ records, record.Keeps heap)
    (computes : heap.addComposite size records = .ok result) :
    Called heap result.1 (some result.2) := by
  rw [Heap.addComposite] at computes
  obtain ⟨-, -, computes⟩ := bind_eq_ok computes
  cases computes
  exact .created keeps

/-- A leaf needs no references. -/
theorem Called.ofLeaf
    (bytes : List UInt8) :
    Called heap (heap.add ⟨some bytes, bytes.length, []⟩).1
      (some heap.objects.length) := by
  have none : ∀ record ∈ (Object.mk (some bytes) bytes.length []).records,
      record.Keeps heap := by
    simp
  exact .created none

variable {memory : Bool}

theorem Called.ofCreate
    {buffer : Option (List UInt8)}
    {destructor : Destructor}
    (computes : heap.create buffer destructor memory = .ok result) :
    Called heap result.1 (some result.2) := by
  by_cases empty : (buffer.getD []).length = 0
  · rw [Heap.create_of_empty empty] at computes
    cases computes
    exact .empty
  · cases buffer with
    | none => exact absurd rfl empty
    | some bytes =>
      have some : bytes.length ≠ 0 := empty
      rw [Heap.create_of_nonempty some] at computes
      split_ifs at computes
      cases computes
      exact .ofLeaf bytes

theorem Called.ofCreateAlloc
    {bytes : List UInt8}
    (computes : heap.createAlloc bytes = .ok result) :
    Called heap result.1 (some result.2) := by
  rw [Heap.createAlloc] at computes
  split_ifs at computes
  · cases computes
    exact .empty
  · obtain ⟨-, -, computes⟩ := bind_eq_ok computes
    cases computes
    exact .ofLeaf _

variable (linked : heap.Linked)

include linked

/-- An object with bytes is not the empty one. -/
theorem Heap.Linked.ne_empty
    (positive : (heap.object data).size ≠ 0) :
    data ≠ emptyData := by
  rintro rfl
  rw [linked.empty.2] at positive
  exact positive rfl

/-- A record of a live leaf. -/
theorem Heap.Linked.keeps
    {record : Record}
    (live : heap.Live record.dataObject)
    (some : record.dataObject ≠ emptyData)
    (leaf : (heap.object record.dataObject).records = []) :
    record.Keeps heap where
  held := linked.held _ (live.resolve_left some)
  some := some
  leaf := leaf
  live := live.resolve_left some

theorem Heap.Linked.keeps_recordsOf
    (live : heap.Live data)
    (positive : (heap.object data).size ≠ 0) :
    ∀ record ∈ heap.recordsOf data, record.Keeps heap := by
  intro record member
  rw [Heap.recordsOf] at member
  split_ifs at member with leaf
  · rw [List.mem_singleton] at member
    subst member
    exact linked.keeps live (linked.ne_empty positive)
      ((Object.leaf_iff _).mp leaf)
  · exact linked.records data live record member

theorem Called.ofConcat
    {first second : Nat}
    (liveFirst : heap.Live first)
    (liveSecond : heap.Live second)
    (computes : heap.createConcat first second = .ok result) :
    Called heap result.1 (some result.2) := by
  rw [Heap.createConcat] at computes
  split_ifs at computes with emptyFirst emptySecond
  · cases computes
    exact .shared liveSecond
  · cases computes
    exact .shared liveFirst
  · refine .ofComposite (fun record member => ?_) computes
    rcases List.mem_append.mp member with inFirst | inSecond
    · exact linked.keeps_recordsOf liveFirst emptyFirst record inFirst
    · exact linked.keeps_recordsOf liveSecond emptySecond record inSecond

/-! ### Subranges -/

/-- Every record points where one of the others does. -/
def PointAlike (records others : List Record) : Prop :=
  ∀ record ∈ records, ∃ other ∈ others,
    record.dataObject = other.dataObject

omit linked in
theorem pointAlike_skipBytes
    (offset : Nat)
    (records : List Record) :
    PointAlike (skipBytes offset records) records := by
  intro record member
  cases records with
  | nil => cases member
  | cons first records =>
    rw [skipBytes] at member
    split_ifs at member
    · exact ⟨record, member, rfl⟩
    · rcases List.mem_cons.mp member with rfl | later
      · exact ⟨first, List.mem_cons_self, rfl⟩
      · exact ⟨record, List.mem_cons_of_mem _ later, rfl⟩

omit linked in
theorem pointAlike_cutLast
    (lastLength : Nat)
    (records : List Record) :
    PointAlike (cutLast lastLength records) records := by
  induction records using cutLast.induct with
  | case1 => exact fun record member => absurd member List.not_mem_nil
  | case2 last =>
    intro record member
    rw [cutLast, List.mem_singleton] at member
    exact ⟨last, List.mem_singleton_self last, by rw [member]⟩
  | case3 first next records inductionHypothesis =>
    intro record member
    rw [cutLast] at member
    rcases List.mem_cons.mp member with rfl | later
    · exact ⟨record, List.mem_cons_self, rfl⟩
    · obtain ⟨other, inOthers, same⟩ := inductionHypothesis record later
      exact ⟨other, List.mem_cons_of_mem _ inOthers, same⟩

variable {offset : Nat}

omit linked in
theorem pointAlike_rangeRecords
    {toTheEnd : Bool}
    {length : Nat}
    {range : List Record}
    (computes : rangeRecords toTheEnd offset length records = .ok range) :
    PointAlike range records := by
  cases records with
  | nil =>
    cases computes
    exact fun record member => absurd member List.not_mem_nil
  | cons first records =>
    rw [rangeRecords] at computes
    split_ifs at computes
    · cases computes
      exact pointAlike_skipBytes offset _
    · obtain ⟨⟨count, lastLength⟩, -, computes⟩ := bind_eq_ok computes
      cases computes
      intro record member
      obtain ⟨cut, inCut, sameCut⟩ :=
        pointAlike_cutLast lastLength _ record member
      obtain ⟨other, inOthers, same⟩ :=
        pointAlike_skipBytes offset _ cut inCut
      refine ⟨other, ?_, sameCut.trans same⟩
      rcases List.mem_cons.mp inOthers with rfl | later
      · exact List.mem_cons_self
      · exact List.mem_cons_of_mem _ (List.mem_of_mem_take later)

omit linked in
theorem seekRecord_suffix
    (records : List Record)
    (offset : Nat) :
    (seekRecord records offset).1 <:+ records := by
  induction records generalizing offset with
  | nil => exact List.suffix_refl []
  | cons record records inductionHypothesis =>
    rw [seekRecord]
    split_ifs
    · exact (inductionHypothesis _).trans (List.suffix_cons record records)
    · exact List.suffix_refl _

theorem Called.ofSubrangeFrom
    {depth length : Nat}
    (live : heap.Live data)
    (computes :
      heap.createSubrangeFrom depth data offset length = .ok result) :
    Called heap result.1 (some result.2) := by
  induction depth generalizing data offset length with
  | zero => cases computes
  | succ depth inductionHypothesis =>
    simp only [Heap.createSubrangeFrom] at computes
    split_ifs at computes with outside whole leaf
    · cases computes
      exact .empty
    · cases computes
      exact .shared live
    · refine .ofComposite (fun record member => ?_) computes
      rw [List.mem_singleton] at member
      subst member
      have positive : (heap.object data).size ≠ 0 := by omega
      exact linked.keeps live (linked.ne_empty positive)
        ((Object.leaf_iff _).mp leaf)
    · have suffix := seekRecord_suffix (heap.object data).records offset
      split at computes
      · cases computes
      · rename_i record records inner sought
        rw [sought] at suffix
        split_ifs at computes
        · have keeps := linked.records data live record
            (suffix.subset List.mem_cons_self)
          exact inductionHypothesis (.inr keeps.live) computes
        · obtain ⟨range, ranges, computes⟩ := bind_eq_ok computes
          refine .ofComposite (fun part member => ?_) computes
          obtain ⟨other, inOthers, same⟩ :=
            pointAlike_rangeRecords ranges part member
          have keeps := linked.records data live other
            (suffix.subset inOthers)
          obtain ⟨held, some, leaf, alive⟩ := keeps
          rw [← same] at held some leaf alive
          exact ⟨held, some, leaf, alive⟩

/-! ### Maps and regions -/

omit linked in
theorem Called.ofCreateMap
    (live : heap.Live data)
    {result : Heap × Mapping}
    (computes : heap.createMap data memory = .ok result) :
    Called heap result.1 result.2.data := by
  simp only [Heap.createMap] at computes
  split_ifs at computes
  · cases computes
    exact .empty
  · split at computes
    · cases computes
      exact .shared live
    · obtain ⟨buffer, -, computes⟩ := bind_eq_ok computes
      cases buffer with
      | none =>
        cases computes
        exact .nothing rfl rfl rfl
      | some buffer =>
        obtain ⟨⟨after, leaf⟩, creates, computes⟩ := bind_eq_ok computes
        cases computes
        exact .ofCreate creates

omit linked in
theorem Heap.shape_setBuffer
    (heap : Heap)
    (data : Nat)
    (buffer : List UInt8) :
    (heap.setBuffer data buffer).objects.map Object.records =
      heap.objects.map Object.records := by
  refine List.ext_getElem? fun index => ?_
  simp only [Heap.setBuffer, List.map_set, List.getElem?_set,
    List.length_map]
  split_ifs with same holds
  · subst same
    simp [Heap.object, holds]
  · subst same
    simp [holds]
  · rfl

theorem Called.ofGetFlattenedBytes
    (live : heap.Live data)
    {result : Heap × Option (List UInt8)}
    (computes : heap.getFlattenedBytes data memory = .ok result) :
    Called heap result.1 none := by
  simp only [Heap.getFlattenedBytes] at computes
  split_ifs at computes with empty
  · cases computes
    exact .nothing rfl rfl rfl
  · split at computes
    · cases computes
      exact .nothing rfl rfl rfl
    · obtain ⟨buffer, -, computes⟩ := bind_eq_ok computes
      cases buffer with
      | none =>
        cases computes
        exact .nothing rfl rfl rfl
      | some buffer =>
        cases computes
        refine .nothing (heap.shape_setBuffer _ buffer) ?_ rfl
        have other : emptyData ≠ (heap.mapDirect data 0).object := by
          by_cases single : (heap.object data).records.length = 1
          · obtain ⟨record, isRecord⟩ := List.length_eq_one_iff.mp single
            have keeps := linked.records data live record (by simp [isRecord])
            rw [Heap.mapDirect_of_trivial isRecord]
            exact keeps.some.symm
          · rw [Heap.mapDirect_of_length single]
            exact (linked.ne_empty empty).symm
        simp [Heap.object, Heap.setBuffer, other.symm]

omit linked in
theorem seekRegion_mem
    {start location : Nat}
    {record : Record}
    {rest : Nat × Nat × Nat}
    (sought :
      seekRegion records start location offset = some (record, rest)) :
    record ∈ records := by
  induction records generalizing start offset with
  | nil => cases sought
  | cons first records inductionHypothesis =>
    simp only [seekRegion] at sought
    split_ifs at sought
    · exact List.mem_cons_of_mem _ (inductionHypothesis sought)
    · exact List.mem_cons_of_mem _ (inductionHypothesis sought)
    · cases sought
      exact List.mem_cons_self

/-- A region is made for a whole object or for a part of a leaf. -/
theorem Called.ofCopyRegionFrom
    {depth start size location : Nat}
    (live : heap.Live data)
    (part :
      (start = 0 ∧ size = (heap.object data).size) ∨
        (heap.object data).records = [])
    {result : Heap × Nat × Nat}
    (computes :
      heap.copyRegionFrom depth data start size location offset =
        .ok result) :
    Called heap result.1 (some result.2.1) := by
  induction depth generalizing data start size location offset with
  | zero => cases computes
  | succ depth inductionHypothesis =>
    simp only [Heap.copyRegionFrom] at computes
    by_cases single : (heap.object data).records.length = 1
    · -- A trivial subrange is whole, and the leaf behind it has no records.
      obtain ⟨record, isRecord⟩ := List.length_eq_one_iff.mp single
      have whole := part.resolve_right
        (by rw [isRecord]; exact List.cons_ne_nil _ _)
      have keeps := linked.records data live record (by simp [isRecord])
      have direct : (heap.mapDirect data start).object =
          record.dataObject := by
        simp [Heap.mapDirect, isRecord]
      split at computes
      · rw [if_pos whole] at computes
        cases computes
        exact .shared live
      · rw [direct, keeps.leaf] at computes
        cases computes
    · rw [Heap.mapDirect_of_length single] at computes
      split at computes
      · rename_i buffer direct
        split_ifs at computes with whole
        · cases computes
          exact .shared live
        · obtain ⟨⟨after, region⟩, adds, computes⟩ :=
            bind_eq_ok computes
          cases computes
          refine .ofComposite (fun record member => ?_) adds
          rw [List.mem_singleton] at member
          subst member
          refine linked.keeps live ?_ (part.resolve_left whole)
          rintro rfl
          rw [linked.empty.2] at direct
          cases direct
      · split at computes
        · cases computes
        · rename_i record inner length skipped sought
          have keeps := linked.records data live record
            (seekRegion_mem sought)
          exact inductionHypothesis (.inr keeps.live) (.inr keeps.leaf)
            computes

/-- Every call adds, shares or leaves alone. -/
theorem Called.ofCall
    {operation : Operation}
    (live : ∀ data ∈ operation.arguments, heap.Live data)
    {after : Heap}
    {result : Option Nat}
    (computes : heap.call operation = .ok (after, result)) :
    Called heap after result := by
  cases operation with
  | create buffer destructor memory =>
    obtain ⟨value, creates, computes⟩ := bind_eq_ok computes
    cases computes
    exact .ofCreate creates
  | createAlloc bytes =>
    obtain ⟨value, creates, computes⟩ := bind_eq_ok computes
    cases computes
    exact .ofCreateAlloc creates
  | createConcat first second =>
    obtain ⟨value, concats, computes⟩ := bind_eq_ok computes
    cases computes
    exact .ofConcat linked (live first (by simp [Operation.arguments]))
      (live second (by simp [Operation.arguments])) concats
  | createSubrange data offset length =>
    obtain ⟨value, ranges, computes⟩ := bind_eq_ok computes
    cases computes
    exact .ofSubrangeFrom linked
      (live data (by simp [Operation.arguments])) ranges
  | createMap data memory =>
    obtain ⟨value, maps, computes⟩ := bind_eq_ok computes
    cases computes
    exact .ofCreateMap (live data (by simp [Operation.arguments])) maps
  | copyRegion data location =>
    obtain ⟨value, copies, computes⟩ := bind_eq_ok computes
    cases computes
    rw [Heap.copyRegion] at copies
    split_ifs at copies
    · cases copies
      exact .empty
    · exact .ofCopyRegionFrom linked
        (live data (by simp [Operation.arguments])) (.inl ⟨rfl, rfl⟩) copies
  | getFlattenedBytes data memory =>
    obtain ⟨value, flattens, computes⟩ := bind_eq_ok computes
    cases computes
    exact .ofGetFlattenedBytes linked
      (live data (by simp [Operation.arguments])) flattens

end Calls

end LibDispatch.Data
