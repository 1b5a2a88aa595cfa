import LibDispatch.DataReferences

namespace LibDispatch.Data

/-!
# Accounting of references

Between the calls every object has as many references as clients own and live
composites hold.  A call changes the number of references together with the
owners or with the records.  A release of the last reference leaves the
references of the records to be released in turn, which are references without
an owner in the meantime.
-/

variable {heap after : Heap} {extra : Nat → Nat} {log : List Nat}

/-! ## Pointers -/

theorem Heap.records_object
    (heap : Heap)
    (data : Nat) :
    (heap.object data).records =
      (heap.objects.map Object.records).getD data [] := by
  rw [Heap.object, List.getD_eq_getElem?_getD, List.getD_eq_getElem?_getD,
    List.getElem?_map]
  cases heap.objects[data]? <;> rfl

/-- Pointers depend on the records and on which objects are live. -/
theorem Heap.pointers_congr
    (length : after.objects.length = heap.objects.length)
    (records :
      ∀ other, (after.object other).records =
        (heap.object other).records)
    (live :
      ∀ other, 0 < after.references other ↔ 0 < heap.references other)
    (data : Nat) :
    after.pointers data = heap.pointers data := by
  rw [Heap.pointers, Heap.pointers, length]
  refine Finset.sum_congr rfl fun other _ => ?_
  simp only [live other, records other]

/-- The records of a live object are counted. -/
theorem Heap.pointing_le_pointers
    {other : Nat}
    (live : 0 < heap.references other)
    (holds : heap.Holds other)
    (data : Nat) :
    pointing (heap.object other).records data ≤ heap.pointers data := by
  have term := Finset.single_le_sum
    (f := fun other : Nat =>
      if 0 < heap.references other then
        pointing (heap.object other).records data
      else
        0)
    (fun _ _ => Nat.zero_le _) (Finset.mem_range.mpr holds)
  simp only [if_pos live] at term
  exact term

variable {records : List Record}

theorem pointing_pos
    {record : Record}
    (member : record ∈ records) :
    0 < pointing records record.dataObject :=
  List.count_pos_iff.mpr (List.mem_map_of_mem member)

theorem pointing_cons
    (record : Record)
    (records : List Record)
    (data : Nat) :
    pointing (record :: records) data =
      pointing records data + if data = record.dataObject then 1 else 0 := by
  rw [pointing, pointing, List.map_cons, List.count_cons]
  congr 1
  simp only [beq_iff_eq, eq_comm (a := data)]

/-- The records of a new object are added. -/
theorem Heap.pointers_add
    (heap : Heap)
    (object : Object)
    (data : Nat) :
    (heap.add object).1.pointers data =
      heap.pointers data + pointing object.records data := by
  have length : (heap.add object).1.objects.length =
      heap.objects.length + 1 := by
    simp [Heap.add]
  have new : 0 < (heap.add object).1.references heap.objects.length := by
    simp [Heap.add]
  rw [Heap.pointers, length, Finset.sum_range_succ, if_pos new,
    Heap.object_add_new, Heap.pointers]
  congr 1
  refine Finset.sum_congr rfl fun other member => ?_
  have old := Finset.mem_range.mp member
  have same : (heap.add object).1.references other =
      heap.references other :=
    if_neg (Nat.ne_of_lt old)
  rw [same, Heap.object_add_old object old]

variable {data : Nat}

/-- The records of an object that dies are no longer counted. -/
theorem Heap.pointers_setReferences_zero
    (live : 0 < heap.references data)
    (holds : heap.Holds data)
    (target : Nat) :
    (heap.setReferences data 0).pointers target +
        pointing (heap.object data).records target =
      heap.pointers target := by
  have member := Finset.mem_range.mpr holds
  have length : (heap.setReferences data 0).objects.length =
      heap.objects.length := rfl
  rw [Heap.pointers, Heap.pointers, length,
    ← Finset.add_sum_erase _ _ member, ← Finset.add_sum_erase _ _ member]
  have dead : ¬ 0 < (heap.setReferences data 0).references data := by
    simp [Heap.setReferences]
  rw [if_neg dead, if_pos live, Nat.zero_add, Nat.add_comm]
  congr 1
  refine Finset.sum_congr rfl fun other inRest => ?_
  have different : other ≠ data := Finset.ne_of_mem_erase inRest
  simp only [Heap.setReferences, if_neg different]
  rfl

/-! ## References after retains -/

theorem Heap.references_retain
    (some : data ≠ emptyData)
    (below : heap.references data < globalReferences)
    (other : Nat) :
    (heap.retain data).references other =
      heap.references other + if other = data then 1 else 0 := by
  have counted :
      ¬ (data = emptyData ∨ heap.references data = globalReferences) := by
    rintro (none | global)
    · exact some none
    · omega
  rw [Heap.retain, if_neg counted]
  simp only
  split_ifs <;> rfl

/-- A retain of a live object keeps who is live. -/
theorem Heap.live_retain
    (live : 0 < heap.references data)
    (other : Nat) :
    0 < (heap.retain data).references other ↔ 0 < heap.references other := by
  rw [Heap.retain]
  split_ifs
  · rfl
  · simp only
    split_ifs with same
    · rw [same]
      omega
    · rfl

theorem Heap.pointers_retain
    (live : 0 < heap.references data)
    (target : Nat) :
    (heap.retain data).pointers target = heap.pointers target := by
  have objects := heap.objects_retain data
  refine Heap.pointers_congr (by rw [objects]) (fun other => ?_)
    (Heap.live_retain live) target
  rw [Heap.object, Heap.object, objects]

/-- Pointers do not change while the objects of records are retained. -/
theorem Heap.pointers_retainRecords
    (live : ∀ record ∈ records, 0 < heap.references record.dataObject)
    (target : Nat) :
    (heap.retainRecords records).pointers target = heap.pointers target := by
  induction records generalizing heap with
  | nil => rfl
  | cons record records inductionHypothesis =>
    have alive := live record List.mem_cons_self
    rw [Heap.retainRecords, inductionHypothesis, Heap.pointers_retain alive]
    intro next member
    exact (Heap.live_retain alive _).mpr
      (live next (List.mem_cons_of_mem _ member))

/-- The objects of records may be retained before the records are added. -/
theorem Heap.retainRecords_add
    (object : Object)
    (old : ∀ record ∈ records, heap.Holds record.dataObject) :
    (heap.add object).1.retainRecords records =
      ((heap.retainRecords records).add object).1 := by
  induction records generalizing heap with
  | nil => rfl
  | cons record records inductionHypothesis =>
    have different := Nat.ne_of_lt (old record List.mem_cons_self)
    have first : (heap.add object).1.retain record.dataObject =
        ((heap.retain record.dataObject).add object).1 := by
      simp only [Heap.retain, Heap.add, if_neg different]
      split_ifs
      · rfl
      · congr 1
        funext other
        simp only
        split_ifs <;> omega
    rw [Heap.retainRecords, first, inductionHypothesis, Heap.retainRecords]
    intro next member
    rw [Heap.Holds, Heap.objects_retain]
    exact old next (List.mem_cons_of_mem _ member)

/-! ## The account -/

/-- A leaf that was disposed of. -/
def Heap.Disposed (heap : Heap) (data : Nat) : Prop :=
  (heap.Holds data ∧ data ≠ emptyData) ∧
    (heap.object data).records = [] ∧ heap.references data = 0

instance (heap : Heap) (data : Nat) : Decidable (heap.Disposed data) :=
  inferInstanceAs (Decidable ((_ ∧ _) ∧ _))

/-- Every object has the given references and those of the records of live
objects, and every leaf is in the log that was disposed of. -/
structure Settled
    (heap : Heap)
    (extra : Nat → Nat)
    (log : List Nat) : Prop where
  empty : heap.Holds emptyData ∧ heap.object emptyData = emptyObject
  held : ∀ data, 0 < heap.references data → heap.Holds data
  leaves :
    ∀ data, ∀ record ∈ (heap.object data).records,
      heap.Holds record.dataObject ∧ record.dataObject ≠ emptyData ∧
        (heap.object record.dataObject).records = []
  balanced :
    ∀ data, data ≠ emptyData →
      heap.references data = extra data + heap.pointers data
  bounded : ∀ data, heap.references data < globalReferences
  logged : ∀ data, log.count data = if heap.Disposed data then 1 else 0

namespace Settled

section

variable (settled : Settled heap extra log)

include settled

/-- The records of a live object point to live leaves. -/
theorem linked :
    heap.Linked where
  empty := settled.empty
  held := settled.held
  records := by
    intro data live record member
    obtain ⟨held, some, leaf⟩ := settled.leaves data record member
    have counted : 0 < heap.references data := by
      refine live.resolve_left ?_
      rintro rfl
      rw [settled.empty.2] at member
      cases member
    have pointers := heap.pointing_le_pointers counted
      (settled.held data counted) record.dataObject
    have own := pointing_pos member
    have balance := settled.balanced _ some
    exact ⟨held, some, leaf, by omega⟩

/-- Nothing is known of objects that do not exist. -/
theorem beyond
    (beyond : ¬ heap.Holds data) :
    heap.references data = 0 ∧ extra data = 0 ∧ heap.pointers data = 0 := by
  have none : heap.references data = 0 := by
    by_contra some
    exact beyond (settled.held data (Nat.pos_of_ne_zero some))
  have different : data ≠ emptyData := by
    rintro rfl
    exact beyond settled.empty.1
  have balance := settled.balanced data different
  omega

/-- The references to the empty object do not matter. -/
theorem congr
    {other : Nat → Nat}
    (same : ∀ data, data ≠ emptyData → other data = extra data) :
    Settled heap other log :=
  { settled with
    balanced := fun data some => by
      rw [same data some]
      exact settled.balanced data some }

/-! ## Calls -/

/-- What is left alone by a call that creates no object. -/
theorem ofRecords
    {owned : Nat → Nat}
    (length : after.objects.length = heap.objects.length)
    (records :
      ∀ data, (after.object data).records = (heap.object data).records)
    (empty : after.object emptyData = heap.object emptyData)
    (live :
      ∀ data, 0 < after.references data ↔ 0 < heap.references data)
    (references :
      ∀ data, data ≠ emptyData →
        after.references data + extra data =
          heap.references data + owned data)
    (bounded : ∀ data, after.references data < globalReferences) :
    Settled after owned log where
  empty := by
    refine ⟨?_, empty.trans settled.empty.2⟩
    rw [Heap.Holds, length]
    exact settled.empty.1
  held := by
    intro data counted
    rw [Heap.Holds, length]
    exact settled.held data ((live data).mp counted)
  leaves := by
    intro data record member
    rw [records] at member
    rw [Heap.Holds, length, records]
    exact settled.leaves data record member
  balanced := by
    intro data some
    have balance := settled.balanced data some
    have change := references data some
    have pointers := Heap.pointers_congr length records live data
    omega
  bounded := bounded
  logged := by
    intro data
    have same : after.Disposed data ↔ heap.Disposed data := by
      have alive := live data
      have dead : after.references data = 0 ↔
          heap.references data = 0 := by
        omega
      rw [Heap.Disposed, Heap.Disposed, Heap.Holds, Heap.Holds, length,
        records, dead]
    rw [settled.logged data]
    simp only [same]

theorem retain
    (live : heap.Live data)
    (counted :
      data ≠ emptyData → extra data + 1 + heap.pointers data <
        globalReferences) :
    Settled (heap.retain data) (given extra (some data)) log := by
  by_cases none : data = emptyData
  · subst none
    rw [Heap.retain, if_pos (.inl rfl)]
    exact settled.congr fun other some => if_neg some
  · have alive := live.resolve_left none
    have retained := Heap.references_retain none (settled.bounded data)
    have objects := heap.objects_retain data
    have same (other : Nat) :
        (heap.retain data).object other = heap.object other := by
      rw [Heap.object, objects]
      rfl
    refine settled.ofRecords (by rw [objects]) (fun other => by rw [same])
      (same emptyData) (Heap.live_retain alive) ?_ ?_
    · intro other some
      rw [retained, given_some]
      omega
    · intro other
      rw [retained]
      split_ifs with isData
      · have balance := settled.balanced data none
        have room := counted none
        rw [isData]
        omega
      · exact settled.bounded other

theorem retainRecords
    (live : ∀ record ∈ records, 0 < heap.references record.dataObject)
    (counted :
      ∀ data, data ≠ emptyData →
        extra data + pointing records data + heap.pointers data <
          globalReferences) :
    Settled (heap.retainRecords records)
      (fun data => extra data + pointing records data) log := by
  induction records generalizing heap extra with
  | nil => exact settled
  | cons record records inductionHypothesis =>
    have alive := live record List.mem_cons_self
    have retained := settled.retain (.inr alive) fun some => by
      have room := counted _ some
      rw [pointing_cons, if_pos rfl] at room
      omega
    refine (inductionHypothesis retained ?_ ?_).congr ?_
    · intro next member
      exact (Heap.live_retain alive _).mpr
        (live next (List.mem_cons_of_mem _ member))
    · intro data some
      have room := counted data some
      rw [pointing_cons] at room
      rw [given_some, Heap.pointers_retain alive]
      omega
    · intro data _
      rw [given_some, pointing_cons]
      omega

omit settled in
/-- A new object takes over the references of its records. -/
theorem add
    {object : Object}
    (settled :
      Settled heap (fun data => extra data + pointing object.records data)
        log)
    (leaves :
      ∀ record ∈ object.records,
        heap.Holds record.dataObject ∧ record.dataObject ≠ emptyData ∧
          (heap.object record.dataObject).records = []) :
    Settled (heap.add object).1 (given extra (some heap.objects.length))
      log := by
  have fresh := settled.beyond (Nat.lt_irrefl heap.objects.length)
  have references (data : Nat) : (heap.add object).1.references data =
      if data = heap.objects.length then 1 else heap.references data := rfl
  have holds (data : Nat) : (heap.add object).1.Holds data ↔
      heap.Holds data ∨ data = heap.objects.length := by
    simp only [Heap.Holds, Heap.add, List.length_append,
      List.length_singleton]
    omega
  have ofOld {record : Record}
      (leaf :
        heap.Holds record.dataObject ∧ record.dataObject ≠ emptyData ∧
          (heap.object record.dataObject).records = []) :
      (heap.add object).1.Holds record.dataObject ∧
        record.dataObject ≠ emptyData ∧
        ((heap.add object).1.object record.dataObject).records = [] := by
    rw [holds, Heap.object_add_old object leaf.1]
    exact ⟨.inl leaf.1, leaf.2⟩
  exact
    { empty := by
        rw [holds, Heap.object_add_old object settled.empty.1]
        exact ⟨.inl settled.empty.1, settled.empty.2⟩
      held := by
        intro data counted
        rw [references] at counted
        rw [holds]
        split_ifs at counted with isNew
        · exact .inr isNew
        · exact .inl (settled.held data counted)
      leaves := by
        intro data record member
        by_cases held : (heap.add object).1.Holds data
        · rcases (holds data).mp held with old | rfl
          · rw [Heap.object_add_old object old] at member
            exact ofOld (settled.leaves data record member)
          · rw [Heap.object_add_new] at member
            exact ofOld (leaves record member)
        · have none : (heap.add object).1.object data = emptyObject := by
            rw [Heap.object, List.getD_eq_getElem?_getD,
              List.getElem?_eq_none (Nat.le_of_not_lt held),
              Option.getD_none]
          rw [none] at member
          cases member
      balanced := by
        intro data some
        have balance := settled.balanced data some
        rw [references, Heap.pointers_add, given_some]
        split_ifs with isNew
        · rw [isNew]
          omega
        · omega
      bounded := by
        intro data
        rw [references]
        split_ifs
        · decide
        · exact settled.bounded data
      logged := by
        intro data
        have same : (heap.add object).1.Disposed data ↔
            heap.Disposed data := by
          rw [Heap.Disposed, Heap.Disposed, references, holds]
          split_ifs with isNew
          · rw [isNew, fresh.1]
            simp [Heap.Holds]
          · rw [or_iff_left isNew]
            refine and_congr_right fun held => ?_
            rw [Heap.object_add_old object held.1]
        rw [settled.logged data]
        simp only [same] }

theorem created
    {object : Object}
    (keeps : ∀ record ∈ object.records, record.Keeps heap)
    (counted :
      ∀ data, data ≠ emptyData →
        given extra (some heap.objects.length) data +
          ((heap.add object).1.retainRecords object.records).pointers data <
            globalReferences) :
    Settled ((heap.add object).1.retainRecords object.records)
      (given extra (some heap.objects.length)) log := by
  have live := fun record member => (keeps record member).live
  have objects := heap.objects_retainRecords object.records
  rw [Heap.retainRecords_add object fun record member =>
    (keeps record member).held] at counted ⊢
  have retained := settled.retainRecords live fun data some => by
    have room := counted data some
    rw [Heap.pointers_add, Heap.pointers_retainRecords live,
      given_some] at room
    omega
  rw [← objects]
  refine retained.add fun record member => ?_
  obtain ⟨held, some, leaf, -⟩ := keeps record member
  rw [Heap.Holds, Heap.object, objects]
  exact ⟨held, some, leaf⟩

/-- Every call keeps the account. -/
theorem called
    {result : Option Nat}
    (effect : Called heap after result)
    (counted :
      ∀ data, data ≠ emptyData →
        given extra result data + after.pointers data <
          globalReferences) :
    Settled after (given extra result) log := by
  cases effect with
  | nothing shape empty references =>
    have length := congrArg List.length shape
    rw [List.length_map, List.length_map] at length
    have records (data : Nat) : (after.object data).records =
        (heap.object data).records := by
      rw [Heap.records_object, shape, ← Heap.records_object]
    refine settled.ofRecords length records empty
      (fun data => by rw [references]) (fun data _ => by rw [references]; rfl)
      (fun data => by rw [references]; exact settled.bounded data)
  | empty =>
    refine settled.congr fun data some => ?_
    rw [given_some, if_neg some, Nat.add_zero]
  | shared live =>
    rename_i data
    refine settled.retain live fun some => ?_
    have room := counted data some
    rw [given_some, if_pos rfl,
      Heap.pointers_retain (live.resolve_left some)] at room
    exact room
  | created keeps => exact settled.created keeps counted

end

/-! ## Releases -/

variable (settled : Settled heap (given extra (some data)) log)

include settled

/-- One reference less, which is not the last. -/
theorem decrement
    {references : Nat}
    (counts : heap.references data = references + 1)
    (more : references ≠ 0) :
    Settled (heap.setReferences data references) extra log := by
  have released (other : Nat) :
      (heap.setReferences data references).references other =
        if other = data then references else heap.references other := rfl
  refine settled.ofRecords rfl (fun _ => rfl) rfl ?_ ?_ ?_
  · intro other
    rw [released]
    split_ifs with same
    · rw [same]
      omega
    · rfl
  · intro other _
    rw [released, given_some]
    split_ifs with same
    · rw [same]
      omega
    · rfl
  · intro other
    have bound := settled.bounded other
    rw [released]
    split_ifs with same
    · rw [same] at bound
      omega
    · exact bound

/-- The last reference is gone: the references of the records have no owner
now, and a leaf is logged. -/
theorem dispose
    (some : data ≠ emptyData)
    (last : heap.references data = 1) :
    Settled (heap.setReferences data 0)
      (fun other =>
        extra other + pointing (heap.object data).records other)
      (log ++ if (heap.object data).leaf then [data] else []) := by
  have released (other : Nat) :
      (heap.setReferences data 0).references other =
        if other = data then 0 else heap.references other := rfl
  have alive : 0 < heap.references data := by omega
  have holds := settled.held data alive
  refine
    { settled with
      held := ?held
      balanced := ?balanced
      bounded := ?bounded
      logged := ?logged }
  case held =>
    intro other counted
    rw [released] at counted
    split_ifs at counted
    · omega
    · exact settled.held other counted
  case balanced =>
    intro other notEmpty
    have balance := settled.balanced other notEmpty
    have pointers := heap.pointers_setReferences_zero alive holds other
    rw [given_some] at balance
    rw [released]
    split_ifs at balance ⊢ with same
    · rw [same] at balance pointers ⊢
      omega
    · omega
  case bounded =>
    intro other
    have bound := settled.bounded other
    rw [released]
    split_ifs
    · decide
    · exact bound
  case logged =>
    intro other
    have logged := settled.logged other
    have disposedBefore : ¬ heap.Disposed data := by
      intro disposed
      have dead := disposed.2.2
      omega
    by_cases same : other = data
    · subst same
      rw [if_neg disposedBefore] at logged
      rw [List.count_append, logged]
      by_cases leaf : (heap.object other).records = []
      · have disposed : (heap.setReferences other 0).Disposed other :=
          ⟨⟨holds, some⟩, leaf, if_pos rfl⟩
        rw [if_pos ((Object.leaf_iff _).mpr leaf), if_pos disposed]
        simp
      · have composite : ¬ (heap.object other).leaf = true :=
          fun isLeaf => leaf ((Object.leaf_iff _).mp isLeaf)
        have notDisposed : ¬ (heap.setReferences other 0).Disposed other :=
          fun disposed => leaf disposed.2.1
        rw [if_neg composite, if_neg notDisposed]
        rfl
    · have unlogged :
          (if (heap.object data).leaf then [data] else []).count other =
            0 := by
        split_ifs
        · simp [Ne.symm same]
        · rfl
      have unchanged : (heap.setReferences data 0).Disposed other ↔
          heap.Disposed other := by
        rw [Heap.Disposed, Heap.Disposed, released, if_neg same]
        rfl
      rw [List.count_append, unlogged, logged]
      simp only [unchanged, Nat.add_zero]

/-- A reference that is accounted for is there to be released.  When it is the
last one, the object is disposed of. -/
theorem releaseFrom_cases
    (some : data ≠ emptyData)
    (depth : Nat) :
    (∃ released,
      Heap.releaseFrom (depth + 1) heap data = .ok (released, []) ∧
        released.objects = heap.objects ∧ Settled released extra log) ∨
    (Heap.releaseFrom (depth + 1) heap data =
        (if (heap.object data).leaf then
          .ok (heap.setReferences data 0, [data])
        else
          Data.releaseRecords (Heap.releaseFrom depth)
            (heap.object data).records (heap.setReferences data 0)) ∧
      Settled (heap.setReferences data 0)
        (fun other =>
          extra other + pointing (heap.object data).records other)
        (log ++ if (heap.object data).leaf then [data] else [])) := by
  have balance := settled.balanced data some
  have bound := settled.bounded data
  rw [given_some, if_pos rfl] at balance
  have counted :
      ¬ (data = emptyData ∨ heap.references data = globalReferences) := by
    rintro (none | global)
    · exact some none
    · omega
  rw [Heap.releaseFrom, if_neg counted]
  split
  · omega
  · rename_i references counts
    by_cases last : references = 0
    · subst last
      exact .inr ⟨rfl, settled.dispose some counts⟩
    · refine .inl ⟨_, if_pos last, rfl, settled.decrement counts last⟩

theorem releaseLeaf
    (some : data ≠ emptyData)
    (leaf : (heap.object data).records = [])
    (depth : Nat) :
    ∃ released leaves,
      Heap.releaseFrom (depth + 1) heap data = .ok (released, leaves) ∧
        released.objects = heap.objects ∧
        Settled released extra (log ++ leaves) := by
  rcases settled.releaseFrom_cases some depth with
    ⟨released, releases, objects, final⟩ | ⟨releases, disposed⟩
  · refine ⟨released, [], releases, objects, ?_⟩
    rw [List.append_nil]
    exact final
  · have isLeaf := (Object.leaf_iff (heap.object data)).mpr leaf
    rw [if_pos isLeaf] at releases disposed
    refine ⟨_, [data], releases, rfl, disposed.congr fun other _ => ?_⟩
    rw [leaf]
    rfl

omit settled in
/-- The references of the records of a composite are released. -/
theorem releaseRecords
    (settled :
      Settled heap (fun other => extra other + pointing records other) log)
    (leaves :
      ∀ record ∈ records, record.dataObject ≠ emptyData ∧
        (heap.object record.dataObject).records = [])
    (depth : Nat) :
    ∃ released destroyed,
      Data.releaseRecords (Heap.releaseFrom (depth + 1)) records heap =
          .ok (released, destroyed) ∧
        released.objects = heap.objects ∧
        Settled released extra (log ++ destroyed) := by
  induction records generalizing heap log with
  | nil =>
    refine ⟨heap, [], rfl, rfl, ?_⟩
    rw [List.append_nil]
    exact settled.congr fun other _ => rfl
  | cons record records inductionHypothesis =>
    have owed : Settled heap
        (given (fun other => extra other + pointing records other)
          (some record.dataObject)) log := by
      refine settled.congr fun other _ => ?_
      rw [given_some, pointing_cons, Nat.add_assoc]
    obtain ⟨notEmpty, leaf⟩ := leaves record List.mem_cons_self
    obtain ⟨middle, first, releases, objects, middleSettled⟩ :=
      owed.releaseLeaf notEmpty leaf depth
    obtain ⟨released, others, releasesOthers, sameObjects, final⟩ :=
      inductionHypothesis middleSettled (by
        intro other member
        rw [Heap.object, objects]
        exact leaves other (List.mem_cons_of_mem _ member))
    refine ⟨released, first ++ others, ?_, sameObjects.trans objects, ?_⟩
    · rw [Data.releaseRecords, releases]
      simp only [bind, Except.bind, releasesOthers]
      rfl
    · rw [← List.append_assoc]
      exact final

/-- An owned reference is released. -/
theorem release :
    ∃ released leaves,
      heap.release data = .ok (released, leaves) ∧
        Settled released extra (log ++ leaves) := by
  by_cases none : data = emptyData
  · refine ⟨heap, [], ?_, ?_⟩
    · rw [Heap.release, Heap.releaseFrom, if_pos (.inl none)]
    · rw [List.append_nil]
      refine settled.congr fun other some => ?_
      rw [given_some, none, if_neg some, Nat.add_zero]
  · by_cases leaf : (heap.object data).records = []
    · obtain ⟨released, leaves, computes, -, final⟩ :=
        settled.releaseLeaf none leaf heap.objects.length
      exact ⟨released, leaves, computes, final⟩
    · have composite : ¬ (heap.object data).leaf = true :=
        fun isLeaf => leaf ((Object.leaf_iff _).mp isLeaf)
      obtain ⟨depth, deep⟩ : ∃ depth, heap.objects.length = depth + 1 :=
        ⟨heap.objects.length - 1, by
          have some := settled.empty.1
          rw [Heap.Holds] at some
          omega⟩
      rw [Heap.release, deep]
      rcases settled.releaseFrom_cases none (depth + 1) with
        ⟨released, releases, -, final⟩ | ⟨releases, disposed⟩
      · refine ⟨released, [], releases, ?_⟩
        rw [List.append_nil]
        exact final
      · rw [if_neg composite] at releases disposed
        rw [List.append_nil] at disposed
        obtain ⟨released, leaves, computes, -, final⟩ :=
          disposed.releaseRecords
            (fun record member => (settled.leaves data record member).2) depth
        exact ⟨released, leaves, releases.trans computes, final⟩

end Settled

end LibDispatch.Data
