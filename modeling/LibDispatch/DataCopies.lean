import LibDispatch.DataReferences

namespace LibDispatch.Data

/-!
# Copies of regions

`dispatch_data_copy_region` finds the region that contains a location on its own,
without an applier.  It finds the regions that `dispatch_data_apply` visits, so
that a caller who goes from the end of each region to the next one enumerates
them.
-/

variable {heap after : Heap} {data : Nat}

/-- The regions that an applier is called on which never stops. -/
def Heap.appliedRegions (heap : Heap) (data : Nat) :
    Except Failure (List Region) :=
  Prod.fst <$>
    heap.apply (fun visited region => .ok (visited ++ [region], true)) data []

/-- A caller copies the region at a location and goes on at its end, until what
is returned is empty: the offsets and the sizes of what is returned. -/
def Heap.copyRegions
    (data : Nat) :
    Nat → Heap → Nat → Except Failure (List (Nat × Nat))
  | 0, _, _ => .error .tooDeep
  | fuel + 1, heap, location => do
      let (heap, region, offset) ← heap.copyRegion data location
      let size := (heap.object region).size
      if size = 0 then
        return []
      else
        let others ← Heap.copyRegions data fuel heap (offset + size)
        return (offset, size) :: others

/-- A region contains a location. -/
def Region.Contains (region : Region) (location : Nat) : Prop :=
  region.offset ≤ location ∧ location < region.offset + region.size

/-! ## Regions that follow each other -/

variable {location : Nat}

section FollowFrom

variable {regions : List Region} {offset : Nat} {region : Region}

variable (follows : FollowFrom offset regions)

include follows

theorem FollowFrom.offset_le
    (member : region ∈ regions) :
    offset ≤ region.offset := by
  induction regions generalizing offset with
  | nil => cases member
  | cons first others inductionHypothesis =>
    obtain ⟨starts, follows⟩ := follows
    rcases List.mem_cons.mp member with rfl | later
    · exact Nat.le_of_eq starts.symm
    · exact Nat.le_of_add_right_le (inductionHypothesis follows later)

/-- A location is in one region only. -/
theorem FollowFrom.unique
    {other : Region}
    (member : region ∈ regions)
    (otherMember : other ∈ regions)
    (contains : region.Contains location)
    (otherContains : other.Contains location) :
    other = region := by
  induction regions generalizing offset with
  | nil => cases member
  | cons first others inductionHypothesis =>
    obtain ⟨starts, follows⟩ := follows
    have beyond {later : Region} (isLater : later ∈ others)
        (inFirst : first.Contains location)
        (inLater : later.Contains location) : False := by
      have after := follows.offset_le isLater
      have ends := inFirst.2
      have begins := inLater.1
      omega
    rcases List.mem_cons.mp member with rfl | later
    · rcases List.mem_cons.mp otherMember with rfl | otherLater
      · rfl
      · exact (beyond otherLater contains otherContains).elim
    · rcases List.mem_cons.mp otherMember with rfl | otherLater
      · exact (beyond later otherContains contains).elim
      · exact inductionHypothesis follows later otherLater

/-- A region is the part of all the bytes that begins at its offset. -/
theorem FollowFrom.slice
    (sizes : ∀ region ∈ regions, region.buffer.length = region.size)
    (member : region ∈ regions) :
    ((regionBytes regions).drop (region.offset - offset)).take region.size =
      region.buffer := by
  induction regions generalizing offset with
  | nil => cases member
  | cons first others inductionHypothesis =>
    obtain ⟨starts, follows⟩ := follows
    have firstSize := sizes first List.mem_cons_self
    have bytes : regionBytes (first :: others) =
        first.buffer ++ regionBytes others := rfl
    rw [bytes]
    rcases List.mem_cons.mp member with rfl | later
    · rw [starts, Nat.sub_self, List.drop_zero, ← firstSize,
        List.take_left]
    · have after := follows.offset_le later
      have split : region.offset - offset =
          first.buffer.length + (region.offset - (offset + first.size)) := by
        omega
      rw [split, List.drop_length_add_append]
      exact inductionHypothesis follows
        (fun other inside => sizes other (List.mem_cons_of_mem _ inside))
        later

end FollowFrom

/-! ## Objects that are added -/

/-- A composite is added behind the other objects. -/
theorem Heap.addComposite_appends
    {size : Nat}
    {records : List Record}
    {result : Heap × Nat}
    (adds : heap.addComposite size records = .ok result) :
    heap.objects <+: result.1.objects := by
  obtain ⟨-, -, computes⟩ := bind_eq_ok adds
  cases computes
  rw [Heap.objects_retainRecords]
  exact List.prefix_append _ _

/-- A copy of a region adds at most one object. -/
theorem Heap.copyRegionFrom_appends
    {depth start size offset : Nat}
    {result : Heap × Nat × Nat}
    (copies :
      heap.copyRegionFrom depth data start size location offset =
        .ok result) :
    heap.objects <+: result.1.objects := by
  induction depth generalizing data start size location offset with
  | zero => cases copies
  | succ depth inductionHypothesis =>
    simp only [Heap.copyRegionFrom] at copies
    split at copies
    · split_ifs at copies
      · cases copies
        rw [Heap.objects_retain]
      · cases copies
        rw [Heap.objects_retain]
      · obtain ⟨added, adds, computes⟩ := bind_eq_ok copies
        cases computes
        exact Heap.addComposite_appends adds
    · split at copies
      · cases copies
      · exact inductionHypothesis copies

theorem Heap.copyRegion_appends
    {result : Heap × Nat × Nat}
    (copies : heap.copyRegion data location = .ok result) :
    heap.objects <+: result.1.objects := by
  rw [Heap.copyRegion] at copies
  split_ifs at copies
  · cases copies
    exact List.prefix_rfl
  · exact Heap.copyRegionFrom_appends copies

section

variable (wellFormed : heap.WellFormed) (holds : heap.Holds data)

include wellFormed holds

/-- Objects that are added are no regions of the others. -/
theorem Heap.WellFormed.regions_ofAppends
    (appends : heap.objects <+: after.objects) :
    after.regions data = heap.regions data := by
  have object {other : Nat} (held : heap.Holds other) :
      after.object other = heap.object other := by
    obtain ⟨added, objects⟩ := appends
    rw [Heap.object, Heap.object, ← objects, List.getD_eq_getElem?_getD,
      List.getElem?_append_left held, ← List.getD_eq_getElem?_getD]
  exact Heap.regions_congr (object holds)
    (fun record member =>
      object ((wellFormed.objects data holds).records record member).holds)

/-! ## Copies -/

/-- An applier is called on the regions. -/
theorem Heap.WellFormed.appliedRegions :
    heap.appliedRegions data = .ok (heap.regions data) := by
  have collects (regions visited : List Region) :
      regions.foldl (fun visited region => visited ++ [region]) visited =
        visited ++ regions := by
    induction regions generalizing visited with
    | nil => exact (List.append_nil visited).symm
    | cons region regions inductionHypothesis =>
      rw [List.foldl_cons, inductionHypothesis, List.append_assoc]
      rfl
  rw [Heap.appliedRegions, wellFormed.apply holds, visit_of_true, collects]
  rfl

/-- What `dispatch_data_copy_region` does where an applier is called on the given
regions. -/
structure CopiesRegions
    (heap : Heap)
    (data : Nat)
    (regions : List Region) : Prop where
  /-- Inside the object, the only region that contains the location is
  returned. -/
  inside :
    ∀ location < (heap.object data).size,
      ∃ after result, ∃ region ∈ regions,
        heap.copyRegion data location =
            .ok (after, result, region.offset) ∧
          (after.object result).size = region.size ∧
          region.Contains location ∧
          (∀ other ∈ regions, other.Contains location → other = region) ∧
          after.bytes result =
            ((heap.bytes data).drop region.offset).take region.size
  /-- Beyond its end the empty object is returned. -/
  beyond :
    ∀ location ≥ (heap.object data).size,
      heap.copyRegion data location =
        .ok (heap, emptyData, (heap.object data).size)
  /-- From each region to the next, all are returned. -/
  enumerates :
    ∀ fuel > regions.length,
      Heap.copyRegions data fuel heap 0 =
        .ok (regions.map fun region => (region.offset, region.size))

omit wellFormed holds in
theorem Heap.copyRegion_beyond
    (beyond : (heap.object data).size ≤ location) :
    heap.copyRegion data location =
      .ok (heap, emptyData, (heap.object data).size) :=
  if_pos beyond

/-- The region at the location is copied, with its size. -/
theorem Heap.WellFormed.copyRegion_size
    (inside : location < (heap.object data).size) :
    ∃ after result, ∃ region ∈ heap.regions data,
      heap.copyRegion data location =
          .ok (after, result, region.offset) ∧
        (after.object result).size = region.size ∧
        region.Contains location ∧
        Returns heap after result region.buffer := by
  obtain ⟨after, result, region, member, copies, starts, ends, returns⟩ :=
    wellFormed.copyRegion holds inside
  have size := returns.wellFormed.length_bytes returns.holds
  rw [returns.denotes,
    ((wellFormed.regions_spec holds).2.2 region member).1] at size
  exact ⟨after, result, region, member, copies, size.symm, ⟨starts, ends⟩,
    returns⟩

/-- From the first of the remaining regions on, the remaining regions are
copied. -/
theorem Heap.WellFormed.copyRegions
    {regions remaining : List Region}
    {fuel : Nat}
    (regions_eq : heap.regions data = regions)
    (isRemaining : remaining ⊆ regions)
    (follows : FollowFrom location remaining)
    (ends :
      location + (remaining.map Region.size).sum = (heap.object data).size)
    (enough : remaining.length < fuel) :
    Heap.copyRegions data fuel heap location =
      .ok (remaining.map fun region => (region.offset, region.size)) := by
  induction remaining generalizing heap location fuel with
  | nil =>
    obtain ⟨fuel, rfl⟩ := Nat.exists_eq_succ_of_ne_zero
      (Nat.ne_of_gt (Nat.zero_lt_of_lt enough))
    have beyond : (heap.object data).size ≤ location := by
      rw [← ends]
      exact Nat.le_refl _
    rw [Heap.copyRegions, Heap.copyRegion_beyond beyond]
    simp only [bind, Except.bind, wellFormed.empty.2]
    rfl
  | cons region remaining inductionHypothesis =>
    obtain ⟨fuel, rfl⟩ := Nat.exists_eq_succ_of_ne_zero
      (Nat.ne_of_gt (Nat.zero_lt_of_lt enough))
    obtain ⟨starts, follows⟩ := follows
    rw [List.map_cons, List.sum_cons] at ends
    have spec := wellFormed.regions_spec holds
    have member : region ∈ heap.regions data :=
      regions_eq ▸ isRemaining List.mem_cons_self
    have positive := (spec.2.2 region member).2
    obtain ⟨after, result, found, foundMember, copies, size, contains,
      returns⟩ := wellFormed.copyRegion_size holds
        (show location < (heap.object data).size by omega)
    obtain rfl : found = region :=
      spec.1.unique member foundMember
        ⟨Nat.le_of_eq starts, by omega⟩ contains
    have same := wellFormed.regions_ofAppends holds
      (Heap.copyRegion_appends copies)
    rw [Heap.copyRegions, copies]
    simp only [bind, Except.bind, size, if_neg (Nat.ne_of_gt positive)]
    rw [inductionHypothesis returns.wellFormed
      (returns.extension.holds data holds) (same.trans regions_eq)
      (fun other inside => isRemaining (List.mem_cons_of_mem _ inside))
      (starts ▸ follows)
      (by rw [returns.extension.size data holds, ← ends]; omega)
      (Nat.lt_of_succ_lt_succ enough)]
    rfl

end

/-- The regions that are copied of an object are those that an applier is called
on. -/
theorem reachable_copiesRegions
    (reached : Reachable (· = Heap.initial) Step heap)
    (holds : heap.Holds data) :
    ∃ regions,
      heap.appliedRegions data = .ok regions ∧
        CopiesRegions heap data regions := by
  have wellFormed := reachable_wellFormed reached
  obtain ⟨follows, bytes, sizes⟩ := wellFormed.regions_spec holds
  refine ⟨heap.regions data, wellFormed.appliedRegions holds,
    { inside := ?inside, beyond := ?beyond, enumerates := ?enumerates }⟩
  case inside =>
    intro location inside
    obtain ⟨after, result, region, member, copies, size, contains,
      returns⟩ := wellFormed.copyRegion_size holds inside
    have slice := follows.slice (fun other inside => (sizes other inside).1)
      member
    rw [bytes, Nat.sub_zero] at slice
    exact ⟨after, result, region, member, copies, size, contains,
      fun other otherMember otherContains =>
        follows.unique member otherMember contains otherContains,
      returns.denotes.trans slice.symm⟩
  case beyond =>
    intro location beyond
    exact Heap.copyRegion_beyond beyond
  case enumerates =>
    intro fuel enough
    refine wellFormed.copyRegions holds rfl (List.Subset.refl _) follows ?_
      enough
    rw [Nat.zero_add, ← wellFormed.length_bytes holds]
    exact wellFormed.sum_sizes holds

/-- A range across two leaves is copied in two regions. -/
theorem rangeOfFlattened_copiesRegions :
    ∃ heap : Heap, ∃ regions,
      heap.regions 5 = [⟨1, 0, [3], 1⟩, ⟨2, 1, [4], 1⟩] ∧
        heap.appliedRegions 5 = .ok regions ∧
        CopiesRegions heap 5 regions := by
  obtain ⟨heap, reached, objects⟩ := rangeOfFlattened_reached
  obtain ⟨regions, applied, copies⟩ :=
    reachable_copiesRegions reached (show heap.Holds 5 by
      simp [Heap.Holds, objects])
  refine ⟨heap, regions, ?_, applied, copies⟩
  simp [Heap.regions, Heap.recordRegions, Heap.mapDirect, Heap.slice,
    Heap.leafBytes, Heap.object, objects]

end LibDispatch.Data
