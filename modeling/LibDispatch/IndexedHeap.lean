import Mathlib

namespace LibDispatch

/-!
# Binary heaps whose items know their place

A binary min-heap in an array, together with the record that every item keeps of
where it is.  Sifting is described by a hole: one position of the array that is
about to receive an item.  The hole travels up or down by moving a neighbour
into it, and the heap is whole again once the item fits.

How a position is numbered in the records is a parameter, so that several heaps
can share one array.
-/

/-- The positions of an array with their items, and the record of each item. -/
structure IndexedHeap (Item : Type) where
  slot : Nat → Option Item
  entry : Item → Nat

namespace IndexedHeap

/-- The position above a position other than the root. -/
def parent (position : Nat) : Nat :=
  (position - 1) / 2

section Heaps

variable {Item Key : Type} [DecidableEq Item] [LinearOrder Key]
variable {index : Nat → Nat} {key : Item → Key} {Member : Item → Prop}
variable {heap : IndexedHeap Item} {count hole : Nat} {item : Item}

/-- Store an item at a position and record the position in the item. -/
def set
    (index : Nat → Nat)
    (heap : IndexedHeap Item)
    (position : Nat)
    (item : Item) :
    IndexedHeap Item where
  slot := Function.update heap.slot position (some item)
  entry := Function.update heap.entry item (index position)

/-- The positions below `count` hold the members, each of them once and each
recorded, and no item is smaller than the one above it. -/
structure Heaped
    (index : Nat → Nat)
    (key : Item → Key)
    (Member : Item → Prop)
    (heap : IndexedHeap Item)
    (count : Nat) :
    Prop where
  filled :
    ∀ position < count, ∃ held,
      heap.slot position = some held ∧
      Member held ∧
      heap.entry held = index position
  placed :
    ∀ member, Member member →
      ∃ position < count, heap.slot position = some member
  ordered :
    ∀ position above below,
      0 < position →
      position < count →
      heap.slot (parent position) = some above →
      heap.slot position = some below →
      key above ≤ key below

/-- The positions below `count` other than the hole hold the members other than
`item`, each of them once and each recorded. -/
structure Spread
    (index : Nat → Nat)
    (Member : Item → Prop)
    (heap : IndexedHeap Item)
    (count hole : Nat)
    (item : Item) :
    Prop where
  inside : hole < count
  member : Member item
  filled :
    ∀ position < count, position ≠ hole → ∃ held,
      heap.slot position = some held ∧
      held ≠ item ∧
      Member held ∧
      heap.entry held = index position
  placed :
    ∀ member, Member member → member ≠ item →
      ∃ position < count, position ≠ hole ∧ heap.slot position = some member

/-- No item is smaller than the one above it, where the items below the hole are
compared with the one above the hole. -/
structure OrderedAround
    (key : Item → Key)
    (heap : IndexedHeap Item)
    (count hole : Nat) :
    Prop where
  ordered :
    ∀ position above below,
      0 < position →
      position < count →
      position ≠ hole →
      parent position ≠ hole →
      heap.slot (parent position) = some above →
      heap.slot position = some below →
      key above ≤ key below
  bridged :
    ∀ position above below,
      0 < hole →
      0 < position →
      position < count →
      parent position = hole →
      heap.slot (parent hole) = some above →
      heap.slot position = some below →
      key above ≤ key below

/-- A heap with a hole that waits for `item`. -/
structure Holed
    (index : Nat → Nat)
    (key : Item → Key)
    (Member : Item → Prop)
    (heap : IndexedHeap Item)
    (count hole : Nat)
    (item : Item) :
    Prop where
  spread : Spread index Member heap count hole item
  around : OrderedAround key heap count hole

/-- An item is not smaller than the one above the hole. -/
def FitsAbove
    (key : Item → Key)
    (heap : IndexedHeap Item)
    (hole : Nat)
    (item : Item) :
    Prop :=
  ∀ above,
    0 < hole →
    heap.slot (parent hole) = some above →
    key above ≤ key item

/-- An item is not larger than the ones below the hole. -/
def FitsBelow
    (key : Item → Key)
    (heap : IndexedHeap Item)
    (count hole : Nat)
    (item : Item) :
    Prop :=
  ∀ position below,
    0 < position →
    position < count →
    parent position = hole →
    heap.slot position = some below →
    key item ≤ key below

/-! ## Setting one position -/

theorem set_slot_same (position : Nat) :
    (heap.set index position item).slot position = some item := by
  simp [set]

variable {position : Nat}

theorem set_slot_other
    {other : Nat}
    (differs : other ≠ position) :
    (heap.set index position item).slot other = heap.slot other := by
  simp [set, differs]

/-- An item is at a position because it was stored there or was there before. -/
theorem set_slot_cases
    {other : Nat}
    {held : Item}
    (holds : (heap.set index position item).slot other = some held) :
    other = position ∧ item = held ∨
      other ≠ position ∧ heap.slot other = some held := by
  by_cases isStored : other = position
  · rw [isStored, set_slot_same] at holds
    exact .inl ⟨isStored, Option.some.inj holds⟩
  · rw [set_slot_other isStored] at holds
    exact .inr ⟨isStored, holds⟩

theorem set_entry_same (position : Nat) :
    (heap.set index position item).entry item = index position := by
  simp [set]

theorem set_entry_other
    {other : Item}
    (differs : other ≠ item) :
    (heap.set index position item).entry other = heap.entry other := by
  simp [set, differs]

theorem parent_lt
    (below : 0 < position) :
    parent position < position := by
  unfold parent
  omega

/-! ## Arrangements -/

/-- Some positions hold the members, each of them once and each recorded. -/
structure Arranged
    (index : Nat → Nat)
    (heap : IndexedHeap Item)
    (At : Nat → Prop)
    (Member : Item → Prop) :
    Prop where
  filled :
    ∀ position, At position → ∃ held,
      heap.slot position = some held ∧
      Member held ∧
      heap.entry held = index position
  placed :
    ∀ member, Member member →
      ∃ position, At position ∧ heap.slot position = some member

variable {At : Nat → Prop}

section Positions

omit [DecidableEq Item]

theorem Heaped.arranged (heaped : Heaped index key Member heap count) :
    Arranged index heap (· < count) Member :=
  ⟨heaped.filled, heaped.placed⟩

theorem Spread.arranged
    (spread : Spread index Member heap count hole item) :
    Arranged index heap (fun position => position < count ∧ position ≠ hole)
      (fun member => member ≠ item ∧ Member member) where
  filled := by
    rintro position ⟨below, off⟩
    simpa only [and_assoc] using spread.filled position below off
  placed := by
    rintro member ⟨isOther, isMember⟩
    simpa only [and_assoc] using spread.placed member isMember isOther

theorem Spread.ofArranged
    (inside : hole < count)
    (member : Member item)
    (arranged :
      Arranged index heap (fun position => position < count ∧ position ≠ hole)
        (fun member => member ≠ item ∧ Member member)) :
    Spread index Member heap count hole item where
  inside := inside
  member := member
  filled position below off := by
    simpa only [and_assoc] using arranged.filled position ⟨below, off⟩
  placed member isMember isOther := by
    simpa only [and_assoc] using arranged.placed member ⟨isOther, isMember⟩

/-- What an item is known to be. -/
theorem Arranged.held
    (arranged : Arranged index heap At Member)
    (inside : At position)
    {held : Item}
    (holds : heap.slot position = some held) :
    Member held ∧ heap.entry held = index position := by
  obtain ⟨other, otherAt, facts⟩ := arranged.filled position inside
  obtain rfl : other = held := Option.some.inj (otherAt.symm.trans holds)
  exact facts

/-- An item is only found at the place that it has recorded. -/
theorem Arranged.injective
    (numbering : Function.Injective index)
    (arranged : Arranged index heap At Member)
    {first second : Nat}
    (firstInside : At first)
    (secondInside : At second)
    {held : Item}
    (firstHolds : heap.slot first = some held)
    (secondHolds : heap.slot second = some held) :
    first = second := by
  obtain ⟨-, firstEntry⟩ := arranged.held firstInside firstHolds
  obtain ⟨-, secondEntry⟩ := arranged.held secondInside secondHolds
  exact numbering (firstEntry.symm.trans secondEntry)

/-- An arrangement depends on the items at its positions and on their records. -/
theorem Arranged.congr
    {other : IndexedHeap Item}
    {OtherAt : Nat → Prop}
    {OtherMember : Item → Prop}
    (arranged : Arranged index heap At Member)
    (sameSlots : ∀ position, At position →
      other.slot position = heap.slot position)
    (sameEntries : ∀ member, Member member →
      other.entry member = heap.entry member)
    (samePlaces : ∀ position, OtherAt position ↔ At position)
    (sameMembers : ∀ member, OtherMember member ↔ Member member) :
    Arranged index other OtherAt OtherMember where
  filled position isAt := by
    rw [samePlaces] at isAt
    obtain ⟨held, heldAt, isMember, entry⟩ := arranged.filled position isAt
    exact
      ⟨held, (sameSlots position isAt).trans heldAt,
        (sameMembers held).mpr isMember,
        (sameEntries held isMember).trans entry⟩
  placed member isMember := by
    obtain ⟨position, isAt, heldAt⟩ :=
      arranged.placed member ((sameMembers member).mp isMember)
    exact
      ⟨position, (samePlaces position).mpr isAt,
        (sameSlots position isAt).trans heldAt⟩

/-- Leaving out a position leaves out its item. -/
theorem Arranged.remove
    (numbering : Function.Injective index)
    (arranged : Arranged index heap At Member)
    (inside : At hole)
    (holds : heap.slot hole = some item) :
    Arranged index heap (fun position => At position ∧ position ≠ hole)
      (fun member => member ≠ item ∧ Member member) where
  filled := by
    rintro position ⟨isAt, off⟩
    obtain ⟨held, heldAt, isMember, entry⟩ := arranged.filled position isAt
    refine ⟨held, heldAt, ⟨?_, isMember⟩, entry⟩
    rintro rfl
    exact off (arranged.injective numbering isAt inside heldAt holds)
  placed := by
    rintro member ⟨isOther, isMember⟩
    obtain ⟨position, isAt, heldAt⟩ := arranged.placed member isMember
    refine ⟨position, ⟨isAt, ?_⟩, heldAt⟩
    rintro rfl
    exact isOther (Option.some.inj (heldAt.symm.trans holds))

end Positions

/-- Storing the item that is left out at the position that is left out. -/
theorem Arranged.store
    (arranged :
      Arranged index heap (fun position => At position ∧ position ≠ hole)
        (fun member => member ≠ item ∧ Member member))
    (inside : At hole)
    (isMember : Member item) :
    Arranged index (heap.set index hole item) At Member where
  filled position isAt := by
    by_cases atHole : position = hole
    · subst atHole
      exact ⟨item, set_slot_same _, isMember, set_entry_same _⟩
    · obtain ⟨held, heldAt, ⟨isOther, heldMember⟩, entry⟩ :=
        arranged.filled position ⟨isAt, atHole⟩
      exact
        ⟨held, (set_slot_other atHole).trans heldAt, heldMember,
          (set_entry_other isOther).trans entry⟩
  placed member memberIn := by
    by_cases isItem : member = item
    · subst isItem
      exact ⟨hole, inside, set_slot_same hole⟩
    · obtain ⟨position, ⟨isAt, atHole⟩, heldAt⟩ :=
        arranged.placed member ⟨isItem, memberIn⟩
      exact ⟨position, isAt, (set_slot_other atHole).trans heldAt⟩

/-! ## Moving the hole -/

/-- Moving an item into the hole leaves a hole where the item was. -/
theorem Spread.move
    (numbering : Function.Injective index)
    (spread : Spread index Member heap count hole item)
    {origin : Nat}
    (inside : origin < count)
    (off : origin ≠ hole)
    {moved : Item}
    (holds : heap.slot origin = some moved) :
    Spread index Member (heap.set index hole moved) count origin item := by
  have removed := spread.arranged.remove numbering ⟨inside, off⟩ holds
  have isMoved := (spread.arranged.held ⟨inside, off⟩ holds).1
  refine
    .ofArranged inside spread.member
      (.store ?_ ⟨spread.inside, off.symm⟩ isMoved)
  exact
    removed.congr (fun _ _ => rfl) (fun _ _ => rfl)
      (fun _ => and_right_comm) (fun _ => Iff.rfl)

variable {above : Item}

/-- The hole moves up when the item above it comes down. -/
theorem OrderedAround.pullDown
    (spread : Spread index Member heap count hole item)
    (around : OrderedAround key heap count hole)
    (belowRoot : 0 < hole)
    (holds : heap.slot (parent hole) = some above) :
    OrderedAround key (heap.set index hole above) count (parent hole) := by
  have upward : parent hole < hole := parent_lt belowRoot
  refine
    { ordered := ?ordered
      bridged := ?bridged }
  case ordered =>
    intro position upper lower positive inside off parentOff upperAt lowerAt
    have positionOff : position ≠ hole := by
      rintro rfl
      exact parentOff rfl
    rw [set_slot_other positionOff] at lowerAt
    rcases set_slot_cases upperAt with ⟨child, rfl⟩ | ⟨child, upperAt⟩
    · exact
        around.bridged position above lower belowRoot positive inside child
          holds lowerAt
    · exact
        around.ordered position upper lower positive inside positionOff child
          upperAt lowerAt
  case bridged =>
    intro position upper lower parentPositive positive inside child upperAt
      lowerAt
    have higher : parent (parent hole) < parent hole :=
      parent_lt parentPositive
    rw [set_slot_other (by omega)] at upperAt
    have upperLe : key upper ≤ key above :=
      around.ordered (parent hole) upper above parentPositive
        (by have := spread.inside; omega) (by omega) (by omega)
        upperAt holds
    rcases set_slot_cases lowerAt with ⟨-, rfl⟩ | ⟨atHole, lowerAt⟩
    · exact upperLe
    · have parentHolds : heap.slot (parent position) = some above := by
        rw [child]
        exact holds
      exact
        upperLe.trans
          (around.ordered position above lower positive inside atHole
            (by omega) parentHolds lowerAt)

variable {child : Nat} {below : Item}

/-- The hole moves down when the smallest item below it comes up. -/
theorem OrderedAround.pushUp
    (around : OrderedAround key heap count hole)
    (positive : 0 < child)
    (isChild : parent child = hole)
    (holds : heap.slot child = some below)
    (least : FitsBelow key heap count hole below)
    (inside : child < count) :
    OrderedAround key (heap.set index hole below) count child := by
  have downward : hole < child := isChild ▸ parent_lt positive
  refine
    { ordered := ?ordered
      bridged := ?bridged }
  case ordered =>
    intro position upper lower isPositive positionInside off parentOff upperAt
      lowerAt
    have upward : parent position < position := parent_lt isPositive
    rcases set_slot_cases lowerAt with ⟨rfl, rfl⟩ | ⟨atHole, lowerAt⟩
    · rw [set_slot_other (by omega)] at upperAt
      exact
        around.bridged child upper below isPositive positive inside isChild
          upperAt holds
    · rcases set_slot_cases upperAt with ⟨sibling, rfl⟩ | ⟨sibling, upperAt⟩
      · exact least position lower isPositive positionInside sibling lowerAt
      · exact
          around.ordered position upper lower isPositive positionInside atHole
            sibling upperAt lowerAt
  case bridged =>
    intro position upper lower _ isPositive positionInside grandchild upperAt
      lowerAt
    have upward : parent position < position := parent_lt isPositive
    rw [isChild, set_slot_same, Option.some.injEq] at upperAt
    subst upperAt
    rw [set_slot_other (by omega)] at lowerAt
    exact
      around.ordered position below lower isPositive positionInside (by omega)
        (by omega) (by rw [grandchild]; exact holds) lowerAt

/-- The hole moves up when the item above it comes down. -/
theorem Holed.pullDown
    (numbering : Function.Injective index)
    (holed : Holed index key Member heap count hole item)
    (belowRoot : 0 < hole)
    (holds : heap.slot (parent hole) = some above) :
    Holed index key Member (heap.set index hole above) count (parent hole)
      item := by
  have upward : parent hole < hole := parent_lt belowRoot
  have inside : hole < count := holed.spread.inside
  exact
    { spread := holed.spread.move numbering (by omega) (by omega) holds
      around := holed.around.pullDown holed.spread belowRoot holds }

/-- The hole moves down when the smallest item below it comes up. -/
theorem Holed.pushUp
    (numbering : Function.Injective index)
    (holed : Holed index key Member heap count hole item)
    (positive : 0 < child)
    (inside : child < count)
    (isChild : parent child = hole)
    (holds : heap.slot child = some below)
    (least : FitsBelow key heap count hole below) :
    Holed index key Member (heap.set index hole below) count child item := by
  have downward : hole < child := isChild ▸ parent_lt positive
  exact
    { spread := holed.spread.move numbering inside (by omega) holds
      around := holed.around.pushUp positive isChild holds least inside }

/-- An item that is not larger than the one that came down fits above it and its
sibling. -/
theorem Holed.fitsBelow_pullDown
    (holed : Holed index key Member heap count hole item)
    (belowRoot : 0 < hole)
    (holds : heap.slot (parent hole) = some above)
    (smaller : key item ≤ key above) :
    FitsBelow key (heap.set index hole above) count (parent hole) item := by
  have upward : parent hole < hole := parent_lt belowRoot
  intro position below positive inside child belowAt
  rcases set_slot_cases belowAt with ⟨-, rfl⟩ | ⟨atHole, belowAt⟩
  · exact smaller
  · exact
      smaller.trans
        (holed.around.ordered position above below positive inside atHole
          (by omega) (by rw [child]; exact holds) belowAt)

/-- An item that is not smaller than the one that went up fits below it. -/
theorem fitsAbove_pushUp
    (isChild : parent child = hole)
    (larger : key below ≤ key item) :
    FitsAbove key (heap.set index hole below) child item := by
  intro above _ aboveAt
  rw [isChild, set_slot_same, Option.some.injEq] at aboveAt
  exact aboveAt ▸ larger

/-- An item that fits between its neighbours makes the heap whole. -/
theorem Holed.fill
    (holed : Holed index key Member heap count hole item)
    (fitsAbove : FitsAbove key heap hole item)
    (fitsBelow : FitsBelow key heap count hole item) :
    Heaped index key Member (heap.set index hole item) count := by
  have arranged :=
    holed.spread.arranged.store holed.spread.inside holed.spread.member
  refine
    { filled := arranged.filled
      placed := arranged.placed
      ordered := ?ordered }
  intro position above below positive inside aboveAt belowAt
  have upward : parent position < position := parent_lt positive
  rcases set_slot_cases belowAt with ⟨rfl, rfl⟩ | ⟨atHole, belowAt⟩
  · rw [set_slot_other (by omega)] at aboveAt
    exact fitsAbove above positive aboveAt
  · rcases set_slot_cases aboveAt with ⟨child, rfl⟩ | ⟨child, aboveAt⟩
    · exact fitsBelow position below positive inside child belowAt
    · exact
        holed.around.ordered position above below positive inside atHole child
          aboveAt belowAt

/-! ## Making and closing a hole -/

omit [DecidableEq Item]

/-- A member whose key has changed leaves a hole where it is. -/
theorem Heaped.rekey
    {newKey : Item → Key}
    (numbering : Function.Injective index)
    (heaped : Heaped index key Member heap count)
    (inside : hole < count)
    (holds : heap.slot hole = some item)
    (unchanged : ∀ other, other ≠ item → newKey other = key other) :
    Holed index newKey Member heap count hole item := by
  have removed := heaped.arranged.remove numbering inside holds
  have differs
      (position : Nat)
      (other : Item)
      (below : position < count)
      (off : position ≠ hole)
      (heldAt : heap.slot position = some other) :
      other ≠ item :=
    (removed.held ⟨below, off⟩ heldAt).1.1
  refine
    { spread :=
        .ofArranged inside (heaped.arranged.held inside holds).1 removed
      around :=
        { ordered := ?ordered
          bridged := ?bridged } }
  case ordered =>
    intro position above lower positive below off parentOff aboveAt lowerAt
    have upward : parent position < position := parent_lt positive
    rw [unchanged above (differs _ _ (by omega) parentOff aboveAt),
      unchanged lower (differs _ _ below off lowerAt)]
    exact heaped.ordered position above lower positive below aboveAt lowerAt
  case bridged =>
    intro position above lower holePositive positive below child aboveAt
      lowerAt
    have upward : parent hole < hole := parent_lt holePositive
    have downward : parent position < position := parent_lt positive
    rw [unchanged above (differs _ _ (by omega) (by omega) aboveAt),
      unchanged lower (differs _ _ below (by omega) lowerAt)]
    exact
      (heaped.ordered hole above item holePositive inside aboveAt holds).trans
        (heaped.ordered position item lower positive below
          (by rw [child]; exact holds) lowerAt)

/-- A new item waits behind the last one. -/
theorem Heaped.extend
    (heaped : Heaped index key Member heap count)
    (isNew : ¬ Member item) :
    Holed index key (fun other => other = item ∨ Member other) heap
      (count + 1) count item := by
  refine
    { spread :=
        .ofArranged (Nat.lt_succ_self count) (.inl rfl)
          (heaped.arranged.congr (fun _ _ => rfl) (fun _ _ => rfl) ?places
            ?members)
      around :=
        { ordered := ?ordered
          bridged := ?bridged } }
  case places =>
    intro position
    omega
  case members =>
    intro member
    refine ⟨fun isIn => isIn.2.resolve_left isIn.1, fun isIn => ?_⟩
    refine ⟨?_, .inr isIn⟩
    rintro rfl
    exact isNew isIn
  case ordered =>
    intro position above lower positive below off _ aboveAt lowerAt
    exact
      heaped.ordered position above lower positive (by omega) aboveAt lowerAt
  case bridged =>
    intro position above lower _ positive below child
    have upward : parent position < position := parent_lt positive
    omega

/-- When an item leaves, the last one waits for its place. -/
theorem Holed.replaceWithLast
    (numbering : Function.Injective index)
    (holed : Holed index key Member heap (count + 1) hole item)
    (beforeLast : hole < count)
    {last : Item}
    (holds : heap.slot count = some last) :
    Holed index key (fun other => Member other ∧ other ≠ item) heap count hole
      last := by
  have inside : count < count + 1 ∧ count ≠ hole := by omega
  obtain ⟨lastOther, lastMember⟩ := (holed.spread.arranged.held inside holds).1
  have removed := holed.spread.arranged.remove numbering inside holds
  refine
    { spread := .ofArranged beforeLast ⟨lastMember, lastOther⟩ ?spread
      around :=
        { ordered := ?ordered
          bridged := ?bridged } }
  case spread =>
    refine
      removed.congr (fun _ _ => rfl) (fun _ _ => rfl) ?_
        (fun member => and_congr_right' and_comm)
    intro position
    omega
  case ordered =>
    intro position above lower positive below
    exact holed.around.ordered position above lower positive (by omega)
  case bridged =>
    intro position above lower holePositive positive below
    exact
      holed.around.bridged position above lower holePositive positive
        (by omega)

/-- When the last item leaves, the others are a heap. -/
theorem Holed.dropLast
    (holed : Holed index key Member heap (count + 1) count item) :
    Heaped index key (fun other => Member other ∧ other ≠ item) heap
      count := by
  have arranged :
      Arranged index heap (· < count)
        (fun other => Member other ∧ other ≠ item) := by
    refine
      holed.spread.arranged.congr (fun _ _ => rfl) (fun _ _ => rfl) ?_
        (fun _ => and_comm)
    intro position
    omega
  refine
    { filled := arranged.filled
      placed := arranged.placed
      ordered := ?ordered }
  intro position above lower positive below
  have upward : parent position < position := parent_lt positive
  exact
    holed.around.ordered position above lower positive (by omega) (by omega)
      (by omega)

/-! ## What a heap depends on, and what it gives -/

section

variable {other : IndexedHeap Item} {OtherMember : Item → Prop}
  (sameSlots : ∀ position < count, other.slot position = heap.slot position)
  (sameEntries :
    ∀ member, Member member → other.entry member = heap.entry member)
  (sameMembers : ∀ member, OtherMember member ↔ Member member)

include sameSlots sameEntries sameMembers

/-- A hole only depends on the positions that are in use, on the records of the
items that are there and on which items are members. -/
theorem Holed.congr
    (holed : Holed index key Member heap count hole item) :
    Holed index key OtherMember other count hole item := by
  have arranged :=
    holed.spread.arranged.congr
      (fun position isAt => sameSlots position isAt.1)
      (fun member isIn => sameEntries member isIn.2) (fun _ => Iff.rfl)
      (fun member => and_congr_right' (sameMembers member))
  refine
    { spread :=
        .ofArranged holed.spread.inside
          ((sameMembers item).mpr holed.spread.member) arranged
      around :=
        { ordered := ?ordered
          bridged := ?bridged } }
  case ordered =>
    intro position above lower positive below off parentOff aboveAt lowerAt
    have upward : parent position < position := parent_lt positive
    rw [sameSlots _ (by omega)] at aboveAt
    rw [sameSlots _ below] at lowerAt
    exact
      holed.around.ordered position above lower positive below off parentOff
        aboveAt lowerAt
  case bridged =>
    intro position above lower holePositive positive below child aboveAt
      lowerAt
    have upward : parent hole < hole := parent_lt holePositive
    have inside : hole < count := holed.spread.inside
    rw [sameSlots _ (by omega)] at aboveAt
    rw [sameSlots _ below] at lowerAt
    exact
      holed.around.bridged position above lower holePositive positive below
        child aboveAt lowerAt

/-- A heap only depends on the positions that are in use, on the records of its
members and on which items are members. -/
theorem Heaped.congr
    (heaped : Heaped index key Member heap count) :
    Heaped index key OtherMember other count := by
  have arranged :=
    heaped.arranged.congr sameSlots sameEntries (fun _ => Iff.rfl) sameMembers
  refine
    { filled := arranged.filled
      placed := arranged.placed
      ordered := ?ordered }
  intro position above lower positive below aboveAt lowerAt
  have upward : parent position < position := parent_lt positive
  rw [sameSlots _ (by omega)] at aboveAt
  rw [sameSlots _ below] at lowerAt
  exact heaped.ordered position above lower positive below aboveAt lowerAt

end

/-- A heap does not depend on the keys of other items. -/
theorem Heaped.congr_key
    {newKey : Item → Key}
    (heaped : Heaped index key Member heap count)
    (sameKeys : ∀ member, Member member → newKey member = key member) :
    Heaped index newKey Member heap count := by
  refine { heaped with ordered := ?_ }
  intro position above below positive inside aboveAt belowAt
  have upward : parent position < position := parent_lt positive
  obtain ⟨aboveMember, -⟩ := heaped.arranged.held (Nat.lt_trans upward inside) aboveAt
  obtain ⟨belowMember, -⟩ := heaped.arranged.held inside belowAt
  rw [sameKeys above aboveMember, sameKeys below belowMember]
  exact heaped.ordered position above below positive inside aboveAt belowAt

/-- The item at the root is the least of a heap. -/
theorem Heaped.root_le
    (heaped : Heaped index key Member heap count)
    {root : Item}
    (atRoot : heap.slot 0 = some root)
    (position : Nat) :
    ∀ held,
      position < count →
      heap.slot position = some held →
      key root ≤ key held := by
  induction position using Nat.strongRecOn with
  | ind position inductionHypothesis =>
    intro held inside holds
    rcases Nat.eq_zero_or_pos position with rfl | positive
    · exact (Option.some.inj (atRoot.symm.trans holds)) ▸ le_refl _
    · have upward : parent position < position := parent_lt positive
      obtain ⟨above, aboveAt, -, -⟩ :=
        heaped.filled (parent position) (by omega)
      exact
        (inductionHypothesis _ upward above (by omega) aboveAt).trans
          (heaped.ordered position above held positive inside aboveAt holds)

end Heaps

end IndexedHeap

end LibDispatch
