import Mathlib.Data.List.Nodup

namespace LibDispatch

/-!
# Singly linked segments with missing links

A concurrent list is published in two stores: a node first becomes part of the
list, and the pointer that leads to it is stored later.  An entry therefore
records whether the pointer to its node has been stored, and a segment relates
a list of entries to the `next` fields of a heap.
-/

/-- A node of a list and whether the pointer to it is in place. -/
structure Entry (Node : Type) where
  node : Node
  linked : Bool
  deriving Repr, DecidableEq

variable {Node : Type}

/-- What the pointer that leads to an entry holds. -/
def Entry.pointer (entry : Entry Node) : Option Node :=
  if entry.linked then some entry.node else none

variable (node : Node)

@[simp] theorem Entry.pointer_linked :
    (Entry.mk node true).pointer = some node := rfl

@[simp] theorem Entry.pointer_unlinked :
    (Entry.mk node false).pointer = none := rfl

/-- The nodes of a list of entries. -/
def nodesOf (entries : List (Entry Node)) : List Node :=
  entries.map Entry.node

@[simp] theorem nodesOf_nil :
    nodesOf ([] : List (Entry Node)) = [] := rfl

@[simp] theorem nodesOf_cons
    (entry : Entry Node)
    (rest : List (Entry Node)) :
    nodesOf (entry :: rest) = entry.node :: nodesOf rest := rfl

@[simp] theorem nodesOf_append
    (first second : List (Entry Node)) :
    nodesOf (first ++ second) = nodesOf first ++ nodesOf second :=
  List.map_append

theorem nodesOf_tail
    (entries : List (Entry Node)) :
    (nodesOf entries).tail = nodesOf entries.tail :=
  List.map_tail.symm

variable {entries : List (Entry Node)} {entry : Entry Node}

theorem mem_nodesOf
    (member : entry ∈ entries) :
    entry.node ∈ nodesOf entries :=
  List.mem_map_of_mem member

/-- Entries whose pointers are all in place. -/
def linkedEntries (nodes : List Node) : List (Entry Node) :=
  nodes.map fun node => ⟨node, true⟩

@[simp] theorem linkedEntries_nil :
    linkedEntries ([] : List Node) = [] := rfl

@[simp] theorem linkedEntries_cons
    (rest : List Node) :
    linkedEntries (node :: rest) = ⟨node, true⟩ :: linkedEntries rest := rfl

@[simp] theorem linkedEntries_append
    (first second : List Node) :
    linkedEntries (first ++ second) =
      linkedEntries first ++ linkedEntries second :=
  List.map_append

@[simp] theorem nodesOf_linkedEntries
    (nodes : List Node) :
    nodesOf (linkedEntries nodes) = nodes := by
  simp [nodesOf, linkedEntries, Function.comp_def]

variable {nodes : List Node}

/-- The `next` fields lead from one pointer through all entries to another. -/
def Segment
    (next : Node → Option Node) :
    Option Node → List (Entry Node) → Option Node → Prop
  | incoming, [], outgoing => incoming = outgoing
  | incoming, entry :: rest, outgoing =>
    incoming = entry.pointer ∧ Segment next (next entry.node) rest outgoing

variable {outgoing : Option Node} {node : Node}

namespace Segment

variable {next : Node → Option Node} {incoming : Option Node}

@[simp] theorem nil_iff :
    Segment next incoming [] outgoing ↔ incoming = outgoing := Iff.rfl

@[simp] theorem cons_iff
    {rest : List (Entry Node)} :
    Segment next incoming (entry :: rest) outgoing ↔
      incoming = entry.pointer ∧
        Segment next (next entry.node) rest outgoing := Iff.rfl

/-- A segment splits at any place. -/
theorem append_iff
    {first second : List (Entry Node)} :
    Segment next incoming (first ++ second) outgoing ↔
      ∃ middle, Segment next incoming first middle ∧
        Segment next middle second outgoing := by
  induction first generalizing incoming with
  | nil =>
    simp
  | cons entry rest inductionHypothesis =>
    simp only [List.cons_append, cons_iff, inductionHypothesis]
    constructor
    · rintro ⟨pointer, middle, before, after⟩
      exact ⟨middle, ⟨pointer, before⟩, after⟩
    · rintro ⟨middle, ⟨pointer, before⟩, after⟩
      exact ⟨pointer, middle, before, after⟩

/-- A segment only reads the `next` fields of its own nodes. -/
theorem congr
    {next' : Node → Option Node}
    (same : ∀ node ∈ nodesOf entries, next' node = next node)
    (segment : Segment next incoming entries outgoing) :
    Segment next' incoming entries outgoing := by
  induction entries generalizing incoming with
  | nil =>
    exact segment
  | cons entry rest inductionHypothesis =>
    obtain ⟨pointer, remaining⟩ := segment
    refine ⟨pointer, ?_⟩
    rw [same entry.node (by simp)]
    exact inductionHypothesis
      (fun node member => same node (by simp [member])) remaining

variable [DecidableEq Node]

/-- A store to a node outside a segment leaves it alone. -/
theorem update_outside
    {value : Option Node}
    {target : Node}
    (outside : target ∉ nodesOf entries)
    (segment : Segment next incoming entries outgoing) :
    Segment (Function.update next target value) incoming entries outgoing := by
  refine segment.congr ?_
  intro node member
  have different : node ≠ target := fun same => outside (same ▸ member)
  exact Function.update_of_ne different value next

/-- A store to the last node of a segment redirects its outgoing pointer. -/
theorem update_last
    {value : Option Node}
    {last : Entry Node}
    (distinct : (nodesOf (entries ++ [last])).Nodup)
    (segment : Segment next incoming (entries ++ [last]) outgoing) :
    Segment (Function.update next last.node value) incoming
      (entries ++ [last]) value := by
  obtain ⟨middle, before, pointer, -⟩ := append_iff.mp segment
  have outside : last.node ∉ nodesOf entries := by
    intro member
    simp only [nodesOf_append, nodesOf_cons, nodesOf_nil,
      List.nodup_append] at distinct
    exact distinct.2.2 last.node member last.node (by simp) rfl
  refine append_iff.mpr ⟨middle, before.update_outside outside, pointer, ?_⟩
  simp

/-- The pointer store that completes a publication: the `next` field of the
entry before an unlinked one now leads to it. -/
theorem link
    {earlier later : List (Entry Node)}
    {previous : Entry Node}
    (distinct : (nodesOf (earlier ++ previous :: ⟨node, false⟩ :: later)).Nodup)
    (segment : Segment next incoming
      (earlier ++ previous :: ⟨node, false⟩ :: later) outgoing) :
    Segment (Function.update next previous.node (some node)) incoming
      (earlier ++ previous :: ⟨node, true⟩ :: later) outgoing := by
  obtain ⟨middle, before, pointer, -, after⟩ := append_iff.mp segment
  simp only [nodesOf_append, nodesOf_cons, List.nodup_append,
    List.nodup_cons, List.mem_cons, not_or] at distinct
  obtain ⟨-, ⟨⟨previousNotNode, previousNotLater⟩, -, -⟩, apart⟩ := distinct
  have outsideEarlier : previous.node ∉ nodesOf earlier := by
    intro member
    exact apart _ member _ (Or.inl rfl) rfl
  refine append_iff.mpr
    ⟨middle, before.update_outside outsideEarlier, pointer, ?_, ?_⟩
  · simp
  · simp only [Function.update_of_ne (Ne.symm previousNotNode)]
    exact after.update_outside previousNotLater

end Segment

/-- The last node of a list of entries. -/
def lastNode (entries : List (Entry Node)) : Option Node :=
  (nodesOf entries).getLast?

@[simp] theorem lastNode_nil :
    lastNode ([] : List (Entry Node)) = none := rfl

@[simp] theorem lastNode_concat
    (entries : List (Entry Node))
    (last : Entry Node) :
    lastNode (entries ++ [last]) = some last.node := by
  simp [lastNode]

theorem lastNode_append_of_ne_nil
    (first : List (Entry Node))
    {second : List (Entry Node)}
    (nonempty : second ≠ []) :
    lastNode (first ++ second) = lastNode second := by
  have nodesNonempty : nodesOf second ≠ [] := by
    simpa [nodesOf] using nonempty
  simp [lastNode, List.getLast?_append_of_ne_nil _ nodesNonempty]

theorem lastNode_eq_none_iff :
    lastNode entries = none ↔ entries = [] := by
  simp [lastNode, nodesOf]

/-- An entry list that ends in a given node. -/
theorem exists_concat_of_lastNode
    (last : lastNode entries = some node) :
    ∃ earlier linked, entries = earlier ++ [⟨node, linked⟩] := by
  rcases List.eq_nil_or_concat entries with isNil | ⟨earlier, final, shape⟩
  · simp [isNil] at last
  · rw [List.concat_eq_append] at shape
    rw [shape, lastNode_concat, Option.some.injEq] at last
    exact ⟨earlier, final.linked, by rw [shape, ← last]⟩

/-- Entries that begin with given nodes, all of them linked. -/
def StartsLinked
    (entries : List (Entry Node))
    (nodes : List Node) : Prop :=
  ∃ rest, entries = linkedEntries nodes ++ rest

namespace StartsLinked

theorem append
    (starts : StartsLinked entries nodes)
    (added : List (Entry Node)) :
    StartsLinked (entries ++ added) nodes := by
  obtain ⟨rest, rfl⟩ := starts
  exact ⟨rest ++ added, by simp⟩

/-- The incoming pointer of a segment that starts linked is its first node. -/
theorem incoming
    {next : Node → Option Node}
    {pointer : Option Node}
    (starts : StartsLinked entries [node])
    (segment : Segment next pointer entries outgoing) :
    pointer = some node := by
  obtain ⟨rest, rfl⟩ := starts
  exact segment.1

/-- A pointer that is in place leads to the first entry. -/
theorem of_incoming
    {next : Node → Option Node}
    (segment : Segment next (some node) entries none) :
    StartsLinked entries [node] := by
  cases entries with
  | nil =>
    cases segment
  | cons entry rest =>
    obtain ⟨first, linked⟩ := entry
    cases linked with
    | false => cases segment.1
    | true =>
      obtain rfl := Option.some.inj segment.1
      exact ⟨rest, rfl⟩

end StartsLinked

/-- The nodes whose pointer is still missing. -/
def unlinkedNodes (entries : List (Entry Node)) : List Node :=
  nodesOf (entries.filter fun entry => !entry.linked)

theorem unlinkedNodes_sublist
    (entries : List (Entry Node)) :
    (unlinkedNodes entries).Sublist (nodesOf entries) :=
  List.Sublist.map _ List.filter_sublist

@[simp] theorem unlinkedNodes_append
    (first second : List (Entry Node)) :
    unlinkedNodes (first ++ second) =
      unlinkedNodes first ++ unlinkedNodes second := by
  simp [unlinkedNodes]

@[simp] theorem unlinkedNodes_linkedEntries
    (nodes : List Node) :
    unlinkedNodes (linkedEntries nodes) = [] := by
  induction nodes with
  | nil =>
    rfl
  | cons node rest inductionHypothesis =>
    simpa [unlinkedNodes] using inductionHypothesis

@[simp] theorem unlinkedNodes_cons_linked
    (node : Node)
    (rest : List (Entry Node)) :
    unlinkedNodes (⟨node, true⟩ :: rest) = unlinkedNodes rest := by
  simp [unlinkedNodes]

@[simp] theorem unlinkedNodes_cons_unlinked
    (node : Node)
    (rest : List (Entry Node)) :
    unlinkedNodes (⟨node, false⟩ :: rest) = node :: unlinkedNodes rest := by
  simp [unlinkedNodes]

/-- Entries with no missing pointer are determined by their nodes. -/
theorem eq_linkedEntries_of_unlinkedNodes_nil
    (complete : unlinkedNodes entries = []) :
    entries = linkedEntries (nodesOf entries) := by
  induction entries with
  | nil =>
    rfl
  | cons entry rest inductionHypothesis =>
    obtain ⟨node, linked⟩ := entry
    cases linked with
    | false =>
      simp at complete
    | true =>
      rw [unlinkedNodes_cons_linked] at complete
      simp only [nodesOf_cons, linkedEntries_cons]
      rw [← inductionHypothesis complete]

/-- An unlinked node follows a given node. -/
def Awaits
    (entries : List (Entry Node))
    (previous node : Node) : Prop :=
  ∃ earlier linked later,
    entries = earlier ++ ⟨previous, linked⟩ :: ⟨node, false⟩ :: later

variable {previous : Node}

namespace Awaits

variable (awaits : Awaits entries previous node)

include awaits

theorem append
    (added : List (Entry Node)) :
    Awaits (entries ++ added) previous node := by
  obtain ⟨earlier, linked, later, rfl⟩ := awaits
  exact ⟨earlier, linked, later ++ added, by simp⟩

theorem prepend
    (added : List (Entry Node)) :
    Awaits (added ++ entries) previous node := by
  obtain ⟨earlier, linked, later, rfl⟩ := awaits
  exact ⟨added ++ earlier, linked, later, by simp⟩

omit awaits in
/-- Removing the first entry keeps every awaited link but the one from it. -/
theorem of_cons
    {first : Entry Node}
    {rest : List (Entry Node)}
    (awaits : Awaits (first :: rest) previous node) :
    (∃ later, rest = ⟨node, false⟩ :: later) ∨
      Awaits rest previous node := by
  obtain ⟨earlier, linked, later, shape⟩ := awaits
  cases earlier with
  | nil =>
    simp only [List.nil_append, List.cons.injEq] at shape
    exact Or.inl ⟨later, shape.2⟩
  | cons entry remaining =>
    simp only [List.cons_append, List.cons.injEq] at shape
    exact Or.inr ⟨remaining, linked, later, shape.2⟩

theorem previous_mem :
    previous ∈ nodesOf entries := by
  obtain ⟨earlier, linked, later, rfl⟩ := awaits
  simp

theorem entry_mem :
    ⟨node, false⟩ ∈ entries := by
  obtain ⟨earlier, linked, later, rfl⟩ := awaits
  simp

end Awaits

section Stores

variable [DecidableEq Node]

/-- Private preparation of a chain: each node leads to the following one and
the last one to nothing. -/
def thread (next : Node → Option Node) : List Node → Node → Option Node
  | [] => next
  | node :: rest => Function.update (thread next rest) node rest.head?

variable (next : Node → Option Node)

theorem thread_outside
    (outside : node ∉ nodes) :
    thread next nodes node = next node := by
  induction nodes with
  | nil =>
    rfl
  | cons first rest inductionHypothesis =>
    simp only [List.mem_cons, not_or] at outside
    simp only [thread, Function.update_of_ne outside.1]
    exact inductionHypothesis outside.2

/-- Preparing a chain of fresh nodes leaves the nodes in use alone. -/
theorem thread_of_fresh
    {owned : List Node}
    (fresh : (nodes ++ owned).Nodup) :
    ∀ node ∈ owned, thread next nodes node = next node := by
  intro node member
  refine thread_outside next ?_
  intro inNodes
  exact (List.nodup_append.mp fresh).2.2 node inNodes node member rfl

/-- A prepared chain is a segment. -/
theorem segment_thread
    (distinct : nodes.Nodup) :
    Segment (thread next nodes) nodes.head? (linkedEntries nodes) none := by
  induction nodes with
  | nil =>
    rfl
  | cons first rest inductionHypothesis =>
    obtain ⟨firstOutside, restDistinct⟩ := List.nodup_cons.mp distinct
    refine ⟨rfl, ?_⟩
    have outside : first ∉ nodesOf (linkedEntries rest) := by
      simpa using firstOutside
    simp only [thread, Function.update_self]
    exact (inductionHypothesis restDistinct).update_outside outside

/-- Record that the pointer to a node has been stored. -/
def markLinked (node : Node) (entries : List (Entry Node)) :
    List (Entry Node) :=
  entries.map fun entry =>
    if entry.node = node then ⟨node, true⟩ else entry

@[simp] theorem nodesOf_markLinked
    (node : Node)
    (entries : List (Entry Node)) :
    nodesOf (markLinked node entries) = nodesOf entries := by
  induction entries with
  | nil =>
    rfl
  | cons entry rest inductionHypothesis =>
    simp only [markLinked, nodesOf, List.map_cons, List.cons.injEq] at *
    refine ⟨?_, inductionHypothesis⟩
    by_cases isNode : entry.node = node
    · simp [isNode]
    · simp [isNode]

@[simp] theorem markLinked_append
    (node : Node)
    (first second : List (Entry Node)) :
    markLinked node (first ++ second) =
      markLinked node first ++ markLinked node second :=
  List.map_append

@[simp] theorem markLinked_cons
    (node : Node)
    (entry : Entry Node)
    (rest : List (Entry Node)) :
    markLinked node (entry :: rest) =
      (if entry.node = node then ⟨node, true⟩ else entry) ::
        markLinked node rest := rfl

theorem markLinked_outside
    (outside : node ∉ nodesOf entries) :
    markLinked node entries = entries := by
  induction entries with
  | nil =>
    rfl
  | cons entry rest inductionHypothesis =>
    simp only [nodesOf_cons, List.mem_cons, not_or] at outside
    simp [Ne.symm outside.1, inductionHypothesis outside.2]

@[simp] theorem lastNode_markLinked
    (node : Node)
    (entries : List (Entry Node)) :
    lastNode (markLinked node entries) = lastNode entries := by
  simp [lastNode]

/-- Marking one node takes it, and no other, off the missing ones. -/
theorem unlinkedNodes_markLinked
    (distinct : (nodesOf entries).Nodup)
    (member : ⟨node, false⟩ ∈ entries) :
    (unlinkedNodes entries).Perm
      (node :: unlinkedNodes (markLinked node entries)) := by
  obtain ⟨earlier, later, rfl⟩ := List.append_of_mem member
  simp only [nodesOf_append, nodesOf_cons, List.nodup_append,
    List.nodup_cons, List.mem_cons] at distinct
  obtain ⟨-, ⟨outsideLater, -⟩, apart⟩ := distinct
  have outsideEarlier : node ∉ nodesOf earlier := by
    intro inEarlier
    exact apart node inEarlier node (Or.inl rfl) rfl
  simp only [markLinked_append, markLinked_cons, ↓reduceIte,
    markLinked_outside outsideEarlier, markLinked_outside outsideLater,
    unlinkedNodes_append, unlinkedNodes_cons_linked,
    unlinkedNodes_cons_unlinked]
  exact List.perm_middle

/-- Marking another node keeps an awaited link awaited. -/
theorem Awaits.markLinked_other
    {other : Node}
    (awaits : Awaits entries previous node)
    (different : node ≠ other) :
    Awaits (markLinked other entries) previous node := by
  obtain ⟨earlier, linked, later, rfl⟩ := awaits
  by_cases isPrevious : previous = other
  · exact ⟨markLinked other earlier, true, markLinked other later, by
      simp [isPrevious, different]⟩
  · exact ⟨markLinked other earlier, linked, markLinked other later, by
      simp [isPrevious, different]⟩

theorem StartsLinked.markLinked
    (starts : StartsLinked entries nodes)
    (node : Node) :
    StartsLinked (markLinked node entries) nodes := by
  obtain ⟨rest, rfl⟩ := starts
  refine ⟨LibDispatch.markLinked node rest, ?_⟩
  rw [markLinked_append]
  congr 1
  induction nodes with
  | nil =>
    rfl
  | cons first remaining inductionHypothesis =>
    simp only [linkedEntries_cons, markLinked_cons, inductionHypothesis]
    by_cases isNode : first = node
    · simp [isNode]
    · simp [isNode]

@[simp] theorem markLinked_eq_nil_iff :
    markLinked node entries = [] ↔ entries = [] := by
  simp [markLinked]

/-- Storing an awaited link completes it in the segment. -/
theorem Segment.storeAwaited
    {next : Node → Option Node}
    {incoming : Option Node}
    (segment : Segment next incoming entries outgoing)
    (distinct : (nodesOf entries).Nodup)
    (awaits : Awaits entries previous node) :
    Segment (Function.update next previous (some node)) incoming
      (markLinked node entries) outgoing := by
  obtain ⟨earlier, linked, later, rfl⟩ := awaits
  have linkedSegment := segment.link distinct
  simp only [nodesOf_append, nodesOf_cons, List.nodup_append,
    List.nodup_cons, List.mem_cons, not_or] at distinct
  obtain ⟨-, ⟨⟨previousNotNode, -⟩, nodeNotLater, -⟩, apart⟩ := distinct
  have nodeNotEarlier : node ∉ nodesOf earlier := by
    intro inEarlier
    exact apart node inEarlier node (Or.inr (Or.inl rfl)) rfl
  simpa [markLinked_outside nodeNotEarlier, markLinked_outside nodeNotLater,
    previousNotNode] using linkedSegment

/-- A pointer store completes an awaited link and leaves other segments alone. -/
theorem Segment.storeLink
    {next : Node → Option Node}
    {incoming : Option Node}
    (segment : Segment next incoming entries outgoing)
    (distinct : (nodesOf entries).Nodup)
    (affected : Awaits entries previous node ∨
      previous ∉ nodesOf entries ∧ node ∉ nodesOf entries) :
    Segment (Function.update next previous (some node)) incoming
      (markLinked node entries) outgoing := by
  rcases affected with awaits | ⟨previousOutside, nodeOutside⟩
  · exact segment.storeAwaited distinct awaits
  · rw [markLinked_outside nodeOutside]
    exact segment.update_outside previousOutside

end Stores

end LibDispatch
