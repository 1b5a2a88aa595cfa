import Mathlib

namespace LibDispatch.Text

/-!
# Reading a text in regions

A text is read character by character.  What is read at a position may depend on
where the region that contains it stops and on how much of the region was read
ahead before: the lag.  A fragmented text is read as a contiguous one if every
character is read in its region as it is read in the whole text.
-/

/-! ## Readings -/

/-- A failure, a bad text, or what is read. -/
abbrev Reading (Failure Value : Type) : Type :=
  Except Failure (Option Value)

namespace Reading

variable {Failure First Second Third : Type}

/-- What is read after something else. -/
def andThen
    (first : Reading Failure First)
    (second : First → Reading Failure Second) : Reading Failure Second :=
  match first with
  | .error failure => .error failure
  | .ok none => .ok none
  | .ok (some value) => second value

@[simp] theorem andThen_error
    (failure : Failure)
    (second : First → Reading Failure Second) :
    andThen (.error failure) second = .error failure := rfl

@[simp] theorem andThen_none
    (second : First → Reading Failure Second) :
    andThen (.ok none) second = .ok none := rfl

@[simp] theorem andThen_some
    (value : First)
    (second : First → Reading Failure Second) :
    andThen (.ok (some value)) second = second value := rfl

theorem andThen_assoc
    (first : Reading Failure First)
    (second : First → Reading Failure Second)
    (third : Second → Reading Failure Third) :
    (first.andThen second).andThen third =
      first.andThen fun value => (second value).andThen third := by
  rcases first with failure | _ | value <;> rfl

theorem andThen_eq_some
    {first : Reading Failure First}
    {second : First → Reading Failure Second}
    {value : Second}
    (reads : first.andThen second = .ok (some value)) :
    ∃ earlier, first = .ok (some earlier) ∧
      second earlier = .ok (some value) := by
  rcases first with failure | _ | earlier
  · cases reads
  · cases reads
  · exact ⟨earlier, rfl, reads⟩

theorem eq_ok_of_map
    {result : Except Failure First}
    {value : First}
    (reads : result.map some = .ok (some value)) :
    result = .ok value := by
  cases result with
  | error => cases reads
  | ok =>
    cases reads
    rfl

/-- No failure. -/
def Succeeds (reading : Reading Failure First) : Prop :=
  ∀ failure, reading ≠ .error failure

theorem succeeds_ok
    (value : Option First) :
    Succeeds (.ok value : Reading Failure First) := by
  intro failure same
  cases same

theorem Succeeds.andThen
    {first : Reading Failure First}
    {second : First → Reading Failure Second}
    (succeeds : first.Succeeds)
    (others :
      ∀ value, first = .ok (some value) → (second value).Succeeds) :
    (first.andThen second).Succeeds := by
  rcases first with failure | _ | value
  · exact absurd rfl (succeeds failure)
  · exact succeeds_ok none
  · exact others value rfl

end Reading

/-- What comes after the next word. -/
theorem drop_of_append
    {Symbol : Type}
    {text word others : List Symbol}
    {position : Nat}
    (next : text.drop position = word ++ others) :
    text.drop (position + word.length) = others := by
  rw [← List.drop_drop, next, List.drop_left]

/-! ## Readers -/

/-- What is read at a position of a text, from the stop of the region and the
lag: the output and the number of bytes it stands for. -/
structure Reader (Failure Byte Output : Type) where
  read : List Byte → Nat → Nat → Nat → Reading Failure (List Output × Nat)
  advances :
    ∀ {text position stop lag output size},
      read text position stop lag = .ok (some (output, size)) → 0 < size

namespace Reader

variable {Failure Byte Output : Type}
variable (reader : Reader Failure Byte Output) (text : List Byte)

/-- The outputs for the characters from a position on that begin before the
stop, and the position after them. -/
def region
    (stop lag : Nat) :
    Nat → Nat → Reading Failure (List (List Output) × Nat)
  | 0, position => .ok (some ([], position))
  | fuel + 1, position =>
    if stop ≤ position then
      .ok (some ([], position))
    else
      (reader.read text position stop lag).andThen fun (output, size) =>
        (region stop lag fuel (position + size)).andThen
          fun (outputs, last) => .ok (some (output :: outputs, last))

/-- The outputs for the regions of the given lengths, from an offset and a
position on. -/
def run : List Nat → Nat → Nat → Reading Failure (List (List Output))
  | [], _, _ => .ok (some [])
  | length :: lengths, offset, position =>
    if offset + length ≤ position then
      run lengths (offset + length) position
    else
      (reader.region text (offset + length) (position - offset) length
        position).andThen fun (outputs, last) =>
          (run lengths (offset + length) last).andThen
            fun others => .ok (some (outputs ++ others))

/-- What is read at a position of the whole text. -/
def readWhole (position : Nat) : Reading Failure (List Output × Nat) :=
  reader.read text position text.length 0

/-- The outputs for the whole text. -/
def whole : Reading Failure (List (List Output)) :=
  reader.run text [text.length] 0 0

/-- The outputs for the whole text from a position on. -/
def rest (position : Nat) : Reading Failure (List (List Output)) :=
  (reader.region text text.length 0 (text.length - position)
    position).andThen fun (outputs, _) => .ok (some outputs)

/-- A region that is read from a position on to its stop. -/
inductive Reads
    (stop lag : Nat) : Nat → List (List Output) → Nat → Prop where
  | done
      {position : Nat}
      (done : stop ≤ position) :
      Reads stop lag position [] position
  | next
      {position size last : Nat}
      {output : List Output}
      {outputs : List (List Output)}
      (inside : position < stop)
      (reads : reader.read text position stop lag = .ok (some (output, size)))
      (others : Reads stop lag (position + size) outputs last) :
      Reads stop lag position (output :: outputs) last

/-- The positions of the characters of the whole text. -/
inductive Starts : Nat → Prop where
  | first : Starts 0
  | next
      {position : Nat}
      {output : List Output}
      {size : Nat}
      (starts : Starts position)
      (inside : position < text.length)
      (reads : reader.readWhole text position = .ok (some (output, size))) :
      Starts (position + size)

/-- The position of the first character that does not begin before an offset. -/
structure Entry (offset entry : Nat) : Prop where
  starts : reader.Starts text entry
  after : offset ≤ entry
  first : ∀ position, reader.Starts text position → offset ≤ position →
    entry ≤ position

/-- Every character that begins in a region is read there as in the whole
text. -/
def SteadyIn (offset stop : Nat) : Prop :=
  ∀ entry position,
    reader.Entry text offset entry →
      reader.Starts text position → entry ≤ position → position < stop →
      reader.read text position stop (entry - offset) =
          reader.readWhole text position ∧
        (reader.readWhole text position).Succeeds

/-- Every character is read in its region as in the whole text. -/
def Steady : List Nat → Nat → Prop
  | [], _ => True
  | length :: lengths, offset =>
    reader.SteadyIn text offset (offset + length) ∧
      Steady lengths (offset + length)

variable {reader text}

/-! ## Positions of characters -/

/-- The next character begins after the bytes of this one. -/
theorem Starts.apart
    {first second : Nat}
    (startsFirst : reader.Starts text first)
    (startsSecond : reader.Starts text second)
    (before : first < second) :
    ∃ output size,
      first < text.length ∧
        reader.readWhole text first = .ok (some (output, size)) ∧
        first + size ≤ second := by
  induction second using Nat.strongRecOn generalizing first with
  | ind second inductionHypothesis =>
  cases startsSecond with
  | first => omega
  | @next position output size starts inside reads =>
    have advances := reader.advances reads
    rcases Nat.lt_trichotomy first position with earlier | same | later
    · obtain ⟨other, otherSize, begins, otherReads, apart⟩ :=
        inductionHypothesis position (by omega) startsFirst starts earlier
      exact ⟨other, otherSize, begins, otherReads, by omega⟩
    · subst same
      exact ⟨output, size, inside, reads, Nat.le_refl _⟩
    · -- A character cannot begin inside of the one before.
      obtain ⟨other, otherSize, -, otherReads, apart⟩ :=
        inductionHypothesis first before starts startsFirst later
      rw [reads] at otherReads
      cases otherReads
      omega

variable {offset entry stop : Nat}

/-- The entry of the next region, if this region ends before. -/
theorem Entry.later
    (isEntry : reader.Entry text offset entry)
    (further : offset ≤ stop)
    (beyond : stop ≤ entry) :
    reader.Entry text stop entry where
  starts := isEntry.starts
  after := beyond
  first := fun position starts after =>
    isEntry.first position starts (Nat.le_trans further after)

/-! ## The whole text -/

variable {fuel position : Nat}

/-- More fuel than characters does not matter. -/
theorem region_fuel
    (stop lag : Nat)
    (enough : stop - position ≤ fuel) :
    reader.region text stop lag fuel position =
      reader.region text stop lag (stop - position) position := by
  induction fuel using Nat.strongRecOn generalizing position with
  | ind fuel inductionHypothesis =>
  cases fuel with
  | zero => rw [Nat.le_zero.mp enough]
  | succ fuel =>
    by_cases done : stop ≤ position
    · have none : stop - position = 0 := by omega
      rw [none, region, region, if_pos done]
    · obtain ⟨others, some⟩ : ∃ others, stop - position = others + 1 :=
        ⟨stop - position - 1, by omega⟩
      rw [some, region, region, if_neg done, if_neg done]
      rcases reads : reader.read text position stop lag with
        failure | _ | ⟨output, size⟩
      · rfl
      · rfl
      · have advances := reader.advances reads
        simp only [Reading.andThen_some]
        rw [inductionHypothesis fuel (by omega) (by omega)]
        by_cases same : others = fuel
        · rw [same, inductionHypothesis fuel (by omega) (by omega)]
        · rw [inductionHypothesis others (by omega) (by omega)]

variable {lag : Nat}

/-- A character and the characters after it. -/
theorem region_of_inside
    (inside : position < stop) :
    reader.region text stop lag (stop - position) position =
      (reader.read text position stop lag).andThen fun (output, size) =>
        (reader.region text stop lag (stop - (position + size))
          (position + size)).andThen
            fun (outputs, last) => .ok (some (output :: outputs, last)) := by
  obtain ⟨fuel, some⟩ : ∃ fuel, stop - position = fuel + 1 :=
    ⟨stop - position - 1, by omega⟩
  rw [some, region, if_neg (Nat.not_le.mpr inside)]
  rcases reads : reader.read text position stop lag with
    failure | _ | ⟨output, size⟩
  · rfl
  · rfl
  · have advances := reader.advances reads
    simp only [Reading.andThen_some]
    rw [region_fuel _ _ (by omega : stop - (position + size) ≤ fuel)]

theorem rest_of_done
    (done : text.length ≤ position) :
    reader.rest text position = .ok (some []) := by
  have none : text.length - position = 0 := by omega
  rw [rest, none]
  rfl

theorem rest_of_inside
    (inside : position < text.length) :
    reader.rest text position =
      (reader.readWhole text position).andThen fun (output, size) =>
        (reader.rest text (position + size)).andThen
          fun outputs => .ok (some (output :: outputs)) := by
  rw [rest, region_of_inside inside, ← readWhole, Reading.andThen_assoc]
  simp only [Reading.andThen_assoc, rest]
  rfl

/-- A word that is read as one character, and what is read after it. -/
theorem rest_of_word
    {word others : List Byte}
    {output : List Output}
    (next : text.drop position = word ++ others)
    (reads :
      reader.readWhole text position = .ok (some (output, word.length))) :
    reader.rest text position =
      (reader.rest text (position + word.length)).andThen
        fun outputs => .ok (some (output :: outputs)) := by
  have positive := reader.advances reads
  have length := congrArg List.length next
  rw [List.length_drop, List.length_append] at length
  rw [rest_of_inside (by omega), reads]
  rfl

theorem whole_eq_rest :
    reader.whole text = reader.rest text 0 := by
  rw [whole, run]
  by_cases empty : 0 + text.length ≤ 0
  · rw [if_pos empty, rest_of_done (by omega)]
    rfl
  · rw [if_neg empty, rest, Nat.zero_add, Nat.sub_zero]
    congr 1
    funext last
    simp [run]

/-! ## What was read -/

variable {outputs : List (List Output)} {last : Nat}

theorem Reads.of_region
    (enough : stop - position ≤ fuel)
    (reads :
      reader.region text stop lag fuel position =
        .ok (some (outputs, last))) :
    reader.Reads text stop lag position outputs last := by
  induction fuel generalizing position outputs with
  | zero =>
    cases reads
    exact .done (by omega)
  | succ fuel inductionHypothesis =>
    rw [region] at reads
    split_ifs at reads with done
    · cases reads
      exact .done done
    · obtain ⟨⟨output, size⟩, readsFirst, reads⟩ :=
        Reading.andThen_eq_some reads
      obtain ⟨⟨others, end_⟩, readsOthers, reads⟩ :=
        Reading.andThen_eq_some reads
      cases reads
      have advances := reader.advances readsFirst
      exact .next (by omega) readsFirst
        (inductionHypothesis (by omega) readsOthers)

theorem Reads.of_rest
    (reads : reader.rest text position = .ok (some outputs)) :
    ∃ last, reader.Reads text text.length 0 position outputs last := by
  obtain ⟨⟨own, last⟩, reads, same⟩ := Reading.andThen_eq_some reads
  cases same
  exact ⟨last, .of_region (Nat.le_refl _) reads⟩

/-! ## Steady regions -/

/-- A region that is steady is read as a part of the whole text. -/
theorem rest_eq_region
    (steady : reader.SteadyIn text offset stop)
    (isEntry : reader.Entry text offset entry)
    (within : stop ≤ text.length)
    (enough : stop - position ≤ fuel)
    (starts : reader.Starts text position)
    (after : entry ≤ position) :
    reader.rest text position =
        ((reader.region text stop (entry - offset) fuel position).andThen
          fun (outputs, last) =>
            (reader.rest text last).andThen
              fun others => .ok (some (outputs ++ others))) ∧
      (reader.region text stop (entry - offset) fuel position).Succeeds := by
  induction fuel generalizing position with
  | zero =>
    refine ⟨?_, Reading.succeeds_ok _⟩
    rcases reads : reader.rest text position with failure | _ | outputs <;>
      simp [region, reads]
  | succ fuel inductionHypothesis =>
    by_cases done : stop ≤ position
    · rw [region, if_pos done]
      refine ⟨?_, Reading.succeeds_ok _⟩
      rcases reads : reader.rest text position with
        failure | _ | outputs <;> simp [reads]
    · have inside : position < text.length := by omega
      obtain ⟨same, succeeds⟩ :=
        steady entry position isEntry starts after (by omega)
      rw [region, if_neg done, same, rest_of_inside inside]
      rcases reads : reader.readWhole text position with
        failure | _ | ⟨output, size⟩
      · exact absurd reads (succeeds failure)
      · exact ⟨rfl, Reading.succeeds_ok _⟩
      · have advances := reader.advances reads
        obtain ⟨following, others⟩ := inductionHypothesis (by omega)
          (.next starts inside reads) (by omega)
        simp only [Reading.andThen_some]
        refine ⟨?_, others.andThen fun value _ => Reading.succeeds_ok _⟩
        rw [following]
        simp only [Reading.andThen_assoc, Reading.andThen_some,
          List.cons_append]

/-- The position after a region is the entry of the next one. -/
theorem Reads.nextEntry
    (steady : reader.SteadyIn text offset stop)
    (isEntry : reader.Entry text offset entry)
    (within : stop ≤ text.length)
    (starts : reader.Starts text position)
    (after : entry ≤ position)
    (first :
      ∀ other, reader.Starts text other → stop ≤ other → position ≤ other)
    (reads :
      reader.Reads text stop (entry - offset) position outputs last) :
    reader.Entry text stop last := by
  induction reads with
  | done done => exact ⟨starts, done, first⟩
  | @next position _ _ _ _ inside readsFirst _ inductionHypothesis =>
    obtain ⟨same, -⟩ := steady entry position isEntry starts after inside
    rw [same] at readsFirst
    have advances := reader.advances readsFirst
    refine inductionHypothesis (.next starts (by omega) readsFirst)
      (by omega) ?_
    intro other otherStarts beyond
    obtain ⟨otherOutput, otherSize, -, otherReads, apart⟩ :=
      starts.apart otherStarts (by omega)
    rw [readsFirst] at otherReads
    cases otherReads
    exact apart

variable {lengths : List Nat}

theorem run_eq_rest
    (steady : reader.Steady text lengths offset)
    (total : offset + lengths.sum = text.length)
    (isEntry : reader.Entry text offset position) :
    reader.run text lengths offset position = reader.rest text position ∧
      (reader.run text lengths offset position).Succeeds := by
  induction lengths generalizing offset position with
  | nil =>
    have done : text.length ≤ position := by
      have after := isEntry.after
      simp at total
      omega
    rw [run, rest_of_done done]
    exact ⟨rfl, Reading.succeeds_ok _⟩
  | cons length lengths inductionHypothesis =>
    obtain ⟨own, others⟩ := steady
    rw [List.sum_cons] at total
    rw [run]
    split_ifs with skipped
    · exact inductionHypothesis others (by omega)
        (isEntry.later (by omega) skipped)
    · have after := isEntry.after
      obtain ⟨same, succeeds⟩ := rest_eq_region own isEntry (by omega)
        (by omega : offset + length - position ≤ length) isEntry.starts
        (Nat.le_refl _)
      rw [same]
      rcases reads : reader.region text (offset + length)
          (position - offset) length position with
        failure | _ | ⟨outputs, last⟩
      · exact absurd reads (succeeds failure)
      · exact ⟨rfl, Reading.succeeds_ok _⟩
      · have lastEntry := Reads.nextEntry own isEntry (by omega)
          isEntry.starts (Nat.le_refl _)
          (fun other starts beyond => isEntry.first other starts (by omega))
          (.of_region (by omega) reads)
        obtain ⟨sameRest, succeedsRest⟩ :=
          inductionHypothesis others (by omega) lastEntry
        simp only [Reading.andThen_some]
        rw [sameRest]
        refine ⟨rfl, ?_⟩
        rw [sameRest] at succeedsRest
        exact succeedsRest.andThen fun value _ => Reading.succeeds_ok _

/-- The beginning of the text. -/
theorem entry_zero : reader.Entry text 0 0 :=
  ⟨.first, Nat.le_refl 0, fun position _ _ => Nat.zero_le position⟩

/-- A fragmented text that is steady is read as the whole text. -/
theorem Steady.run_eq_whole
    (steady : reader.Steady text lengths 0)
    (total : lengths.sum = text.length) :
    reader.run text lengths 0 0 = reader.whole text ∧
      (reader.whole text).Succeeds := by
  obtain ⟨same, succeeds⟩ := run_eq_rest steady (by omega) entry_zero
  rw [same] at succeeds
  rw [whole_eq_rest]
  exact ⟨same, succeeds⟩

/-! ## Cuts -/

/-- A character that crosses the end of its region begins in a region of which
nothing was read ahead, and the cut does not spoil it. -/
def CutApart
    (reader : Reader Failure Byte Output)
    (text : List Byte)
    (width : List Byte → Nat)
    (Spoils : Nat → Nat → Prop) : List Nat → Nat → Prop
  | [], _ => True
  | length :: lengths, offset =>
    (∀ entry position,
      reader.Entry text offset entry →
        reader.Starts text position → entry ≤ position →
        position < offset + length →
        offset + length < position + width (text.drop position) →
        entry = offset ∧ ¬ Spoils position (offset + length)) ∧
      CutApart reader text width Spoils lengths (offset + length)

/-- Only the first region begins at the beginning of the text, where nothing is
read ahead. -/
theorem Entry.lag_lt
    (isEntry : reader.Entry text offset entry)
    (after : entry ≤ position) :
    entry - offset = 0 ∨ entry - offset < position := by
  have atStart : offset = 0 → entry ≤ 0 := fun zero =>
    isEntry.first 0 .first (Nat.le_of_eq zero)
  omega

/-- A text is steady if characters inside of their region, and those that a cut
does not spoil, are read as in the whole text. -/
theorem CutApart.steady
    {width : List Byte → Nat}
    {Spoils : Nat → Nat → Prop}
    (uncut :
      ∀ position stop lag, position < stop → stop ≤ text.length →
        position + width (text.drop position) ≤ stop →
        lag = 0 ∨ lag < position →
        reader.read text position stop lag =
            reader.readWhole text position ∧
          (reader.readWhole text position).Succeeds)
    (cut :
      ∀ position stop, position < stop → stop ≤ text.length →
        stop < position + width (text.drop position) →
        ¬ Spoils position stop →
        reader.read text position stop 0 = reader.readWhole text position ∧
          (reader.readWhole text position).Succeeds)
    (apart : reader.CutApart text width Spoils lengths offset)
    (total : offset + lengths.sum = text.length) :
    reader.Steady text lengths offset := by
  induction lengths generalizing offset with
  | nil => trivial
  | cons length lengths inductionHypothesis =>
    rw [List.sum_cons] at total
    refine ⟨?_, inductionHypothesis apart.2 (by omega)⟩
    intro entry position isEntry starts after before
    by_cases crosses :
        offset + length < position + width (text.drop position)
    · obtain ⟨same, unspoilt⟩ :=
        apart.1 entry position isEntry starts after before crosses
      rw [same, Nat.sub_self]
      exact cut position _ before (by omega) crosses unspoilt
    · exact uncut position _ _ before (by omega) (Nat.le_of_not_lt crosses)
        (isEntry.lag_lt after)

end Reader

end LibDispatch.Text
