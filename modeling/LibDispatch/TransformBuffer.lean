import LibDispatch.DataGuarantees
import LibDispatch.TextReader
import LibDispatch.TransformUtf
import Mathlib.Algebra.Order.BigOperators.Group.List

namespace LibDispatch.Data

/-!
# The buffer of a transform

What was written to the buffers one after the other is what the object denotes
in the end.
-/

/-- The object and the buffer together denote the given bytes. -/
structure Buffer.Collects (buffer : Buffer) (bytes : List UInt8) : Prop where
  wellFormed : buffer.heap.WellFormed
  holds : buffer.heap.Holds buffer.data
  denotes : buffer.heap.bytes buffer.data ++ buffer.written = bytes
  parts :
    buffer.heap.parts buffer.data ≤ (buffer.heap.bytes buffer.data).length

/-- As many bytes can be the records of an object. -/
def Storable (count : Nat) : Prop :=
  count * recordSize + headerSize < 2 ^ 64

variable {count : Nat}

theorem Storable.mono
    {fewer : Nat}
    (storable : Storable count)
    (le : fewer ≤ count) :
    Storable fewer := by
  simp only [Storable, recordSize] at storable ⊢
  omega

theorem Storable.bounded
    (storable : Storable (4 * count + 18)) :
    count < 2 ^ 62 := by
  simp only [Storable, recordSize] at storable
  omega

variable {limit : Option Nat}

namespace Buffer

variable {buffer : Buffer} {bytes : List UInt8}

/-- Nothing was flushed from the first buffer. -/
theorem first_collects
    {heap : Heap}
    (wellFormed : heap.WellFormed)
    (start : Option (List UInt8))
    (size : Nat) :
    Collects ⟨heap, emptyData, start, size⟩ (start.getD []) where
  wellFormed := wellFormed
  holds := wellFormed.empty.1
  denotes := by
    simp only [wellFormed.bytes_empty]
    rfl
  parts := by
    simp [Heap.parts, wellFormed.empty.2, emptyObject]

/-- The first buffer, if a limit allows it. -/
theorem new_initial
    (heap : Heap)
    {required : Nat}
    (positive : 0 < required)
    (bounded : required < 2 ^ 64)
    (limit : Option Nat) :
    (Buffer.initial heap).new limit true required 0 =
      .ok (if allows limit required then
        (⟨heap, emptyData, some [], required⟩, true)
      else
        (⟨heap, emptyData, none, required⟩, false)) := by
  have flushed : (Buffer.initial heap).flush = .ok (Buffer.initial heap) := rfl
  rw [Buffer.new, if_pos (.inr positive), flushed]
  simp only [bind, Except.bind, Nat.add_zero, Nat.mod_eq_of_lt bounded]
  rw [if_neg (by omega)]
  cases allows limit required <;> rfl

variable (collects : buffer.Collects bytes)

include collects

variable (storable : Storable bytes.length)

include storable

/-- All bytes are in the object after a flush. -/
theorem Collects.flush :
    ∃ flushed,
      buffer.flush = .ok flushed ∧ flushed.heap.WellFormed ∧
        flushed.heap.Holds flushed.data ∧
        flushed.heap.bytes flushed.data = bytes ∧
        flushed.heap.parts flushed.data ≤ bytes.length ∧
        flushed.heap.parts flushed.data ≤
          buffer.heap.parts buffer.data + 1 := by
  have denotes := collects.denotes
  have parts := collects.parts
  have lengths := congrArg List.length denotes
  rw [List.length_append] at lengths
  simp only [Storable, recordSize] at storable
  rw [Buffer.flush]
  by_cases empty : buffer.written.length = 0
  · rw [if_pos empty]
    refine ⟨buffer, rfl, collects.wellFormed, collects.holds, ?_, by omega,
      Nat.le_succ _⟩
    rw [List.eq_nil_of_length_eq_zero empty, List.append_nil] at denotes
    exact denotes
  · rw [if_neg empty]
    obtain ⟨created, new, creates, returns, single⟩ :=
      collects.wellFormed.createOther
        (show buffer.written.length < 2 ^ 64 by omega)
    have sameBytes :=
      returns.extension.bytes collects.wellFormed collects.holds
    have sameParts := returns.extension.parts collects.holds
    obtain ⟨after, concat, computes, concats, few⟩ :=
      returns.wellFormed.concatParts
        (returns.extension.holds _ collects.holds) returns.holds
        (by rw [sameBytes, returns.denotes]; omega)
        (by simp only [recordSize]; omega)
    refine ⟨{ buffer with heap := after, data := concat }, ?_,
      concats.wellFormed, concats.holds, ?_, ?_, ?_⟩
    · simp only [creates, computes, bind, Except.bind]
      rfl
    · rw [concats.denotes, sameBytes, returns.denotes, denotes]
    · change after.parts concat ≤ bytes.length
      omega
    · change after.parts concat ≤ buffer.heap.parts buffer.data + 1
      omega

/-- There is room after a call, unless more is asked for than a limit allows. -/
theorem Collects.new
    {required size : Nat}
    (fits : required + size < 2 ^ 64)
    (allowed :
      0 < required → buffer.size - buffer.written.length < required →
        allows limit (required + size) = true)
    (final : required = 0 → size = 0) :
    ∃ after,
      buffer.new limit true required size = .ok (after, true) ∧
        after.Collects bytes ∧
        after.heap.parts after.data ≤
          buffer.heap.parts buffer.data + 1 ∧
        (required = 0 → after.written = []) := by
  rw [Buffer.new]
  by_cases needed :
      required = 0 ∨ buffer.size - buffer.written.length < required
  · obtain ⟨flushed, flushes, wellFormed, holds, denotes, parts, onePart⟩ :=
      collects.flush storable
    have collected (start : Option (List UInt8)) (total : Nat)
        (empty : start.getD [] = []) :
        Collects { flushed with start := start, size := total } bytes :=
      { wellFormed := wellFormed
        holds := holds
        denotes := by
          change flushed.heap.bytes flushed.data ++ start.getD [] = bytes
          rw [empty, List.append_nil]
          exact denotes
        parts := by
          change flushed.heap.parts flushed.data ≤
            (flushed.heap.bytes flushed.data).length
          rw [denotes]
          exact parts }
    rw [if_pos needed, flushes]
    simp only [bind, Except.bind, Nat.mod_eq_of_lt fits]
    by_cases none : required + size = 0
    · rw [if_pos none]
      exact ⟨_, rfl, collected .none _ rfl, onePart, fun _ => rfl⟩
    · have positive : 0 < required := by
        rcases Nat.eq_zero_or_pos required with zero | positive
        · have nothing := final zero
          omega
        · exact positive
      have enough := allowed positive (by omega)
      rw [if_neg none, enough]
      exact ⟨_, rfl, collected (some []) _ rfl, onePart, fun _ => rfl⟩
  · rw [if_neg needed]
    exact ⟨buffer, rfl, collects, Nat.le_succ _,
      fun none => absurd (.inl none) needed⟩

omit storable in
theorem Collects.write
    (more : List UInt8) :
    (buffer.write more).Collects (bytes ++ more) where
  wellFormed := collects.wellFormed
  holds := collects.holds
  denotes := by
    rw [← collects.denotes, List.append_assoc]
    rfl
  parts := collects.parts

theorem Collects.put
    {more : List UInt8}
    {next : Nat}
    (some : more ≠ [])
    (fits : more.length + next < 2 ^ 64)
    (allowed :
      buffer.size - buffer.written.length < more.length →
        allows limit (more.length + next) = true) :
    ∃ after,
      buffer.put limit true more next = .ok (after, true) ∧
        after.Collects (bytes ++ more) := by
  have positive := List.length_pos_iff.mpr some
  obtain ⟨after, computes, collected, -, -⟩ :=
    collects.new storable fits (fun _ => allowed) (fun none => by omega)
  refine ⟨after.write more, ?_, collected.write more⟩
  rw [Buffer.put, computes]
  rfl

/-- The last call before the end of a region. -/
theorem Collects.end
    (limit : Option Nat) :
    ∃ after,
      buffer.new limit true 0 0 = .ok (after, true) ∧
        after.Collects bytes ∧
        after.heap.parts after.data ≤
          buffer.heap.parts buffer.data + 1 ∧
        after.written = [] := by
  obtain ⟨after, computes, collected, parts, flushed⟩ :=
    collects.new storable (by decide : 0 + 0 < 2 ^ 64)
      (fun none => absurd none (Nat.lt_irrefl 0)) (fun _ => rfl)
  exact ⟨after, computes, collected, parts, flushed rfl⟩

end Buffer

/-! ## Regions -/

/-- What a loop over a region returns for what is read in the region. -/
inductive Delivers (bytes : List UInt8) (stop : Nat) :
    Text.Reading Failure (List (List UInt8) × Nat) →
      Except Failure (Transcoding × Bool) → Prop where
  | failure
      {failure : Failure} :
      Delivers bytes stop (.error failure) (.error failure)
  | bad
      {transcoding : Transcoding}
      {written : List UInt8}
      (collects : transcoding.buffer.Collects written)
      (storable : Storable written.length) :
      Delivers bytes stop (.ok none) (.ok (transcoding, false))
  | good
      {transcoding : Transcoding}
      {outputs : List (List UInt8)}
      {last : Nat}
      (skip : transcoding.skip = last - stop)
      (collects : transcoding.buffer.Collects (bytes ++ outputs.flatten))
      (flushed : transcoding.buffer.written = [])
      (few : (bytes ++ outputs.flatten).length ≤ 4 * last + 2)
      (reached : stop ≤ last) :
      Delivers bytes stop (.ok (some (outputs, last)))
        (.ok (transcoding, true))

/-- One round of a loop over a region, for what is read: what is read is
written and the loop goes on after it. -/
inductive Rounds
    (limit : Option Nat)
    (buffer : Buffer)
    (most : Nat)
    (goOn : Nat → Buffer → Except Failure (Transcoding × Bool)) :
    Text.Reading Failure (List UInt8 × Nat) →
      Except Failure (Transcoding × Bool) → Prop where
  | failure
      {failure : Failure} :
      Rounds limit buffer most goOn (.error failure) (.error failure)
  | bad
      (skip : Nat) :
      Rounds limit buffer most goOn (.ok none) (.ok (⟨skip, buffer⟩, false))
  | silent
      {size : Nat}
      (short : size ≤ 4) :
      Rounds limit buffer most goOn (.ok (some ([], size))) (goOn size buffer)
  | written
      {output : List UInt8}
      {size next : Nat}
      (skip : Nat)
      (nonempty : output ≠ [])
      (few : output.length ≤ 4)
      (fewer : output.length ≤ 2 * size)
      (requests : output.length + next ≤ most)
      (short : size ≤ 4) :
      Rounds limit buffer most goOn (.ok (some (output, size))) (do
        let (after, success) ← buffer.put limit true output next
        if success then
          goOn size after
        else
          return (⟨skip, after⟩, false))

variable {stop position : Nat}

/-- The end of a loop over a region. -/
theorem Buffer.Collects.delivers
    {buffer : Buffer}
    {bytes : List UInt8}
    (collects : buffer.Collects bytes)
    (storable : Storable bytes.length)
    (few : bytes.length ≤ 4 * position + 2)
    (done : stop ≤ position)
    (limit : Option Nat)
    (reader : Text.Reader Failure UInt8 UInt8)
    (text : List UInt8)
    (lag : Nat) :
    Delivers bytes stop
      (reader.region text stop lag (stop - position) position) (do
        let (after, _) ← buffer.new limit true 0 0
        return (⟨position - stop, after⟩, true)) := by
  obtain ⟨after, computes, collected, -, flushed⟩ :=
    collects.end storable limit
  rw [computes, Nat.sub_eq_zero_of_le done, Text.Reader.region]
  refine .good rfl ?_ flushed ?_ done <;>
    rw [List.flatten_nil, List.append_nil]
  · exact collected
  · exact few

variable {outcome : Except Failure (Transcoding × Bool)}

/-- One more output. -/
theorem Delivers.cons
    {bytes output : List UInt8}
    {reading : Text.Reading Failure (List (List UInt8) × Nat)}
    (delivers : Delivers (bytes ++ output) stop reading outcome) :
    Delivers bytes stop
      (reading.andThen fun (outputs, last) =>
        .ok (some (output :: outputs, last)))
      outcome := by
  cases delivers with
  | failure => exact .failure
  | bad collects storable => exact .bad collects storable
  | good skip collects flushed few reached =>
    rw [List.append_assoc] at collects few
    exact .good skip collects flushed few reached

variable {reading : Text.Reading Failure (List (List UInt8))}

section

variable {bytes : List UInt8}

section

variable {buffer : Buffer}

variable {most : Nat}
  {goOn : Nat → Buffer → Except Failure (Transcoding × Bool)}

/-- A round delivers what is read and what is delivered after it. -/
theorem Rounds.delivers
    {reading : Text.Reading Failure (List UInt8 × Nat)}
    (rounds : Rounds limit buffer most goOn reading outcome)
    (rest : Nat → Text.Reading Failure (List (List UInt8) × Nat))
    (collects : buffer.Collects bytes)
    (storable : Storable bytes.length)
    (few : bytes.length ≤ 4 * position + 2)
    (fits : most < 2 ^ 64)
    (allowed :
      buffer.size - buffer.written.length < 4 →
        ∀ request, request ≤ most → allows limit request = true)
    (later :
      ∀ output size after,
        reading = .ok (some (output, size)) → size ≤ 4 →
          Buffer.Collects after (bytes ++ output) →
          (bytes ++ output).length ≤ 4 * (position + size) + 2 →
          Delivers (bytes ++ output) stop (rest size)
            (goOn size after)) :
    Delivers bytes stop
      (reading.andThen fun (output, size) =>
        (rest size).andThen fun (outputs, last) =>
          .ok (some (output :: outputs, last)))
      outcome := by
  cases rounds with
  | failure => exact .failure
  | bad skip => exact .bad collects storable
  | @silent size short =>
    refine Delivers.cons (later [] size buffer rfl short ?_ ?_)
    · rw [List.append_nil]
      exact collects
    · rw [List.append_nil]
      omega
  | @written output size next skip nonempty count fewer requests short =>
    obtain ⟨after, puts, collected⟩ := @Buffer.Collects.put limit buffer
      bytes collects storable output next nonempty (by omega)
      (fun full => allowed (by omega) _ requests)
    simp only [puts, bind, Except.bind, if_pos]
    refine Delivers.cons (later output size after rfl short collected ?_)
    rw [List.length_append]
    omega

/-- Nothing is written for a silent round. -/
theorem Rounds.eq_of_silent
    {size : Nat}
    (rounds : Rounds limit buffer most goOn (.ok (some ([], size))) outcome) :
    outcome = goOn size buffer := by
  cases rounds with
  | silent short => rfl
  | written skip nonempty => exact absurd rfl nonempty

/-! ## One part -/

/-- Nothing was flushed and there is room for so many more bytes. -/
structure Buffer.Roomy (buffer : Buffer) (count : Nat) : Prop where
  unflushed : buffer.heap.parts buffer.data = 0
  room : buffer.written.length + count ≤ buffer.size

theorem Buffer.Roomy.mono
    {fewer : Nat}
    (roomy : buffer.Roomy count)
    (le : fewer ≤ count) :
    buffer.Roomy fewer where
  unflushed := roomy.unflushed
  room := by
    have room := roomy.room
    omega

/-- There is room to write without another buffer. -/
theorem Buffer.put_of_room
    (nonempty : bytes ≠ [])
    (room : bytes.length ≤ buffer.size - buffer.written.length)
    (limit : Option Nat)
    (next : Nat) :
    buffer.put limit true bytes next = .ok (buffer.write bytes, true) := by
  have positive := List.length_pos_iff.mpr nonempty
  rw [Buffer.put, Buffer.new, if_neg (by omega)]
  rfl

theorem Buffer.Roomy.write
    (roomy : buffer.Roomy (bytes.length + count)) :
    (buffer.write bytes).Roomy count where
  unflushed := roomy.unflushed
  room := by
    have room := roomy.room
    change (buffer.written ++ bytes).length + count ≤ buffer.size
    rw [List.length_append]
    omega

/-- The object of what is returned has at most one part. -/
def OnePart (outcome : Except Failure (Transcoding × Bool)) : Prop :=
  ∀ transcoding, outcome = .ok (transcoding, true) →
    transcoding.buffer.heap.parts transcoding.buffer.data ≤ 1

/-- A round with room for what is read flushes nothing. -/
theorem Rounds.onePart
    {left : Nat}
    {reading : Text.Reading Failure (List UInt8 × Nat)}
    (rounds : Rounds limit buffer most goOn reading outcome)
    (collects : buffer.Collects bytes)
    (few : bytes.length ≤ 4 * position + 2)
    (roomy : buffer.Roomy (2 * left))
    (inside :
      ∀ output size, reading = .ok (some (output, size)) → size ≤ left)
    (later :
      ∀ output size after,
        reading = .ok (some (output, size)) →
          Buffer.Collects after (bytes ++ output) →
          (bytes ++ output).length ≤ 4 * (position + size) + 2 →
          Buffer.Roomy after (2 * (left - size)) →
          OnePart (goOn size after)) :
    OnePart outcome := by
  cases rounds with
  | failure | bad _ =>
    intro transcoding same
    cases same
  | @silent size short =>
    refine later [] size buffer rfl ?_ ?_ (roomy.mono (by omega))
    · rw [List.append_nil]
      exact collects
    · rw [List.append_nil]
      omega
  | @written output size next skip nonempty count fewer requests short =>
    have least := inside output size rfl
    have room := roomy.room
    rw [Buffer.put_of_room nonempty (by omega)]
    refine later output size _ rfl (collects.write output) ?_
      (Buffer.Roomy.write (roomy.mono (by omega)))
    rw [List.length_append]
    omega

end

/-- An object of at most one part is read in at most one region. -/
theorem Heap.WellFormed.regions_of_parts
    {heap : Heap}
    {data : Nat}
    (wellFormed : heap.WellFormed)
    (holds : heap.Holds data)
    (one : heap.parts data ≤ 1) :
    (heap.regions data).length ≤ 1 := by
  rw [Heap.parts] at one
  by_cases empty : (heap.object data).size = 0
  · rw [Heap.regions, if_pos empty]
    exact Nat.zero_le _
  · rw [if_neg empty] at one
    rw [Heap.regions, if_neg empty]
    cases direct : (heap.mapDirect data 0).buffer with
    | some buffer => exact Nat.le_refl 1
    | none =>
      obtain ⟨composite, notTrivial, -⟩ :=
        wellFormed.mapDirect_none holds empty direct
      have some := List.length_pos_iff.mpr composite
      rw [Object.numRecords, if_neg (by omega)] at one
      omega

/-! ## Objects -/

/-- What the visit of some regions returns for what is read in them. -/
inductive DeliversAll (bytes : List UInt8) :
    Text.Reading Failure (List (List UInt8)) →
      Except Failure (Transcoding × Bool) → Prop where
  | failure
      {failure : Failure} :
      DeliversAll bytes (.error failure) (.error failure)
  | bad
      {transcoding : Transcoding}
      {written : List UInt8}
      (collects : transcoding.buffer.Collects written)
      (storable : Storable written.length) :
      DeliversAll bytes (.ok none) (.ok (transcoding, false))
  | good
      {transcoding : Transcoding}
      {outputs : List (List UInt8)}
      (collects : transcoding.buffer.Collects (bytes ++ outputs.flatten))
      (flushed : transcoding.buffer.written = []) :
      DeliversAll bytes (.ok (some outputs)) (.ok (transcoding, true))

/-- The outputs of one more region. -/
theorem DeliversAll.append
    {outputs : List (List UInt8)}
    (delivers : DeliversAll (bytes ++ outputs.flatten) reading outcome) :
    DeliversAll bytes
      (reading.andThen fun others => .ok (some (outputs ++ others)))
      outcome := by
  cases delivers with
  | failure => exact .failure
  | bad collects storable => exact .bad collects storable
  | good collects flushed =>
    rw [List.append_assoc, ← List.flatten_append] at collects
    exact .good collects flushed

end

/-- The only region of an object. -/
theorem Delivers.one
    {reader : Text.Reader Failure UInt8 UInt8}
    {text bytes : List UInt8}
    {applier : Applier Transcoding}
    {transcoding : Transcoding}
    {region : Region}
    (positive : 0 < text.length)
    (delivers :
      Delivers bytes text.length
        (reader.region text text.length 0 text.length 0)
        (applier transcoding region)) :
    DeliversAll bytes (reader.whole text)
      (Data.visit applier [region] transcoding) := by
  rw [Text.Reader.whole, Text.Reader.run, if_neg (by omega), Nat.zero_add,
    Nat.sub_zero, Data.visit]
  generalize reader.region text text.length 0 text.length 0 = reading
    at delivers ⊢
  generalize applier transcoding region = outcome at delivers ⊢
  cases delivers with
  | failure => exact .failure
  | bad collects storable => exact .bad collects storable
  | good skip collects flushed few reached =>
    refine .good ?_ flushed
    rw [List.append_nil]
    exact collects

/-- What a transform returns for what is read in an object. -/
inductive Transforms (opening : List UInt8) :
    Text.Reading Failure (List (List UInt8)) →
      Except Failure (Heap × Option Nat) → Prop where
  | failure
      {failure : Failure} :
      Transforms opening (.error failure) (.error failure)
  | bad
      {after : Heap} :
      Transforms opening (.ok none) (.ok (after, none))
  | good
      {after : Heap}
      {result : Nat}
      {outputs : List (List UInt8)}
      (wellFormed : after.WellFormed)
      (holds : after.Holds result)
      (denotes : after.bytes result = opening ++ outputs.flatten) :
      Transforms opening (.ok (some outputs)) (.ok (after, some result))

theorem DeliversAll.finish
    {opening : List UInt8}
    (delivers : DeliversAll opening reading outcome)
    (limit : Option Nat) :
    Transforms opening reading (do
      let (transcoding, success) ← outcome
      transcoding.finish limit true success) := by
  cases delivers with
  | failure => exact .failure
  | bad collects storable =>
    obtain ⟨after, computes, -⟩ := collects.end storable limit
    simp only [bind, Except.bind, Transcoding.finish, computes]
    exact .bad
  | good collects flushed =>
    have denotes := collects.denotes
    rw [flushed, List.append_nil] at denotes
    exact .good collects.wellFormed collects.holds denotes

/-- An object is returned if the block returns true for the only region. -/
theorem visit_of_finish
    {applier : Applier Transcoding}
    {transcoding : Transcoding}
    {region : Region}
    {after : Heap}
    {result : Nat}
    (returns :
      (do
        let (transcoding, success) ← visit applier [region] transcoding
        transcoding.finish limit true success) =
          .ok (after, some result)) :
    ∃ last,
      applier transcoding region = .ok (last, true) ∧
        after = last.buffer.heap ∧ result = last.buffer.data := by
  rw [visit] at returns
  generalize applier transcoding region = outcome at returns ⊢
  rcases outcome with failure | ⟨last, _ | _⟩
  · cases returns
  · simp only [bind, Except.bind, pure, Except.pure, Transcoding.finish]
      at returns
    cases flushes : last.buffer.new limit true 0 0 with
    | error _ | ok _ => simp [flushes] at returns
  · cases returns
    exact ⟨last, rfl, rfl, rfl⟩

/-! ## Visits -/

section Visits

variable (reader : Text.Reader Failure UInt8 UInt8)

/-- What the block of a transform does with a region: it skips it or it writes
what is read there, after an opening for the first region. -/
structure Transcodes
    (applier : Applier Transcoding)
    (text opening : List UInt8) : Prop where
  skips :
    ∀ {region : Region} {skip : Nat} {buffer : Buffer},
      region.offset ≠ 0 → region.size ≤ skip →
        applier ⟨skip, buffer⟩ region =
          .ok (⟨skip - region.size, buffer⟩, true)
  writes :
    ∀ {region : Region} {skip : Nat} {buffer : Buffer} {bytes : List UInt8},
      region.buffer = (text.drop region.offset).take region.size →
        region.offset + region.size ≤ text.length → skip < region.size →
        (region.offset = 0 → skip = 0 ∧ bytes = []) →
        buffer.Collects bytes →
        bytes.length ≤ 4 * (region.offset + skip) + 2 →
        Delivers (bytes ++ if region.offset = 0 then opening else [])
          (region.offset + region.size)
          (reader.region text (region.offset + region.size) skip
            (region.size - skip) (region.offset + skip))
          (applier ⟨skip, buffer⟩ region)

variable {reader} {applier : Applier Transcoding} {text opening : List UInt8}

/-- What is written for some regions is what is read in them. -/
theorem Transcodes.visit
    (transcodes : Transcodes reader applier text opening)
    {regions : List Region}
    {offset skip : Nat}
    (follows : FollowFrom offset regions)
    (sizes :
      ∀ region ∈ regions,
        region.buffer.length = region.size ∧ 0 < region.size)
    (rest : regionBytes regions = text.drop offset)
    (within : offset ≤ text.length)
    {buffer : Buffer}
    {bytes : List UInt8}
    (initial : offset = 0 → skip = 0 ∧ bytes = [])
    (collects : buffer.Collects bytes)
    (flushed : buffer.written = [])
    (few : bytes.length ≤ 4 * (offset + skip) + 2) :
    DeliversAll
      (bytes ++ if offset = 0 ∧ regions ≠ [] then opening else [])
      (reader.run text (regions.map Region.size) offset (offset + skip))
      (Data.visit applier regions ⟨skip, buffer⟩) := by
  induction regions generalizing offset skip buffer bytes with
  | nil =>
    refine .good ?_ flushed
    simpa using collects
  | cons region regions inductionHypothesis =>
    obtain ⟨here, follows⟩ := follows
    obtain ⟨length, positive⟩ := sizes region List.mem_cons_self
    have others : ∀ other ∈ regions,
        other.buffer.length = other.size ∧ 0 < other.size :=
      fun other member => sizes other (List.mem_cons_of_mem _ member)
    obtain ⟨own, later, total⟩ := regionBytes_split length rest within
    have further : offset + region.size ≠ 0 := by omega
    have opens : offset = 0 ∧ region :: regions ≠ [] ↔ offset = 0 := by
      simp
    rw [List.map_cons, Text.Reader.run, Data.visit]
    simp only [opens]
    by_cases skipped : region.size ≤ skip
    · have inside : offset ≠ 0 := fun zero => by
        have nothing := (initial zero).1
        omega
      have visits := inductionHypothesis follows others later total
        (fun zero => absurd zero further) collects flushed
        (show bytes.length ≤
          4 * (offset + region.size + (skip - region.size)) + 2 by omega)
      have same : offset + region.size + (skip - region.size) =
          offset + skip := by
        omega
      rw [if_neg (fun both => further both.1), same] at visits
      rw [if_neg inside, if_pos (Nat.add_le_add_left skipped offset),
        transcodes.skips (here ▸ inside) skipped]
      exact visits
    · have position : offset + skip - offset = skip := by omega
      have delivers := transcodes.writes (here ▸ own) (here ▸ total)
        (Nat.lt_of_not_le skipped) (here ▸ initial) collects (here ▸ few)
      rw [here] at delivers
      rw [if_neg (show ¬ offset + region.size ≤ offset + skip by omega),
        position, Text.Reader.region_fuel _ _
          (by omega :
            offset + region.size - (offset + skip) ≤ region.size)]
      have fuel : offset + region.size - (offset + skip) =
          region.size - skip := by
        omega
      rw [fuel]
      generalize reader.region text (offset + region.size) skip
        (region.size - skip) (offset + skip) = reading at delivers ⊢
      generalize applier ⟨skip, buffer⟩ region = outcome at delivers ⊢
      cases delivers with
      | failure => exact .failure
      | bad collects storable => exact .bad collects storable
      | @good transcoding outputs last ahead collects flushed few reached =>
        have visits := inductionHypothesis follows others later total
          (fun zero => absurd zero further) collects flushed
          (show _ ≤ 4 * (offset + region.size +
            (last - (offset + region.size))) + 2 by
              rw [Nat.add_sub_cancel' reached]
              exact few)
        have closed :
            ¬ (offset + region.size = 0 ∧ regions ≠ []) :=
          fun both => further both.1
        rw [if_neg closed, List.append_nil,
          Nat.add_sub_cancel' reached, ← ahead] at visits
        exact visits.append

end Visits

variable {heap : Heap} {data : Nat}

/-- The object that is returned denotes what is read in the regions. -/
theorem Transcodes.transforms
    {reader : Text.Reader Failure UInt8 UInt8}
    {applier : Applier Transcoding}
    {opening : List UInt8}
    (wellFormed : heap.WellFormed)
    (holds : heap.Holds data)
    (transcodes : Transcodes reader applier (heap.bytes data) opening)
    (limit : Option Nat) :
    Transforms (if heap.bytes data = [] then [] else opening)
      (reader.run (heap.bytes data) ((heap.regions data).map Region.size) 0 0)
      (do
        let (transcoding, success) ← heap.apply applier data
          ⟨0, Buffer.initial heap⟩
        transcoding.finish limit true success) := by
  obtain ⟨follows, bytes, sizes⟩ := wellFormed.regions_spec holds
  have visits := transcodes.visit follows sizes bytes (Nat.zero_le _)
    (fun _ => ⟨rfl, rfl⟩) (Buffer.first_collects wellFormed none 0) rfl
    (Nat.zero_le _)
  have empty : heap.regions data = [] ↔ heap.bytes data = [] := by
    rw [← bytes]
    refine ⟨fun none => by rw [none]; rfl, fun none => ?_⟩
    cases regions : heap.regions data with
    | nil => rfl
    | cons region others =>
      have own := sizes region (by rw [regions]; exact List.mem_cons_self)
      rw [regions, regionBytes, List.map_cons, List.flatten_cons,
        List.append_eq_nil_iff] at none
      rw [none.1, List.length_nil] at own
      omega
  have opens :
      ([] ++ if 0 = 0 ∧ heap.regions data ≠ [] then opening else []) =
        if heap.bytes data = [] then [] else opening := by
    by_cases none : heap.bytes data = []
    · simp [none, empty]
    · simp [none, empty]
  rw [opens] at visits
  rw [wellFormed.apply holds]
  exact visits.finish limit

/-! ## Limits -/

/-- The bytes of what a transform returns, none if it refuses. -/
def resultBytes
    (outcome : Except Failure (Heap × Option Nat)) :
    Except Failure (Option (List UInt8)) :=
  outcome.map fun returned => returned.2.map returned.1.bytes

theorem Transforms.bytes
    {opening : List UInt8}
    {outcome : Except Failure (Heap × Option Nat)}
    (transforms : Transforms opening reading outcome) :
    resultBytes outcome =
      reading.map (Option.map fun outputs => opening ++ outputs.flatten) := by
  cases transforms with
  | failure => rfl
  | bad => rfl
  | good _ _ denotes => exact congrArg (Except.ok ∘ some) denotes

/-- What has the bytes of a result returns one with these bytes. -/
theorem resultBytes_eq_some
    {outcome : Except Failure (Heap × Option Nat)}
    {bytes : List UInt8}
    (same : resultBytes outcome = .ok (some bytes)) :
    ∃ after object,
      outcome = .ok (after, some object) ∧
        after.bytes object = bytes := by
  rcases outcome with _ | ⟨after, _ | object⟩
  · cases same
  · cases same
  · cases same
    exact ⟨after, object, rfl, rfl⟩

theorem resultBytes_eq_none
    {outcome : Except Failure (Heap × Option Nat)}
    (same : resultBytes outcome = .ok none) :
    ∃ after, outcome = .ok (after, none) := by
  rcases outcome with _ | ⟨after, _ | object⟩
  · cases same
  · exact ⟨after, rfl⟩
  · cases same

/-- The limit of the size of a buffer does not change the result. -/
def LimitFree
    (transform : Option Nat → Transform)
    (heap : Heap)
    (data : Nat) : Prop :=
  resultBytes (transform (some bufferMallocMax) heap data true) =
    resultBytes (transform none heap data true)
deriving Decidable

variable (wellFormed : heap.WellFormed) (holds : heap.Holds data)

include wellFormed holds

/-- What is in one region is not empty. -/
theorem Heap.WellFormed.bytes_of_one
    (one : (heap.regions data).length = 1) :
    heap.bytes data ≠ [] := by
  obtain ⟨region, -, -, -, -, positive⟩ := wellFormed.region_of_one holds one
  exact List.length_pos_iff.mp positive

/-- What is not empty and has one part is in one region. -/
theorem Heap.WellFormed.one_of_parts
    (one : heap.parts data ≤ 1)
    (some : heap.bytes data ≠ []) :
    (heap.regions data).length = 1 := by
  have fewer := wellFormed.regions_of_parts holds one
  have sum := wellFormed.sum_sizes holds
  rcases regions : heap.regions data with _ | ⟨first, rest⟩
  · rw [regions, List.map_nil, List.sum_nil] at sum
    exact absurd (List.length_eq_zero_iff.mp sum.symm) some
  · rw [regions, List.length_cons] at fewer
    rw [List.length_cons]
    omega

/-- What is read in an object of at most one region is the whole text. -/
theorem Heap.WellFormed.run_of_one
    (one : (heap.regions data).length ≤ 1)
    (reader : Text.Reader Failure UInt8 UInt8) :
    reader.run (heap.bytes data) ((heap.regions data).map Region.size) 0 0 =
      reader.whole (heap.bytes data) := by
  have total := wellFormed.sum_sizes holds
  rcases regions : heap.regions data with _ | ⟨region, _ | ⟨other, others⟩⟩
  · rw [regions, List.map_nil, List.sum_nil] at total
    rw [Text.Reader.whole, ← total]
    rfl
  · rw [regions, List.map_singleton, List.sum_singleton] at total
    rw [List.map_singleton, total]
    rfl
  · rw [regions] at one
    simp at one

end LibDispatch.Data
