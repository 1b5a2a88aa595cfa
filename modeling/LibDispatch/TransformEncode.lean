import LibDispatch.BaseEncoding
import LibDispatch.DataGuarantees
import LibDispatch.Transform

namespace LibDispatch.Data

/-!
# Encoders

An encoder writes the encoding of the bytes of an object, however these are cut
into regions.
-/

variable {heap : Heap} {data : Nat}

/-! ## Regions -/

variable (encoder : Encoder)

/-- The byte before the present one as the symbols need it. -/
def Encoder.lastAt
    (count : Nat)
    (last : UInt8) : UInt8 :=
  if count % encoder.groupBytes = 0 then 0 else last

/-- The symbols for some bytes of a contiguous buffer, after a number of bytes
and the last one of these. -/
def Encoder.emission (encoder : Encoder) : Nat → UInt8 → List UInt8 → List UInt8
  | _, _, [] => []
  | count, last, curr :: bytes =>
    encoder.emit (count % encoder.groupBytes) (encoder.lastAt count last)
        curr ++
      encoder.emission (count + 1) curr bytes

theorem Encoder.emission_append
    (count : Nat)
    (last : UInt8)
    (bytes others : List UInt8) :
    encoder.emission count last (bytes ++ others) =
      encoder.emission count last bytes ++
        encoder.emission (count + bytes.length) (bytes.getLastD last)
          others := by
  induction bytes generalizing count last with
  | nil => rfl
  | cons curr bytes inductionHypothesis =>
    rw [List.cons_append, emission, inductionHypothesis, emission,
      List.append_assoc, List.length_cons, List.getLastD_cons,
      Nat.add_assoc, Nat.add_comm 1]

variable {last : UInt8}

/-- The symbols depend on the position in a group only. -/
theorem Encoder.emission_congr
    {count other : Nat}
    {another : UInt8}
    (position : count % encoder.groupBytes = other % encoder.groupBytes)
    (sameLast : encoder.lastAt count last = encoder.lastAt other another)
    (bytes : List UInt8) :
    encoder.emission count last bytes =
      encoder.emission other another bytes := by
  induction bytes generalizing count other last another with
  | nil => rfl
  | cons curr bytes inductionHypothesis =>
    have next : (count + 1) % encoder.groupBytes =
        (other + 1) % encoder.groupBytes := by
      rw [Nat.add_mod, position, ← Nat.add_mod]
    have nextLast : encoder.lastAt (count + 1) curr =
        encoder.lastAt (other + 1) curr := by
      rw [lastAt, lastAt, next]
    rw [emission, emission, inductionHypothesis next nextLast, position,
      sameLast]

variable {offset : Nat}

section

variable (wellFormed : heap.WellFormed) (holds : heap.Holds data)

include wellFormed holds

/-- A range that is in the object is mapped. -/
theorem Heap.WellFormed.subrangeMap
    {size : Nat}
    (positive : 0 < size)
    (inside : offset + size ≤ (heap.bytes data).length) :
    ∃ pointer,
      heap.subrangeMap data offset size true = .ok (some pointer) ∧
        pointer.take size = ((heap.bytes data).drop offset).take size := by
  obtain ⟨after, result, computes, returns⟩ :=
    wellFormed.createSubrange holds offset size
  have length : (after.bytes result).length = size := by
    rw [returns.denotes, List.length_take, List.length_drop]
    omega
  have sameSize : (after.object result).size = size := by
    rw [← returns.wellFormed.length_bytes returns.holds, length]
  obtain ⟨later, mapping, maps, mapped⟩ :=
    returns.wellFormed.createMap returns.holds
  obtain ⟨copy, isCopy, -⟩ := mapped.returns
  have contiguous := mapped.contiguous
  rw [mapped.size, length] at contiguous
  simp only [Heap.subrangeMap, computes, bind, Except.bind, sameSize, if_pos,
    maps, isCopy]
  cases buffer : mapping.buffer with
  | none =>
    rw [buffer, Option.getD_none, List.take_nil] at contiguous
    rw [← contiguous, List.length_nil] at length
    omega
  | some pointer =>
    rw [buffer] at contiguous
    exact ⟨pointer, rfl, contiguous.trans returns.denotes⟩

/-- A range beyond the end of the object is not mapped. -/
theorem Heap.WellFormed.subrangeMap_beyond
    {size : Nat}
    (beyond : (heap.bytes data).length < offset + size)
    (positive : 0 < size) :
    heap.subrangeMap data offset size true = .ok none := by
  obtain ⟨after, result, computes, returns⟩ :=
    wellFormed.createSubrange holds offset size
  have otherSize : (after.object result).size ≠ size := by
    rw [← returns.wellFormed.length_bytes returns.holds, returns.denotes,
      List.length_take, List.length_drop]
    omega
  simp only [Heap.subrangeMap, computes, bind, Except.bind,
    if_neg otherSize]
  rfl

/-- The byte before an offset is found in the object. -/
theorem Heap.WellFormed.lastByte
    {before after : List UInt8}
    (parts : heap.bytes data = before ++ last :: after) :
    heap.lastByte data (before.length + 1) true = .ok (some last) := by
  obtain ⟨pointer, maps, same⟩ := wellFormed.subrangeMap holds
    Nat.one_pos (show before.length + 1 ≤ (heap.bytes data).length by
      rw [parts, List.length_append, List.length_cons]
      omega)
  rw [parts, List.drop_left] at same
  rw [Heap.lastByte, Nat.add_sub_cancel, maps]
  cases pointer with
  | nil => cases same
  | cons first bytes =>
    cases same
    rfl

omit wellFormed holds in
/-- The loop over a region writes the symbols for its bytes. -/
theorem Encoder.loop_eq
    {count : Nat}
    {previous : Option UInt8}
    (found :
      encoder.last heap data offset true previous count =
        .ok (some (encoder.lastAt count last)))
    (bytes written : List UInt8) :
    encoder.loop heap data offset true bytes previous ⟨count, written⟩ =
      .ok (⟨count + bytes.length,
        written ++ encoder.emission count last bytes⟩, true) := by
  induction bytes generalizing last previous count written with
  | nil => simp [Encoder.loop, emission]
  | cons curr bytes inductionHypothesis =>
    have next : encoder.last heap data offset true (some curr) (count + 1) =
        .ok (some (encoder.lastAt (count + 1) curr)) := by
      rw [Encoder.last, lastAt]
      split <;> rfl
    simp only [Encoder.loop, found, bind, Except.bind]
    rw [inductionHypothesis next, emission, List.length_cons,
      List.append_assoc, Nat.add_assoc, Nat.add_comm 1]

omit wellFormed holds in
theorem regionBytes_cons
    (region : Region)
    (regions : List Region) :
    regionBytes (region :: regions) =
      region.buffer ++ regionBytes regions := by
  simp [regionBytes]

/-- After some bytes, one region is encoded, and the end if it is the last
one. -/
theorem Encoder.applier_eq
    {done rest : List UInt8}
    {region : Region}
    (parts : heap.bytes data = done ++ (region.buffer ++ rest))
    (starts : region.offset = done.length)
    (length : region.buffer.length = region.size) :
    encoder.applier heap data true ⟨done.length, encoder.emission 0 0 done⟩
        region =
      .ok (⟨(done ++ region.buffer).length,
        encoder.emission 0 0 (done ++ region.buffer) ++
          if rest.length = 0 then
            encoder.finish ((done ++ region.buffer).length %
              encoder.groupBytes) (region.buffer.getLastD 0)
          else
            []⟩, true) := by
  have total := wellFormed.length_bytes holds
  have found : encoder.last heap data region.offset true none done.length =
      .ok (some (encoder.lastAt done.length (done.getLastD 0))) := by
    rw [starts, Encoder.last, Encoder.lastAt]
    split
    · rfl
    · rename_i inside
      cases done using List.reverseRecOn with
      | nil => exact absurd (Nat.zero_mod _) inside
      | append_singleton before last =>
        rw [List.length_append, List.length_singleton, List.getLastD_concat]
        rw [List.append_assoc] at parts
        exact wellFormed.lastByte holds parts
  have whole : encoder.emission 0 0 done ++
      encoder.emission done.length (done.getLastD 0) region.buffer =
        encoder.emission 0 0 (done ++ region.buffer) := by
    rw [encoder.emission_append, Nat.zero_add]
  rw [parts, List.length_append, List.length_append] at total
  simp only [Encoder.applier, encoder.loop_eq found, bind, Except.bind, whole,
    if_pos, List.length_append]
  by_cases last : rest.length = 0
  · rw [if_pos last, if_pos (by omega)]
    rfl
  · rw [if_neg last, if_neg (by omega), List.append_nil]
    rfl

/-- After some bytes, the rest of the regions is encoded. -/
theorem Encoder.visit_eq
    {done : List UInt8}
    {regions : List Region}
    (parts : heap.bytes data = done ++ regionBytes regions)
    (follows : FollowFrom done.length regions)
    (sizes :
      ∀ region ∈ regions,
        region.buffer.length = region.size ∧ 0 < region.size)
    (nonempty : regions ≠ []) :
    visit (encoder.applier heap data true) regions
        ⟨done.length, encoder.emission 0 0 done⟩ =
      .ok (⟨(heap.bytes data).length,
        encoder.emission 0 0 (heap.bytes data) ++
          encoder.finish ((heap.bytes data).length % encoder.groupBytes)
            ((heap.bytes data).getLastD 0)⟩, true) := by
  induction regions generalizing done with
  | nil => exact absurd rfl nonempty
  | cons region regions inductionHypothesis =>
    obtain ⟨starts, follows⟩ := follows
    obtain ⟨length, positive⟩ := sizes region List.mem_cons_self
    rw [regionBytes_cons] at parts
    rw [visit, encoder.applier_eq wellFormed holds parts starts length]
    simp only [bind, Except.bind]
    cases regions with
    | nil =>
      have whole : heap.bytes data = done ++ region.buffer := by
        rw [parts, regionBytes, List.map_nil, List.flatten_nil,
          List.append_nil]
      have last : (done ++ region.buffer).getLastD 0 =
          region.buffer.getLastD 0 := by
        have some : region.buffer ≠ [] := by
          rw [← List.length_pos_iff, length]
          exact positive
        rw [List.getLastD_eq_getLast?,
          List.getLast?_append_of_ne_nil _ some,
          List.getLastD_eq_getLast?]
      rw [whole, last]
      rfl
    | cons next regions =>
      have later := sizes next (by simp)
      have more : (regionBytes (next :: regions)).length ≠ 0 := by
        rw [regionBytes_cons, List.length_append]
        omega
      rw [if_neg more, List.append_nil]
      refine inductionHypothesis ?_ ?_ ?_ (by simp)
      · rw [parts, List.append_assoc]
      · rw [List.length_append, length]
        exact follows
      · intro other member
        exact sizes other (List.mem_cons_of_mem _ member)

/-! ## Groups -/

/-- An encoder writes the groups of an encoding. -/
structure Encoder.Implements (encoder : Encoder) (code : BaseCode) : Prop where
  groupBytes : encoder.groupBytes = code.groupBytes
  groupSymbols : encoder.groupSymbols = code.groupSymbols
  group :
    ∀ chunk : List UInt8, chunk.length = code.groupBytes →
      encoder.emission 0 0 chunk = code.encodeGroup chunk
  last :
    ∀ chunk : List UInt8, chunk ≠ [] → chunk.length < code.groupBytes →
      encoder.emission 0 0 chunk ++
          encoder.finish chunk.length (chunk.getLastD 0) =
        code.encodeGroup chunk
  complete : ∀ last, encoder.finish 0 last = []

variable {code : BaseCode}

omit wellFormed holds in
/-- The symbols for all bytes and for the end are the encoding. -/
theorem Encoder.Implements.encode_eq
    {encoder : Encoder}
    (implements : encoder.Implements code)
    (bytes : List UInt8) :
    encoder.emission 0 0 bytes ++
        encoder.finish (bytes.length % code.groupBytes) (bytes.getLastD 0) =
      code.encode bytes := by
  induction bytes using code.groups_induction with
  | nil =>
    rw [List.length_nil, Nat.zero_mod, implements.complete, code.encode_nil]
    rfl
  | last chunk nonempty short =>
    rw [Nat.mod_eq_of_lt short, implements.last chunk nonempty short,
      code.encode_short nonempty (Nat.le_of_lt short)]
  | group chunk rest full inductionHypothesis =>
    have again : encoder.emission (0 + chunk.length) (chunk.getLastD 0)
        rest = encoder.emission 0 0 rest := by
      refine encoder.emission_congr ?_ ?_ rest
      · rw [Nat.zero_add, full, implements.groupBytes, Nat.mod_self,
          Nat.zero_mod]
      · rw [Encoder.lastAt, Encoder.lastAt, if_pos, if_pos (Nat.zero_mod _)]
        rw [Nat.zero_add, full, implements.groupBytes, Nat.mod_self]
    rw [encoder.emission_append, again, implements.group chunk full,
      code.encode_append full, ← inductionHypothesis, List.length_append,
      full, Nat.add_mod_left, List.append_assoc]
    cases rest using List.reverseRecOn with
    | nil =>
      rw [List.length_nil, Nat.zero_mod, implements.complete,
        implements.complete]
    | append_singleton front last =>
      rw [← List.append_assoc chunk, List.getLastD_concat,
        List.getLastD_concat]

/-- An encoder writes the encoding of an object to a new leaf. -/
theorem Encoder.Implements.encode
    {encoder : Encoder}
    (implements : encoder.Implements code)
    (nonempty : heap.bytes data ≠ [])
    (noOverflow :
      (heap.object data).size + (code.groupBytes - 1) < 2 ^ 64)
    (fits : (code.encode (heap.bytes data)).length < 2 ^ 64) :
    ∃ after result,
      encoder.encode heap data true = .ok (after, some result) ∧
        Returns heap after result (code.encode (heap.bytes data)) ∧
        (after.object result).records = [] := by
  obtain ⟨follows, bytes, sizes⟩ := wellFormed.regions_spec holds
  have total := wellFormed.length_bytes holds
  have regions : heap.regions data ≠ [] := by
    intro none
    rw [none] at bytes
    exact nonempty bytes.symm
  have visited : visit (encoder.applier heap data true) (heap.regions data)
      ⟨0, []⟩ = _ :=
    encoder.visit_eq wellFormed holds
      (bytes.symm.trans (List.nil_append _).symm) follows sizes regions
  rw [implements.groupBytes, implements.encode_eq] at visited
  have groups : howmany (heap.object data).size encoder.groupBytes *
      encoder.groupSymbols = (code.encode (heap.bytes data)).length := by
    rw [code.length_encode, total, implements.groupBytes,
      implements.groupSymbols, howmany, Nat.mod_eq_of_lt noOverflow]
  have few : ¬ howmany (heap.object data).size encoder.groupBytes >
      (2 ^ 64 - 1) / encoder.groupSymbols := by
    have positive := implements.groupSymbols ▸ code.someSymbols
    refine Nat.not_lt.mpr ((Nat.le_div_iff_mul_le positive).mpr ?_)
    omega
  have copied : memcpy
      (List.replicate (code.encode (heap.bytes data)).length 0) 0
      (code.encode (heap.bytes data)) = code.encode (heap.bytes data) := by
    simp [memcpy]
  have some : (code.encode (heap.bytes data)).length ≠ 0 :=
    List.length_eq_zero_iff.not.mpr (code.encode_ne_nil nonempty)
  have enough : Destructor.other.Suffices true
      (code.encode (heap.bytes data)) := trivial
  refine ⟨_, _, ?_, Returns.ofLeaf wellFormed fits, by simp⟩
  simp only [Encoder.encode, if_neg few, groups, if_pos,
    wellFormed.apply holds, visited, bind, Except.bind, copied,
    Heap.create_of_nonempty some, if_pos enough]
  rfl

end

/-! ## Symbols -/

/-- The bits of a byte and the rest of the byte before it. -/
theorem carry_eq
    {shift rest curr : Nat}
    (byte : shift + rest = 8)
    (small : curr < 256)
    (last : Nat) :
    (last <<< shift) ||| (curr >>> rest) =
      last * 2 ^ shift + curr / 2 ^ rest := by
  have below : curr / 2 ^ rest < 2 ^ shift := by
    refine Nat.div_lt_of_lt_mul ?_
    rw [← Nat.pow_add, Nat.add_comm, byte]
    exact small
  rw [Nat.shiftRight_eq_div_pow, ← Nat.shiftLeft_add_eq_or_of_lt below,
    Nat.shiftLeft_eq]

/-- The bits of the last byte, filled with zeros. -/
theorem fill_eq
    (last shift width : Nat) :
    (last <<< shift) &&& ((2 ^ width - 1) <<< shift) =
      last % 2 ^ width * 2 ^ shift := by
  rw [← Nat.shiftLeft_and_distrib, Nat.and_two_pow_sub_one_eq_mod,
    Nat.shiftLeft_eq]

theorem and31
    (value : Nat) :
    value &&& 0x1f = value % 32 :=
  Nat.and_two_pow_sub_one_eq_mod value 5

theorem and63
    (value : Nat) :
    value &&& 0x3f = value % 64 :=
  Nat.and_two_pow_sub_one_eq_mod value 6

/-- A table holds the alphabet of an encoding. -/
def Spells (table : List UInt8) (code : BaseCode) : Prop :=
  ∀ digit < 2 ^ code.bits, symbolOf table digit = code.symbol digit

instance (table : List UInt8) (code : BaseCode) :
    Decidable (Spells table code) :=
  inferInstanceAs (Decidable (∀ digit < 2 ^ code.bits, _))

variable {chunk : List UInt8}

/-- A table that holds the alphabet gives the symbols of a group. -/
theorem Spells.encodeGroup_eq
    {table : List UInt8}
    (spells : Spells table code)
    {fill : Nat}
    (filled : code.groupSymbols - code.symbolsFor chunk.length = fill)
    {indices : List Nat}
    (same : indices = code.groupSymbolDigits chunk) :
    indices.map (symbolOf table) ++ List.replicate fill code.padding =
      code.encodeGroup chunk := by
  rw [same, ← filled, BaseCode.encodeGroup, List.map_congr_left]
  intro digit member
  exact spells digit (code.groupSymbolDigits_lt member)

section Base64

variable (a b c : UInt8)

theorem base64_digits1 :
    [(a.toNat >>> 2) &&& 0x3f, (a.toNat <<< 4) &&& 0x30] =
      base64.groupSymbolDigits [a] := by
  have fill : (a.toNat <<< 4) &&& 0x30 = _ := fill_eq a.toNat 4 2
  rw [fill]
  simp [and63, Nat.shiftRight_eq_div_pow, BaseCode.groupSymbolDigits,
    BaseCode.groupDigits, BaseCode.symbolsFor, base64, digitsOf, valueOf]
  omega

theorem base64_digits2 :
    [(a.toNat >>> 2) &&& 0x3f,
      ((a.toNat <<< 4) ||| (b.toNat >>> 4)) &&& 0x3f,
      (b.toNat <<< 2) &&& 0x3c] =
      base64.groupSymbolDigits [a, b] := by
  have smallB : b.toNat < 256 := b.toNat_lt
  have fill : (b.toNat <<< 2) &&& 0x3c = _ := fill_eq b.toNat 2 4
  rw [carry_eq (rfl : 4 + 4 = 8) smallB, fill]
  simp [and63, Nat.shiftRight_eq_div_pow, BaseCode.groupSymbolDigits,
    BaseCode.groupDigits, BaseCode.symbolsFor, base64, digitsOf, valueOf]
  omega

theorem base64_digits3 :
    [(a.toNat >>> 2) &&& 0x3f,
      ((a.toNat <<< 4) ||| (b.toNat >>> 4)) &&& 0x3f,
      ((b.toNat <<< 2) ||| (c.toNat >>> 6)) &&& 0x3f,
      c.toNat &&& 0x3f] =
      base64.groupSymbolDigits [a, b, c] := by
  have smallB : b.toNat < 256 := b.toNat_lt
  have smallC : c.toNat < 256 := c.toNat_lt
  rw [carry_eq (rfl : 4 + 4 = 8) smallB, carry_eq (rfl : 2 + 6 = 8) smallC]
  simp [and63, Nat.shiftRight_eq_div_pow, BaseCode.groupSymbolDigits,
    BaseCode.groupDigits, BaseCode.symbolsFor, base64, digitsOf, valueOf]
  omega

theorem base64_fill
    (count : Nat)
    (length : chunk.length = count) :
    base64.groupSymbols - base64.symbolsFor chunk.length =
      4 - (8 * count + 5) / 6 :=
  length ▸ rfl

theorem base64EncodeTable_spells : Spells base64EncodeTable base64 := by
  decide

theorem base64Encoder_implements : base64Encoder.Implements base64 where
  groupBytes := rfl
  groupSymbols := rfl
  group := by
    intro chunk full
    match chunk, full with
    | [a, b, c], _ =>
      exact base64EncodeTable_spells.encodeGroup_eq (base64_fill 3 rfl)
        (base64_digits3 a b c)
  last := by
    intro chunk nonempty short
    match chunk, nonempty, short with
    | [a], _, _ =>
      exact base64EncodeTable_spells.encodeGroup_eq (base64_fill 1 rfl)
        (base64_digits1 a)
    | [a, b], _, _ =>
      exact base64EncodeTable_spells.encodeGroup_eq (base64_fill 2 rfl)
        (base64_digits2 a b)
  complete := fun _ => rfl

end Base64

section Base32

variable (symbol : Nat → UInt8) (a b c d e : UInt8)

theorem base32_digits1 :
    [(a.toNat >>> 3) &&& 0x1f, (a.toNat <<< 2) &&& 0x1c] =
      (base32With symbol).groupSymbolDigits [a] := by
  have fill : (a.toNat <<< 2) &&& 0x1c = _ := fill_eq a.toNat 2 3
  rw [fill]
  simp [and31, Nat.shiftRight_eq_div_pow, BaseCode.groupSymbolDigits,
    BaseCode.groupDigits, BaseCode.symbolsFor, base32With, digitsOf, valueOf]
  omega

theorem base32_digits2 :
    [(a.toNat >>> 3) &&& 0x1f,
      ((a.toNat <<< 2) ||| (b.toNat >>> 6)) &&& 0x1f,
      (b.toNat >>> 1) &&& 0x1f,
      (b.toNat <<< 4) &&& 0x10] =
      (base32With symbol).groupSymbolDigits [a, b] := by
  have smallB : b.toNat < 256 := b.toNat_lt
  have fill : (b.toNat <<< 4) &&& 0x10 = _ := fill_eq b.toNat 4 1
  rw [carry_eq (rfl : 2 + 6 = 8) smallB, fill]
  simp [and31, Nat.shiftRight_eq_div_pow, BaseCode.groupSymbolDigits,
    BaseCode.groupDigits, BaseCode.symbolsFor, base32With, digitsOf, valueOf]
  omega

theorem base32_digits3 :
    [(a.toNat >>> 3) &&& 0x1f,
      ((a.toNat <<< 2) ||| (b.toNat >>> 6)) &&& 0x1f,
      (b.toNat >>> 1) &&& 0x1f,
      ((b.toNat <<< 4) ||| (c.toNat >>> 4)) &&& 0x1f,
      (c.toNat <<< 1) &&& 0x1e] =
      (base32With symbol).groupSymbolDigits [a, b, c] := by
  have smallB : b.toNat < 256 := b.toNat_lt
  have smallC : c.toNat < 256 := c.toNat_lt
  have fill : (c.toNat <<< 1) &&& 0x1e = _ := fill_eq c.toNat 1 4
  rw [carry_eq (rfl : 2 + 6 = 8) smallB, carry_eq (rfl : 4 + 4 = 8) smallC,
    fill]
  simp [and31, Nat.shiftRight_eq_div_pow, BaseCode.groupSymbolDigits,
    BaseCode.groupDigits, BaseCode.symbolsFor, base32With, digitsOf, valueOf]
  omega

theorem base32_digits4 :
    [(a.toNat >>> 3) &&& 0x1f,
      ((a.toNat <<< 2) ||| (b.toNat >>> 6)) &&& 0x1f,
      (b.toNat >>> 1) &&& 0x1f,
      ((b.toNat <<< 4) ||| (c.toNat >>> 4)) &&& 0x1f,
      ((c.toNat <<< 1) ||| (d.toNat >>> 7)) &&& 0x1f,
      (d.toNat >>> 2) &&& 0x1f,
      (d.toNat <<< 3) &&& 0x18] =
      (base32With symbol).groupSymbolDigits [a, b, c, d] := by
  have smallB : b.toNat < 256 := b.toNat_lt
  have smallC : c.toNat < 256 := c.toNat_lt
  have smallD : d.toNat < 256 := d.toNat_lt
  have fill : (d.toNat <<< 3) &&& 0x18 = _ := fill_eq d.toNat 3 2
  rw [carry_eq (rfl : 2 + 6 = 8) smallB, carry_eq (rfl : 4 + 4 = 8) smallC,
    carry_eq (rfl : 1 + 7 = 8) smallD, fill]
  simp [and31, Nat.shiftRight_eq_div_pow, BaseCode.groupSymbolDigits,
    BaseCode.groupDigits, BaseCode.symbolsFor, base32With, digitsOf, valueOf]
  omega

theorem base32_digits5 :
    [(a.toNat >>> 3) &&& 0x1f,
      ((a.toNat <<< 2) ||| (b.toNat >>> 6)) &&& 0x1f,
      (b.toNat >>> 1) &&& 0x1f,
      ((b.toNat <<< 4) ||| (c.toNat >>> 4)) &&& 0x1f,
      ((c.toNat <<< 1) ||| (d.toNat >>> 7)) &&& 0x1f,
      (d.toNat >>> 2) &&& 0x1f,
      ((d.toNat <<< 3) ||| (e.toNat >>> 5)) &&& 0x1f,
      e.toNat &&& 0x1f] =
      (base32With symbol).groupSymbolDigits [a, b, c, d, e] := by
  have smallB : b.toNat < 256 := b.toNat_lt
  have smallC : c.toNat < 256 := c.toNat_lt
  have smallD : d.toNat < 256 := d.toNat_lt
  have smallE : e.toNat < 256 := e.toNat_lt
  rw [carry_eq (rfl : 2 + 6 = 8) smallB, carry_eq (rfl : 4 + 4 = 8) smallC,
    carry_eq (rfl : 1 + 7 = 8) smallD, carry_eq (rfl : 3 + 5 = 8) smallE]
  simp [and31, Nat.shiftRight_eq_div_pow, BaseCode.groupSymbolDigits,
    BaseCode.groupDigits, BaseCode.symbolsFor, base32With, digitsOf, valueOf]
  omega

variable {symbol}

theorem base32_fill
    (count : Nat)
    (length : chunk.length = count) :
    (base32With symbol).groupSymbols -
        (base32With symbol).symbolsFor chunk.length =
      8 - (8 * count + 4) / 5 :=
  length ▸ rfl

/-- Base 32, for any table that holds its alphabet. -/
theorem toBase32WithTable_implements
    {table : List UInt8}
    (spells : Spells table (base32With symbol)) :
    (toBase32WithTable table).Implements (base32With symbol) where
  groupBytes := rfl
  groupSymbols := rfl
  group := by
    intro chunk full
    match chunk, full with
    | [a, b, c, d, e], _ =>
      exact spells.encodeGroup_eq (base32_fill 5 rfl)
        (base32_digits5 symbol a b c d e)
  last := by
    intro chunk nonempty short
    match chunk, nonempty, short with
    | [a], _, _ =>
      exact spells.encodeGroup_eq (base32_fill 1 rfl)
        (base32_digits1 symbol a)
    | [a, b], _, _ =>
      exact spells.encodeGroup_eq (base32_fill 2 rfl)
        (base32_digits2 symbol a b)
    | [a, b, c], _, _ =>
      exact spells.encodeGroup_eq (base32_fill 3 rfl)
        (base32_digits3 symbol a b c)
    | [a, b, c, d], _, _ =>
      exact spells.encodeGroup_eq (base32_fill 4 rfl)
        (base32_digits4 symbol a b c d)
  complete := fun _ => rfl

end Base32

theorem base32EncodeTable_spells : Spells base32EncodeTable base32 := by
  decide

theorem base32hexEncodeTable_spells :
    Spells base32hexEncodeTable base32hex := by
  decide

end LibDispatch.Data
