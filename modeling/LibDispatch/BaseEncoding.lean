import LibDispatch.Numerals

namespace LibDispatch

/-!
# Base encodings

The encodings of RFC 4648: a byte string is cut into groups, the bits of a group
are read as symbols of an alphabet, and the last group is filled with zero bits
and padding symbols.
-/

/-- An encoding: its symbols have a number of bits, and a group of bytes has as
many bits as a group of symbols. -/
structure BaseCode where
  bits : Nat
  groupBytes : Nat
  groupSymbols : Nat
  symbol : Nat → UInt8
  padding : UInt8
  sameBits : bits * groupSymbols = 8 * groupBytes
  someBits : 0 < bits
  someBytes : 0 < groupBytes

namespace BaseCode

/-- The number of symbols that hold the bits of some bytes. -/
def symbolsFor (code : BaseCode) (bytes : Nat) : Nat :=
  (8 * bytes + (code.bits - 1)) / code.bits

/-- The digits of the bytes of a group, filled with zero bytes. -/
def groupDigits (code : BaseCode) (chunk : List UInt8) : List Nat :=
  chunk.map UInt8.toNat ++ List.replicate (code.groupBytes - chunk.length) 0

/-- The symbols of a group, before the padding. -/
def groupSymbolDigits (code : BaseCode) (chunk : List UInt8) : List Nat :=
  (digitsOf (2 ^ code.bits) code.groupSymbols
    (valueOf 256 (code.groupDigits chunk))).take (code.symbolsFor chunk.length)

/-- The encoding of the bytes of one group. -/
def encodeGroup (code : BaseCode) (chunk : List UInt8) : List UInt8 :=
  (code.groupSymbolDigits chunk).map code.symbol ++
    List.replicate (code.groupSymbols - code.symbolsFor chunk.length)
      code.padding

/-- The encoding of a byte string. -/
def encode (code : BaseCode) (bytes : List UInt8) : List UInt8 :=
  if bytes = [] then
    []
  else
    code.encodeGroup (bytes.take code.groupBytes) ++
      code.encode (bytes.drop code.groupBytes)
  termination_by bytes.length
  decreasing_by
    have positive := code.someBytes
    have length := List.length_pos_iff.mpr ‹_›
    rw [List.length_drop]
    omega

variable (code : BaseCode)

theorem someSymbols : 0 < code.groupSymbols := by
  have positive := code.someBytes
  have same := code.sameBits
  refine Nat.pos_of_ne_zero fun none => ?_
  rw [none, Nat.mul_zero] at same
  omega

/-! ## Groups -/

@[simp] theorem encode_nil : code.encode [] = [] := by
  rw [encode, if_pos rfl]

variable {chunk : List UInt8}

/-- A full group and what follows it. -/
theorem encode_append
    (full : chunk.length = code.groupBytes)
    (rest : List UInt8) :
    code.encode (chunk ++ rest) = code.encodeGroup chunk ++ code.encode rest := by
  have positive := code.someBytes
  have nonempty : chunk ++ rest ≠ [] := by
    intro none
    have length := congrArg List.length none
    rw [List.length_append, List.length_nil] at length
    omega
  rw [encode, if_neg nonempty, ← full, List.take_left, List.drop_left]

/-- The last group. -/
theorem encode_short
    (nonempty : chunk ≠ [])
    (short : chunk.length ≤ code.groupBytes) :
    code.encode chunk = code.encodeGroup chunk := by
  rw [encode, if_neg nonempty, List.take_of_length_le short,
    List.drop_eq_nil_of_le short, encode_nil, List.append_nil]

/-- A property of all byte strings, from that of the empty one and of the last
group, and by adding full groups in front. -/
theorem groups_induction
    {property : List UInt8 → Prop}
    (nil : property [])
    (last :
      ∀ chunk, chunk ≠ [] → chunk.length < code.groupBytes → property chunk)
    (group :
      ∀ chunk rest, chunk.length = code.groupBytes → property rest →
        property (chunk ++ rest))
    (bytes : List UInt8) :
    property bytes := by
  have positive := code.someBytes
  induction length : bytes.length using Nat.strongRecOn generalizing bytes with
  | _ count inductionHypothesis =>
    by_cases short : bytes.length < code.groupBytes
    · by_cases empty : bytes = []
      · exact empty ▸ nil
      · exact last bytes empty short
    · have shorter : (bytes.drop code.groupBytes).length < count := by
        rw [List.length_drop]
        omega
      rw [← List.take_append_drop code.groupBytes bytes]
      refine group _ _ ?_ (inductionHypothesis _ shorter _ rfl)
      rw [List.length_take]
      omega

/-! ## Lengths -/

theorem symbolsFor_le
    {bytes : Nat}
    (inGroup : bytes ≤ code.groupBytes) :
    code.symbolsFor bytes ≤ code.groupSymbols := by
  have positive := code.someBits
  have same := code.sameBits
  have enough : 8 * bytes + (code.bits - 1) <
      (code.groupSymbols + 1) * code.bits := by
    rw [Nat.succ_mul code.groupSymbols, Nat.mul_comm code.groupSymbols]
    omega
  exact Nat.lt_succ_iff.mp ((Nat.div_lt_iff_lt_mul positive).mpr enough)

/-- The symbols have room for all bits. -/
theorem le_symbolsFor
    (bytes : Nat) :
    8 * bytes ≤ code.bits * code.symbolsFor bytes := by
  have positive := code.someBits
  have room := Nat.lt_mul_div_succ (8 * bytes + (code.bits - 1)) positive
  rw [Nat.mul_add] at room
  rw [symbolsFor]
  omega

variable (inGroup : chunk.length ≤ code.groupBytes)

include inGroup

@[simp] theorem length_groupDigits :
    (code.groupDigits chunk).length = code.groupBytes := by
  simp only [groupDigits, List.length_append, List.length_map,
    List.length_replicate]
  omega

theorem length_groupSymbolDigits :
    (code.groupSymbolDigits chunk).length = code.symbolsFor chunk.length := by
  rw [groupSymbolDigits, List.length_take, length_digitsOf]
  exact Nat.min_eq_left (code.symbolsFor_le inGroup)

omit inGroup in
theorem groupSymbolDigits_lt
    {digit : Nat}
    (member : digit ∈ code.groupSymbolDigits chunk) :
    digit < 2 ^ code.bits :=
  digitsOf_lt (Nat.two_pow_pos _) (List.mem_of_mem_take member)

theorem length_encodeGroup :
    (code.encodeGroup chunk).length = code.groupSymbols := by
  have enough := code.symbolsFor_le inGroup
  rw [encodeGroup, List.length_append, List.length_map,
    code.length_groupSymbolDigits inGroup, List.length_replicate]
  omega

omit inGroup in
/-- Every group that is begun takes a group of symbols. -/
theorem length_encode
    (bytes : List UInt8) :
    (code.encode bytes).length =
      (bytes.length + (code.groupBytes - 1)) / code.groupBytes *
        code.groupSymbols := by
  have positive := code.someBytes
  induction bytes using code.groups_induction with
  | nil =>
    rw [encode_nil, List.length_nil, Nat.zero_add,
      Nat.div_eq_of_lt (by omega), Nat.zero_mul]
  | last chunk nonempty short =>
    have length := List.length_pos_iff.mpr nonempty
    have one : (chunk.length + (code.groupBytes - 1)) / code.groupBytes =
        1 :=
      Nat.div_eq_of_lt_le (by omega) (by omega)
    rw [code.encode_short nonempty (Nat.le_of_lt short),
      code.length_encodeGroup (Nat.le_of_lt short), one, Nat.one_mul]
  | group chunk rest full inductionHypothesis =>
    have more : (chunk.length + rest.length + (code.groupBytes - 1)) /
        code.groupBytes =
          (rest.length + (code.groupBytes - 1)) / code.groupBytes + 1 := by
      rw [full, Nat.add_assoc, Nat.add_div_left _ positive]
    rw [code.encode_append full, List.length_append, List.length_append,
      code.length_encodeGroup (Nat.le_of_eq full), inductionHypothesis, more,
      Nat.succ_mul, Nat.add_comm]

omit inGroup in
theorem encode_ne_nil
    {bytes : List UInt8}
    (nonempty : bytes ≠ []) :
    code.encode bytes ≠ [] := by
  have symbols := code.someSymbols
  have inGroup : (bytes.take code.groupBytes).length ≤ code.groupBytes := by
    rw [List.length_take]
    omega
  intro none
  have length := congrArg List.length none
  rw [encode, if_neg nonempty, List.length_append,
    code.length_encodeGroup inGroup, List.length_nil] at length
  omega

omit inGroup in
/-- An encoding that is not empty begins with a symbol of the alphabet. -/
theorem encode_begins
    {bytes : List UInt8}
    (nonempty : bytes ≠ []) :
    ∃ digit rest, digit < 2 ^ code.bits ∧
      code.encode bytes = code.symbol digit :: rest := by
  have positive := code.someBytes
  have some := List.length_pos_iff.mpr nonempty
  have inGroup : (bytes.take code.groupBytes).length ≤ code.groupBytes := by
    rw [List.length_take]
    omega
  have digits := code.length_groupSymbolDigits inGroup
  have room := code.le_symbolsFor (bytes.take code.groupBytes).length
  have small (digit : Nat) :=
    @groupSymbolDigits_lt code (bytes.take code.groupBytes) digit
  cases first : code.groupSymbolDigits (bytes.take code.groupBytes) with
  | nil =>
    rw [first, List.length_nil] at digits
    rw [← digits, Nat.mul_zero, List.length_take] at room
    omega
  | cons digit others =>
    rw [encode, if_neg nonempty, encodeGroup, first]
    refine ⟨digit, _, small digit ?_, rfl⟩
    rw [first]
    exact List.mem_cons_self

omit inGroup in
/-- A full group needs no padding. -/
theorem symbolsFor_full :
    code.symbolsFor code.groupBytes = code.groupSymbols := by
  have room := code.le_symbolsFor code.groupBytes
  rw [← code.sameBits] at room
  exact Nat.le_antisymm (code.symbolsFor_le (Nat.le_refl _))
    (Nat.le_of_mul_le_mul_left room code.someBits)

/-! ## What the symbols of a group denote -/

omit inGroup in
theorem groupDigits_small
    (chunk : List UInt8) :
    ∀ digit ∈ code.groupDigits chunk, digit < 256 := by
  intro digit member
  rcases List.mem_append.mp member with own | fill
  · obtain ⟨byte, -, rfl⟩ := List.mem_map.mp own
    exact byte.toNat_lt
  · rw [List.eq_of_mem_replicate fill]
    decide

theorem valueOf_groupDigits_lt :
    valueOf 256 (code.groupDigits chunk) <
      (2 ^ code.bits) ^ code.groupSymbols := by
  have small := valueOf_lt (code.groupDigits_small chunk)
  rw [code.length_groupDigits inGroup] at small
  rw [← Nat.pow_mul, code.sameBits, Nat.pow_mul]
  exact small

omit inGroup in
/-- The bits that the padding of a group stands for are zero. -/
theorem padding_dvd
    (chunk : List UInt8) :
    (2 ^ code.bits) ^ (code.groupSymbols - code.symbolsFor chunk.length) ∣
      valueOf 256 (code.groupDigits chunk) := by
  have same := code.sameBits
  have room := code.le_symbolsFor chunk.length
  have fewer : code.bits *
      (code.groupSymbols - code.symbolsFor chunk.length) ≤
        8 * (code.groupBytes - chunk.length) := by
    rw [Nat.mul_sub]
    omega
  rw [groupDigits, valueOf_append, valueOf_zeros, Nat.add_zero,
    List.length_replicate, ← Nat.pow_mul]
  refine Nat.dvd_trans (Nat.pow_dvd_pow 2 fewer) ?_
  rw [Nat.pow_mul]
  exact Nat.dvd_mul_left _ _

/-- The symbols of a group and zeros for its padding denote the same number as
its bytes. -/
theorem valueOf_groupSymbolDigits :
    valueOf (2 ^ code.bits)
        (code.groupSymbolDigits chunk ++
          List.replicate (code.groupSymbols - code.symbolsFor chunk.length) 0) =
      valueOf 256 (code.groupDigits chunk) := by
  have enough := code.symbolsFor_le inGroup
  have small := code.valueOf_groupDigits_lt inGroup
  have zeros := code.padding_dvd chunk
  obtain ⟨fill, parts⟩ := Nat.exists_eq_add_of_le enough
  have isFill : code.groupSymbols - code.symbolsFor chunk.length = fill := by
    omega
  rw [isFill] at zeros ⊢
  rw [parts, Nat.pow_add] at small
  rw [groupSymbolDigits, parts, digitsOf_add,
    List.take_left' (length_digitsOf _ _ _), valueOf_append, valueOf_digitsOf,
    valueOf_zeros, List.length_replicate, Nat.add_zero,
    Nat.mod_eq_of_lt (Nat.div_lt_of_lt_mul (by rwa [Nat.mul_comm])),
    Nat.div_mul_cancel zeros]

end BaseCode

/-! ## Alphabets -/

/-- The alphabet of base 64: letters, small letters, digits, plus and slash. -/
def base64Symbol (digit : Nat) : UInt8 :=
  if digit < 26 then (65 + digit).toUInt8
  else if digit < 52 then (97 + (digit - 26)).toUInt8
  else if digit < 62 then (48 + (digit - 52)).toUInt8
  else if digit = 62 then 43
  else 47

/-- The alphabet of base 32: letters, then the digits from 2 on. -/
def base32Symbol (digit : Nat) : UInt8 :=
  if digit < 26 then (65 + digit).toUInt8
  else (50 + (digit - 26)).toUInt8

/-- The extended hexadecimal alphabet: digits, then letters. -/
def base32hexSymbol (digit : Nat) : UInt8 :=
  if digit < 10 then (48 + digit).toUInt8
  else (65 + (digit - 10)).toUInt8

/-- Base 64 of RFC 4648. -/
def base64 : BaseCode where
  bits := 6
  groupBytes := 3
  groupSymbols := 4
  symbol := base64Symbol
  padding := 61
  sameBits := rfl
  someBits := by decide
  someBytes := by decide

/-- An encoding of RFC 4648 with 32 symbols. -/
def base32With (symbol : Nat → UInt8) : BaseCode where
  bits := 5
  groupBytes := 5
  groupSymbols := 8
  symbol := symbol
  padding := 61
  sameBits := rfl
  someBits := by decide
  someBytes := by decide

def base32 : BaseCode := base32With base32Symbol

def base32hex : BaseCode := base32With base32hexSymbol

end LibDispatch
