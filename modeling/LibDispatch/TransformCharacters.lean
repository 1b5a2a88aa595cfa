import LibDispatch.TransformUtf
import Mathlib.Data.FinEnum

namespace LibDispatch.Data

/-!
# Characters in UTF-8 and UTF-16

The codes that the transforms read and write, as numbers.
-/

/-! ## Sequences of UTF-8 -/

theorem utf8Length_eq (byte : UInt8) :
    utf8Length byte =
      if byte.toNat < 0x80 then 1
      else if byte.toNat < 0xc0 then 0
      else if byte.toNat < 0xe0 then 2
      else if byte.toNat < 0xf0 then 3
      else if byte.toNat < 0xf8 then 4
      else 0 := by
  revert byte
  decide +kernel

theorem readContinuation_take
    (count : Nat)
    (bytes : List UInt8)
    (wch : Nat) :
    readContinuation count (bytes.take count) wch =
      readContinuation count bytes wch := by
  induction count generalizing bytes wch with
  | zero => rfl
  | succ count inductionHypothesis =>
    cases bytes with
    | nil => rfl
    | cons byte bytes =>
      rw [List.take_succ_cons, readContinuation, readContinuation,
        inductionHypothesis]

theorem utf8Length_le (byte : UInt8) : utf8Length byte ≤ 4 := by
  unfold utf8Length
  split_ifs <;> decide

variable {byte : UInt8}

/-- Only the bytes of a sequence are read. -/
theorem readUtf8Sequence_take
    (positive : 0 < utf8Length byte)
    (bytes : List UInt8) :
    readUtf8Sequence ((byte :: bytes).take (utf8Length byte)) =
      readUtf8Sequence (byte :: bytes) := by
  have small := utf8Length_le byte
  obtain ⟨count, length⟩ : ∃ count, utf8Length byte = count + 1 :=
    ⟨utf8Length byte - 1, by omega⟩
  have others : (count + 1 + 255) % 256 = count := by omega
  rw [length, List.take_succ_cons, readUtf8Sequence, readUtf8Sequence, length,
    others]
  simp only [readContinuation_take]

/-- The low bits of a byte. -/
theorem toNat_and_mask (byte : UInt8) :
    (byte &&& 0x3f).toNat = byte.toNat % 64 ∧
      (byte &&& 0x7).toNat = byte.toNat % 8 ∧
      (byte &&& 0xf).toNat = byte.toNat % 16 ∧
      (byte &&& 0x1f).toNat = byte.toNat % 32 ∧
      (byte &&& 0x7f).toNat = byte.toNat % 128 := by
  revert byte
  decide +kernel

/-- Bits below shifted bits are added. -/
theorem shiftLeft_or
    {bits low : Nat}
    (small : low < 2 ^ bits)
    (high : Nat) :
    high <<< bits ||| low = high * 2 ^ bits + low := by
  rw [← Nat.shiftLeft_add_eq_or_of_lt small, Nat.shiftLeft_eq]

/-- The code with the given leading bits and following bytes. -/
def sequenceCode (lead : Nat) (bytes : List UInt8) : Nat :=
  bytes.foldl (fun code byte => code * 64 + byte.toNat % 64) lead

variable {count : Nat} {bytes : List UInt8}

theorem readContinuation_eq
    (enough : count + 1 ≤ bytes.length)
    {lead : Nat}
    (small : (lead + 1) * 64 ^ (count + 1) ≤ 2 ^ 32) :
    readContinuation (count + 1) bytes (lead <<< 6) =
      .ok (sequenceCode lead (bytes.take (count + 1))) := by
  induction count generalizing bytes lead with
  | zero =>
    cases bytes with
    | nil => simp at enough
    | cons byte bytes =>
      have low : byte.toNat % 64 < 2 ^ 6 := Nat.mod_lt _ (by decide)
      rw [readContinuation, (toNat_and_mask byte).1, shiftLeft_or low]
      rfl
  | succ count inductionHypothesis =>
    cases bytes with
    | nil => simp at enough
    | cons byte bytes =>
      have low : byte.toNat % 64 < 2 ^ 6 := Nat.mod_lt _ (by decide)
      have after : (lead * 64 + byte.toNat % 64 + 1) *
          64 ^ (count + 1) ≤ 2 ^ 32 := by
        refine Nat.le_trans ?_ small
        rw [Nat.pow_succ 64 (count + 1), Nat.mul_comm (64 ^ (count + 1)),
          ← Nat.mul_assoc]
        exact Nat.mul_le_mul_right _ (by omega)
      have fits : (lead * 64 + byte.toNat % 64) <<< 6 < 2 ^ 32 := by
        have power : 64 ≤ 64 ^ (count + 1) :=
          Nat.le_self_pow (Nat.succ_ne_zero count) 64
        have least := Nat.mul_le_mul_left
          (lead * 64 + byte.toNat % 64 + 1) power
        rw [Nat.shiftLeft_eq]
        omega
      rw [readContinuation, (toNat_and_mask byte).1, shiftLeft_or low,
        if_pos (Nat.succ_pos count)]
      change readContinuation (count + 1) bytes
        ((lead * 64 + byte.toNat % 64) <<< 6 % 2 ^ 32) = _
      rw [Nat.mod_eq_of_lt fits,
        inductionHypothesis (by simpa using enough) after]
      rfl

theorem readContinuation_of_short
    (short : bytes.length < count)
    (code : Nat) :
    readContinuation count bytes code = .error .overrun := by
  induction count generalizing bytes code with
  | zero => omega
  | succ count inductionHypothesis =>
    cases bytes with
    | nil => rfl
    | cons byte bytes =>
      exact inductionHypothesis (by simpa using short) _

theorem readUtf8Sequence_of_one
    (length : utf8Length byte = 1)
    (bytes : List UInt8) :
    readUtf8Sequence (byte :: bytes) = .ok (byte.toNat % 128) := by
  rw [readUtf8Sequence, length]
  simp only [readContinuation, (toNat_and_mask byte).2.2.2.2]

/-- A sequence with following bytes. -/
theorem readUtf8Sequence_of_more
    (length : utf8Length byte = count + 2)
    (enough : count + 1 ≤ bytes.length) :
    readUtf8Sequence (byte :: bytes) =
      .ok (sequenceCode (byte.toNat % 2 ^ (5 - count))
        (bytes.take (count + 1))) := by
  have small := utf8Length_le byte
  have masks := toNat_and_mask byte
  have cases : count = 0 ∨ count = 1 ∨ count = 2 := by omega
  rcases cases with rfl | rfl | rfl
  · rw [readUtf8Sequence, length]
    simp only [masks.2.2.2.1]
    exact readContinuation_eq enough (by omega)
  · rw [readUtf8Sequence, length]
    simp only [masks.2.2.1]
    exact readContinuation_eq enough (by omega)
  · rw [readUtf8Sequence, length]
    simp only [masks.2.1]
    exact readContinuation_eq enough (by omega)

/-- Fewer bytes than those of a sequence are no sequence. -/
theorem readUtf8Sequence_of_short
    (short : bytes.length < (utf8Length byte + 255) % 256) :
    readUtf8Sequence (byte :: bytes) = .error .overrun :=
  readContinuation_of_short short _

/-- The bytes that large codes take. -/
theorem length_of_readUtf8Sequence
    {code : Nat}
    (reads : readUtf8Sequence bytes = .ok code)
    (short : bytes.length ≤ 255) :
    (0x800 ≤ code → 3 ≤ bytes.length) ∧
      (0x10000 ≤ code → 4 ≤ bytes.length) := by
  cases bytes with
  | nil => cases reads
  | cons byte bytes =>
    rw [List.length_cons] at short ⊢
    have small := utf8Length_le byte
    by_cases missing : bytes.length < (utf8Length byte + 255) % 256
    · rw [readUtf8Sequence_of_short missing] at reads
      cases reads
    · by_cases one : utf8Length byte = 1
      · rw [readUtf8Sequence_of_one one] at reads
        cases reads
        omega
      · obtain ⟨count, length⟩ : ∃ count, utf8Length byte = count + 2 :=
          ⟨utf8Length byte - 2, by omega⟩
        rw [readUtf8Sequence_of_more length (by omega)] at reads
        injection reads with same
        have lead := Nat.mod_lt byte.toNat (Nat.two_pow_pos (5 - count))
        have cases : count = 0 ∨ count = 1 ∨ count = 2 := by omega
        rcases cases with rfl | rfl | rfl
        · rcases bytes with _ | ⟨second, others⟩
          · simp only [List.length_nil] at missing
            omega
          · simp only [sequenceCode, List.take_succ_cons, List.take_zero,
              List.foldl_cons, List.foldl_nil] at same
            omega
        · rcases bytes with _ | ⟨second, _ | ⟨third, others⟩⟩
          · simp only [List.length_nil] at missing
            omega
          · simp only [List.length_cons, List.length_nil] at missing
            omega
          · simp only [sequenceCode, List.take_succ_cons, List.take_zero,
              List.foldl_cons, List.foldl_nil, List.length_cons] at same ⊢
            omega
        · omega

/-! ## Units of UTF-16 -/

theorem ByteOrder.load_store
    (order : ByteOrder)
    {unit : Nat}
    (small : unit < 0x10000)
    (bytes : List UInt8) :
    order.load (order.store unit ++ bytes) = .ok unit := by
  have low : (UInt8.ofNat unit).toNat = unit % 256 := by simp
  have high : (UInt8.ofNat (unit / 256)).toNat = unit / 256 % 256 := by simp
  cases order with
  | little | big =>
    simp only [store, load, List.cons_append, low, high]
    congr 1
    omega

theorem ByteOrder.load_lt
    {order : ByteOrder}
    {unit : Nat}
    (loads : order.load bytes = .ok unit) :
    unit < 0x10000 := by
  rcases bytes with _ | ⟨first, _ | ⟨second, others⟩⟩
  · cases loads
  · cases loads
  · have smallFirst := first.toNat_lt
    have smallSecond := second.toNat_lt
    cases order with
    | little | big =>
      cases loads
      omega

end LibDispatch.Data
