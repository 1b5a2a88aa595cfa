import Mathlib.Data.List.Induction
import Mathlib.Algebra.Order.Ring.Nat

namespace LibDispatch

/-!
# Numerals of fixed width

Numbers below a power of a base and lists of as many digits, most significant
digit first.
-/

/-- The last digits of a number. -/
def digitsOf (base : Nat) : Nat → Nat → List Nat
  | 0, _ => []
  | width + 1, value => digitsOf base width (value / base) ++ [value % base]

/-- The number that some digits denote. -/
def valueOf (base : Nat) (digits : List Nat) : Nat :=
  digits.foldl (fun value digit => value * base + digit) 0

@[simp] theorem length_digitsOf
    (base width value : Nat) :
    (digitsOf base width value).length = width := by
  induction width generalizing value with
  | zero => rfl
  | succ width inductionHypothesis =>
    rw [digitsOf, List.length_append, inductionHypothesis,
      List.length_singleton]

variable {base : Nat}

theorem digitsOf_lt
    (positive : 0 < base)
    {width value digit : Nat}
    (member : digit ∈ digitsOf base width value) :
    digit < base := by
  induction width generalizing value with
  | zero => cases member
  | succ width inductionHypothesis =>
    rcases List.mem_append.mp member with earlier | last
    · exact inductionHypothesis earlier
    · rw [List.mem_singleton.mp last]
      exact Nat.mod_lt value positive

@[simp] theorem valueOf_nil
    (base : Nat) :
    valueOf base [] = 0 := rfl

@[simp] theorem valueOf_concat
    (base digit : Nat)
    (digits : List Nat) :
    valueOf base (digits ++ [digit]) = valueOf base digits * base + digit := by
  simp [valueOf]

theorem valueOf_append
    (base : Nat)
    (digits others : List Nat) :
    valueOf base (digits ++ others) =
      valueOf base digits * base ^ others.length + valueOf base others := by
  induction others using List.reverseRecOn with
  | nil => simp
  | append_singleton others digit inductionHypothesis =>
    rw [← List.append_assoc, valueOf_concat, inductionHypothesis,
      valueOf_concat, List.length_append, List.length_singleton,
      Nat.pow_succ, Nat.add_mul, Nat.mul_assoc, Nat.add_assoc]

@[simp] theorem valueOf_zeros
    (base count : Nat) :
    valueOf base (List.replicate count 0) = 0 := by
  induction count with
  | zero => rfl
  | succ count inductionHypothesis =>
    rw [List.replicate_succ', valueOf_concat, inductionHypothesis,
      Nat.zero_mul]

theorem valueOf_lt
    {digits : List Nat}
    (small : ∀ digit ∈ digits, digit < base) :
    valueOf base digits < base ^ digits.length := by
  induction digits using List.reverseRecOn with
  | nil => simp
  | append_singleton digits digit inductionHypothesis =>
    have last : digit < base := small digit (by simp)
    have others := inductionHypothesis fun other member =>
      small other (List.mem_append_left _ member)
    rw [valueOf_concat, List.length_append, List.length_singleton,
      Nat.pow_succ]
    calc valueOf base digits * base + digit
        < valueOf base digits * base + base := Nat.add_lt_add_left last _
      _ = (valueOf base digits + 1) * base := (Nat.succ_mul _ _).symm
      _ ≤ base ^ digits.length * base := Nat.mul_le_mul_right base others

/-- The first digits are those of the quotient by a power of the base. -/
theorem digitsOf_add
    (base width more value : Nat) :
    digitsOf base (width + more) value =
      digitsOf base width (value / base ^ more) ++ digitsOf base more value := by
  induction more generalizing value with
  | zero => simp [digitsOf]
  | succ more inductionHypothesis =>
    rw [← Nat.add_assoc, digitsOf, inductionHypothesis, digitsOf,
      Nat.div_div_eq_div_mul, Nat.pow_succ, Nat.mul_comm base,
      List.append_assoc]

/-- Only the remainder by a power of the base matters for the last digits. -/
theorem digitsOf_mod
    (base width value : Nat) :
    digitsOf base width (value % base ^ width) = digitsOf base width value := by
  induction width generalizing value with
  | zero => rfl
  | succ width inductionHypothesis =>
    rw [digitsOf, digitsOf, Nat.pow_succ', Nat.mod_mul_right_div_self,
      inductionHypothesis, Nat.mod_mul_right_mod]

/-- The digits of a number denote it, up to the width. -/
theorem valueOf_digitsOf
    (base width value : Nat) :
    valueOf base (digitsOf base width value) = value % base ^ width := by
  induction width generalizing value with
  | zero => simp [digitsOf, Nat.mod_one]
  | succ width inductionHypothesis =>
    rw [digitsOf, valueOf_concat, inductionHypothesis, Nat.pow_succ,
      Nat.mul_comm (base ^ width) base, Nat.mod_mul, Nat.mul_comm base,
      Nat.add_comm]

/-- The number that some digits denote has these digits. -/
theorem digitsOf_valueOf
    {digits : List Nat}
    (small : ∀ digit ∈ digits, digit < base) :
    digitsOf base digits.length (valueOf base digits) = digits := by
  induction digits using List.reverseRecOn with
  | nil => rfl
  | append_singleton digits digit inductionHypothesis =>
    have last : digit < base := small digit (by simp)
    have positive : 0 < base := Nat.lt_of_le_of_lt (Nat.zero_le _) last
    have others := inductionHypothesis fun other member =>
      small other (List.mem_append_left _ member)
    rw [List.length_append, List.length_singleton, valueOf_concat, digitsOf,
      Nat.mul_comm, Nat.mul_add_div positive, Nat.div_eq_of_lt last,
      Nat.add_zero, others, Nat.mul_add_mod, Nat.mod_eq_of_lt last]

end LibDispatch
