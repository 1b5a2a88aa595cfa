import Mathlib.Algebra.Order.BigOperators.Group.List
import Mathlib.Algebra.Order.Ring.Int
import Mathlib.Data.List.Nodup
import Mathlib.Data.List.Perm.Subperm

namespace LibDispatch

/-!
# Sums over activities

A system of concurrent activities is accounted for by weights: what each
activity contributes to a shared quantity at its present stage.  One step
replaces one activity, so it changes every sum by the difference of two weights.
-/

variable {Activity : Type}

variable (weight : Activity → Int)

/-- The sum of a weight over all activities. -/
def sumOf (activities : List Activity) : Int :=
  (activities.map weight).sum

@[simp] theorem sumOf_nil :
    sumOf weight [] = 0 := rfl

@[simp] theorem sumOf_cons
    (activity : Activity)
    (activities : List Activity) :
    sumOf weight (activity :: activities) =
      weight activity + sumOf weight activities := by
  simp [sumOf]

@[simp] theorem sumOf_append
    (first second : List Activity) :
    sumOf weight (first ++ second) =
      sumOf weight first + sumOf weight second := by
  simp [sumOf]

/-- Nonnegative weights have a nonnegative sum. -/
theorem sumOf_nonneg
    {weight : Activity → Int}
    (nonneg : ∀ activity, 0 ≤ weight activity)
    (activities : List Activity) :
    0 ≤ sumOf weight activities := by
  induction activities with
  | nil => simp
  | cons activity activities inductionHypothesis =>
    have own := nonneg activity
    simp only [sumOf_cons]
    omega

variable {activities : List Activity}

/-- A member's weight is at most the sum. -/
theorem le_sumOf
    {weight : Activity → Int}
    (nonneg : ∀ activity, 0 ≤ weight activity)
    {activity : Activity}
    (member : activity ∈ activities) :
    weight activity ≤ sumOf weight activities := by
  obtain ⟨before, after, rfl⟩ := List.append_of_mem member
  have first := sumOf_nonneg nonneg before
  have second := sumOf_nonneg nonneg after
  simp only [sumOf_append, sumOf_cons]
  omega

/-- A weight that comes with another vanishes with it. -/
theorem sumOf_eq_zero
    {weight carried : Activity → Int}
    (nonneg : ∀ activity, 0 ≤ weight activity)
    (vanishes : ∀ activity, weight activity = 0 → carried activity = 0)
    (nothing : sumOf weight activities = 0) :
    sumOf carried activities = 0 := by
  induction activities with
  | nil => rfl
  | cons activity activities inductionHypothesis =>
    have own := nonneg activity
    have others := sumOf_nonneg nonneg activities
    rw [sumOf_cons] at nothing
    rw [sumOf_cons, vanishes activity (by omega),
      inductionHypothesis (by omega), Int.add_zero]

/-- A weight of one for some activities counts them. -/
theorem sumOf_indicator
    (counted : Activity → Bool)
    (activities : List Activity) :
    sumOf (fun activity => if counted activity then 1 else 0) activities =
      activities.countP counted := by
  induction activities with
  | nil => rfl
  | cons activity activities inductionHypothesis =>
    rw [sumOf_cons, inductionHypothesis, List.countP_cons]
    split <;> omega

/-! ## Ledgers -/

variable {Quantity : Type}

/-- The sums of several quantities at once. -/
def ledger
    (weight : Activity → Quantity → Int)
    (activities : List Activity)
    (quantity : Quantity) : Int :=
  sumOf (fun activity => weight activity quantity) activities

/-- What one activity contributes, apart from the others. -/
theorem ledger_middle
    (weight : Activity → Quantity → Int)
    (earlier later : List Activity)
    (activity : Activity) :
    ledger weight (earlier ++ activity :: later) =
      fun quantity =>
        ledger weight (earlier ++ later) quantity + weight activity quantity := by
  funext quantity
  simp only [ledger, sumOf_append, sumOf_cons]
  omega

/-- The sums of the other calls and one call, if it has not returned. -/
def withCall
    {Call : Type}
    (weight : Call → Quantity → Int)
    (others : Quantity → Int)
    (call : Option Call)
    (quantity : Quantity) : Int :=
  others quantity + call.elim 0 fun call => weight call quantity

section Calls

variable {Call : Type} {weight : Call → Quantity → Int}

@[simp] theorem withCall_none
    (others : Quantity → Int)
    (quantity : Quantity) :
    withCall weight others none quantity = others quantity :=
  Int.add_zero _

@[simp] theorem withCall_some
    (others : Quantity → Int)
    (call : Call)
    (quantity : Quantity) :
    withCall weight others (some call) quantity =
      others quantity + weight call quantity := rfl

/-- An activity goes on with another call or returns. -/
theorem ledger_continued
    {activityWeight : Activity → Quantity → Int}
    {activity : Call → Activity}
    (same : ∀ call, activityWeight (activity call) = weight call)
    (earlier later : List Activity)
    (continued : Option Call) :
    ledger activityWeight (earlier ++
        ((continued.map activity).toList ++ later)) =
      withCall weight (ledger activityWeight (earlier ++ later)) continued := by
  funext quantity
  cases continued with
  | none =>
    simp
  | some call =>
    simp [ledger_middle, same]

end Calls

variable {weight : Activity → Quantity → Int} {quantity : Quantity}

/-- Nonnegative weights have nonnegative sums. -/
theorem ledger_nonneg
    (nonneg : ∀ activity, 0 ≤ weight activity quantity)
    (activities : List Activity) :
    0 ≤ ledger weight activities quantity :=
  sumOf_nonneg nonneg activities

/-- A member's weight is at most the sum. -/
theorem le_ledger
    (nonneg : ∀ activity, 0 ≤ weight activity quantity)
    {activity : Activity}
    (member : activity ∈ activities) :
    weight activity quantity ≤ ledger weight activities quantity :=
  le_sumOf nonneg member

/-- Weights ordered one by one have ordered sums. -/
theorem ledger_le_ledger
    {lesser greater : Quantity}
    (ordered : ∀ activity, weight activity lesser ≤ weight activity greater)
    (activities : List Activity) :
    ledger weight activities lesser ≤ ledger weight activities greater := by
  induction activities with
  | nil =>
    simp [ledger]
  | cons activity activities inductionHypothesis =>
    have own := ordered activity
    simp only [ledger, sumOf_cons] at *
    omega

/-- A quantity to which nobody contributes is zero. -/
theorem ledger_eq_zero
    (nothing : ∀ activity ∈ activities, weight activity quantity = 0) :
    ledger weight activities quantity = 0 := by
  induction activities with
  | nil =>
    rfl
  | cons activity activities inductionHypothesis =>
    have own := nothing activity (List.mem_cons_self ..)
    have others := inductionHypothesis fun other member =>
      nothing other (List.mem_cons_of_mem _ member)
    simp only [ledger, sumOf_cons] at *
    omega

/-- Weights of at most one sum to at most the number of activities. -/
theorem ledger_le_length
    (atMostOne : ∀ activity, weight activity quantity ≤ 1)
    (activities : List Activity) :
    ledger weight activities quantity ≤ activities.length := by
  induction activities with
  | nil =>
    simp [ledger]
  | cons activity activities inductionHypothesis =>
    have own := atMostOne activity
    simp only [ledger, sumOf_cons, List.length_cons] at *
    omega

/-- Threads are numbered by 32 bits, so few of them are at work at a time. -/
theorem length_le_of_distinct
    {tid : Activity → UInt32}
    (distinct : (activities.map tid).Nodup) :
    activities.length ≤ 2 ^ 32 := by
  have numbers : ((activities.map tid).map UInt32.toNat).Nodup :=
    distinct.map fun _ _ => UInt32.toNat_inj.mp
  have below : (activities.map tid).map UInt32.toNat ⊆ List.range (2 ^ 32) := by
    intro number member
    obtain ⟨word, -, rfl⟩ := List.mem_map.mp member
    exact List.mem_range.mpr word.toNat_lt
  have length := (List.subperm_of_subset numbers below).length_le
  rwa [List.length_range, List.length_map, List.length_map] at length

end LibDispatch
